import Mathlib.Data.List.Dedup
import VisitLogger.StoreSound

/-!
# The high-water mark

An append returns the latest date of its lines and the offset that it counted up
to. That is the high-water mark of the machine when the mirror has no later log,
and when no line that it appends holds a line break (`accepted_mark_iff`).
-/

namespace VisitLogger

open Framing

namespace Store

/-! ## What `highWater` reports -/

def Listed (logRoot : Path) (machineID : Text) (disk : Disk) (d : Text) : Prop :=
  logPath logRoot machineID d ∈ disk.files.keys ∨ logPath logRoot machineID d ∈ disk.dirs

structure AtEnd (logRoot : Path) (machineID : Text) (disk : Disk) (r : Text × Int) : Prop where
  date : IsDate r.1
  there : logPath logRoot machineID r.1 ∈ disk.files.keys
  file : logPath logRoot machineID r.1 ∉ disk.dirs
  last : ∀ d, IsDate d → Listed logRoot machineID disk d → d ≤ r.1
  offset : r.2 = countLines disk (logPath logRoot machineID r.1) - 1

variable {io : Io} {logRoot : Path} {machineID : Text} {disk disk' : Disk} {r : Text × Int}

theorem mem_logDates {d : Text} : d ∈ (disk.readDir (logRoot.join machineID)).filterMap parseLogFilename ↔
    IsDate d ∧ Listed logRoot machineID disk d := by
  rw [List.mem_filterMap]
  constructor
  · rintro ⟨name, hname, hd⟩
    obtain ⟨rfl, hdate⟩ := parseLogFilename_eq_some hd
    rw [Listed, logPath_eq hdate.noSlash]
    exact ⟨hdate, Disk.mem_readDir.mp hname⟩
  · rintro ⟨hdate, hlisted⟩
    rw [Listed, logPath_eq hdate.noSlash] at hlisted
    exact ⟨logFilename d, Disk.mem_readDir.mpr hlisted, parseLogFilename_logFilename hdate⟩

theorem le_getLast {l : List Text} {t : Text} (h : (sortStrings l).getLast? = some t) :
    t ∈ l ∧ ∀ u ∈ l, u ≤ t := by
  obtain ⟨before, hl⟩ := List.getLast?_eq_some_iff.mp h
  have hsorted := sortStrings_sorted l
  rw [hl, List.pairwise_append] at hsorted
  refine ⟨mem_sortStrings.mp (List.mem_of_getLast? h), fun u hu => ?_⟩
  have hu := mem_sortStrings.mpr hu
  rw [hl] at hu
  rcases List.mem_append.mp hu with hu | hu
  · exact hsorted.2.2 u hu t (by simp)
  · exact le_of_eq (List.mem_singleton.mp hu)

theorem countError_noFault {p : Path} {d : Text} : countError Io.noFault disk d p = none ↔ p ∉ disk.dirs := by
  have hcount : Io.noFault.count d = none := rfl
  rw [countError, List.contains_eq_mem]
  by_cases h : p ∈ disk.dirs <;> simp [h, hcount]

theorem highWater_iff : highWater Io.noFault logRoot machineID disk = .ok r ↔
    AtEnd logRoot machineID disk r ∨ (∀ d, IsDate d → ¬ Listed logRoot machineID disk d) ∧
      r = ([], -1) := by
  have hrd : Io.noFault.readDir = none := rfl
  unfold highWater
  simp only [hrd]
  cases hlast : (sortStrings ((disk.readDir (logRoot.join machineID)).filterMap parseLogFilename)).getLast? with
  | none =>
    have hnil := List.getLast?_eq_none_iff.mp hlast
    have hno : ∀ d, IsDate d → ¬ Listed logRoot machineID disk d := by
      intro d hd hk
      have hmem := mem_sortStrings.mpr (mem_logDates.mpr ⟨hd, hk⟩)
      rw [hnil] at hmem
      cases hmem
    constructor
    · intro h
      exact Or.inr ⟨hno, (Except.ok.inj h).symm⟩
    · rintro (h | ⟨-, rfl⟩)
      · exact absurd (Or.inl h.there) (hno _ h.date)
      · rfl
  | some latest =>
    obtain ⟨hmem, hle⟩ := le_getLast hlast
    obtain ⟨hdate, hlisted⟩ := mem_logDates.mp hmem
    have hlatest : ∀ d, IsDate d → Listed logRoot machineID disk d → d ≤ latest :=
      fun d hd hk => hle d (mem_logDates.mpr ⟨hd, hk⟩)
    have hend : AtEnd logRoot machineID disk r → latest = r.1 := fun h =>
      le_antisymm (h.last _ hdate hlisted) (hlatest _ h.date (Or.inl h.there))
    dsimp only
    cases herr : countError Io.noFault disk latest (logPath logRoot machineID latest) with
    | some e =>
      constructor
      · intro h
        cases h
      · rintro (h | ⟨hno, -⟩)
        · rw [hend h, countError_noFault.mpr h.file] at herr
          cases herr
        · exact absurd hlisted (hno _ hdate)
    | none =>
      have hfile := countError_noFault.mp herr
      constructor
      · intro h
        obtain rfl := Except.ok.inj h
        exact Or.inl ⟨hdate, hlisted.resolve_right hfile, hfile, hlatest, rfl⟩
      · rintro (h | ⟨hno, -⟩)
        · rw [hend h]
          dsimp only
          rw [← h.offset]
        · exact absurd hlisted (hno _ hdate)

theorem highWater_noFault (h : highWater io logRoot machineID disk = .ok r) :
    highWater Io.noFault logRoot machineID disk = .ok r := by
  have hrd : Io.noFault.readDir = none := rfl
  unfold highWater at h ⊢
  simp only [hrd]
  split at h
  · cases h
  · split at h
    · exact h
    · split at h
      · cases h
      · rename_i hnone
        rw [countError_noFault.mpr]
        · exact h
        · intro hdir
          rw [countError, List.contains_eq_mem, if_pos (decide_eq_true hdir)] at hnone
          cases hnone

/-! ## The lines of a group -/

/-- A line is appended if its offset is at the count or after it, and it is the
first of the group with that offset. -/
theorem mem_selected {group toWrite : List LogLine} {cur count : Int}
    (h : selectLines machineID cur group = .ok (toWrite, count)) (l : LogLine) :
    l ∈ toWrite ↔ cur ≤ l.lineOffset ∧ group.find? (fun m => m.lineOffset = l.lineOffset) = some l := by
  induction group generalizing cur toWrite with
  | nil => cases h; simp
  | cons a group ih =>
    rw [selectLines] at h
    split at h
    · rename_i ha
      rw [ih h]
      refine and_congr_right fun hl => ?_
      have hne : ¬ a.lineOffset = l.lineOffset := by omega
      rw [List.find?_cons_of_neg (by simpa using hne)]
    · split at h
      · rename_i ha
        split at h
        · rename_i w c hs
          obtain ⟨rfl, rfl⟩ : a :: w = toWrite ∧ c = count := by simpa using h
          by_cases heq : a.lineOffset = l.lineOffset
          · rw [List.find?_cons_of_pos (by simpa using heq), List.mem_cons, ih hs]
            constructor
            · rintro (rfl | ⟨hl, -⟩)
              · exact ⟨by omega, rfl⟩
              · omega
            · rintro ⟨-, he⟩
              exact Or.inl (Option.some.inj he).symm
          · rw [List.find?_cons_of_neg (by simpa using heq), List.mem_cons, ih hs]
            constructor
            · rintro (rfl | ⟨hl, hf⟩)
              · exact absurd rfl heq
              · exact ⟨by omega, hf⟩
            · rintro ⟨hl, hf⟩
              exact Or.inr ⟨by omega, hf⟩
        · cases h
      · cases h

/-- The lines of a group that are new in a file with `n` line breaks: of the lines with one
offset the first, if the offset is not before `n`. -/
def newLines (n : Int) (group : List LogLine) : List LogLine :=
  (group.filter fun l => n ≤ l.lineOffset && group.find? (fun m => m.lineOffset = l.lineOffset) = some l).dedup

theorem mem_newLines {n : Int} {group : List LogLine} {l : LogLine} : l ∈ newLines n group ↔
    n ≤ l.lineOffset ∧ group.find? (fun m => m.lineOffset = l.lineOffset) = some l := by
  rw [newLines, List.mem_dedup, List.mem_filter, Bool.and_eq_true, decide_eq_true_iff, decide_eq_true_iff]
  exact and_iff_right_of_imp fun h => List.mem_of_find?_eq_some h.2

/-- The lines that are appended are the new ones. -/
theorem selected_perm {group toWrite : List LogLine} {cur count : Int}
    (h : selectLines machineID cur group = .ok (toWrite, count)) : toWrite.Perm (newLines cur group) := by
  obtain ⟨-, -, hoff, -⟩ := selectLines_ok h
  have hnodup : toWrite.Nodup := by
    refine List.nodup_iff_injective_getElem.mpr fun i j he => Fin.ext ?_
    have hi := hoff i i.2
    have hj := hoff j j.2
    have he := congrArg LogLine.lineOffset he
    dsimp only at he
    omega
  refine (List.perm_ext_iff_of_nodup hnodup (List.nodup_dedup _)).mpr fun l => ?_
  rw [mem_selected h, ← mem_newLines, newLines]

/-- The line breaks of a file that has `n`, with the new lines of these groups. -/
def breaksWith (n : Int) (groups : List (List LogLine)) : Int :=
  groups.foldl (fun n group => n + ((encode (newLines n group)).count nl : Nat)) n

theorem count_encode_perm {ls ls' : List LogLine} (h : ls.Perm ls') :
    (encode ls).count nl = (encode ls').count nl := by
  have hflat : ∀ ls : List LogLine, encode ls = ls.flatMap fun l => l.rawLine ++ [nl] := by
    intro ls
    induction ls with
    | nil => rfl
    | cons l ls ih => rw [List.flatMap_cons, ← ih, encode, List.map_cons, unlines_cons]; simp [encode]
  rw [hflat, hflat]
  exact (h.flatMap_right _).count_eq nl

def groupsOf (logRoot : Path) (machineID : Text) (p : Path) (groups : List (List LogLine)) : List (List LogLine) :=
  groups.filter fun group => logPath logRoot machineID (groupDate group) = p

/-- **The line breaks of a file** after some groups. -/
theorem countLines_appendGroups {groups : List (List LogLine)} {latest : Text × Int} (p : Path)
    (h : (appendGroups io logRoot machineID disk latest groups).2.2 = .ok r) :
    countLines (appendGroups io logRoot machineID disk latest groups).1 p =
      breaksWith (countLines disk p) (groupsOf logRoot machineID p groups) := by
  induction groups generalizing disk latest with
  | nil => rfl
  | cons group groups ih =>
    rcases appendGroups_cons io logRoot machineID disk latest group groups with
      ⟨e, disk', written, -, hc⟩ | ⟨c, disk', written, hg, hc⟩
    · rw [hc] at h
      cases h
    · rw [hc] at h ⊢
      obtain ⟨hs, hb⟩ := appendGroup_ok hg
      rw [ih h]
      by_cases hp : logPath logRoot machineID (groupDate group) = p
      · subst hp
        have hcount : countLines disk' (logPath logRoot machineID (groupDate group)) =
            countLines disk (logPath logRoot machineID (groupDate group)) +
              ((encode (newLines (countLines disk (logPath logRoot machineID (groupDate group))) group)).count nl :
                Nat) := by
          rw [← count_encode_perm (selected_perm hs), countLines, hb, if_pos rfl, List.count_append, countLines]
          push_cast
          rfl
        rw [hcount, groupsOf, groupsOf, List.filter_cons_of_pos (by simp)]
        rfl
      · have hcount : countLines disk' p = countLines disk p := by
          rw [countLines, hb, if_neg (Ne.symm hp), countLines]
        rw [hcount, groupsOf, groupsOf, List.filter_cons_of_neg (by simpa using hp)]

/-! ## The last group -/

theorem appendGroups_concat {groups : List (List LogLine)} {g : List LogLine} {latest : Text × Int}
    (h : (appendGroups io logRoot machineID disk latest (groups ++ [g])).2.2 = .ok r) :
    ∃ r₀ w c, (appendGroups io logRoot machineID disk latest groups).2.2 = .ok r₀ ∧
      selectLines machineID
        (countLines (appendGroups io logRoot machineID disk latest groups).1
          (logPath logRoot machineID (groupDate g))) g = .ok (w, c) ∧
      r = (groupDate g, c - 1) ∧
      (appendGroups io logRoot machineID disk latest (groups ++ [g])).1.bytes
        (logPath logRoot machineID (groupDate g)) =
        (appendGroups io logRoot machineID disk latest groups).1.bytes
          (logPath logRoot machineID (groupDate g)) ++ encode w := by
  induction groups generalizing disk latest with
  | nil =>
    rw [List.nil_append] at h ⊢
    rcases appendGroups_cons io logRoot machineID disk latest g [] with
      ⟨e, disk', written, -, hc⟩ | ⟨c, disk', written, hg, hc⟩
    · rw [hc] at h
      cases h
    · obtain ⟨hs, hb⟩ := appendGroup_ok hg
      rw [hc] at h ⊢
      refine ⟨_, written, c, rfl, hs, (Except.ok.inj h).symm, ?_⟩
      have := hb (logPath logRoot machineID (groupDate g))
      rwa [if_pos rfl] at this
  | cons group groups ih =>
    rw [List.cons_append] at h ⊢
    rcases appendGroups_cons io logRoot machineID disk latest group (groups ++ [g]) with
      ⟨e, disk', written, -, hc⟩ | ⟨c, disk', written, hg, hc⟩
    · rw [hc] at h
      cases h
    · rw [hc] at h ⊢
      rcases appendGroups_cons io logRoot machineID disk latest group groups with
        ⟨e, disk'', written', hg', -⟩ | ⟨c', disk'', written', hg', hc'⟩
      · rw [hg] at hg'
        cases hg'
      · rw [hg] at hg'
        cases hg'
        rw [hc']
        exact ih h

def lastGroup (sort : SliceSort) (lines : List LogLine) : List LogLine :=
  (groupByDate (sort.run lines)).getLast?.getD []

/-- The line breaks of its log when they come: those before the call, and those of the
new lines of the earlier dates whose path is the same. -/
def countBefore (sort : SliceSort) (logRoot : Path) (machineID : Text) (disk : Disk)
    (lines : List LogLine) : Int :=
  let p := logPath logRoot machineID (groupDate (lastGroup sort lines))
  breaksWith (countLines disk p) (groupsOf logRoot machineID p (groupByDate (sort.run lines)).dropLast)

variable {sort : SliceSort} {lines : List LogLine}

theorem groups_eq (hne : lines ≠ []) :
    groupByDate (sort.run lines) = (groupByDate (sort.run lines)).dropLast ++ [lastGroup sort lines] := by
  have hgroups : groupByDate (sort.run lines) ≠ [] := by
    intro hnil
    obtain ⟨l, hl⟩ := List.exists_mem_of_ne_nil lines hne
    obtain ⟨g, hg, -⟩ := mem_groupByDate.mpr ((sort.perm lines).mem_iff.mpr hl)
    rw [hnil] at hg
    cases hg
  rw [lastGroup, List.getLast?_eq_some_getLast hgroups, Option.getD_some, List.dropLast_append_getLast]

theorem mem_lastGroup {l : LogLine} (hl : l ∈ lastGroup sort lines) :
    l ∈ lines ∧ l.date = groupDate (lastGroup sort lines) := by
  have hne : lines ≠ [] := by
    rintro rfl
    have hrun : sort.run [] = [] := (sort.perm []).eq_nil
    rw [lastGroup, hrun] at hl
    cases hl
  have hg : lastGroup sort lines ∈ groupByDate (sort.run lines) := by
    rw [groups_eq hne]
    simp
  exact ⟨(sort.perm lines).mem_iff.mp (mem_groupByDate.mp ⟨_, hg, hl⟩), groupDate_mem hg l hl⟩

/-- **The result of a call** that has lines. -/
theorem appendLogLines_last (hne : lines ≠ [])
    (h : (appendLogLines sort io logRoot machineID disk lines).2.2 = .ok r) :
    ∃ w c, selectLines machineID (countBefore sort logRoot machineID disk lines) (lastGroup sort lines) =
        .ok (w, c) ∧
      r = (groupDate (lastGroup sort lines), c - 1) ∧
      (countLines (appendLogLines sort io logRoot machineID disk lines).1
          (logPath logRoot machineID (groupDate (lastGroup sort lines))) = c ↔ ∀ l ∈ w, nl ∉ l.rawLine) := by
  unfold appendLogLines at h ⊢
  rw [if_neg hne] at h ⊢
  rw [groups_eq hne] at h ⊢
  obtain ⟨r₀, w, c, h₀, hs, hr, hb⟩ := appendGroups_concat h
  have hcount := countLines_appendGroups (logPath logRoot machineID (groupDate (lastGroup sort lines))) h₀
  refine ⟨w, c, ?_, hr, ?_⟩
  · rw [countBefore, ← hcount]
    exact hs
  · obtain ⟨hc, -⟩ := selectLines_ok hs
    have hlen := count_unlines_eq_iff nl (w.map LogLine.rawLine)
    rw [List.length_map, List.forall_mem_map] at hlen
    rw [← hlen, countLines, hb, List.count_append, hc]
    unfold encode countLines
    omega

/-! ## The files that are there -/

/-- The log of the date is there after the call: it was there before, or a line of
the call goes into it. -/
def Logged (logRoot : Path) (machineID : Text) (disk : Disk) (lines : List LogLine) (d : Text) : Prop :=
  logPath logRoot machineID d ∈ disk.files.keys ∨
    ∃ l ∈ lines, 0 ≤ l.lineOffset ∧ logPath logRoot machineID l.date = logPath logRoot machineID d

theorem mem_keys_of_countLines {p : Path} (h : 0 < countLines disk p) : p ∈ disk.files.keys := by
  refine Disk.mem_keys_of_bytes fun hb => ?_
  rw [countLines, hb] at h
  simp at h

theorem mem_keys_congr {p : Path} (h : disk'.files.lookup p = disk.files.lookup p) :
    p ∈ disk'.files.keys ↔ p ∈ disk.files.keys := by
  rw [← AList.mem_keys, ← AList.lookup_isSome, h, AList.lookup_isSome, AList.mem_keys]

theorem logged_iff (h : (appendLogLines sort io logRoot machineID disk lines).2.2 = .ok r) (d : Text) :
    logPath logRoot machineID d ∈ (appendLogLines sort io logRoot machineID disk lines).1.files.keys ↔
      Logged logRoot machineID disk lines d := by
  obtain ⟨w, hw, hl⟩ := appendLogLines_gains sort io logRoot machineID disk lines (logPath logRoot machineID d)
  have hline : ∀ l ∈ lines, 0 ≤ l.lineOffset → logPath logRoot machineID l.date = logPath logRoot machineID d →
      logPath logRoot machineID d ∈ (appendLogLines sort io logRoot machineID disk lines).1.files.keys := by
    intro l hl ho hp
    have := appendLogLines_counts h l hl
    rw [hp] at this
    exact mem_keys_of_countLines (lt_of_le_of_lt ho this)
  by_cases hnil : w = []
  · have hsame := mem_keys_congr (hw.none hnil)
    rw [hsame]
    refine ⟨Or.inl, ?_⟩
    rintro (hk | ⟨l, hl, ho, hp⟩)
    · exact hk
    · exact hsame.mp (hline l hl ho hp)
  · obtain ⟨l, hlw⟩ := List.exists_mem_of_ne_nil w hnil
    obtain ⟨hmem, ho, hp⟩ := hl l hlw
    exact iff_of_true (hline l hmem ho hp) (Or.inr ⟨l, hmem, ho, hp⟩)

/-- A directory stands where the date's log would be, after the call as before it. -/
theorem dirs_appendGroups {groups : List (List LogLine)} {latest : Text × Int} {d : Text} (hd : IsDate d) :
    logPath logRoot machineID d ∈ (appendGroups io logRoot machineID disk latest groups).1.dirs ↔
      logPath logRoot machineID d ∈ disk.dirs := by
  have hgroup : ∀ (disk : Disk) (date : Text) (group : List LogLine),
      logPath logRoot machineID d ∈ (appendGroup io logRoot machineID disk date group).1.dirs ↔
        logPath logRoot machineID d ∈ disk.dirs := by
    intro disk date group
    have hmkdir : (appendGroup io logRoot machineID disk date group).1 = disk ∨ _ := appendGroup_mkdir
    rcases hmkdir with h | h
    · rw [h]
    · rw [h, logPath_eq hd.noSlash, Disk.child_mem_dirs_mkdirAll]
  induction groups generalizing disk latest with
  | nil => rfl
  | cons group groups ih =>
    have hg := hgroup disk (groupDate group) group
    rcases appendGroups_cons io logRoot machineID disk latest group groups with
      ⟨e, disk', written, he, hc⟩ | ⟨c, disk', written, he, hc⟩
    · rw [he] at hg
      rw [hc]
      exact hg
    · rw [he] at hg
      rw [hc]
      exact ih.trans hg

/-! ## The mark that is accepted -/

/-- A log of the date, or a directory under its name, is there after the call. -/
def WillList (logRoot : Path) (machineID : Text) (disk : Disk) (lines : List LogLine) (d : Text) : Prop :=
  Logged logRoot machineID disk lines d ∨ logPath logRoot machineID d ∈ disk.dirs

theorem listed_iff (hne : lines ≠ []) (h : (appendLogLines sort io logRoot machineID disk lines).2.2 = .ok r)
    {d : Text} (hd : IsDate d) :
    Listed logRoot machineID (appendLogLines sort io logRoot machineID disk lines).1 d ↔
      WillList logRoot machineID disk lines d := by
  refine or_congr (logged_iff h d) ?_
  rw [appendLogLines, if_neg hne]
  exact dirs_appendGroups hd

/-- The latest date of the call is that of the last log, and no line that is new in
it holds a line break. -/
structure EndsInLast (sort : SliceSort) (logRoot : Path) (machineID : Text) (disk : Disk)
    (lines : List LogLine) : Prop where
  date : IsDate (groupDate (lastGroup sort lines))
  logged : Logged logRoot machineID disk lines (groupDate (lastGroup sort lines))
  file : logPath logRoot machineID (groupDate (lastGroup sort lines)) ∉ disk.dirs
  last : ∀ d, IsDate d → WillList logRoot machineID disk lines d → d ≤ groupDate (lastGroup sort lines)
  whole : ∀ l ∈ newLines (countBefore sort logRoot machineID disk lines) (lastGroup sort lines), nl ∉ l.rawLine

/-- The machine has no log, and the lines, for the empty date, are before the first one. -/
structure Dateless (logRoot : Path) (machineID : Text) (disk : Disk) (lines : List LogLine) : Prop where
  date : ∀ l ∈ lines, l.date = [] ∧ l.lineOffset < 0
  empty : countLines disk (logPath logRoot machineID []) = 0
  none : ∀ d, IsDate d → ¬ WillList logRoot machineID disk lines d

theorem lastGroup_ne_nil (sort : SliceSort) (hne : lines ≠ []) : lastGroup sort lines ≠ [] := by
  have hg : lastGroup sort lines ∈ groupByDate (sort.run lines) := by
    rw [groups_eq hne]
    simp
  exact List.ne_nil_of_mem_splitBy hg

/-- The empty date is the latest one if there is no other. -/
theorem groupDate_eq_nil (logRoot : Path) (machineID : Text) (disk : Disk) (hne : lines ≠ [])
    (h : groupDate (lastGroup sort lines) = []) :
    countBefore sort logRoot machineID disk lines = countLines disk (logPath logRoot machineID []) ∧
      ∀ l ∈ lines, l ∈ lastGroup sort lines ∧ l.date = [] := by
  have hdrop : (groupByDate (sort.run lines)).dropLast = [] := by
    have hdates := groupDate_pairwise (sort.sorted lines)
    rw [groups_eq hne, List.pairwise_append] at hdates
    refine List.eq_nil_iff_forall_not_mem.mpr fun g hg => ?_
    have hlt := hdates.2.2 g hg _ (List.mem_singleton_self _)
    rw [h] at hlt
    exact List.not_lt_nil _ hlt
  refine ⟨by rw [countBefore, hdrop, h]; rfl, fun l hl => ?_⟩
  obtain ⟨g, hg, hlg⟩ := mem_groupByDate.mpr ((sort.perm lines).mem_iff.mpr hl)
  have hdate := groupDate_mem hg l hlg
  rw [groups_eq hne, hdrop, List.nil_append, List.mem_singleton] at hg
  rw [hg] at hlg hdate
  exact ⟨hlg, hdate.trans h⟩

/-- **The accepted mark** is the high-water mark of the machine when the call ends in
its last log, and only then. -/
theorem accepted_mark_iff (sort : SliceSort) (io : Io) (logRoot : Path) (machineID : Text) (disk disk' : Disk)
    (lines written : List LogLine) (r : Text × Int)
    (h : appendLogLines sort io logRoot machineID disk lines = (disk', written, .ok r)) :
    highWater Io.noFault logRoot machineID disk' = .ok r ↔
      lines = [] ∨ EndsInLast sort logRoot machineID disk lines ∨ Dateless logRoot machineID disk lines := by
  by_cases hne : lines = []
  · rw [hne, appendLogLines, if_pos rfl] at h
    obtain ⟨rfl, -, hr⟩ : disk = disk' ∧ [] = written ∧ highWater io logRoot machineID disk = .ok r := by
      simpa only [Prod.mk.injEq] using h
    exact iff_of_true (highWater_noFault hr) (Or.inl hne)
  have hok : (appendLogLines sort io logRoot machineID disk lines).2.2 = .ok r := by rw [h]
  have hdisk : (appendLogLines sort io logRoot machineID disk lines).1 = disk' := by rw [h]
  -- what the new disk lists, in terms of the disk before the call
  have hlogged := logged_iff hok
  have hlisted : ∀ {d}, IsDate d → (Listed logRoot machineID disk' d ↔ WillList logRoot machineID disk lines d) := by
    rw [← hdisk]
    exact fun hd => listed_iff hne hok hd
  have hfile : ∀ {d}, IsDate d →
      (logPath logRoot machineID d ∈ disk'.dirs ↔ logPath logRoot machineID d ∈ disk.dirs) := by
    rw [← hdisk, appendLogLines, if_neg hne]
    exact fun hd => dirs_appendGroups hd
  obtain ⟨w, c, hs, rfl, hcount⟩ := appendLogLines_last hne hok
  rw [hdisk] at hlogged hcount
  obtain ⟨hc, hsub, hoff, hlt⟩ := selectLines_ok hs
  have hsel : ∀ l, l ∈ w ↔ l ∈ newLines (countBefore sort logRoot machineID disk lines) (lastGroup sort lines) :=
    fun l => (selected_perm hs).mem_iff
  rw [highWater_iff]
  constructor
  · rintro (hend | ⟨hno, hr⟩)
    · refine Or.inr (Or.inl ⟨hend.date, (hlogged _).mp hend.there, fun hdir => hend.file ((hfile hend.date).mpr hdir),
        fun d hd hl => hend.last d hd ((hlisted hd).mpr hl), fun l hl => ?_⟩)
      have ho := hend.offset
      exact hcount.mp (by dsimp only at ho; omega) l ((hsel l).mpr hl)
    · obtain ⟨hdate, hc₀⟩ := Prod.mk.inj hr
      obtain ⟨hbefore, hall⟩ := groupDate_eq_nil logRoot machineID disk hne hdate
      rw [hbefore] at hc
      refine Or.inr (Or.inr ⟨fun l hl => ⟨(hall l hl).2, ?_⟩, ?_,
        fun d hd hl => hno d hd ((hlisted hd).mpr hl)⟩)
      · have := hlt l (hall l hl).1
        omega
      · have : 0 ≤ countLines disk (logPath logRoot machineID []) := by unfold countLines; omega
        omega
  · rintro (hnil | hend | hnone)
    · exact absurd hnil hne
    · refine Or.inl ⟨hend.date, (hlogged _).mpr hend.logged, fun hdir => hend.file ((hfile hend.date).mp hdir),
        fun d hd hk => hend.last d hd ((hlisted hd).mp hk), ?_⟩
      have hw : countLines disk' (logPath logRoot machineID (groupDate (lastGroup sort lines))) = c :=
        hcount.mpr fun l hl => hend.whole l ((hsel l).mp hl)
      rw [hw]
    · obtain ⟨l, hl⟩ := List.exists_mem_of_ne_nil _ (lastGroup_ne_nil sort hne)
      obtain ⟨hmem, hld⟩ := mem_lastGroup hl
      have hdate : groupDate (lastGroup sort lines) = [] := hld.symm.trans (hnone.date l hmem).1
      obtain ⟨hbefore, hall⟩ := groupDate_eq_nil logRoot machineID disk hne hdate
      rw [hbefore, hnone.empty] at hc hoff
      -- no line of an empty date is written, as its offset is below the count
      have hw : w = [] := by
        refine List.eq_nil_iff_forall_not_mem.mpr fun m hm => ?_
        obtain ⟨i, hi, rfl⟩ := List.getElem_of_mem hm
        have := hoff i hi
        have := (hnone.date _ (mem_lastGroup (hsub.subset hm)).1).2
        omega
      rw [hw, List.length_nil] at hc
      refine Or.inr ⟨fun d hd hk => hnone.none d hd ((hlisted hd).mp hk), ?_⟩
      rw [hdate, hc]
      rfl

def nextDay : Disk :=
  Disk.empty.write (logPath ⟨true, []⟩ (ascii "m1") (ascii "2024-05-02")) (ascii "a\n")

def dayBefore : List LogLine := [⟨ascii "2024-05-01", 0, ascii "b"⟩]

def bothDays : List LogLine := dayBefore ++ [⟨ascii "2024-05-02", 1, ascii "c"⟩]

theorem endsInLast_bothDays : EndsInLast SliceSort.insertion ⟨true, []⟩ (ascii "m1") nextDay bothDays where
  date := by decide
  logged := Or.inl (by decide)
  file := by decide
  last d hd h := by
    have hdates : d = ascii "2024-05-01" ∨ d = ascii "2024-05-02" := by
      rcases h with (hk | ⟨l, hl, -, hp⟩) | hdir
      · right
        exact logPath_inj hd.noSlash (by decide) (List.mem_singleton.mp hk)
      · rcases List.mem_cons.mp hl with rfl | hl
        · exact Or.inl (logPath_inj (by decide) hd.noSlash hp).symm
        · obtain rfl := List.mem_singleton.mp hl
          exact Or.inr (logPath_inj (by decide) hd.noSlash hp).symm
      · cases hdir
    rcases hdates with rfl | rfl <;> decide
  whole := by decide

theorem accepted_mark_both_days : ∃ disk' written,
    appendLogLines SliceSort.insertion Io.noFault ⟨true, []⟩ (ascii "m1") nextDay bothDays =
      (disk', written, .ok (ascii "2024-05-02", 1)) ∧
      highWater Io.noFault ⟨true, []⟩ (ascii "m1") disk' = .ok (ascii "2024-05-02", 1) :=
  ⟨_, _, rfl, (accepted_mark_iff SliceSort.insertion Io.noFault ⟨true, []⟩ (ascii "m1") nextDay _ bothDays _ _
    rfl).mpr (Or.inr (Or.inl endsInLast_bothDays))⟩

/-- The mark that is returned is that of the day before, the last log is that of the day. -/
theorem mark_goes_back : ¬ ∀ (sort : SliceSort) (io : Io) (logRoot : Path) (machineID : Text)
    (disk disk' : Disk)
    (lines written : List LogLine) (r : Text × Int),
    appendLogLines sort io logRoot machineID disk lines = (disk', written, .ok r) →
      highWater Io.noFault logRoot machineID disk' = .ok r := by
  intro h
  have hr := h SliceSort.insertion Io.noFault ⟨true, []⟩ (ascii "m1") nextDay
    (appendLogLines SliceSort.insertion Io.noFault ⟨true, []⟩ (ascii "m1") nextDay dayBefore).1 dayBefore _
    (ascii "2024-05-01", 0) rfl
  have hlast : highWater Io.noFault ⟨true, []⟩ (ascii "m1")
      (appendLogLines SliceSort.insertion Io.noFault ⟨true, []⟩ (ascii "m1") nextDay dayBefore).1 =
        .ok (ascii "2024-05-02", 0) := rfl
  rw [hlast] at hr
  exact absurd (Except.ok.inj hr) (by decide)

end Store

end VisitLogger
