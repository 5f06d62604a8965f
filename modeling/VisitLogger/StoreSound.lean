import Mathlib.Data.List.Infix
import VisitLogger.Store

/-!
# What an append does to the mirror

`appendGroup_cases` says all that one group of lines can do to the disk; what a
whole call does follows by induction over its groups.
-/

namespace VisitLogger

open Framing

namespace Disk

variable (disk : Disk) (p q : Path) (s : Text)

theorem bytes_write : (disk.write p s).bytes q = if q = p then s else disk.bytes q := by
  unfold bytes write
  by_cases h : q = p
  · subst h; simp
  · simp [h, AList.lookup_insert_ne h]

end Disk

namespace Store

/-! ## Groups -/

def groupDate (group : List LogLine) : Text := (group.head?.map LogLine.date).getD []

theorem groupDate_mem {lines group : List LogLine} (h : group ∈ groupByDate lines) :
    ∀ l ∈ group, l.date = groupDate group := by
  have hc : group.IsChain fun a b => (a.date == b.date) = true := List.isChain_of_mem_splitBy h
  cases group with
  | nil => simp
  | cons a group =>
    have hp : (a :: group).Pairwise fun x y => x.date = y.date := by
      have : IsTrans LogLine fun x y => x.date = y.date := ⟨fun _ _ _ => Eq.trans⟩
      exact List.isChain_iff_pairwise.mp (hc.imp fun _ _ h => by simpa using h)
    intro l hl
    rcases List.mem_cons.mp hl with rfl | hl
    · rfl
    · exact ((List.pairwise_cons.mp hp).1 l hl).symm

theorem mem_groupByDate {lines : List LogLine} {l : LogLine} :
    (∃ group ∈ groupByDate lines, l ∈ group) ↔ l ∈ lines := by
  rw [← List.mem_flatten, groupByDate, List.flatten_splitBy]

theorem groupDate_pairwise {lines : List LogLine} (h : lines.Pairwise LogLine.NotAfter) :
    (groupByDate lines).Pairwise fun g g' => groupDate g < groupDate g' := by
  have : IsTrans (List LogLine) fun g g' => groupDate g < groupDate g' := ⟨fun _ _ _ => lt_trans⟩
  rw [← List.isChain_iff_pairwise, List.isChain_iff_forall_rel_of_append_cons_cons]
  intro g g' before after hg
  rw [groupByDate] at hg
  -- neighbours differ in date, and the dates do not go back
  have hne := List.isChain_iff_forall_rel_of_append_cons_cons.mp
    (List.isChain_getLast_head_splitBy (fun a b : LogLine => a.date == b.date) lines) hg
  obtain ⟨ha, hb, hne⟩ := hne
  have hmem : g ∈ groupByDate lines ∧ g' ∈ groupByDate lines := by rw [groupByDate, hg]; simp
  have hcross : ∀ x ∈ g, ∀ y ∈ g', LogLine.NotAfter x y := by
    rw [← List.flatten_splitBy (fun a b : LogLine => a.date == b.date) lines, List.pairwise_flatten, hg,
      List.pairwise_append, List.pairwise_cons] at h
    exact h.2.2.1.1 g' (by simp)
  have hx := groupDate_mem hmem.1 _ (List.getLast_mem ha)
  have hy := groupDate_mem hmem.2 _ (List.head_mem hb)
  rcases hcross _ (List.getLast_mem ha) _ (List.head_mem hb) with hlt | ⟨heq, -⟩
  · rwa [hx, hy] at hlt
  · simp [heq] at hne

theorem mem_group {lines : List LogLine}
    (hs : (groupByDate lines).Pairwise fun g g' => groupDate g < groupDate g')
    {g : List LogLine} (hg : g ∈ groupByDate lines) {l : LogLine} (hl : l ∈ lines)
    (hd : l.date = groupDate g) : l ∈ g := by
  obtain ⟨g', hg', hlg'⟩ := mem_groupByDate.mpr hl
  have hdate : groupDate g' = groupDate g := by rw [← groupDate_mem hg' l hlg', hd]
  have hnodup : ((groupByDate lines).map groupDate).Nodup := List.pairwise_map.mpr (hs.imp fun h => ne_of_lt h)
  exact List.inj_on_of_nodup_map hnodup hg' hg hdate ▸ hlg'

/-! ## The lines that a group selects -/

/-- The selected lines carry on from the count, one offset after the other. -/
theorem selectLines_ok {machineID : Text} {group : List LogLine} {cur count : Int} {toWrite : List LogLine}
    (h : selectLines machineID cur group = .ok (toWrite, count)) :
    count = cur + toWrite.length ∧ toWrite.Sublist group ∧
      (∀ i (hi : i < toWrite.length), toWrite[i].lineOffset = cur + i) ∧
      ∀ l ∈ group, l.lineOffset < count := by
  induction group generalizing cur toWrite with
  | nil => cases h; simp
  | cons l group ih =>
    simp only [selectLines] at h
    split at h
    · rename_i hl
      obtain ⟨h₁, h₂, h₃, h₄⟩ := ih h
      refine ⟨h₁, h₂.cons l, h₃, ?_⟩
      intro m hm
      rcases List.mem_cons.mp hm with rfl | hm
      · omega
      · exact h₄ m hm
    · split at h
      · rename_i hl
        split at h
        · rename_i w c hs
          obtain ⟨rfl, rfl⟩ : l :: w = toWrite ∧ c = count := by simpa using h
          obtain ⟨h₁, h₂, h₃, h₄⟩ := ih hs
          refine ⟨by simp only [List.length_cons]; omega, h₂.cons_cons l, ?_, ?_⟩
          · intro i hi
            cases i with
            | zero => simpa using hl
            | succ i =>
              have := h₃ i (by simpa using hi)
              simp only [List.getElem_cons_succ, this]; omega
          · intro m hm
            rcases List.mem_cons.mp hm with rfl | hm
            · omega
            · exact h₄ m hm
        · cases h
      · cases h

/-- Every line of the group from the count on has its offset among the selected ones. -/
theorem selectLines_covers {machineID : Text} {group : List LogLine} {cur count : Int} {toWrite : List LogLine}
    (h : selectLines machineID cur group = .ok (toWrite, count)) {l : LogLine} (hl : l ∈ group)
    (hc : cur ≤ l.lineOffset) : ∃ m ∈ toWrite, m.lineOffset = l.lineOffset := by
  obtain ⟨h₁, -, h₃, h₄⟩ := selectLines_ok h
  have hlt := h₄ l hl
  have hi : (l.lineOffset - cur).toNat < toWrite.length := by omega
  exact ⟨_, List.getElem_mem hi, by rw [h₃]; omega⟩

/-! ## One group -/

variable {io : Io} {logRoot : Path} {machineID date : Text} {disk disk' : Disk} {group written : List LogLine}

/-- **What a group can do.** If it is taken, the selected lines come after what the
file holds. If it fails, the files stay, or the start of the selected lines comes there. -/
theorem appendGroup_cases {r : Except Text Int}
    (h : appendGroup io logRoot machineID disk date group = (disk', written, r)) :
    (∃ c, r = .ok c ∧
      selectLines machineID (countLines disk (logPath logRoot machineID date)) group = .ok (written, c) ∧
        disk'.files = if written = [] then disk.files
          else disk.files.insert (logPath logRoot machineID date)
            (disk.bytes (logPath logRoot machineID date) ++ encode written)) ∨
      (∃ e, r = .error e) ∧ written = [] ∧ (disk'.files = disk.files ∨
        ∃ toWrite count n msg, io.write date = some (n, msg) ∧ toWrite ≠ [] ∧
          selectLines machineID (countLines disk (logPath logRoot machineID date)) group =
            .ok (toWrite, count) ∧
          disk'.files = disk.files.insert (logPath logRoot machineID date)
            (disk.bytes (logPath logRoot machineID date) ++ (encode toWrite).take n)) := by
  unfold appendGroup pathFor at h
  cases hm : io.mkdir date with
  | some e =>
    simp only [hm, Prod.mk.injEq] at h
    obtain ⟨rfl, rfl, rfl⟩ := h
    exact Or.inr ⟨⟨e, rfl⟩, rfl, Or.inl rfl⟩
  | none =>
    cases hc : io.count date with
    | some e =>
      simp only [hm, hc, Prod.mk.injEq] at h
      obtain ⟨rfl, rfl, rfl⟩ := h
      exact Or.inr ⟨⟨e, rfl⟩, rfl, Or.inl rfl⟩
    | none =>
      have hlines : countLines (disk.mkdirAll (logRoot.join machineID)) (logPath logRoot machineID date) =
          countLines disk (logPath logRoot machineID date) := rfl
      simp only [hm, hc, hlines] at h
      cases hs : selectLines machineID (countLines disk (logPath logRoot machineID date)) group with
      | error e =>
        simp only [hs, Prod.mk.injEq] at h
        obtain ⟨rfl, rfl, rfl⟩ := h
        exact Or.inr ⟨⟨e, rfl⟩, rfl, Or.inl rfl⟩
      | ok sel =>
        obtain ⟨w, c⟩ := sel
        by_cases hw : w = []
        · -- nothing new: the file is not opened
          simp only [hs, hw, if_true, Prod.mk.injEq] at h
          obtain ⟨rfl, rfl, rfl⟩ := h
          exact Or.inl ⟨c, rfl, by rw [hw], rfl⟩
        · simp only [hs, hw, if_false, appendFile] at h
          cases ho : openError io (disk.mkdirAll (logRoot.join machineID)) date
            (logPath logRoot machineID date) with
          | some e =>
            simp only [ho, Prod.mk.injEq] at h
            obtain ⟨rfl, rfl, rfl⟩ := h
            exact Or.inr ⟨⟨e, rfl⟩, rfl, Or.inl rfl⟩
          | none =>
            cases hwr : io.write date with
            | none =>
              simp only [ho, hwr, Prod.mk.injEq] at h
              obtain ⟨rfl, rfl, rfl⟩ := h
              exact Or.inl ⟨c, rfl, rfl, by rw [if_neg hw]; rfl⟩
            -- the write breaks off after `n` bytes
            | some ne =>
              simp only [ho, hwr, Prod.mk.injEq] at h
              obtain ⟨rfl, rfl, rfl⟩ := h
              exact Or.inr ⟨⟨_, rfl⟩, rfl, Or.inr ⟨w, c, ne.1, ne.2, rfl, hw, rfl, rfl⟩⟩

theorem appendGroup_mkdir : (appendGroup io logRoot machineID disk date group).1 = disk ∨
    (appendGroup io logRoot machineID disk date group).1.dirs =
      (disk.mkdirAll (logRoot.join machineID)).dirs := by
  unfold appendGroup pathFor
  cases io.mkdir date with
  | some e => exact Or.inl rfl
  | none =>
    right
    cases io.count date with
    | some e => rfl
    | none =>
      simp only
      cases selectLines machineID (countLines (disk.mkdirAll (logRoot.join machineID))
        (logPath logRoot machineID date)) group with
      | error e => rfl
      | ok r =>
        simp only
        split
        · rfl
        · unfold appendFile
          cases openError io (disk.mkdirAll (logRoot.join machineID)) date
            (logPath logRoot machineID date) with
          | some e => rfl
          | none => cases io.write date <;> rfl

/-! ## What a file gains -/

theorem bytes_insert {disk disk' : Disk} {p q : Path} {s : Text} (h : disk'.files = disk.files.insert p s) :
    disk'.bytes q = if q = p then s else disk.bytes q := by
  rw [Disk.bytes, h]; exact disk.bytes_write p q s

theorem bytes_congr {disk disk' : Disk} (h : disk'.files = disk.files) (q : Path) :
    disk'.bytes q = disk.bytes q := by
  rw [Disk.bytes, h, Disk.bytes]

@[simp] theorem encode_append (ls ms : List LogLine) : encode (ls ++ ms) = encode ls ++
  encode ms := by simp [encode]

theorem appendGroup_ok {c : Int} (h : appendGroup io logRoot machineID disk date group =
    (disk', written, .ok c)) :
    selectLines machineID (countLines disk (logPath logRoot machineID date)) group = .ok (written, c) ∧
      ∀ q, disk'.bytes q = if q = logPath logRoot machineID date then disk.bytes q ++
        encode written else disk.bytes q := by
  rcases appendGroup_cases h with ⟨c', hc, hs, hf⟩ | ⟨⟨e, he⟩, -⟩
  · cases hc
    refine ⟨hs, fun q => ?_⟩
    by_cases hw : written = []
    · rw [if_pos hw] at hf
      rw [bytes_congr hf, hw]
      simp [encode]
    · rw [if_neg hw] at hf
      rw [bytes_insert hf]
      split
      · rename_i hq; rw [hq]
      · rfl
  · cases he

/-- File `p` gains the start of the lines `w`: all of them if `done`. -/
structure Gains (disk disk' : Disk) (p : Path) (done : Prop) (w : List LogLine) : Prop where
  bytes : ∃ s, s <+: encode w ∧ (done → s = encode w) ∧ disk'.bytes p = disk.bytes p ++ s
  none : w = [] → disk'.files.lookup p = disk.files.lookup p

theorem Gains.refl {disk disk' : Disk} (h : disk'.files = disk.files) (p : Path) (done : Prop) :
    Gains disk disk' p done [] :=
  ⟨⟨[], List.nil_prefix, fun _ => rfl, by rw [bytes_congr h, List.append_nil]⟩, fun _ => by rw [h]⟩

theorem Gains.trans {d₁ d₂ d₃ : Disk} {p : Path} {done : Prop} {w w' : List LogLine} (h : Gains d₁ d₂ p True w)
    (h' : Gains d₂ d₃ p done w') : Gains d₁ d₃ p done (w ++ w') := by
  obtain ⟨⟨s, -, hd, hb⟩, hn⟩ := h
  obtain ⟨⟨s', hp', hd', hb'⟩, hn'⟩ := h'
  obtain rfl := hd trivial
  refine ⟨⟨encode w ++ s', ?_, fun h => ?_, ?_⟩, fun hw => ?_⟩
  · rw [encode_append]; exact (List.prefix_append_right_inj _).mpr hp'
  · rw [encode_append, hd' h]
  · rw [hb', hb, List.append_assoc]
  · obtain ⟨rfl, rfl⟩ := List.append_eq_nil_iff.mp hw
    rw [hn' rfl, hn rfl]

theorem appendGroup_gains {r : Except Text Int}
    (h : appendGroup io logRoot machineID disk date group = (disk', written, r))
    (p : Path) : ∃ w, Gains disk disk' p (∃ c, r = .ok c) w ∧
      ∀ l ∈ w, l ∈ group ∧ 0 ≤ l.lineOffset ∧ logPath logRoot machineID date = p := by
  have hsel : ∀ {w : List LogLine} {c : Int},
      selectLines machineID (countLines disk (logPath logRoot machineID date)) group = .ok (w, c) →
      ∀ l ∈ w, l ∈ group ∧ 0 ≤ l.lineOffset := by
    intro w c hs l hl
    obtain ⟨-, h₂, h₃, -⟩ := selectLines_ok hs
    obtain ⟨i, hi, rfl⟩ := List.getElem_of_mem hl
    exact ⟨h₂.subset hl, by rw [h₃]; unfold countLines; omega⟩
  have hins : ∀ {w : List LogLine} {c : Int} {s : Text} {done : Prop}, w ≠ [] →
      selectLines machineID (countLines disk (logPath logRoot machineID date)) group = .ok (w, c) →
      s <+: encode w → (done → s = encode w) →
      disk'.files = disk.files.insert (logPath logRoot machineID date)
        (disk.bytes (logPath logRoot machineID date) ++ s) →
      ∃ w, Gains disk disk' p done w ∧ ∀ l ∈ w, l ∈ group ∧ 0 ≤ l.lineOffset ∧
        logPath logRoot machineID date = p := by
    intro w c s done hw hs hp hd hf
    by_cases hpath : p = logPath logRoot machineID date
    · subst hpath
      exact ⟨w, ⟨⟨s, hp, hd, by rw [bytes_insert hf, if_pos rfl]⟩, fun h => absurd h hw⟩,
        fun l hl => ⟨(hsel hs l hl).1, (hsel hs l hl).2, rfl⟩⟩
    · refine ⟨[], ⟨⟨[], List.nil_prefix, fun _ => rfl, ?_⟩, fun _ => ?_⟩, by simp⟩
      · rw [bytes_insert hf, if_neg hpath, List.append_nil]
      · rw [hf, AList.lookup_insert_ne hpath]
  rcases appendGroup_cases h with ⟨c, rfl, hs, hf⟩ | ⟨⟨e, rfl⟩, -, hf | ⟨w, c, n, msg, -, hw, hs, hf⟩⟩
  · by_cases hw : written = []
    · rw [if_pos hw] at hf
      exact ⟨[], Gains.refl hf p _, by simp⟩
    · rw [if_neg hw] at hf
      exact hins hw hs (List.prefix_refl _) (fun _ => rfl) hf
  · exact ⟨[], Gains.refl hf p _, by simp⟩
  · exact hins hw hs (List.take_prefix n _) (by simp) hf

theorem appendGroups_cons (io : Io) (logRoot : Path) (machineID : Text) (disk : Disk) (latest : Text × Int)
    (group : List LogLine) (groups : List (List LogLine)) :
    (∃ e disk' written, appendGroup io logRoot machineID disk (groupDate group) group =
      (disk', written, .error e) ∧
        appendGroups io logRoot machineID disk latest (group :: groups) = (disk', written, .error e)) ∨
      ∃ c disk' written, appendGroup io logRoot machineID disk (groupDate group) group =
        (disk', written, .ok c) ∧
        appendGroups io logRoot machineID disk latest (group :: groups) =
          ((appendGroups io logRoot machineID disk' (groupDate group, c - 1) groups).1,
            written ++ (appendGroups io logRoot machineID disk' (groupDate group, c - 1) groups).2.1,
            (appendGroups io logRoot machineID disk' (groupDate group, c - 1) groups).2.2) := by
  rcases h : appendGroup io logRoot machineID disk (groupDate group) group with ⟨disk', written, e | c⟩
  · left
    refine ⟨e, disk', written, rfl, ?_⟩
    rw [appendGroups]; simp only [groupDate] at h; simp only [h]
  · right
    refine ⟨c, disk', written, rfl, ?_⟩
    rw [appendGroups]; simp only [groupDate] at h; simp only [h]; rfl

theorem appendGroups_gains (io : Io) (logRoot : Path) (machineID : Text) (latest : Text × Int)
    (groups : List (List LogLine)) (disk : Disk) (p : Path) :
    ∃ w, Gains disk (appendGroups io logRoot machineID disk latest groups).1 p
        (∃ r, (appendGroups io logRoot machineID disk latest groups).2.2 = .ok r) w ∧
      ∀ l ∈ w, 0 ≤ l.lineOffset ∧ ∃ g ∈ groups, l ∈ g ∧ logPath logRoot machineID (groupDate g) = p := by
  induction groups generalizing disk latest with
  | nil => exact ⟨[], Gains.refl rfl p _, by simp⟩
  | cons group groups ih =>
    rcases appendGroups_cons io logRoot machineID disk latest group groups with
      ⟨e, disk', written, hg, h⟩ | ⟨c, disk', written, hg, h⟩
    · obtain ⟨w, hw, hl⟩ := appendGroup_gains hg p
      rw [h]
      refine ⟨w, ⟨?_, hw.none⟩, fun l hl' => ⟨(hl l hl').2.1, group, by simp, (hl l hl').1, (hl l hl').2.2⟩⟩
      obtain ⟨s, hp, -, hb⟩ := hw.bytes
      exact ⟨s, hp, by simp, hb⟩
    · obtain ⟨w, hw, hl⟩ := appendGroup_gains hg p
      obtain ⟨w', hw', hl'⟩ := ih (groupDate group, c - 1) disk'
      rw [h]
      refine ⟨w ++ w', Gains.trans ⟨?_, hw.none⟩ hw', fun l hm => ?_⟩
      · obtain ⟨s, hp, hd, hb⟩ := hw.bytes
        exact ⟨s, hp, fun _ => hd ⟨c, rfl⟩, hb⟩
      · rcases List.mem_append.mp hm with hm | hm
        · exact ⟨(hl l hm).2.1, group, by simp, (hl l hm).1, (hl l hm).2.2⟩
        · obtain ⟨ho, g, hg, hg'⟩ := hl' l hm
          exact ⟨ho, g, List.mem_cons_of_mem _ hg, hg'⟩

/-- **What a call can do to a file**: add the start of lines of the call whose
date names that file, and all of them if the call succeeds. -/
theorem appendLogLines_gains (sort : SliceSort) (io : Io) (logRoot : Path) (machineID : Text) (disk : Disk)
    (lines : List LogLine) (p : Path) :
    ∃ w, Gains disk (appendLogLines sort io logRoot machineID disk lines).1 p
        (∃ r, (appendLogLines sort io logRoot machineID disk lines).2.2 = .ok r) w ∧
      ∀ l ∈ w, l ∈ lines ∧ 0 ≤ l.lineOffset ∧ logPath logRoot machineID l.date = p := by
  unfold appendLogLines
  split
  · exact ⟨[], Gains.refl rfl p _, by simp⟩
  · obtain ⟨w, hw, hl⟩ := appendGroups_gains io logRoot machineID ([], 0) (groupByDate (sort.run lines)) disk p
    refine ⟨w, hw, fun l hm => ?_⟩
    obtain ⟨ho, g, hg, hlg, hp⟩ := hl l hm
    refine ⟨(sort.perm lines).mem_iff.mp (mem_groupByDate.mp ⟨g, hg, hlg⟩), ho, ?_⟩
    rw [groupDate_mem hg l hlg]; exact hp

/-! ## A call that succeeds -/

theorem countLines_congr {disk disk' : Disk} {p : Path} (h : disk'.bytes p = disk.bytes p) :
    countLines disk' p = countLines disk p := by rw [countLines, h, countLines]

/-- A group is taken as the file stands at the start of the call, if no other
group names the file. -/
theorem appendGroups_ok {latest r : Text × Int} {groups : List (List LogLine)} {disk : Disk} {p : Path}
    (h : (appendGroups io logRoot machineID disk latest groups).2.2 = .ok r)
    (hp : groups.Pairwise fun g g' =>
      ¬(logPath logRoot machineID (groupDate g) = p ∧ logPath logRoot machineID (groupDate g') = p))
    {g : List LogLine} (hg : g ∈ groups) (hgp : logPath logRoot machineID (groupDate g) = p) :
    ∃ w c, selectLines machineID (countLines disk p) g = .ok (w, c) ∧
      (appendGroups io logRoot machineID disk latest groups).1.bytes p = disk.bytes p ++ encode w := by
  induction groups generalizing disk latest with
  | nil => cases hg
  | cons group groups ih =>
    obtain ⟨hne, hp⟩ := List.pairwise_cons.mp hp
    rcases appendGroups_cons io logRoot machineID disk latest group groups with
      ⟨e, disk', written, -, hc⟩ | ⟨c, disk', written, hstep, hc⟩
    · rw [hc] at h; cases h
    · rw [hc] at h ⊢
      rcases List.mem_cons.mp hg with rfl | hg
      · -- the groups after it leave its file alone
        obtain ⟨w, hw, hl⟩ := appendGroups_gains io logRoot machineID (groupDate g, c - 1) groups disk' p
        have hw' : w = [] := List.eq_nil_iff_forall_not_mem.mpr fun l hlm => by
          obtain ⟨-, g', hg', -, hpath⟩ := hl l hlm
          exact hne g' hg' ⟨hgp, hpath⟩
        obtain ⟨hs, hb⟩ := appendGroup_ok hstep
        rw [hgp] at hs hb
        refine ⟨written, c, hs, ?_⟩
        rw [Disk.bytes, hw.none hw', ← Disk.bytes, hb, if_pos rfl]
      · -- the group before it leaves its file alone
        obtain ⟨w, hw, hl⟩ := appendGroup_gains hstep p
        have hw' : w = [] := List.eq_nil_iff_forall_not_mem.mpr fun l hlm => hne g hg ⟨(hl l hlm).2.2, hgp⟩
        have hother : disk'.bytes p = disk.bytes p := by rw [Disk.bytes, hw.none hw', Disk.bytes]
        obtain ⟨w', c', hs, hb⟩ := ih h hp hg
        exact ⟨w', c', by rwa [countLines_congr hother] at hs, by rw [hb, hother]⟩

/-- **A call that succeeds**, at the file of one date that no other date of the
call names: the lines of that date from the count on are put after what it holds. -/
theorem appendLogLines_ok {sort : SliceSort} {lines : List LogLine} {r : Text × Int}
    (h : (appendLogLines sort io logRoot machineID disk lines).2.2 = .ok r) {l : LogLine} (hl : l ∈ lines)
    (hp : ∀ m ∈ lines, m.date ≠ l.date → logPath logRoot machineID m.date ≠ logPath logRoot machineID l.date) :
    ∃ g w c, (∀ m, m ∈ g ↔ m ∈ lines ∧ m.date = l.date) ∧
      selectLines machineID (countLines disk (logPath logRoot machineID l.date)) g = .ok (w, c) ∧
        (appendLogLines sort io logRoot machineID disk lines).1.bytes (logPath logRoot machineID l.date) =
          disk.bytes (logPath logRoot machineID l.date) ++ encode w := by
  have hmem : ∀ m, m ∈ sort.run lines ↔ m ∈ lines := fun m => (sort.perm lines).mem_iff
  unfold appendLogLines at h ⊢
  rw [if_neg (List.ne_nil_of_mem hl)] at h ⊢
  have hdates := groupDate_pairwise (sort.sorted lines)
  have hhead : ∀ g ∈ groupByDate (sort.run lines), groupDate g ≠ l.date →
      logPath logRoot machineID (groupDate g) ≠ logPath logRoot machineID l.date := by
    intro g hg hne
    obtain ⟨m, hm⟩ := List.exists_mem_of_ne_nil g (List.ne_nil_of_mem_splitBy hg)
    have hmd := groupDate_mem hg m hm
    rw [← hmd] at hne ⊢
    exact hp m ((hmem m).mp (mem_groupByDate.mp ⟨g, hg, hm⟩)) hne
  have hpaths : (groupByDate (sort.run lines)).Pairwise fun g g' =>
      ¬(logPath logRoot machineID (groupDate g) = logPath logRoot machineID l.date ∧
        logPath logRoot machineID (groupDate g') = logPath logRoot machineID l.date) := by
    refine hdates.imp_of_mem fun {g g'} hg hg' hlt ⟨he, he'⟩ => ?_
    have hd : groupDate g = l.date := by_contra fun hn => hhead g hg hn he
    have hd' : groupDate g' = l.date := by_contra fun hn => hhead g' hg' hn he'
    rw [hd, hd'] at hlt
    exact lt_irrefl _ hlt
  obtain ⟨g, hg, hlg⟩ := mem_groupByDate.mpr ((hmem l).mpr hl)
  have hd := groupDate_mem hg l hlg
  obtain ⟨w, c, hs, hb⟩ := appendGroups_ok h hpaths hg (by rw [hd])
  refine ⟨g, w, c, fun m => ⟨fun hm => ?_, fun ⟨hm, hmd⟩ => ?_⟩, hs, hb⟩
  · exact ⟨(hmem m).mp (mem_groupByDate.mp ⟨g, hg, hm⟩), by rw [groupDate_mem hg m hm, hd]⟩
  · exact mem_group hdates hg ((hmem m).mpr hm) (by rw [hmd, hd])

/-! ## Counts -/

theorem Gains.count_le {done : Prop} {p : Path} {w : List LogLine} (h : Gains disk disk' p done w) :
    countLines disk p ≤ countLines disk' p := by
  obtain ⟨s, -, -, hb⟩ := h.bytes
  rw [countLines, countLines, hb, List.count_append]
  omega

theorem appendGroup_counts {c : Int} (h : appendGroup io logRoot machineID disk date group =
    (disk', written, .ok c)) :
    ∀ l ∈ group, l.lineOffset < countLines disk' (logPath logRoot machineID date) := by
  obtain ⟨hs, hb⟩ := appendGroup_ok h
  obtain ⟨hc, -, -, hlt⟩ := selectLines_ok hs
  have hge := count_unlines_ge nl (written.map LogLine.rawLine)
  intro l hl
  have := hlt l hl
  unfold countLines at *
  rw [hb, if_pos rfl, List.count_append, encode]
  simp only [List.length_map] at hge
  omega

theorem appendGroups_counts {latest r : Text × Int} {groups : List (List LogLine)} {disk : Disk}
    (h : (appendGroups io logRoot machineID disk latest groups).2.2 = .ok r) :
    ∀ g ∈ groups, ∀ l ∈ g, l.lineOffset <
      countLines (appendGroups io logRoot machineID disk latest groups).1
        (logPath logRoot machineID (groupDate g)) := by
  induction groups generalizing disk latest with
  | nil => simp
  | cons group groups ih =>
    rcases appendGroups_cons io logRoot machineID disk latest group groups with
      ⟨e, disk', written, -, hc⟩ | ⟨c, disk', written, hg, hc⟩
    · rw [hc] at h; cases h
    · rw [hc] at h ⊢
      intro g hgm l hl
      rcases List.mem_cons.mp hgm with rfl | hgm
      · obtain ⟨w, hw, -⟩ := appendGroups_gains io logRoot machineID (groupDate g, c - 1) groups disk'
          (logPath logRoot machineID (groupDate g))
        exact lt_of_lt_of_le (appendGroup_counts hg l hl) hw.count_le
      · exact ih h g hgm l hl

/-- **A call that succeeds** leaves every line below the count of its file. -/
theorem appendLogLines_counts {sort : SliceSort} {lines : List LogLine} {r : Text × Int}
    (h : (appendLogLines sort io logRoot machineID disk lines).2.2 = .ok r) :
    ∀ l ∈ lines, l.lineOffset < countLines (appendLogLines sort io logRoot machineID disk lines).1
      (logPath logRoot machineID l.date) := by
  intro l hl
  unfold appendLogLines at h ⊢
  rw [if_neg (List.ne_nil_of_mem hl)] at h ⊢
  obtain ⟨g, hg, hlg⟩ := mem_groupByDate.mpr ((sort.perm lines).mem_iff.mpr hl)
  rw [groupDate_mem hg l hlg]
  exact appendGroups_counts h g hg l hlg

/-! ## A call without a gap -/

/-- No offset between the count and an offset of the group is missing. -/
def NoGap (cur : Int) (group : List LogLine) : Prop :=
  ∀ l ∈ group, ∀ k, cur ≤ k → k < l.lineOffset → ∃ m ∈ group, m.lineOffset = k

theorem NoGap.mono {cur cur' : Int} (h : NoGap cur group) (hc : cur ≤ cur') : NoGap cur' group :=
  fun l hl k hk => h l hl k (hc.trans hk)

theorem selectLines_succeeds (machineID : Text) {cur : Int}
    (hs : group.Pairwise fun a b => a.lineOffset ≤ b.lineOffset)
    (hc : NoGap cur group) : ∃ r, selectLines machineID cur group = .ok r := by
  induction group generalizing cur with
  | nil => exact ⟨_, rfl⟩
  | cons l ls ih =>
    obtain ⟨hl, hs⟩ := List.pairwise_cons.mp hs
    -- a witness in the group that is not `l` is among `ls`
    have hrest : ∀ cur', cur ≤ cur' → l.lineOffset < cur' → NoGap cur' ls := by
      intro cur' hcur hlt m hm k hk hkm
      obtain ⟨n, hn, hnk⟩ := hc m (List.mem_cons_of_mem _ hm) k (hcur.trans hk) hkm
      rcases List.mem_cons.mp hn with rfl | hn
      · omega
      · exact ⟨n, hn, hnk⟩
    rw [selectLines]
    split
    · rename_i hlt
      exact ih hs (hrest cur le_rfl hlt)
    · split
      · rename_i heq
        obtain ⟨⟨w, c⟩, hr⟩ := ih hs (hrest (cur + 1) (by omega) (by omega))
        exact ⟨_, by rw [hr]⟩
      · obtain ⟨m, hm, hmk⟩ := hc l (by simp) cur le_rfl (by omega)
        rcases List.mem_cons.mp hm with rfl | hm
        · omega
        · have := hl m hm; omega

end Store

namespace Disk

theorem mem_dirs_mkdirAll {disk : Disk} {p q : Path} :
    q ∈ (disk.mkdirAll p).dirs ↔ q ∈ p.elems.tails.map (Path.mk p.rooted) ∨ q ∈ disk.dirs := by
  unfold mkdirAll
  generalize p.elems.tails.map (Path.mk p.rooted) = ps
  induction ps with
  | nil => simp
  | cons a ps ih => simp only [List.foldr_cons, List.mem_insert_iff, List.mem_cons, ih]; tauto

theorem hasParent_mkdirAll {disk : Disk} {q : Path} (p : Path) (h : disk.hasParent q = true) :
    (disk.mkdirAll p).hasParent q = true := by
  simp only [hasParent, Bool.or_eq_true, decide_eq_true_eq, List.contains_iff_mem] at h ⊢
  exact h.imp_right fun h => mem_dirs_mkdirAll.mpr (Or.inr h)

theorem child_mem_dirs_mkdirAll {disk : Disk} {p : Path} {name : Text} :
    p.child name ∈ (disk.mkdirAll p).dirs ↔ p.child name ∈ disk.dirs := by
  rw [mem_dirs_mkdirAll]
  refine or_iff_right fun h => ?_
  obtain ⟨t, ht, he⟩ := List.mem_map.mp h
  have hlen := ((List.mem_tails _ _).mp ht).length_le
  obtain rfl : t = name :: p.elems := congrArg Path.elems he
  rw [List.length_cons] at hlen
  omega

theorem hasParent_child (disk : Disk) (p : Path) (name : Text) :
    (disk.mkdirAll p).hasParent (p.child name) = true := by
  simp only [hasParent, Bool.or_eq_true, List.contains_iff_mem]
  right
  exact mem_dirs_mkdirAll.mpr (Or.inl (List.mem_map.mpr ⟨p.elems, by simp, rfl⟩))

theorem nameIn_eq_some {dir p : Path} {name : Text} : nameIn dir p = some name ↔ p = dir.child name := by
  obtain ⟨rooted, elems⟩ := p
  obtain ⟨rooted', elems'⟩ := dir
  cases elems with
  | nil => simp [nameIn, Path.child]
  | cons e es =>
    simp only [nameIn, Path.child, Path.mk.injEq, List.cons.injEq, Option.ite_none_right_eq_some,
      Option.some.injEq]
    tauto

theorem mem_fileNames {disk : Disk} {dir : Path} {name : Text} :
    name ∈ disk.fileNames dir ↔ dir.child name ∈ disk.files.keys := by
  simp [fileNames, List.mem_filterMap, nameIn_eq_some]

theorem mem_subdirs {disk : Disk} {dir : Path} {name : Text} :
    name ∈ disk.subdirs dir ↔ dir.child name ∈ disk.dirs := by
  simp [subdirs, List.mem_filterMap, nameIn_eq_some]

theorem mem_readDir {disk : Disk} {dir : Path} {name : Text} :
    name ∈ disk.readDir dir ↔ dir.child name ∈ disk.files.keys ∨ dir.child name ∈ disk.dirs := by
  rw [readDir, List.mem_append, mem_fileNames, mem_subdirs]

theorem nodup_names {l : List Path} (h : l.Nodup) (dir : Path) : (l.filterMap (nameIn dir)).Nodup := by
  refine List.Nodup.filterMap (fun p p' name hp hp' => ?_) h
  rw [nameIn_eq_some.mp hp, nameIn_eq_some.mp hp']

theorem nodup_fileNames (disk : Disk) (dir : Path) : (disk.fileNames dir).Nodup :=
  nodup_names disk.files.keys_nodup dir

theorem nodup_subdirs {disk : Disk} (h : disk.dirs.Nodup) (dir : Path) : (disk.subdirs dir).Nodup :=
  nodup_names h dir

theorem mem_keys_of_bytes {disk : Disk} {p : Path} (h : disk.bytes p ≠ []) : p ∈ disk.files.keys := by
  by_contra hp
  apply h
  rw [bytes, AList.lookup_eq_none.mpr fun hm => hp (AList.mem_keys.mp hm)]
  rfl

theorem hasParent_congr {disk disk' : Disk} (h : disk'.dirs = disk.dirs) (p : Path) :
    disk'.hasParent p = disk.hasParent p := by rw [hasParent, h, hasParent]

end Disk

theorem plain_logFilename {date : Text} (h : slash ∉ date) : Plain (logFilename date) := by
  refine ⟨?_, ?_, ?_, ?_⟩
  · simp only [logFilename, List.mem_append, not_or]
    exact ⟨⟨by decide, h⟩, by decide⟩
  all_goals
    intro he
    have := congrArg List.head? he
    revert this
    simp [logFilename, ascii]

namespace Store

variable {io : Io} {logRoot : Path} {machineID date : Text} {disk disk' : Disk} {group written : List LogLine}

theorem logPath_eq (h : slash ∉ date) :
    logPath logRoot machineID date = (logRoot.join machineID).child (logFilename date) :=
  Path.join_plain (plain_logFilename h) _

theorem logPath_inj {d e : Text} (hd : slash ∉ d) (he : slash ∉ e)
    (h : logPath logRoot machineID d = logPath logRoot machineID e) : d = e := by
  rw [logPath_eq hd, logPath_eq he, Path.child_inj] at h
  exact logFilename_inj h.2

theorem appendGroup_succeeds (hs : group.Pairwise fun a b => a.lineOffset ≤ b.lineOffset)
    (hc : NoGap (countLines disk (logPath logRoot machineID date)) group)
    (hp : (disk.mkdirAll (logRoot.join machineID)).hasParent (logPath logRoot machineID date) = true) :
    ∃ disk' written c, appendGroup Io.noFault logRoot machineID disk date group = (disk', written, .ok c) ∧
      disk'.dirs = (disk.mkdirAll (logRoot.join machineID)).dirs := by
  obtain ⟨⟨w, c⟩, hsel⟩ := selectLines_succeeds machineID hs hc
  have hmkdir : Io.noFault.mkdir date = none := rfl
  have hcount : Io.noFault.count date = none := rfl
  have hlines : countLines (disk.mkdirAll (logRoot.join machineID)) (logPath logRoot machineID date) =
      countLines disk (logPath logRoot machineID date) := rfl
  simp only [appendGroup, pathFor, hmkdir, hcount, hlines, hsel]
  split
  · exact ⟨_, _, _, rfl, rfl⟩
  · have ho : openError Io.noFault (disk.mkdirAll (logRoot.join machineID)) date
      (logPath logRoot machineID date) = none := by
      rw [openError, if_pos hp]; rfl
    have hwrite : Io.noFault.write date = none := rfl
    simp only [appendFile, ho, hwrite]
    exact ⟨_, _, _, rfl, rfl⟩

theorem appendGroups_succeeds {groups : List (List LogLine)} {latest : Text × Int} {disk : Disk}
    (hs : ∀ g ∈ groups, g.Pairwise fun a b => a.lineOffset ≤ b.lineOffset)
    (hc : ∀ g ∈ groups, NoGap (countLines disk (logPath logRoot machineID (groupDate g))) g)
    (hp : ∀ g ∈ groups,
      (disk.mkdirAll (logRoot.join machineID)).hasParent (logPath logRoot machineID (groupDate g)) = true) :
    ∃ r, (appendGroups Io.noFault logRoot machineID disk latest groups).2.2 = .ok r := by
  induction groups generalizing disk latest with
  | nil => exact ⟨_, rfl⟩
  | cons group groups ih =>
    obtain ⟨disk', written, c, hg, hd⟩ := appendGroup_succeeds (hs group (by simp)) (hc group (by simp))
      (hp group (by simp))
    rcases appendGroups_cons Io.noFault logRoot machineID disk latest group groups with
      ⟨e, disk'', written', hg', -⟩ | ⟨c', disk'', written', hg', h⟩
    · rw [hg] at hg'; cases hg'
    · rw [hg] at hg'; cases hg'
      rw [h]
      -- the counts have grown, and the directories are still there
      apply ih (fun g hgm => hs g (List.mem_cons_of_mem _ hgm))
      · intro g hgm
        obtain ⟨w, hw, -⟩ := appendGroup_gains hg (logPath logRoot machineID (groupDate g))
        exact (hc g (List.mem_cons_of_mem _ hgm)).mono hw.count_le
      · intro g hgm
        apply Disk.hasParent_mkdirAll
        rw [Disk.hasParent_congr hd]
        exact hp g (List.mem_cons_of_mem _ hgm)

/-- **A call without a gap succeeds**, if nothing fails and the directories are there. -/
theorem appendLogLines_succeeds (sort : SliceSort) {lines : List LogLine} (hne : lines ≠ [])
    (hc : ∀ l ∈ lines, ∀ k, countLines disk (logPath logRoot machineID l.date) ≤ k → k < l.lineOffset →
      ∃ m ∈ lines, m.date = l.date ∧ m.lineOffset = k)
    (hp : ∀ l ∈ lines, (disk.mkdirAll (logRoot.join machineID)).hasParent
      (logPath logRoot machineID l.date) = true) :
    ∃ r, (appendLogLines sort Io.noFault logRoot machineID disk lines).2.2 = .ok r := by
  have hmem : ∀ m, m ∈ sort.run lines ↔ m ∈ lines := fun m => (sort.perm lines).mem_iff
  have hdates := groupDate_pairwise (sort.sorted lines)
  unfold appendLogLines
  rw [if_neg hne]
  have hhead : ∀ g ∈ groupByDate (sort.run lines), ∃ m ∈ g, m ∈ lines ∧ m.date = groupDate g := by
    intro g hg
    obtain ⟨m, hm⟩ := List.exists_mem_of_ne_nil g (List.ne_nil_of_mem_splitBy hg)
    exact ⟨m, hm, (hmem m).mp (mem_groupByDate.mp ⟨g, hg, hm⟩), groupDate_mem hg m hm⟩
  apply appendGroups_succeeds
  · intro g hg
    have hp : g.Pairwise LogLine.NotAfter := by
      have hs := sort.sorted lines
      rw [← List.flatten_splitBy (fun a b : LogLine => a.date == b.date) (sort.run lines),
        List.pairwise_flatten] at hs
      exact hs.1 g hg
    refine hp.imp_of_mem fun {a b} ha hb hab => ?_
    rcases hab with hlt | ⟨-, hle⟩
    · rw [groupDate_mem hg a ha, groupDate_mem hg b hb] at hlt
      exact absurd hlt (lt_irrefl _)
    · exact hle
  · intro g hg l hl k hk hkl
    have hld := groupDate_mem hg l hl
    obtain ⟨m, hm, hmd, hmk⟩ := hc l ((hmem l).mp (mem_groupByDate.mp ⟨g, hg, hl⟩)) k
      (by rw [hld]; exact hk) hkl
    refine ⟨m, ?_, hmk⟩
    exact mem_group hdates hg ((hmem m).mpr hm) (by rw [hmd, hld])
  · intro g hg
    obtain ⟨m, -, hm, hmd⟩ := hhead g hg
    rw [← hmd]; exact hp m hm

end Store

end VisitLogger
