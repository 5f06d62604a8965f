import VisitLogger.Drain
import VisitLogger.Sealer

/-!
# Log lines while sealing by hand

A run of `cli` that returns 0 leaves each log line in one place, unless the
seal puts the log of its date over another copy of it, or the merge appends to a
copy that lacks its last newline (`lines_kept_iff`).
-/

namespace VisitLogger

open Framing
open SnapshotMover (manifestFilename)

/-! ## Two texts in a row -/

/-- No line of the second text runs into the first one. -/
def Joins (content body : Text) : Prop :=
  content = [] ∨ body = [] ∨ content.getLast? = some nl ∨
    content.getLast? = some cr ∧ body.head? ≠ some nl ∧ body.head? ≠ some cr

instance (content body : Text) : Decidable (Joins content body) := inferInstanceAs (Decidable (_ ∨ _))

theorem head_universalNewlines_nl (body : Text) :
    (universalNewlines body).head? = some nl ↔ body.head? = some nl ∨ body.head? = some cr := by
  rw [head_universalNewlines]
  cases body.head? with
  | none => simp
  | some b => by_cases hb : b = cr <;> simp [hb]

/-- CR and LF make one newline, so a line is missing. -/
theorem not_perm_crlf {content body : Text} (hlast : content.getLast? = some cr)
    (hhead : (universalNewlines body).head? = some nl) :
    ¬(fileLines (content ++ universalNewlines body)).Perm
      (fileLines content ++ fileLines (universalNewlines body)) := by
  intro hp
  have hcr := cr_notMem_universalNewlines body
  obtain ⟨t, he⟩ := List.head?_eq_some_iff.mp hhead
  have hlen := hp.length_eq
  rw [he] at hcr hlen
  have hcr : cr ∉ t := fun h => hcr (List.mem_cons_of_mem _ h)
  have htail : tail nl (universalNewlines content) = [] :=
    (tail_universalNewlines content).mpr fun b hb => Or.inr (Option.some.inj (hb.symm.trans hlast))
  have hnl : fileLines (nl :: t) = [] :: fileLines t := fileLines_append [] t
  rw [fileLines_eq, universalNewlines_append_crlf hcr content hlast, pieces_append nl htail,
    List.length_append, List.length_append, hnl, fileLines_eq, fileLines_eq t,
      universalNewlines_of_noCr hcr, List.length_cons] at hlen
  omega

/-- Else the lines are kept iff the last one is closed. -/
theorem perm_iff_closed {content body : Text} (hbody : universalNewlines body ≠ [])
    (hapart : ¬(content.getLast? = some cr ∧ (universalNewlines body).head? = some nl)) :
    (fileLines (content ++ universalNewlines body)).Perm
      (fileLines content ++ fileLines (universalNewlines body)) ↔ tail nl (universalNewlines content) = [] := by
  have hcr := cr_notMem_universalNewlines body
  have happ : fileLines (content ++ universalNewlines body) =
      pieces nl (universalNewlines content ++ universalNewlines body) := by
    rw [fileLines_eq, universalNewlines_apart (not_and_or.mp hapart), universalNewlines_of_noCr hcr]
  rw [happ, fileLines_eq content, fileLines_eq (universalNewlines body), universalNewlines_of_noCr hcr]
  constructor
  · intro hp
    by_contra htail
    have hlen := hp.length_eq
    have hopen := length_pieces_open nl htail hbody
    rw [List.length_append] at hlen
    omega
  · intro htail
    rw [pieces_append nl htail]

/-- **Appending a text that has been read keeps the lines of both iff they join.** -/
theorem perm_lines_iff (content body : Text) :
    (fileLines (content ++ universalNewlines body)).Perm (fileLines content ++ fileLines body) ↔
      Joins content body := by
  rw [← fileLines_universalNewlines body]
  by_cases hc : content = []
  · subst hc
    exact iff_of_true (.refl _) (Or.inl rfl)
  by_cases hb : body = []
  · subst hb
    refine iff_of_true ?_ (Or.inr (Or.inl rfl))
    rw [show universalNewlines [] = [] from rfl, List.append_nil, show fileLines [] = [] from rfl,
      List.append_nil]
  by_cases hcrlf : content.getLast? = some cr ∧ (universalNewlines body).head? = some nl
  · refine iff_of_false (not_perm_crlf hcrlf.1 hcrlf.2) ?_
    rintro (h | h | h | ⟨-, h₁, h₂⟩)
    · exact hc h
    · exact hb h
    · rw [hcrlf.1] at h
      exact absurd h (by decide)
    · exact ((head_universalNewlines_nl body).mp hcrlf.2).elim h₁ h₂
  · rw [perm_iff_closed (fun h => hb (universalNewlines_eq_nil.mp h)) hcrlf, tail_universalNewlines]
    constructor
    · intro hclosed
      obtain ⟨b, hlast⟩ := Option.ne_none_iff_exists'.mp fun h => hc (List.getLast?_eq_none_iff.mp h)
      rcases hclosed b hlast with rfl | rfl
      · exact Or.inr (Or.inr (Or.inl hlast))
      · have hn := (not_and.mp hcrlf) hlast
        rw [head_universalNewlines_nl, not_or] at hn
        exact Or.inr (Or.inr (Or.inr ⟨hlast, hn⟩))
    · rintro (h | h | h | ⟨h, -⟩) b hlast
      · exact absurd h hc
      · exact absurd h hb
      · exact Or.inl (Option.some.inj (hlast.symm.trans h))
      · exact Or.inr (Option.some.inj (hlast.symm.trans h))

/-! ## The merge pass -/

def linesOf : Option Node → List Text
  | some (.file _ content) => fileLines content
  | _ => []

theorem linesOf_dir (mode : Nat) : linesOf (some (.dir mode)) = [] := rfl

theorem linesOf_chmod (mode : Nat) (node : Node) :
    linesOf (some (node.chmod mode)) = linesOf (some node) := by cases node <;> rfl

namespace SnapshotMover

open OrphanLog (counterpart counterpart_some counterpart_setFolder)

/-- The lines that `LOG_DIR` and the archive have under the name of a log. -/
def logLines (m : Mac) (d entry : Text) : List Text :=
  linesOf (m.logDir.lookup entry) ++ linesOf (counterpart m d entry)

/-- If both have the log, its lines can be appended. -/
def Mergeable (m : Mac) (d entry : Text) : Prop := ∀ mode body mode' content,
  m.logDir.lookup entry = some (.file mode body) → counterpart m d entry = some (.file mode' content) →
    Joins content body

section
variable {d today entry : Text} {m : Mac}

theorem mergeOne_cases (today : Text) (m : Mac) (entry : Text) :
    (mergeOne today m entry).1 = m ∨ (∃ date, (mergeOne today m entry).1 =
      { m with db := m.db.insertSnapshot date }) ∨
      ∃ date dir logDir node, m.folder date = some dir ∧
        (mergeOne today m entry).1 = { m with logDir }.setFolder date (dir.insert entry node) ∧
        (logDir = m.logDir ∨ logDir = m.logDir.erase entry) := by
  unfold mergeOne
  split
  · exact Or.inl rfl
  · rename_i date _
    split
    · split
      · exact Or.inr (Or.inl ⟨date, rfl⟩)
      · rename_i dir dst hb
        obtain ⟨dir', hf, hdst⟩ := Option.bind_eq_some_iff.mp hb
        obtain ⟨node, hnode, he⟩ := Option.map_eq_some_iff.mp hdst
        cases he
        split
        · split
          · exact Or.inr (Or.inr ⟨date, dir, _, _, hf, rfl, Or.inr rfl⟩)
          · exact Or.inr (Or.inr ⟨date, dir, _, _, hf, rfl, Or.inl rfl⟩)
        · exact Or.inr (Or.inr ⟨date, dir, _, _, hf, rfl, Or.inl rfl⟩)
    · exact Or.inl rfl

theorem mergeOne_ne {f : Text} (h : entry ≠ f) (today : Text) (m : Mac) (d : Text) :
    (mergeOne today m f).1.logDir.lookup entry = m.logDir.lookup entry ∧
      counterpart (mergeOne today m f).1 d entry = counterpart m d entry := by
  obtain he | ⟨date, he⟩ | ⟨date, dir, logDir, node, hf, he, hother⟩ := mergeOne_cases today m f
  · rw [he]
    exact ⟨rfl, rfl⟩
  · rw [he]
    exact ⟨rfl, rfl⟩
  · rw [he]
    refine ⟨OrphanLog.lookup_of_erase hother h, ?_⟩
    rw [counterpart_setFolder, AList.lookup_insert_ne h]
    split
    · rename_i hd
      rw [hd, counterpart_some hf]
    · rfl

theorem bind_lookup_of_none (hc : counterpart m d entry = none) :
    (m.folder d).bind (fun dir => (dir.lookup entry).map (dir, ·)) = none := by
  unfold counterpart at hc
  cases hf : m.folder d with
  | none => rfl
  | some dir =>
    rw [hf, Option.bind_some] at hc
    rw [Option.bind_some, hc]
    rfl

theorem logLines_chmod {dst : Node} (dir : Folder) (mode : Nat) (hc : counterpart m d entry = some dst) :
    logLines (m.setFolder d (dir.insert entry (dst.chmod mode))) d entry = logLines m d entry := by
  rw [logLines, counterpart_setFolder, if_pos rfl, AList.lookup_insert, linesOf_chmod, logLines, hc]
  rfl

theorem perm_appended_iff {mode mode' newMode : Nat} {body content : Text} (dir : Folder)
    (hl : m.logDir.lookup entry = some (.file mode body))
    (hc : counterpart m d entry = some (.file mode' content)) :
    (logLines (({ m with logDir := m.logDir.erase entry } : Mac).setFolder d
      (dir.insert entry (.file newMode (content ++ universalNewlines body)))) d entry).Perm
        (logLines m d entry) ↔
        Joins content body := by
  rw [logLines, counterpart_setFolder, if_pos rfl, AList.lookup_insert, logLines, hc, hl, Mac.setFolder]
  dsimp only
  rw [AList.lookup_erase]
  simp only [linesOf, List.nil_append]
  rw [← perm_lines_iff]
  exact ⟨fun hp => hp.trans List.perm_append_comm, fun hp => hp.trans List.perm_append_comm⟩

/-- **One entry of the pass** keeps its lines iff they can be appended. -/
theorem perm_mergeOne_iff (h : logRe entry = some d) (hok : (mergeOne today m entry).2 = true) :
    (logLines (mergeOne today m entry).1 d entry).Perm (logLines m d entry) ↔
      (d < today → Mergeable m d entry) := by
  unfold mergeOne at hok ⊢
  rw [h] at hok ⊢
  dsimp only at hok ⊢
  by_cases hpast : d < today
  · rw [if_pos hpast] at hok ⊢
    -- only a past log with a counterpart is appended; in the other cases nothing moves
    cases hc : counterpart m d entry with
    | none =>
      rw [bind_lookup_of_none hc]
      refine iff_of_true (.refl _) fun _ _ _ _ _ _ hdst => ?_
      rw [hc] at hdst
      cases hdst
    | some dst =>
      obtain ⟨dir, hf, hdst⟩ := Option.bind_eq_some_iff.mp hc
      have hb : (m.folder d).bind (fun dir => (dir.lookup entry).map (dir, ·)) = some (dir, dst) := by
        rw [hf, Option.bind_some, hdst]
        rfl
      have hstay : (logLines (m.setFolder d (dir.insert entry (dst.chmod 0o644))) d entry).Perm
          (logLines m d entry) := .of_eq (logLines_chmod dir _ hc)
      rw [hb] at hok ⊢
      dsimp only at hok ⊢
      cases hl : m.logDir.lookup entry with
      | none =>
        refine iff_of_true hstay fun _ _ _ _ _ hsrc => ?_
        rw [hl] at hsrc
        cases hsrc
      | some src =>
        rw [hl] at hok
        cases src with
        | dir mode =>
          refine iff_of_true hstay fun _ _ _ _ _ hsrc => ?_
          rw [hl] at hsrc
          cases hsrc
        | file mode body =>
          cases dst with
          | dir mode' =>
            refine iff_of_true hstay fun _ _ _ _ _ _ hdst => ?_
            rw [hc] at hdst
            cases hdst
          | file mode' content =>
            dsimp only at hok ⊢
            split at hok
            · rename_i hu
              rw [if_pos hu, perm_appended_iff dir hl hc]
              constructor
              · intro hjoins _ _ body' _ content' hsrc hdst
                rw [hl] at hsrc
                rw [hc] at hdst
                cases hsrc
                cases hdst
                exact hjoins
              · intro hm
                exact hm hpast mode body mode' content hl hc
            · cases hok
  · rw [if_neg hpast]
    exact iff_of_true (.refl _) fun h => absurd h hpast

theorem Mergeable.congr {m m' : Mac} (hl : m'.logDir.lookup entry = m.logDir.lookup entry)
    (hc : counterpart m' d entry = counterpart m d entry) : Mergeable m' d entry ↔ Mergeable m d entry := by
  unfold Mergeable
  rw [hl, hc]

theorem mergeAll_cons {f : Text} {l : List Text} (hok : (mergeAll today (f :: l) m).2 = true) :
    (mergeOne today m f).2 = true ∧ mergeAll today (f :: l) m = mergeAll today l (mergeOne today m f).1 := by
  rw [mergeAll] at hok ⊢
  generalize mergeOne today m f = r at hok ⊢
  obtain ⟨m', ok⟩ := r
  cases ok with
  | false => cases hok
  | true => exact ⟨rfl, rfl⟩

/-- **The pass keeps the lines of an entry iff they can be appended.** -/
theorem perm_mergeAll_iff {l : List Text} (hl : l.Nodup) (h : logRe entry = some d) (m : Mac)
    (hok : (mergeAll today l m).2 = true) :
    (logLines (mergeAll today l m).1 d entry).Perm (logLines m d entry) ↔
      (entry ∈ l → d < today → Mergeable m d entry) := by
  induction l generalizing m with
  | nil => exact iff_of_true (.refl _) nofun
  | cons f l ih =>
    rw [List.nodup_cons] at hl
    obtain ⟨hone, hcons⟩ := mergeAll_cons hok
    rw [hcons] at hok ⊢
    have hrest := ih hl.2 (mergeOne today m f).1 hok
    by_cases hf : entry = f
    · subst hf
      have hperm := hrest.mpr fun hmem => absurd hmem hl.1
      rw [hperm.congr_left, perm_mergeOne_iff h hone]
      simp
    · obtain ⟨hlog, hcopy⟩ := mergeOne_ne hf today m d
      rw [Mergeable.congr hlog hcopy] at hrest
      have hsame : logLines (mergeOne today m f).1 d entry = logLines m d entry := by
        rw [logLines, hlog, hcopy]; rfl
      rw [hsame] at hrest
      rw [hrest]
      simp [hf]

theorem perm_orphanLogMergePass_iff (today : Text) (h : logRe entry = some d) (m : Mac)
    (hok : (orphanLogMergePass today m).2 = true) :
    (logLines (orphanLogMergePass today m).1 d entry).Perm (logLines m d entry) ↔
      (d < today → Mergeable m d entry) := by
  have hnodup : (sortStrings m.logDir.keys).Nodup := (sortStrings_perm _).nodup_iff.mpr m.logDir.keys_nodup
  rw [orphanLogMergePass, perm_mergeAll_iff hnodup h m hok]
  refine ⟨fun hm hpast mode body mode' content hsrc => ?_, fun hm _ => hm⟩
  have hmem : entry ∈ sortStrings m.logDir.keys :=
    mem_sortStrings.mpr (AList.lookup_isSome.mp (by rw [hsrc]; rfl))
  exact hm hmem hpast mode body mode' content hsrc

end

end SnapshotMover

namespace SnapshotSealer

open OrphanLog (counterpart counterpart_some counterpart_setFolder)
open SnapshotMover (logLines Mergeable)

/-! ## The seal -/

def Disk.entry (s : Disk) (t : Target) (name : Text) : Option Node := (s.dir t).bind (·.lookup name)

def Disk.lines (s : Disk) (d name : Text) : List Text :=
  logLines s.mac d name ++ (linesOf (s.elsewhere.bind (·.lookup name)) ++ linesOf (s.inner.lookup name))

/-- The seal moves the log of its date, unless that is in a directory already. -/
def Stays (o : Options) (s : Disk) (d name : Text) : Prop :=
  extractDateKey o.target = some d → name = logFilename d →
  (∃ mode, s.entry o.target name = some (.dir mode)) ∧ name ∈ s.inner

structure Kept (o : Options) (today : Text) (s : Disk) (d name : Text) : Prop where
  moved : extractDateKey o.target = some d → name = logFilename d → ∀ mode body mode' content,
    s.mac.logDir.lookup name = some (.file mode body) →
      s.entry o.target name = some (.file mode' content) → content = []
  merged : Stays o s d name → d < today → Mergeable s.mac d name

section
variable {o : Options} {t : Target} {s : Disk} {dir dir' : Folder} {d name : Text}

theorem extractDateKey_eq_some (h : extractDateKey t = some d) : t.base = d ∧ IsDate d := by
  unfold extractDateKey at h
  split at h
  · cases h
  · split at h
    · rename_i hf
      obtain rfl := Option.some.inj h
      simp only [fromisoformat, Bool.and_eq_true, decide_eq_true_eq] at hf
      exact ⟨rfl, hf.1.1.1.1.1⟩
    · cases h

theorem lines_setDir (hdir : s.dir t = some dir) (hd : t.inArchive = true → t.base = d) (dir' : Folder)
    (name : Text) :
    ((s.setDir t dir').lines d name ++ linesOf (dir.lookup name)).Perm
      (s.lines d name ++ linesOf (dir'.lookup name)) := by
  rw [List.perm_iff_count]
  intro x
  unfold Disk.lines logLines Disk.setDir
  unfold Disk.dir at hdir
  cases ht : t.inArchive with
  | true =>
    rw [ht] at hdir
    simp only [if_true] at hdir ⊢
    rw [counterpart_setFolder, hd ht, if_pos rfl, ← hd ht, counterpart_some hdir]
    simp only [Mac.logDir_setFolder, List.count_append]
    omega
  | false =>
    rw [ht] at hdir
    simp only [Bool.false_eq_true, if_false] at hdir ⊢
    rw [hdir, Option.bind_some, Option.bind_some]
    simp only [List.count_append]
    omega

theorem counterpart_setDir_same (hdir : s.dir t = some dir) (h : dir'.lookup name = dir.lookup name)
    (d : Text) :
    counterpart (s.setDir t dir').mac d name = counterpart s.mac d name := by
  unfold Disk.setDir
  unfold Disk.dir at hdir
  cases ht : t.inArchive with
  | true =>
    rw [ht] at hdir
    simp only [if_true] at hdir ⊢
    rw [counterpart_setFolder]
    split
    · rename_i hd
      rw [h, counterpart, hd, hdir, Option.bind_some]
    · rfl
  | false => rfl

/-- The manifest is no log. -/
theorem lines_setDir_same (hdir : s.dir t = some dir) (h : dir'.lookup name = dir.lookup name) (d : Text) :
    (s.setDir t dir').lines d name = s.lines d name := by
  rw [Disk.lines, logLines, counterpart_setDir_same hdir h, Disk.lines, logLines]
  unfold Disk.setDir
  unfold Disk.dir at hdir
  cases ht : t.inArchive with
  | true => rfl
  | false =>
    rw [ht] at hdir
    simp only [Bool.false_eq_true, if_false] at hdir ⊢
    rw [hdir, Option.bind_some, Option.bind_some, h]

theorem logDir_setDir (s : Disk) (t : Target) (dir : Folder) : (s.setDir t dir).mac.logDir = s.mac.logDir := by
  unfold Disk.setDir
  split <;> rfl

theorem inner_setDir (s : Disk) (t : Target) (dir : Folder) : (s.setDir t dir).inner = s.inner := by
  unfold Disk.setDir
  split <;> rfl

theorem dir_setDir (s : Disk) (t : Target) (dir : Folder) : (s.setDir t dir).dir t = some dir := by
  unfold Disk.dir Disk.setDir
  cases t.inArchive with
  | true => simp
  | false => rfl

def Disk.eraseLog (s : Disk) (name : Text) : Disk :=
  { s with mac := { s.mac with logDir := s.mac.logDir.erase name } }

theorem lines_eraseLog {src : Node} (hl : s.mac.logDir.lookup name = some src) (d : Text) :
    ((s.eraseLog name).lines d name ++ linesOf (some src)).Perm (s.lines d name) := by
  rw [List.perm_iff_count]
  intro x
  have hc : counterpart (s.eraseLog name).mac d name = counterpart s.mac d name := rfl
  rw [Disk.lines, logLines, hc, Disk.lines, logLines, hl, Disk.eraseLog]
  simp only [AList.lookup_erase, linesOf, List.nil_append, List.count_append]
  omega

theorem perm_replace_iff {src : Node} (hl : s.mac.logDir.lookup name = some src) (hdir : s.dir t = some dir)
    (hd : t.inArchive = true → t.base = d) :
    (((s.eraseLog name).setDir t (dir.insert name (src.chmod 0o444))).lines d name).Perm (s.lines d name) ↔
      linesOf (dir.lookup name) = [] := by
  have hin := lines_setDir (s := s.eraseLog name) hdir hd (dir.insert name (src.chmod 0o444)) name
  rw [AList.lookup_insert, linesOf_chmod] at hin
  have hperm := hin.trans (lines_eraseLog hl d)
  constructor
  · intro h
    have hlen := hperm.length_eq
    rw [List.length_append, h.length_eq] at hlen
    exact List.length_eq_zero_iff.mp (by omega)
  · intro h
    rwa [h, List.append_nil] at hperm

/-- A log that goes into the directory of its name. -/
theorem perm_inner {src : Node} {mode : Nat} (hl : s.mac.logDir.lookup name = some src)
    (hdir : s.dir t = some dir)
    (hd : t.inArchive = true → t.base = d) (hdst : dir.lookup name = some (.dir mode)) (hin : name ∉ s.inner) :
    (({ s.eraseLog name with inner := s.inner.insert name src }.setDir t
      (dir.insert name ((Node.dir mode).chmod 0o444))).lines d name).Perm (s.lines d name) := by
  have hset := lines_setDir (s := { s.eraseLog name with inner := s.inner.insert name src }) hdir hd
    (dir.insert name ((Node.dir mode).chmod 0o444)) name
  rw [AList.lookup_insert, linesOf_chmod, hdst, linesOf_dir, List.append_nil, List.append_nil] at hset
  refine hset.trans ?_
  rw [List.perm_iff_count]
  intro x
  have hc : counterpart (s.eraseLog name).mac d name = counterpart s.mac d name := rfl
  unfold Disk.lines logLines
  dsimp only
  rw [hc, hl, AList.lookup_insert, AList.lookup_eq_none.mpr hin]
  simp only [Disk.eraseLog, AList.lookup_erase, linesOf, List.nil_append, List.append_nil, List.count_append]
  omega

open SnapshotMover (moveLogIntoSealedDir) in
/-- **The move keeps the lines of the log iff it does not put it over another one.** It takes the log
out of `LOG_DIR`, or leaves all as it is. -/
theorem moveLog_spec (hdir : s.dir t = some dir) (hd : t.inArchive = true → t.base = d) :
    ((moveLogIntoSealedDir s t dir d).1 = s ∧
      ((∃ mode, dir.lookup (logFilename d) = some (.dir mode)) ∧ logFilename d ∈ s.inner ∨
        ∀ mode body, s.mac.logDir.lookup (logFilename d) ≠ some (.file mode body))) ∨
      ((moveLogIntoSealedDir s t dir d).1.mac.logDir.lookup (logFilename d) = none ∧
        ¬((∃ mode, dir.lookup (logFilename d) = some (.dir mode)) ∧ logFilename d ∈ s.inner) ∧
        (((moveLogIntoSealedDir s t dir d).1.lines d (logFilename d)).Perm (s.lines d (logFilename d)) ↔
          ∀ mode body mode' content, s.mac.logDir.lookup (logFilename d) = some (.file mode body) →
            dir.lookup (logFilename d) = some (.file mode' content) → content = [])) := by
  unfold moveLogIntoSealedDir
  dsimp only
  cases hl : s.mac.logDir.lookup (logFilename d) with
  | none => exact Or.inl ⟨rfl, Or.inr nofun⟩
  | some src =>
    cases hdst : dir.lookup (logFilename d) with
    | none =>
      refine Or.inr ⟨?_, ?_, ?_⟩
      · dsimp only
        rw [logDir_setDir, AList.lookup_erase]
      · rintro ⟨⟨mode, h⟩, -⟩
        cases h
      · have hperm := (perm_replace_iff hl hdir hd).mpr (by rw [hdst]; rfl)
        exact iff_of_true hperm fun _ _ _ _ _ h => by cases h
    | some dst =>
      cases dst with
      | dir mode =>
        dsimp only
        by_cases hin : logFilename d ∈ s.inner
        · rw [if_pos hin]
          exact Or.inl ⟨rfl, Or.inl ⟨⟨mode, rfl⟩, hin⟩⟩
        · rw [if_neg hin]
          refine Or.inr ⟨?_, fun h => hin h.2, ?_⟩
          · dsimp only
            rw [logDir_setDir, AList.lookup_erase]
          · refine iff_of_true ?_ fun _ _ _ _ _ h => by cases h
            exact perm_inner hl hdir hd hdst hin
      | file mode' content =>
        cases src with
        | dir mode => exact Or.inl ⟨rfl, Or.inr nofun⟩
        | file mode body =>
          refine Or.inr ⟨?_, ?_, ?_⟩
          · dsimp only
            rw [logDir_setDir, AList.lookup_erase]
          · rintro ⟨⟨mode, h⟩, -⟩
            cases h
          · have hperm := perm_replace_iff hl hdir hd
            rw [hdst, linesOf, fileLines_eq_nil] at hperm
            refine hperm.trans ⟨fun h => ?_, fun h => h mode body mode' content rfl rfl⟩
            intro _ _ _ _ _ he
            cases he
            exact h

structure Same (d name : Text) (s s' : Disk) : Prop where
  log : s'.mac.logDir.lookup name = s.mac.logDir.lookup name
  copy : counterpart s'.mac d name = counterpart s.mac d name
  lines : s'.lines d name = s.lines d name

theorem Same.setDir (hdir : s.dir t = some dir) (h : dir'.lookup name = dir.lookup name) (d : Text) :
    Same d name s (s.setDir t dir') :=
  ⟨by rw [logDir_setDir], counterpart_setDir_same hdir h d, lines_setDir_same hdir h d⟩

theorem Same.trans {s' s'' : Disk} (h : Same d name s s') (h' : Same d name s' s'') : Same d name s s'' :=
  ⟨h'.log.trans h.log, h'.copy.trans h.copy, h'.lines.trans h.lines⟩

theorem Same.moveLog {k : Text} (hne : name ≠ logFilename k) (hdir : s.dir t = some dir) (d : Text) :
    Same d name s (SnapshotMover.moveLogIntoSealedDir s t dir k).1 := by
  have hgone : ∀ inner : Folder, inner.lookup name = s.inner.lookup name →
      Same d name s { s.eraseLog (logFilename k) with inner } := by
    intro inner hinner
    have hlog : ({ s.eraseLog (logFilename k) with inner } : Disk).mac.logDir.lookup name =
      s.mac.logDir.lookup name :=
      AList.lookup_erase_ne hne
    refine ⟨hlog, rfl, ?_⟩
    unfold Disk.lines logLines
    rw [hlog]
    dsimp only
    rw [hinner]
    rfl
  have hset : ∀ (inner : Folder) (node : Node), inner.lookup name = s.inner.lookup name →
      Same d name s (Disk.setDir { s.eraseLog (logFilename k) with inner } t
        (dir.insert (logFilename k) node)) := by
    intro inner node hinner
    have hdir' : Disk.dir { s.eraseLog (logFilename k) with inner } t = some dir := hdir
    exact (hgone inner hinner).trans (.setDir hdir' (AList.lookup_insert_ne hne) d)
  have hsame : Same d name s s := ⟨rfl, rfl, rfl⟩
  unfold SnapshotMover.moveLogIntoSealedDir
  dsimp only
  split
  · exact hsame
  · split
    · exact hset s.inner _ rfl
    · exact hset s.inner _ rfl
    · exact hsame
    · split
      · exact hsame
      · exact hset _ _ (AList.lookup_insert_ne hne)

theorem mergeable_of_none {m : Mac} (h : m.logDir.lookup name = none) : Mergeable m d name := by
  intro _ _ _ _ hsrc
  rw [h] at hsrc
  cases hsrc

open SnapshotMover (writeManifestFile sealDirectory moveLogIntoSealedDir)

theorem lookup_writeManifestFile (h : name ≠ manifestFilename) (matchByFilename : Bool) (db : Db)
    (path : Text) (dir : Folder) :
    (writeManifestFile matchByFilename db path dir).lookup name = dir.lookup name := by
  unfold writeManifestFile
  dsimp only
  rw [AList.lookup_insert_ne h, AList.lookup_erase_ne h]

def Disk.listed (o : Options) (s : Disk) (dir : Folder) : Disk :=
  s.setDir o.target (writeManifestFile o.matchByFilename s.mac.db o.target.path dir)

theorem seal_undated (hdry : o.dryRun = false) (hk : extractDateKey o.target = none) (s : Disk) (dir : Folder) :
    sealDirectory o s dir = Disk.listed o s dir := by
  unfold sealDirectory
  simp only [hdry, hk, Bool.false_eq_true, if_false]
  rfl

theorem seal_dated {k : Text} (hdry : o.dryRun = false) (hk : extractDateKey o.target = some k)
    (s : Disk) (dir : Folder) :
    ∃ db, sealDirectory o s dir = { (moveLogIntoSealedDir (Disk.listed o s dir) o.target
      (writeManifestFile o.matchByFilename s.mac.db o.target.path dir) k).1 with
        mac := { (moveLogIntoSealedDir (Disk.listed o s dir) o.target
          (writeManifestFile o.matchByFilename s.mac.db o.target.path dir) k).1.mac with db } } := by
  unfold sealDirectory
  simp only [hdry, hk, Bool.false_eq_true, if_false]
  rw [Disk.listed]
  generalize moveLogIntoSealedDir _ _ _ _ = r
  obtain ⟨s', ok⟩ := r
  cases ok with
  | false => exact ⟨s'.mac.db, rfl⟩
  | true => exact ⟨_, rfl⟩

/-- **The seal keeps the lines of a log iff it does not put it over another one.** It takes the log out of
`LOG_DIR`, or leaves it and its copy as they are. -/
theorem seal_spec (hdry : o.dryRun = false) (hdir : s.dir o.target = some dir) (h : logRe name = some d) :
    (Same d name s (sealDirectory o s dir) ∧
        (Stays o s d name ∨ ∀ mode body, s.mac.logDir.lookup name ≠ some (.file mode body))) ∨
      ((sealDirectory o s dir).mac.logDir.lookup name = none ∧ ¬Stays o s d name ∧
        (((sealDirectory o s dir).lines d name).Perm (s.lines d name) ↔
          ∀ mode body mode' content, s.mac.logDir.lookup name = some (.file mode body) →
            s.entry o.target name = some (.file mode' content) → content = [])) := by
  have hmanifest : name ≠ manifestFilename := by
    rintro rfl
    rw [show logRe manifestFilename = none by decide] at h
    cases h
  have hentry : s.entry o.target name = dir.lookup name := by rw [Disk.entry, hdir, Option.bind_some]
  have hlookup := lookup_writeManifestFile hmanifest o.matchByFilename s.mac.db o.target.path dir
  have hlisted : Same d name s (Disk.listed o s dir) := .setDir hdir hlookup d
  cases hk : extractDateKey o.target with
  | none =>
    rw [seal_undated hdry hk]
    refine Or.inl ⟨hlisted, Or.inl fun he => ?_⟩
    rw [hk] at he
    cases he
  | some k =>
    obtain ⟨hbase, hdate⟩ := extractDateKey_eq_some hk
    have hdir' := dir_setDir s o.target (writeManifestFile o.matchByFilename s.mac.db o.target.path dir)
    obtain ⟨db, hseal⟩ := seal_dated hdry hk s dir
    rw [hseal]
    by_cases hname : name = logFilename k
    · obtain rfl : k = d := by
        rw [hname, logRe_logFilename hdate] at h
        exact Option.some.inj h
      subst hname
      have hstays : Stays o s k (logFilename k) ↔
          (∃ mode, dir.lookup (logFilename k) = some (.dir mode)) ∧ logFilename k ∈ s.inner := by
        rw [Stays, hentry]
        exact ⟨fun h => h hk rfl, fun h _ _ => h⟩
      have hmoved := moveLog_spec hdir' fun _ => hbase
      rw [hlookup, ← Disk.listed, hlisted.log, hlisted.lines, Disk.listed, inner_setDir] at hmoved
      rw [hstays, hentry]
      obtain ⟨he, hleft⟩ | hmoved := hmoved
      · refine Or.inl ⟨?_, hleft⟩
        rw [Disk.listed, he]
        exact ⟨hlisted.log, hlisted.copy, hlisted.lines⟩
      · exact Or.inr hmoved
    · have hmove := hlisted.trans (.moveLog hname hdir' d)
      refine Or.inl ⟨⟨hmove.log, hmove.copy, hmove.lines⟩, Or.inl fun he hn => ?_⟩
      rw [hk] at he
      cases he
      exact absurd hn hname

/-- **A run keeps the lines of a log iff it does not put it over another one, and can append it.** -/
theorem perm_lines_cli_iff {today : Text} (hdry : o.dryRun = false) (hrun : (cli o today s).2 = .returned 0)
    (h : logRe name = some d) : (((cli o today s).1).lines d name).Perm (s.lines d name) ↔
      Kept o today s d name := by
  unfold cli at hrun ⊢
  cases hdir : s.dir o.target with
  | none =>
    rw [hdir] at hrun
    cases hrun
  | some dir =>
    rw [hdir] at hrun
    dsimp only at hrun ⊢
    split at hrun
    · cases hrun
    rename_i hman
    rw [if_neg hman]
    split at hrun
    · cases hrun
    rename_i hdb
    rw [if_neg hdb]
    simp only [hdry, Bool.false_eq_true, if_false] at hrun ⊢
    have hspec := seal_spec hdry hdir h
    generalize SnapshotMover.sealDirectory o s dir = s₁ at hrun hspec ⊢
    have hmerge := SnapshotMover.perm_orphanLogMergePass_iff today h s₁.mac
    generalize SnapshotMover.orphanLogMergePass today s₁.mac = r at hrun hmerge ⊢
    obtain ⟨mac, ok⟩ := r
    cases ok with
    | false => cases hrun
    | true =>
      have hpass : (({ s₁ with mac } : Disk).lines d name).Perm (s₁.lines d name) ↔
        (d < today → Mergeable s₁.mac d name) := by
        rw [← hmerge rfl]
        exact List.perm_append_right_iff _
      dsimp only
      obtain ⟨hsame, hstays⟩ | ⟨hnone, hstays, hseal⟩ := hspec
      · rw [← hsame.lines, hpass, SnapshotMover.Mergeable.congr hsame.log hsame.copy]
        constructor
        · intro hm
          refine ⟨fun hk hn mode body mode' content hsrc hdst => ?_, fun _ => hm⟩
          rcases hstays with hstays | hno
          · obtain ⟨⟨mode, he⟩, -⟩ := hstays hk hn
            rw [hdst] at he
            cases he
          · exact absurd hsrc (hno mode body)
        · intro hkept
          rcases hstays with hstays | hno
          · exact hkept.merged hstays
          · exact fun _ mode body _ _ hsrc => absurd hsrc (hno mode body)
      · have hperm := hpass.mpr fun _ => mergeable_of_none hnone
        rw [hperm.congr_left, hseal]
        constructor
        · intro h
          exact ⟨fun _ _ => h, fun h => absurd h hstays⟩
        · intro hkept
          obtain ⟨hk, hstays⟩ := Classical.not_imp.mp hstays
          exact hkept.moved hk (Classical.not_imp.mp hstays).1

theorem cli_dryRun (hdry : o.dryRun = true) (today : Text) (s : Disk) : (cli o today s).1 = s := by
  unfold cli SnapshotMover.sealDirectory
  rw [hdry]
  dsimp only
  split
  · rfl
  · split
    · rfl
    · split <;> rfl

/-- **A run that returns 0 keeps the lines of all logs iff**, for each of them, the seal does not put it over
another one, and the merge can append it. A dry run keeps them. -/
theorem lines_kept_iff (o : Options) (today : Text) (s : Disk) (hrun : (cli o today s).2 = .returned 0) :
    (∀ d name, logRe name = some d → (((cli o today s).1).lines d name).Perm (s.lines d name)) ↔
      o.dryRun = true ∨ ∀ d name, logRe name = some d → Kept o today s d name := by
  cases hdry : o.dryRun with
  | true =>
    have hsame := cli_dryRun hdry today s
    rw [hsame]
    exact iff_of_true (fun _ _ _ => .refl _) (Or.inl rfl)
  | false =>
    have hiff : ∀ {d name : Text}, logRe name = some d →
        ((((cli o today s).1).lines d name).Perm (s.lines d name) ↔ Kept o today s d name) :=
      fun h => perm_lines_cli_iff hdry hrun h
    constructor
    · intro h
      exact Or.inr fun d name hname => (hiff hname).mp (h d name hname)
    · rintro (h | h)
      · cases h
      · exact fun d name hname => (hiff hname).mpr (h d name hname)

end

/-! ## Two runs -/

def oneLog (dir : Folder) : Disk where
  mac := {
    downloads := ∅
    logDir := AList.singleton (logFilename Seal.newYear) (.file 0o644 (ascii "b\n"))
    archive := AList.singleton Seal.newYear (.folder dir)
    db := Db.empty [] }
  elsewhere := none
  inner := ∅

def sealNewYear : Options where
  target := { path := ascii "/a/2026-01-01", inArchive := true }
  dryRun := false
  matchByFilename := false
  dbExists := true

/-- The archive has no log of the day. -/
theorem lines_kept_iff_moved :
    (∀ d name, logRe name = some d → (((cli sealNewYear (ascii "2026-02-01") (oneLog ∅)).1).lines d name).Perm
        ((oneLog ∅).lines d name)) ↔
      sealNewYear.dryRun = true ∨ ∀ d name, logRe name = some d →
        Kept sealNewYear (ascii "2026-02-01") (oneLog ∅) d name :=
  lines_kept_iff sealNewYear (ascii "2026-02-01") (oneLog ∅) (by decide)

def twoLogs : Disk := oneLog (AList.singleton (logFilename Seal.newYear) (.file 0o444 (ascii "a\n")))

/-- The seal moves the log over the other one, before the merge could append it. -/
theorem archived_lines_lost :
    (cli sealNewYear (ascii "2026-02-01") twoLogs).2 = .returned 0 ∧
      twoLogs.lines Seal.newYear (logFilename Seal.newYear) = [ascii "b", ascii "a"] ∧
      (cli sealNewYear (ascii "2026-02-01") twoLogs).1.lines Seal.newYear (logFilename Seal.newYear) =
        [ascii "b"] ∧
      ¬((cli sealNewYear (ascii "2026-02-01") twoLogs).1.lines Seal.newYear (logFilename Seal.newYear)).Perm
        (twoLogs.lines Seal.newYear (logFilename Seal.newYear)) := by
  decide

end SnapshotSealer

end VisitLogger
