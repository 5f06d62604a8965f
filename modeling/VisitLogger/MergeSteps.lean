import VisitLogger.DayFiles
import VisitLogger.Sealer

/-!
# The merge pass, step by step

Both programs append a past day's log to the archive's copy and then remove it.
Whatever stops them, each day is as before, or its copy has the lines of the log
once more for each time that the append was reached (`DayMerged`); the log is
gone only if it was (`Merged.passSteps`).
-/

namespace VisitLogger

open Framing
open MergeRace (logOf)
open OrphanLog (counterpart counterpart_some counterpart_setFolder)

/-! ## The programs -/

/-- `OrphanLog.mergePass` and `_orphan_log_merge_pass`. -/
inductive Merger where
  | swift
  | python
  deriving DecidableEq, Repr

namespace Merger

def date : Merger → Text → Option Text
  | swift => OrphanLog.extractDate
  | python => logRe

def read : Merger → Text → Text
  | swift => id
  | python => universalNewlines

def mergeOne : Merger → Text → Mac → Text → Mac × Bool
  | swift, today, m, entry => (OrphanLog.mergeOne today m entry, true)
  | python, today, m, entry => SnapshotMover.mergeOne today m entry

def pass : Merger → Text → Mac → Mac
  | swift, today, m => OrphanLog.mergePass today m
  | python, today, m => (SnapshotMover.orphanLogMergePass today m).1

/-- What each call for an entry leaves: the copy is made writable, it gets the text, it is made
read-only, the log is removed. -/
def steps (g : Merger) (today : Text) (m : Mac) (entry : Text) : List Mac :=
  match g.date entry with
  | none => []
  | some date =>
    if date < today then
      match (m.folder date).bind fun dir => (dir.lookup entry).map (dir, ·) with
      | none => [{ m with db := m.db.insertSnapshot date }]
      | some (dir, dst) =>
        let writable := m.setFolder date (dir.insert entry (dst.chmod 0o644))
        match m.logDir.lookup entry, dst with
        | some (.file _ body), .file _ content =>
          if isUtf8 body then
            [writable, m.setFolder date (dir.insert entry (.file 0o644 (content ++ g.read body))),
              m.setFolder date (dir.insert entry (.file 0o444 (content ++ g.read body))),
              { m with logDir := m.logDir.erase entry }.setFolder date
                (dir.insert entry (.file 0o444 (content ++ g.read body)))]
          else [writable]
        | _, _ => [writable]
    else []

/-- The steps of the pass. An error that nobody catches ends it. -/
def passSteps (g : Merger) (today : Text) : List Text → Mac → List Mac
  | [], _ => []
  | entry :: entries, m =>
    g.steps today m entry ++
      if (g.mergeOne today m entry).2 then g.passSteps today entries (g.mergeOne today m entry).1 else []

section
variable (g : Merger) (today : Text)

theorem mergeOne_eq (m : Mac) (entry : Text) :
    (g.mergeOne today m entry).1 = (g.steps today m entry).getLast?.getD m := by
  unfold steps
  cases hdate : g.date entry with
  | none =>
    cases g
    all_goals
      simp only [date] at hdate
      simp only [mergeOne, OrphanLog.mergeOne, SnapshotMover.mergeOne, hdate]
      rfl
  | some d =>
    cases g
    all_goals
      simp only [date] at hdate
      simp only [mergeOne, OrphanLog.mergeOne, SnapshotMover.mergeOne, hdate, read]
      split
      · cases (m.folder d).bind fun dir => (dir.lookup entry).map (dir, ·) with
        | none => rfl
        | some r =>
          obtain ⟨dir, dst⟩ := r
          dsimp only
          cases m.logDir.lookup entry with
          | none => rfl
          | some src =>
            cases src with
            | dir mode => rfl
            | file mode body =>
              cases dst with
              | dir mode => rfl
              | file mode content =>
                dsimp only
                split <;> rfl
      · rfl

def mergeAll (g : Merger) (today : Text) : List Text → Mac → Mac
  | [], m => m
  | entry :: entries, m =>
    if (g.mergeOne today m entry).2 then g.mergeAll today entries (g.mergeOne today m entry).1 else
      (g.mergeOne today m entry).1

theorem getLast_append {α : Type*} (a b : List α) (x : α) :
    (a ++ b).getLast?.getD x = b.getLast?.getD (a.getLast?.getD x) := by
  rw [List.getLast?_append]
  cases b.getLast? <;> rfl

theorem mergeAll_eq (entries : List Text) (m : Mac) :
    g.mergeAll today entries m = (g.passSteps today entries m).getLast?.getD m := by
  induction entries generalizing m with
  | nil => rfl
  | cons entry entries ih =>
    rw [mergeAll, passSteps, getLast_append, ← mergeOne_eq]
    split
    · exact ih _
    · rfl

/-- **The steps end where the pass does.** -/
theorem pass_eq (m : Mac) : g.pass today m =
    (g.passSteps today (sortStrings m.logDir.keys) m).getLast?.getD m := by
  rw [← mergeAll_eq]
  cases g with
  | swift =>
    have h : ∀ entries m, mergeAll swift today entries m = entries.foldl (OrphanLog.mergeOne today) m := by
      intro entries
      induction entries with
      | nil => exact fun _ => rfl
      | cons entry entries ih => exact fun m => ih (OrphanLog.mergeOne today m entry)
    exact (h _ m).symm
  | python =>
    have h : ∀ entries m, mergeAll python today entries m = (SnapshotMover.mergeAll today entries m).1 := by
      intro entries
      induction entries with
      | nil => exact fun _ => rfl
      | cons entry entries ih =>
        intro m
        have hone : mergeOne python today m entry = SnapshotMover.mergeOne today m entry := rfl
        rw [mergeAll, SnapshotMover.mergeAll, hone, ih]
        rcases hr : SnapshotMover.mergeOne today m entry with ⟨m', ok⟩
        cases ok <;> rfl
    exact (h _ m).symm

/-! ## What a step does -/

variable {g today}

theorem date_logFilename {d date : Text} (hd : logRe (logFilename d) = some d)
    (h : g.date (logFilename d) = some date) :
    d = date := by
  cases g with
  | swift => exact OrphanLog.extractDate_logFilename h
  | python => exact Option.some.inj (hd.symm.trans h)

/-- A step records the date, or makes the copy writable, or it gives the copy the text of the log. -/
inductive Step (g : Merger) (m : Mac) (entry : Text) : Mac → Prop
  | record (date : Text) : Step g m entry { m with db := m.db.insertSnapshot date }
  | touch {date : Text} {dir : Folder} {dst : Node} (mode : Nat) : g.date entry = some date →
      m.folder date = some dir →
      dir.lookup entry = some dst → Step g m entry (m.setFolder date (dir.insert entry (dst.chmod mode)))
  | append {date body content : Text} {dir logDir : Folder} {mode mode' : Nat}
      (mode'' : Nat) : g.date entry = some date →
      m.folder date = some dir → m.logDir.lookup entry = some (.file mode body) →
      dir.lookup entry = some (.file mode' content) → (logDir = m.logDir ∨ logDir = m.logDir.erase entry) →
      Step g m entry ({ m with logDir }.setFolder date
        (dir.insert entry (.file mode'' (content ++ g.read body))))

theorem step_of_mem {m m' : Mac} {entry : Text} (h : m' ∈ g.steps today m entry) : Step g m entry m' := by
  unfold steps at h
  cases hdate : g.date entry with
  | none =>
    rw [hdate] at h
    cases h
  | some date =>
    rw [hdate] at h
    dsimp only at h
    split at h
    · cases hb : (m.folder date).bind fun dir => (dir.lookup entry).map (dir, ·) with
      | none =>
        rw [hb] at h
        rw [List.mem_singleton.mp h]
        exact .record date
      | some r =>
        rw [hb] at h
        obtain ⟨dir, hdir, hr⟩ := Option.bind_eq_some_iff.mp hb
        obtain ⟨dst, hdst, rfl⟩ := Option.map_eq_some_iff.mp hr
        have hwritable : Step g m entry (m.setFolder date (dir.insert entry (dst.chmod 0o644))) :=
          .touch 0o644 hdate hdir hdst
        dsimp only at h
        split at h
        · rename_i mode body dst mode' content hsrc
          split at h
          · simp only [List.mem_cons, List.not_mem_nil, or_false] at h
            rcases h with rfl | rfl | rfl | rfl
            · exact hwritable
            · exact .append 0o644 hdate hdir hsrc hdst (Or.inl rfl)
            · exact .append 0o444 hdate hdir hsrc hdst (Or.inl rfl)
            · exact .append 0o444 hdate hdir hsrc hdst (Or.inr rfl)
          · rw [List.mem_singleton.mp h]
            exact hwritable
        · rw [List.mem_singleton.mp h]
          exact hwritable
    · cases h

end

end Merger

/-! ## The day logs -/

/-- What merging can make of a log of `LOG_DIR` and its copy: the copy has the lines of the log once more
for each time that the append was reached. -/
inductive DayMerged (src dst : Option Text) : Option Text → Option Text → Prop
  | same : DayMerged src dst src dst
  | appended {body content content' : Text} {src' : Option Text} (n : Nat) : src = some body →
      dst = some content →
      tail nl content' = [] → fileLines content' = fileLines content ++
        (List.replicate (n + 1) (fileLines body)).flatten →
      (src' = src ∨ src' = none) → DayMerged src dst src' (some content')

section
variable {g : Merger} {today : Text} {src dst src' dst' : Option Text}

theorem fileLines_read (g : Merger) (body : Text) : fileLines (g.read body) = fileLines body := by
  cases g with
  | swift => rfl
  | python => exact fileLines_universalNewlines body

theorem tail_read {body : Text} (h : tail nl body = []) (g : Merger) : tail nl (g.read body) = [] := by
  cases g with
  | swift => exact h
  | python => exact (tail_universalNewlines body).mpr fun b hb => Or.inl ((tail_eq_nil_iff nl body).mp h b hb)

theorem DayMerged.append (h : DayMerged src dst src' dst') (hsrc : ∀ body ∈ src, tail nl body = [])
    (hdst : ∀ content ∈ dst, tail nl content = []) {body content : Text} (hs : src' = some body)
      (hd : dst' = some content)
    (g : Merger) {src'' : Option Text} (hlog : src'' = src' ∨ src'' = none) :
    DayMerged src dst src'' (some (content ++ g.read body)) := by
  cases h with
  | same =>
    have hcontent := hdst content hd
    refine .appended 0 hs hd ?_ ?_ hlog
    · rw [tail_append, hcontent]
      exact tail_read (hsrc body hs) g
    · rw [fileLines_append_closed hcontent, fileLines_read]
      simp
  | @appended body' content' content'' _ n hs' hd' hclosed hlines hlog' =>
    cases hd
    have hbody : body' = body := by
      rcases hlog' with rfl | rfl
      · exact Option.some.inj (hs'.symm.trans hs)
      · cases hs
    subst hbody
    refine .appended (n + 1) hs' hd' ?_ ?_ ?_
    · rw [tail_append, hclosed]
      exact tail_read (hsrc body' hs') g
    · rw [fileLines_append_closed hclosed, fileLines_read, hlines, List.append_assoc,
        List.replicate_succ' (n := n + 1), List.flatten_concat]
    · rcases hlog with rfl | rfl
      · exact hlog'
      · exact Or.inr rfl

end

/-- What is left of `m` when merges are stopped anywhere. -/
structure Merged (m k : Mac) : Prop where
  log : ∀ name ∈ k.logDir, name ∈ m.logDir
  dates : ∀ date ∈ k.archive, date ∈ m.archive
  copy : ∀ name d, (counterpart k d name).isSome → (counterpart m d name).isSome
  day : ∀ d, logRe (logFilename d) = some d →
    DayMerged (m.logText d) (m.copyText d) (k.logText d) (k.copyText d)

/-- Each log ends its last line. -/
structure Mac.Closed (m : Mac) : Prop where
  log : ∀ d, logRe (logFilename d) = some d → ∀ body ∈ m.logText d, tail nl body = []
  copy : ∀ d, logRe (logFilename d) = some d → ∀ content ∈ m.copyText d, tail nl content = []

namespace Merged

variable {m k k' : Mac} {g : Merger} {today entry : Text}

theorem refl (m : Mac) : Merged m m := ⟨fun _ h => h, fun _ h => h, fun _ _ h => h, fun _ _ => .same⟩

theorem setFolder (h : Merged m k) {date : Text} {dir logDir : Folder} {dst node : Node}
    (hdir : k.folder date = some dir)
    (hdst : dir.lookup entry = some dst) (hlog : logDir = k.logDir ∨ logDir = k.logDir.erase entry)
    (hday : ∀ d, logRe (logFilename d) = some d → d = date → entry = logFilename d →
      DayMerged (m.logText d) (m.copyText d) (logOf (logDir.lookup entry)) (logOf (some node)))
    (hdate : ∀ d, logRe (logFilename d) = some d → entry = logFilename d → d = date) :
    Merged m ({ k with logDir }.setFolder date (dir.insert entry node)) where
  log name hname := by
    refine h.log name ?_
    rcases hlog with rfl | rfl
    · exact hname
    · exact ((AList.mem_erase).mp hname).2
  dates date' hdate' := by
    refine h.dates date' ?_
    rcases (AList.mem_insert _).mp hdate' with rfl | hdate'
    · refine AList.lookup_isSome.mp ?_
      cases hl : k.archive.lookup date' with
      | none =>
        rw [Mac.folder, hl] at hdir
        cases hdir
      | some site => rfl
    · exact hdate'
  copy name d hname := by
    refine h.copy name d ?_
    rw [counterpart_setFolder] at hname
    split at hname
    · rename_i hd
      rw [hd, counterpart_some hdir]
      by_cases hn : name = entry
      · rw [hn, hdst]
        rfl
      · rwa [AList.lookup_insert_ne hn] at hname
    · exact hname
  day d hd := by
    have hk := h.day d hd
    unfold Mac.logText Mac.copyText at hk ⊢
    rw [counterpart_setFolder, Mac.logDir_setFolder]
    by_cases hentry : entry = logFilename d
    · have hdd := hdate d hd hentry
      have hmerged := hday d hd hdd hentry
      rw [if_pos hdd, ← hentry, AList.lookup_insert]
      rwa [Mac.logText, Mac.copyText, ← hentry] at hmerged
    · have hlookup : logDir.lookup (logFilename d) = k.logDir.lookup (logFilename d) :=
        OrphanLog.lookup_of_erase hlog (Ne.symm hentry)
      rw [AList.lookup_insert_ne (Ne.symm hentry)]
      dsimp only
      rw [hlookup]
      split
      · rename_i hdd
        have hcopy : counterpart k d (logFilename d) = dir.lookup (logFilename d) := by
          rw [hdd, counterpart_some hdir]
        rwa [hcopy] at hk
      · exact hk

/-- **One step.** -/
theorem step (h : Merged m k) (hm : m.Closed) (hs : Merger.Step g k entry k') : Merged m k' := by
  have hcopyText : ∀ {d date : Text} {dir : Folder} {dst : Node}, k.folder date = some dir →
    dir.lookup entry = some dst →
      d = date → entry = logFilename d → k.copyText d = logOf (some dst) := by
    intro d date dir dst hdir hdst hd hentry
    rw [Mac.copyText, counterpart, hd, hdir, Option.bind_some, ← hd, ← hentry, hdst]
  have hlogText : ∀ {d : Text}, entry = logFilename d → k.logText d = logOf (k.logDir.lookup entry) := by
    intro d hentry
    rw [Mac.logText, ← hentry]
  cases hs with
  | record date => exact ⟨h.log, h.dates, h.copy, h.day⟩
  | @touch date dir dst mode hdate hdir hdst =>
    refine h.setFolder hdir hdst (Or.inl rfl) (fun d hd hdd hentry => ?_) fun d hd hentry => ?_
    · have hday := h.day d hd
      have hchmod : logOf (some (dst.chmod mode)) = logOf (some dst) := by cases dst <;> rfl
      rwa [hlogText hentry, hcopyText hdir hdst hdd hentry, ← hchmod] at hday
    · exact Merger.date_logFilename hd (hentry ▸ hdate)
  | @append date body content dir logDir mode mode' mode'' hdate hdir hsrc hdst hlog =>
    refine h.setFolder hdir hdst hlog (fun d hd hdd hentry => ?_) fun d hd hentry => ?_
    · have hs : k.logText d = some body := by
        rw [hlogText hentry, hsrc]
        rfl
      have hd' : k.copyText d = some content := by
        rw [hcopyText hdir hdst hdd hentry]
        rfl
      refine (h.day d hd).append (hm.log d hd) (hm.copy d hd) hs hd' g ?_
      rcases hlog with rfl | rfl
      · exact Or.inl (hlogText hentry).symm
      · rw [AList.lookup_erase]
        exact Or.inr rfl
    · exact Merger.date_logFilename hd (hentry ▸ hdate)

theorem mergeOne (h : Merged m k) (hm : m.Closed) (g : Merger) (today entry : Text) :
    Merged m (g.mergeOne today k entry).1 := by
  rw [Merger.mergeOne_eq]
  cases hlast : (g.steps today k entry).getLast? with
  | none => exact h
  | some k' => exact h.step hm (Merger.step_of_mem (List.mem_of_getLast? hlast))

/-- **A pass**, stopped at any of its steps. -/
theorem passSteps (h : Merged m k) (hm : m.Closed) {entries : List Text}
    (hk' : k' ∈ g.passSteps today entries k) : Merged m k' := by
  induction entries generalizing k with
  | nil => cases hk'
  | cons entry entries ih =>
    rw [Merger.passSteps] at hk'
    rcases List.mem_append.mp hk' with hk' | hk'
    · exact h.step hm (Merger.step_of_mem hk')
    · split at hk'
      · exact ih (h.mergeOne hm g today entry) hk'
      · cases hk'

theorem pass (h : Merged m k) (hm : m.Closed) (g : Merger) (today : Text) : Merged m (g.pass today k) := by
  rw [Merger.pass_eq]
  cases hlast : (g.passSteps today (sortStrings k.logDir.keys) k).getLast? with
  | none => exact h
  | some k' => exact h.passSteps hm (List.mem_of_getLast? hlast)

end Merged

end VisitLogger
