import VisitLogger.Listing

/-!
# A move during a seal

A host runs `moveOne` while the verifier runs `sealDirectory` on the directory
that the file goes to. Their calls come in any order. The file is in the
manifest unless `moveOne` reads the sealed flag in between: when the seal has
passed the file over, and has not set the flag yet (`manifest_lists`).
-/

namespace VisitLogger

open SnapshotMover (ManifestRow manifestFilename ignoredNames)
open Seal (WritePhase SealPhase)
open Archive (MovePhase)

namespace StragglerRace

structure State where
  mac : Mac
  host : MovePhase
  verifier : SealPhase

inductive Act where
  | host
  | verifier
  deriving DecidableEq, Repr

/-- One of them makes its next call, and it does not throw. -/
def step (cfg : Config) (name date : Text) (s : State) : Act → Option State
  | .host => (s.host.next cfg name date s.mac).map fun r => { s with mac := r.1, host := r.2 }
  | .verifier => (s.verifier.next cfg date s.mac).map fun r => { s with mac := r.1, verifier := r.2 }

def State.init (m : Mac) : State := ⟨m, .createDirectory, .write .fileExists⟩

def State.Finished (s : State) : Prop := (s.host = .done ∨ s.host = .rewrite .done) ∧ s.verifier = .done

instance (s : State) : Decidable s.Finished := inferInstanceAs (Decidable (_ ∧ _))

/-! ## Which files a manifest has or will have -/

/-- The manifest under way lists the file, or it is still to be looked at. -/
def Covers (m : Mac) (date f : Text) : WritePhase → Prop
  | .fileExists | .setAttributes | .removeItem | .contentsOfDirectory => True
  | .lookupEvent files rows => f ∈ files ∨ tsvSanitise f ∈ rows.map ManifestRow.filename
  | .chmod | .done => tsvSanitise f ∈ m.manifestNames date

def SealCovers (m : Mac) (date f : Text) : SealPhase → Prop
  | .write p => Covers m date f p
  | _ => tsvSanitise f ∈ m.manifestNames date

def RowsReadable : WritePhase → Prop
  | .lookupEvent _ rows => ∀ row ∈ rows, Readable row
  | _ => True

structure Counts (cfg : Config) (m : Mac) (date f : Text) : Prop where
  valid : SnapshotName.isValid f = true
  noNul : (0 : Byte) ∉ f
  mem : f ∈ m.files cfg date
  event : Seal.lookupEvent m.db f (cfg.dateSubdir date) ≠ none

/-- What concerns a file stays: its entry, its event rows and the manifest. -/
structure Alike (cfg : Config) (date f : Text) (m m' : Mac) : Prop where
  mem : f ∈ m'.files cfg date → f ∈ m.files cfg date
  event : Seal.lookupEvent m'.db f (cfg.dateSubdir date) = Seal.lookupEvent m.db f (cfg.dateSubdir date)
  manifest : m'.manifestNames date = m.manifestNames date

section
variable {cfg : Config} {name date f : Text} {m m' : Mac}

namespace Alike

theorem counts (h : Alike cfg date f m m') (hc : Counts cfg m' date f) : Counts cfg m date f :=
  ⟨hc.valid, hc.noNul, h.mem hc.mem, h.event ▸ hc.event⟩

theorem covers (h : Alike cfg date f m m') {p : WritePhase} (hc : Covers m date f p) : Covers m' date f p := by
  unfold Covers at hc ⊢
  split at hc
  all_goals first | trivial | exact hc | rwa [h.manifest]

theorem sealCovers (h : Alike cfg date f m m') {p : SealPhase} (hc : SealCovers m date f p) :
    SealCovers m' date f p := by
  unfold SealCovers at hc ⊢
  split at hc
  · exact h.covers hc
  · rwa [h.manifest]

theorem refl (m : Mac) : Alike cfg date f m m := ⟨id, rfl, rfl⟩

theorem setFolder {dir : Folder} (hf : dir.lookup f = ((m.folder date).getD ∅).lookup f)
    (hm : dir.lookup manifestFilename = ((m.folder date).getD ∅).lookup manifestFilename) :
    Alike cfg date f m (m.setFolder date dir) := by
  refine ⟨fun h => ?_, rfl, ?_⟩
  · rw [Mac.files, Mac.folder_setFolder, Option.getD_some, Folder.mem_files, hf] at h
    rw [Mac.files, Folder.mem_files]
    exact h
  · rw [Mac.manifestNames, Mac.manifestNames, Mac.folder_setFolder, Option.getD_some, Verify.manifestRows, hm]
    rfl

theorem insert {dir : Folder} {g : Text} (node : Node) (hdir : m.folder date = some dir) (hfg : f ≠ g)
    (hmg : manifestFilename ≠ g) :
    Alike cfg date f m (m.setFolder date (dir.insert g node)) := by
  refine setFolder ?_ ?_
  · rw [AList.lookup_insert_ne hfg, hdir]
    rfl
  · rw [AList.lookup_insert_ne hmg, hdir]
    rfl

theorem db {db : Db} (h : Seal.lookupEvent db f (cfg.dateSubdir date) =
    Seal.lookupEvent m.db f (cfg.dateSubdir date)) :
    Alike cfg date f m { m with db } := ⟨id, h, rfl⟩

end Alike

theorem Counts.of_setFolder {dir : Folder} (hf : dir.lookup f = ((m.folder date).getD ∅).lookup f)
    (h : Counts cfg (m.setFolder date dir) date f) : Counts cfg m date f := by
  have hmem := h.mem
  rw [Mac.files, Mac.folder_setFolder, Option.getD_some, Folder.mem_files, hf] at hmem
  exact ⟨h.valid, h.noNul, by rwa [Mac.files, Folder.mem_files], h.event⟩

theorem covers_next {p p' : WritePhase} (h : p.next cfg date m = some (m', p')) (hr : RowsReadable p) :
    RowsReadable p' ∧ m'.db = m.db ∧ m'.logDir = m.logDir ∧
      ∀ f, Counts cfg m' date f → Counts cfg m date f ∧ (Covers m date f p → Covers m' date f p') := by
  have hne : ∀ {m : Mac} {f : Text}, Counts cfg m date f → f ≠ manifestFilename := fun hc =>
    SnapshotName.ne_manifestFilename hc.valid
  cases p with
  | fileExists =>
    cases h
    refine ⟨?_, rfl, rfl, fun f hc => ⟨hc, fun _ => ?_⟩⟩
    · split <;> trivial
    · split <;> trivial
  | setAttributes =>
    obtain ⟨dir, hdir, h⟩ := Option.map_eq_some_iff.mp h
    split at h
    · cases h
      exact ⟨trivial, rfl, rfl, fun f hc => ⟨hc, fun _ => trivial⟩⟩
    · cases h
      refine ⟨trivial, rfl, rfl, fun f hc => ⟨hc.of_setFolder ?_, fun _ => trivial⟩⟩
      rw [AList.lookup_insert_ne (hne hc), hdir]
      rfl
  | removeItem =>
    obtain ⟨dir, hdir, h⟩ := Option.bind_eq_some_iff.mp h
    split at h
    · cases h
      refine ⟨trivial, rfl, rfl, fun f hc => ⟨hc.of_setFolder ?_, fun _ => trivial⟩⟩
      rw [AList.lookup_erase_ne (hne hc), hdir]
      rfl
    · cases h
  | contentsOfDirectory =>
    obtain ⟨dir, hdir, h⟩ := Option.map_eq_some_iff.mp h
    cases h
    refine ⟨nofun, rfl, rfl, fun f hc => ⟨hc, fun _ => Or.inl (mem_sortStrings.mpr ?_)⟩⟩
    have hmem := hc.mem
    rwa [Mac.files, hdir] at hmem
  -- a file with an event row is still to be looked up, or has its row already
  | lookupEvent files rows =>
    cases files with
    | cons g files =>
      cases h
      refine ⟨fun row hrow => ?_, rfl, rfl, fun f hc => ⟨hc, fun hcov => ?_⟩⟩
      · rcases List.mem_append.mp hrow with hrow | hrow
        · exact hr row hrow
        · exact Seal.readable_listed (Option.mem_toList.mp hrow)
      · have hrows : ∀ rows' : List ManifestRow, tsvSanitise f ∈ rows.map ManifestRow.filename →
            tsvSanitise f ∈ (rows ++ rows').map ManifestRow.filename := by
          intro rows' hf
          rw [List.map_append]
          exact List.mem_append_left _ hf
        obtain hmem | hmem := hcov
        · rcases List.mem_cons.mp hmem with rfl | hmem
          · -- it has an event row, so it gets a row
            obtain ⟨row, hrow⟩ := Seal.listed_isSome hc.valid hc.event
            refine Or.inr ?_
            rw [hrow, ← Seal.listed_filename hrow, List.map_append]
            exact List.mem_append_right _ (by simp)
          · exact Or.inl hmem
        · exact Or.inr (hrows _ hmem)
    | nil =>
      obtain ⟨dir, hdir, h⟩ := Option.map_eq_some_iff.mp h
      cases h
      refine ⟨trivial, rfl, rfl, fun f hc => ⟨hc.of_setFolder ?_, fun hcov => ?_⟩⟩
      · rw [AList.lookup_insert_ne (hne hc), hdir]
        rfl
      · -- no file is left to look up, so the rows written cover it
        rw [Covers, Seal.manifestNames_text (Mac.folder_setFolder _ _ _) (AList.lookup_insert _) hr]
        exact hcov.resolve_left nofun
  | chmod =>
    obtain ⟨dir, hdir, h⟩ := Option.bind_eq_some_iff.mp h
    obtain ⟨manifest, hman, h⟩ := Option.map_eq_some_iff.mp h
    cases h
    refine ⟨trivial, rfl, rfl, fun f hc => ⟨hc.of_setFolder ?_, fun hcov => ?_⟩⟩
    · rw [AList.lookup_insert_ne (hne hc), hdir]
      rfl
    · rw [Covers, Mac.manifestNames, Mac.folder_setFolder, Option.getD_some, Verify.manifestRows,
        AList.lookup_insert]
      rw [Covers, Mac.manifestNames, hdir, Option.getD_some, Verify.manifestRows, hman] at hcov
      cases manifest <;> exact hcov
  | done => cases h

def SealReadable : SealPhase → Prop
  | .write p => RowsReadable p
  | _ => True

def flag : SealPhase → Nat
  | .done => 1
  | _ => 0

theorem flag_eq_one {p : SealPhase} (h : flag p = 1) : p = .done := by
  cases p with
  | done => rfl
  | _ => cases h

theorem sealCovers_next {p p' : SealPhase} (h : p.next cfg date m = some (m', p')) (hr : SealReadable p) :
    SealReadable p' ∧ (m.db.sealedOf date = some (flag p) → m'.db.sealedOf date = some (flag p')) ∧
      ∀ f, Counts cfg m' date f → Counts cfg m date f ∧ (SealCovers m date f p → SealCovers m' date f p') := by
  have hlog : ∀ {m : Mac} {f : Text}, Counts cfg m date f → f ≠ logFilename date := fun hc =>
    SnapshotName.ne_logFilename hc.valid date
  have hman : manifestFilename ≠ logFilename date := (Seal.logFilename_ne_manifest date).symm
  cases p with
  | write q =>
    by_cases hq : q = .done
    · subst hq
      rw [SealPhase.next] at h
      split at h
      · cases h
        exact ⟨trivial, id, fun f hc => ⟨hc, id⟩⟩
      · cases h
        exact ⟨trivial, id, fun f hc => ⟨hc, id⟩⟩
    · rw [SealPhase.next] at h
      · obtain ⟨⟨m₁, q'⟩, hnext, he⟩ := Option.map_eq_some_iff.mp h
        cases he
        obtain ⟨hr', hdb, -, hcov⟩ := covers_next hnext hr
        exact ⟨hr', fun hrow => by rw [hdb]; exact hrow, hcov⟩
      · exact hq
  | moveItem =>
    obtain ⟨dir, hdir, h⟩ := Option.bind_eq_some_iff.mp h
    obtain ⟨log, -, h⟩ := Option.bind_eq_some_iff.mp h
    split at h
    · cases h
    · cases h
      have halike : ∀ f, f ≠ logFilename date → Alike cfg date f m
          (({ m with logDir := m.logDir.erase (logFilename date) } : Mac).setFolder date
            (dir.insert (logFilename date) log)) :=
        fun f hf =>
          have h : Alike cfg date f _ _ :=
            Alike.insert (m := { m with logDir := m.logDir.erase (logFilename date) }) log hdir hf hman
          ⟨h.mem, h.event, h.manifest⟩
      exact ⟨trivial, id, fun f hc => ⟨(halike f (hlog hc)).counts hc,
        fun hcov => (halike f (hlog hc)).sealCovers hcov⟩⟩
  | chmodLog =>
    obtain ⟨dir, hdir, h⟩ := Option.bind_eq_some_iff.mp h
    obtain ⟨log, -, h⟩ := Option.map_eq_some_iff.mp h
    cases h
    have halike : ∀ f, f ≠ logFilename date → Alike cfg date f m
        (m.setFolder date (dir.insert (logFilename date) (log.chmod 0o444))) := fun f hf =>
          Alike.insert _ hdir hf hman
    exact ⟨trivial, id, fun f hc => ⟨(halike f (hlog hc)).counts hc,
      fun hcov => (halike f (hlog hc)).sealCovers hcov⟩⟩
  | markSealed =>
    cases h
    have halike : ∀ f, Alike cfg date f m { m with db := m.db.upsertSnapshot date 1 } := fun f =>
      .db (Seal.lookupEvent_upsertSnapshot _ _ _ _ _)
    exact ⟨trivial, fun _ => Db.sealedOf_upsertSnapshot_self _ _ _,
      fun f hc => ⟨(halike f).counts hc, fun hcov => (halike f).sealCovers hcov⟩⟩
  | done => cases h

def Settled : MovePhase → Prop
  | .querySealed | .insertSnapshot _ | .removeSource _ => True
  | _ => False

theorem alike_next {p p' : MovePhase} (hv : SnapshotName.isValid name = true)
    (h : p.next cfg name date m = some (m', p'))
    (hp : ∀ q, p ≠ .rewrite q) {f : Text} (hf : (0 : Byte) ∉ f) (hfn : f ≠ name ∨ Settled p) :
      Alike cfg date f m m' := by
  have hman : manifestFilename ≠ name := (SnapshotName.ne_manifestFilename hv).symm
  cases p with
  | createDirectory =>
    -- an empty folder is made, if there is none
    obtain ⟨m₁, hm, he⟩ := Option.map_eq_some_iff.mp h
    cases he
    unfold Mac.createDirectory at hm
    split at hm
    · cases hm
      exact .refl _
    · cases hm
    · rename_i hn
      cases hm
      have hfolder : (m.folder date).getD ∅ = ∅ := by
        rw [Mac.folder, hn]
        rfl
      exact .setFolder (by rw [hfolder]) (by rw [hfolder])
  | fileExists =>
    obtain ⟨dir, hdir, h⟩ := Option.map_eq_some_iff.mp h
    split at h
    · cases h
      exact .refl _
    · cases h
      exact .insert _ hdir (hfn.resolve_right id) hman
  | removeItem =>
    obtain ⟨dir, hdir, h⟩ := Option.bind_eq_some_iff.mp h
    split at h
    · cases h
      refine .setFolder ?_ ?_
      · rw [AList.lookup_erase_ne (hfn.resolve_right id), hdir]
        rfl
      · rw [AList.lookup_erase_ne hman, hdir]
        rfl
    · cases h
  | copyItem =>
    obtain ⟨dir, hdir, h⟩ := Option.bind_eq_some_iff.mp h
    obtain ⟨source, -, h⟩ := Option.bind_eq_some_iff.mp h
    split at h
    · cases h
    · cases h
      exact .insert _ hdir (hfn.resolve_right id) hman
  | chmodDest =>
    obtain ⟨dir, hdir, h⟩ := Option.bind_eq_some_iff.mp h
    obtain ⟨dest, -, h⟩ := Option.map_eq_some_iff.mp h
    cases h
    exact .insert _ hdir (hfn.resolve_right id) hman
  | update t =>
    cases h
    exact .db (Seal.lookupEvent_updateDirectory hf (hfn.resolve_right id) _ _ _ _ _)
  | querySealed =>
    cases h
    exact .refl _
  | insertSnapshot b =>
    cases h
    exact .db rfl
  | removeSource b =>
    rw [MovePhase.next] at h
    split at h
    · cases h
      exact ⟨id, rfl, rfl⟩
    · cases h
  | rewrite q => exact absurd rfl (hp q)
  | done => cases h

theorem sealedOf_next {p p' : MovePhase} {n : Nat} (h : p.next cfg name date m = some (m', p'))
    (hp : ∀ q, p ≠ .rewrite q)
    (hr : m.db.sealedOf date = some n) : m'.db.sealedOf date = some n := by
  cases p with
  | createDirectory =>
    obtain ⟨m₁, hm, he⟩ := Option.map_eq_some_iff.mp h
    cases he
    unfold Mac.createDirectory at hm
    split at hm
    · cases hm
      exact hr
    · cases hm
    · cases hm
      exact hr
  | fileExists =>
    obtain ⟨dir, -, h⟩ := Option.map_eq_some_iff.mp h
    split at h <;> (cases h; exact hr)
  | removeItem =>
    obtain ⟨dir, -, h⟩ := Option.bind_eq_some_iff.mp h
    split at h
    · cases h
      exact hr
    · cases h
  | copyItem =>
    obtain ⟨dir, -, h⟩ := Option.bind_eq_some_iff.mp h
    obtain ⟨source, -, h⟩ := Option.bind_eq_some_iff.mp h
    split at h
    · cases h
    · cases h
      exact hr
  | chmodDest =>
    obtain ⟨dir, -, h⟩ := Option.bind_eq_some_iff.mp h
    obtain ⟨dest, -, h⟩ := Option.map_eq_some_iff.mp h
    cases h
    exact hr
  | update t =>
    cases h
    rw [Db.sealedOf, Db.snapshots_updateDirectory]
    exact hr
  | querySealed =>
    cases h
    exact hr
  | insertSnapshot b =>
    cases h
    rw [Db.sealedOf_insertSnapshot, if_pos rfl, hr]
    rfl
  | removeSource b =>
    rw [MovePhase.next] at h
    split at h
    · cases h
      exact hr
    · cases h
  | rewrite q => exact absurd rfl (hp q)
  | done => cases h

/-! ## The runs -/

def Owed : MovePhase → Prop
  | .insertSnapshot b | .removeSource b => b = false
  | .done => True
  | _ => False

def Straggling : MovePhase → Prop
  | .insertSnapshot b | .removeSource b => b = true
  | .rewrite _ => True
  | _ => False

/-- The seal answers for the files, until the move rewrites the manifest. -/
structure Inv (cfg : Config) (name date : Text) (s : State) : Prop where
  row : s.mac.db.sealedOf date = some (flag s.verifier)
  straggling : Straggling s.host → s.verifier = .done
  readable : SealReadable s.verifier
  covered : (∀ p, s.host ≠ .rewrite p) → ∀ f, Counts cfg s.mac date f → f ≠ name ∨ Owed s.host →
    SealCovers s.mac date f s.verifier
  rewritten : ∀ p, s.host = .rewrite p → RowsReadable p ∧ ∀ f, Counts cfg s.mac date f → Covers s.mac date f p

/-- When the move reads the flag, the seal has set it, or it will list the file: it has not
listed the directory yet, still has the file to look up, or has it in its rows. -/
def Detected (cfg : Config) (name date : Text) (s : State) (a : Act) : Prop :=
  a = .host → s.host = .querySealed → s.verifier = .done ∨
    (Counts cfg s.mac date name → SealCovers s.mac date name s.verifier)

theorem Inv.init {m : Mac} (hrow : m.db.sealedOf date = some 0) : Inv cfg name date (.init m) where
  row := hrow
  straggling h := h.elim
  readable := trivial
  covered _ _ _ _ := trivial
  rewritten _ h := by cases h

theorem Inv.verifier {s s' : State} (h : Inv cfg name date s) (hs : step cfg name date s .verifier = some s') :
    Inv cfg name date s' := by
  obtain ⟨⟨m', v'⟩, hnext, rfl⟩ := Option.map_eq_some_iff.mp hs
  obtain ⟨hread, hrow, hcov⟩ := sealCovers_next hnext h.readable
  have hlive : s.verifier ≠ .done := by
    intro hv
    rw [hv] at hnext
    cases hnext
  refine ⟨hrow h.row, fun hst => absurd (h.straggling hst) hlive, hread, fun hp f hc hf => ?_, fun p hp => ?_⟩
  · obtain ⟨hc, hstep⟩ := hcov f hc
    exact hstep (h.covered hp f hc hf)
  · have hst : Straggling s.host := by
      rw [show s.host = .rewrite p from hp]
      trivial
    exact absurd (h.straggling hst) hlive

theorem Inv.rewrite {s s' : State} (h : Inv cfg name date s) {p : WritePhase} (hp : s.host = .rewrite p)
    (hs : step cfg name date s .host = some s') : Inv cfg name date s' := by
  obtain ⟨⟨m', h'⟩, hnext, rfl⟩ := Option.map_eq_some_iff.mp hs
  rw [hp] at hnext
  obtain ⟨⟨m₁, p'⟩, hwrite, he⟩ := Option.map_eq_some_iff.mp hnext
  cases he
  obtain ⟨hr, hcov⟩ := h.rewritten p hp
  obtain ⟨hr', hdb, -, hcov'⟩ := covers_next hwrite hr
  have hst : Straggling s.host := by
    rw [hp]
    trivial
  refine ⟨?_, fun _ => h.straggling hst, h.readable, fun hn => absurd rfl (hn p'), fun q hq => ?_⟩
  · rw [hdb]
    exact h.row
  · cases hq
    refine ⟨hr', fun f hc => ?_⟩
    obtain ⟨hc, hstep⟩ := hcov' f hc
    exact hstep (hcov f hc)

/-- What a move that is not rewriting owes after a call, it has owed before, but for the one
that reads the flag. -/
theorem owed_next {p p' : MovePhase} (h : p.next cfg name date m = some (m', p')) (hp : ∀ q, p ≠ .rewrite q) :
    (Owed p' → Owed p ∧ Settled p ∨ p = .querySealed ∧ m.db.sealedOf date ≠ some 1) ∧
      (Straggling p' → Straggling p ∨ p = .querySealed ∧ m.db.sealedOf date = some 1) ∧
      ∀ q, p' = .rewrite q → q = .fileExists := by
  cases p with
  | createDirectory =>
    obtain ⟨m₁, -, he⟩ := Option.map_eq_some_iff.mp h
    cases he
    exact ⟨False.elim, False.elim, fun q hq => by cases hq⟩
  | fileExists =>
    obtain ⟨dir, -, h⟩ := Option.map_eq_some_iff.mp h
    split at h <;> (cases h; exact ⟨False.elim, False.elim, fun q hq => by cases hq⟩)
  | removeItem =>
    obtain ⟨dir, -, h⟩ := Option.bind_eq_some_iff.mp h
    split at h
    · cases h
      exact ⟨False.elim, False.elim, fun q hq => by cases hq⟩
    · cases h
  | copyItem =>
    obtain ⟨dir, -, h⟩ := Option.bind_eq_some_iff.mp h
    obtain ⟨source, -, h⟩ := Option.bind_eq_some_iff.mp h
    split at h
    · cases h
    · cases h
      exact ⟨False.elim, False.elim, fun q hq => by cases hq⟩
  | chmodDest =>
    obtain ⟨dir, -, h⟩ := Option.bind_eq_some_iff.mp h
    obtain ⟨dest, -, h⟩ := Option.map_eq_some_iff.mp h
    cases h
    exact ⟨False.elim, False.elim, fun q hq => by cases hq⟩
  | update t =>
    cases h
    cases t <;> exact ⟨False.elim, False.elim, fun q hq => by cases hq⟩
  | querySealed =>
    cases h
    exact ⟨fun ho => Or.inr ⟨rfl, of_decide_eq_false ho⟩, fun hst => Or.inr ⟨rfl, of_decide_eq_true hst⟩,
      fun q hq => by cases hq⟩
  | insertSnapshot b =>
    cases h
    exact ⟨fun ho => Or.inl ⟨ho, trivial⟩, fun hst => Or.inl hst, fun q hq => by cases hq⟩
  | removeSource b =>
    rw [MovePhase.next] at h
    split at h
    · cases h
      cases b with
      | false => exact ⟨fun _ => Or.inl ⟨rfl, trivial⟩, fun hst => (by cases hst), fun q hq => by cases hq⟩
      | true =>
        refine ⟨fun ho => (by cases ho), fun _ => Or.inl rfl, fun q hq => ?_⟩
        cases hq
        rfl
    · cases h
  | rewrite q => exact absurd rfl (hp q)
  | done => cases h

theorem Inv.host {s s' : State} (hv : SnapshotName.isValid name = true) (h : Inv cfg name date s)
    (ha : Detected cfg name date s .host) (hs : step cfg name date s .host = some s') :
      Inv cfg name date s' := by
  by_cases hp : ∀ q, s.host ≠ .rewrite q
  · obtain ⟨⟨m', p'⟩, hnext, rfl⟩ := Option.map_eq_some_iff.mp hs
    obtain ⟨howed, hstrag, hrew⟩ := owed_next hnext hp
    refine ⟨sealedOf_next hnext hp h.row, fun hst => ?_, h.readable, fun hn f hc hf => ?_, fun q hq => ?_⟩
    · obtain hst | ⟨-, hrow⟩ := hstrag hst
      · exact h.straggling hst
      · -- the row says that the seal is over
        rw [h.row] at hrow
        exact flag_eq_one (Option.some.inj hrow)
    · by_cases hfn : f = name
      · subst hfn
        obtain ⟨ho, hset⟩ | ⟨hquery, hrow⟩ := howed (hf.resolve_left fun hne => hne rfl)
        · have halike := alike_next hv hnext hp hc.noNul (Or.inr hset)
          exact halike.sealCovers (h.covered hp f (halike.counts hc) (Or.inr ho))
        · have hset : Settled s.host := by
            rw [hquery]
            trivial
          have halike := alike_next hv hnext hp hc.noNul (Or.inr hset)
          obtain hdone | hcov := ha rfl hquery
          · exact absurd (by rw [h.row, hdone]; rfl) hrow
          · exact halike.sealCovers (hcov (halike.counts hc))
      · have halike := alike_next hv hnext hp hc.noNul (Or.inl hfn)
        exact halike.sealCovers (h.covered hp f (halike.counts hc) (Or.inl hfn))
    · cases hrew q hq
      exact ⟨trivial, fun _ _ => trivial⟩
  · simp only [not_forall, not_not] at hp
    obtain ⟨p, hp⟩ := hp
    exact h.rewrite hp hs

/-- **The manifest lists every file that counts**, if `moveOne` never reads the flag between
the seal's passing its file over and the seal's setting the flag. -/
theorem manifest_lists (cfg : Config) (m : Mac) {name date : Text} (hv : SnapshotName.isValid name = true)
    (hrow : m.db.sealedOf date = some 0) {acts : List Act} {s : State}
    (ho : Runs.Obeys (step cfg name date) (Detected cfg name date) (.init m) acts)
    (hr : Runs.run (step cfg name date) (.init m) acts = some s) (hf : s.Finished) :
    s.mac.db.sealedOf date = some 1 ∧
      ∀ f ∈ s.mac.files cfg date, SnapshotName.isValid f = true → (0 : Byte) ∉ f →
        Seal.lookupEvent s.mac.db f (cfg.dateSubdir date) ≠ none →
          tsvSanitise f ∈ s.mac.manifestNames date := by
  have hinv : Inv cfg name date s := by
    refine Runs.run_invariant (fun s a s' h ha hs => ?_) (Inv.init hrow) ho hr
    cases a with
    | host => exact h.host hv ha hs
    | verifier => exact h.verifier hs
  obtain ⟨hhost, hdone⟩ := hf
  refine ⟨by rw [hinv.row, hdone]; rfl, fun f hmem hvf h0 he => ?_⟩
  have hc : Counts cfg s.mac date f := ⟨hvf, h0, hmem, he⟩
  obtain hp | hp := hhost
  · have hcov := hinv.covered (fun p h => by rw [hp] at h; cases h) f hc (Or.inr (by rw [hp]; trivial))
    rwa [hdone] at hcov
  · exact (hinv.rewritten _ hp).2 f hc

end

/-! ## Two orders -/

instance (cfg : Config) (m : Mac) (date f : Text) : Decidable (Counts cfg m date f) :=
  decidable_of_iff (SnapshotName.isValid f = true ∧ (0 : Byte) ∉ f ∧ f ∈ m.files cfg date ∧
    Seal.lookupEvent m.db f (cfg.dateSubdir date) ≠ none)
    ⟨fun ⟨hv, h0, hm, he⟩ => ⟨hv, h0, hm, he⟩, fun h => ⟨h.valid, h.noNul, h.mem, h.event⟩⟩

instance (m : Mac) (date f : Text) (p : SealPhase) : Decidable (SealCovers m date f p) :=
  match p with
  | .write .fileExists | .write .setAttributes | .write .removeItem | .write .contentsOfDirectory =>
      inferInstanceAs (Decidable True)
  | .write (.lookupEvent _ _) => inferInstanceAs (Decidable (_ ∨ _))
  | .write .chmod | .write .done | .moveItem | .chmodLog | .markSealed | .done =>
      inferInstanceAs (Decidable (_ ∈ _))

instance (cfg : Config) (name date : Text) (s : State) (a : Act) : Decidable (Detected cfg name date s a) := by
  unfold Detected
  infer_instance

def oneFile : Mac :=
  { downloads := AList.singleton Verify.snapshot (.file 0o644 [])
    logDir := ∅
    archive := AList.singleton Seal.newYear (.folder ∅)
    db := { Db.empty [] with
      readEvents := [⟨ascii "u", ascii "t", Verify.snapshot, Seal.archiveConfig.downloadsSnapshotsDir⟩]
      snapshots := [(Seal.newYear, 0)] } }

/-- The seal first: the move sees it, and rewrites the manifest. -/
theorem manifest_lists_inTurn : ∃ s, Runs.run (step Seal.archiveConfig Verify.snapshot Seal.newYear)
    (.init oneFile)
    (List.replicate 6 .verifier ++ List.replicate 16 .host) = some s ∧ s.Finished ∧
      s.mac.db.sealedOf Seal.newYear = some 1 ∧
        ∀ f ∈ s.mac.files Seal.archiveConfig Seal.newYear, SnapshotName.isValid f = true → (0 : Byte) ∉ f →
          Seal.lookupEvent s.mac.db f (Seal.archiveConfig.dateSubdir Seal.newYear) ≠ none →
            tsvSanitise f ∈ s.mac.manifestNames Seal.newYear := by
  have ho : Runs.Obeys (step Seal.archiveConfig Verify.snapshot Seal.newYear)
      (Detected Seal.archiveConfig Verify.snapshot Seal.newYear) (.init oneFile)
      (List.replicate 6 .verifier ++ List.replicate 16 .host) := by decide
  exact ⟨_, rfl, by decide, manifest_lists Seal.archiveConfig oneFile (by decide) (by decide) ho rfl
    (by decide)⟩

/-- The seal lists the directory before the copy, and sets the flag after the move has read it. -/
theorem straggler_missed : ∃ s, Runs.run (step Seal.archiveConfig Verify.snapshot Seal.newYear) (.init oneFile)
    (List.replicate 2 .verifier ++ List.replicate 9 .host ++ List.replicate 4 .verifier) = some s ∧ s.Finished ∧
      s.mac.db.sealedOf Seal.newYear = some 1 ∧ SnapshotName.isValid Verify.snapshot = true ∧
        Verify.snapshot ∈ s.mac.files Seal.archiveConfig Seal.newYear ∧
        Seal.lookupEvent s.mac.db Verify.snapshot (Seal.archiveConfig.dateSubdir Seal.newYear) ≠ none ∧
          tsvSanitise Verify.snapshot ∉ s.mac.manifestNames Seal.newYear :=
  ⟨_, rfl, by decide, by decide, by decide, by decide, by decide, by decide⟩

end StragglerRace

end VisitLogger
