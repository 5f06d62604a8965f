import VisitLogger.Rebuild

/-!
# Rehydrating from the archive

The second phase of `visits_rebuilder`: the archive's date directories give
back the snapshots table, and the event rows of archived files the directory
that their file was moved to. `rebuild` is the whole tool.
-/

namespace VisitLogger

/-! ## Statements -/

namespace Db

/-- `INSERT INTO snapshots (date, sealed) VALUES (?, ?) ON CONFLICT(date) DO UPDATE SET sealed = excluded.sealed` -/
def upsertSnapshot (db : Db) (date : Text) (isSealed : Nat) : Db :=
  if Table.has Prod.fst date db.snapshots then
    { db with snapshots := (Table.updateWhere (fun s => s.1 = date) (fun s => (s.1, isSealed)) db.snapshots).1 }
  else { db with snapshots := db.snapshots ++ [(date, isSealed)] }

/-- `UPDATE <events> SET directory = ? WHERE filename = ? AND directory = ?`, and the rows changed. -/
def updateDirectory (db : Db) (t : EventsTable) (directory filename old : Text) : Db × Nat :=
  let r := Table.updateWhere (fun e => e.filename = filename && e.directory = old)
    (fun e => { e with directory }) (db.events t)
  (db.setEvents t r.1, r.2)

end Db

namespace VisitsRebuilder

/-! ## The archive -/

structure RehydrateStats where
  snapshotsUpserted : Nat := 0
  sealedDirs : Nat := 0
  unsealedDirs : Nat := 0
  eventsRelocated : Nat := 0
  filesWithoutEvents : Nat := 0
  deriving DecidableEq, Repr

/-- The archive as `os.listdir` shows it: a date directory has its entries. -/
abbrev Archive := List (Text × Option Dir)

def manifestFilename : Text := ascii "MANIFEST.tsv"

variable (icloudDir downloads : Text)

def relocateFile (dateDir : Text) (s : Db × RehydrateStats) (fname : Text) : Db × RehydrateStats :=
  let read := s.1.updateDirectory .read dateDir fname downloads
  let skimmed := read.1.updateDirectory .skimmed dateDir fname downloads
  let relocatedHere := read.2 + skimmed.2
  (skimmed.1,
    if relocatedHere > 0 then { s.2 with eventsRelocated := s.2.eventsRelocated + relocatedHere }
    else { s.2 with filesWithoutEvents := s.2.filesWithoutEvents + 1 })

/-- The files of a date directory that may have an event, in the order of `sorted(os.listdir(...))`. -/
def snapshotFiles (entry : Text) (dateDir : Dir) : List Text :=
  (sortStrings (dateDir.map Prod.fst)).filter fun fname =>
    fname ≠ manifestFilename && fname ≠ logFilename entry && (snapshotFilenameRe fname).isSome

def rehydrateDate (s : Db × RehydrateStats) (entry : Text) (dateDir : Dir) : Db × RehydrateStats :=
  let isSealed := if manifestFilename ∈ dateDir.map Prod.fst then 1 else 0
  let stats := { s.2 with
    snapshotsUpserted := s.2.snapshotsUpserted + 1
    sealedDirs := s.2.sealedDirs + isSealed
    unsealedDirs := s.2.unsealedDirs + (1 - isSealed) }
  (snapshotFiles entry dateDir).foldl (relocateFile downloads (osPathJoin icloudDir entry))
    (s.1.upsertSnapshot entry isSealed, stats)

/-- `rehydrate_filesystem`; an archive that is no directory is `none`. -/
def rehydrateFilesystem (db : Db) (archive : Option Archive) : Db × RehydrateStats :=
  match archive with
  | none => (db, {})
  | some entries =>
    (entries.insertionSort fun a b => a.1 ≤ b.1).foldl (fun s e =>
      match e.2 with
      | some dateDir => if dateDirRe e.1 then rehydrateDate icloudDir downloads s e.1 dateDir else s
      | none => s) (db, {})

/-! ## The tool -/

structure RebuildStats where
  replay : Option ReplayStats
  rehydrate : Option RehydrateStats
  truncated : Bool
  deriving DecidableEq, Repr

/-- The `do_log`, `do_rehydrate` and `truncate` arguments. -/
structure Options where
  doLog : Bool := true
  doRehydrate : Bool := true
  truncate : Bool := true
  deriving DecidableEq, Repr

/-- The tables are created with `downloads`, which `cli` also makes the host's, as their default directory. -/
def rebuild (opts : Options) (db : Db) (logDir : Option Dir) (archive : Option Archive) : Db × RebuildStats :=
  let db := if opts.truncate then Db.empty downloads else db
  let replay := if opts.doLog then some (replayLogs downloads db logDir archive) else none
  let db := (replay.map Prod.fst).getD db
  let rehydrate := if opts.doRehydrate then some (rehydrateFilesystem icloudDir downloads db archive) else none
  ((rehydrate.map Prod.fst).getD db, ⟨replay.map Prod.snd, rehydrate.map Prod.snd, opts.truncate⟩)

end VisitsRebuilder

/-! ## The sealed column -/

theorem Db.sealedOf_upsertSnapshot (db : Db) (date : Text) (n : Nat) (date' : Text) :
    (db.upsertSnapshot date n).sealedOf date' = if date = date' then some n else db.sealedOf date' := by
  unfold sealedOf upsertSnapshot
  by_cases h : date ∈ db.snapshots.map Prod.fst
  · rw [if_pos ((Table.has_iff Prod.fst).mpr h)]
    dsimp only
    rw [Table.find_updateWhere Prod.fst (fun s => s.1 = date) (fun s => (s.1, n)) _ (fun _ => rfl),
      Option.map_map]
    by_cases hd : date = date'
    · subst hd
      rw [if_pos rfl]
      obtain ⟨x, hx, hxd⟩ := List.mem_map.mp h
      have hsome : (db.snapshots.find? fun s => s.1 = date).isSome :=
        List.find?_isSome.mpr ⟨x, hx, by simp [hxd]⟩
      obtain ⟨y, hy⟩ := Option.isSome_iff_exists.mp hsome
      have hyd : y.1 = date := by simpa using List.find?_some hy
      simp [hy, hyd]
    · rw [if_neg hd]
      cases hf : db.snapshots.find? fun s => s.1 = date' with
      | none => rfl
      | some y =>
        have hyd : y.1 = date' := by simpa using List.find?_some hf
        have hne : y.1 ≠ date := fun e => hd (e.symm.trans hyd)
        simp [hne]
  · rw [if_neg fun c => h ((Table.has_iff Prod.fst).mp c)]
    dsimp only
    rw [List.find?_append]
    by_cases hd : date = date'
    · subst hd
      have hnone : db.snapshots.find? (fun s => s.1 = date) = none := by
        rw [List.find?_eq_none]
        intro x hx hxd
        exact h (List.mem_map.mpr ⟨x, hx, by simpa using hxd⟩)
      simp [hnone]
    · simp [hd]

theorem Db.sealedOf_upsertSnapshot_self (db : Db) (date : Text) (n : Nat) :
    (db.upsertSnapshot date n).sealedOf date = some n := by
  rw [sealedOf_upsertSnapshot, if_pos rfl]

theorem Db.sealed_upsertSnapshot {db : Db} {date date' : Text} (h : db.sealedOf date' = some 1) :
    (db.upsertSnapshot date 1).sealedOf date' = some 1 := by
  rw [sealedOf_upsertSnapshot]
  split
  · rfl
  · exact h

theorem Db.sealedOf_insertSnapshot (db : Db) (date date' : Text) :
    (db.insertSnapshot date).sealedOf date' =
      if date = date' then some ((db.sealedOf date').getD 0) else db.sealedOf date' := by
  unfold sealedOf insertSnapshot
  rw [Table.find_insertOrIgnore Prod.fst]
  split
  · rename_i h
    subst h
    cases db.snapshots.find? fun s => s.1 = date <;> rfl
  · rw [Option.or_none]

theorem Db.snapshots_updateDirectory (db : Db) (t : EventsTable) (directory filename old : Text) :
    (db.updateDirectory t directory filename old).1.snapshots = db.snapshots := by cases t <;> rfl

/-! ## Rehydrating leaves the rows alone -/

theorem Db.rows_upsertSnapshot (db : Db) (date : Text) (isSealed : Nat) :
    (db.upsertSnapshot date isSealed).rows = db.rows := by
  unfold upsertSnapshot
  split <;> rfl

theorem Db.rows_updateDirectory (db : Db) (t : EventsTable) (directory filename old : Text) :
    (db.updateDirectory t directory filename old).1.rows = db.rows := by
  have hkeys : ∀ es : List Event, (Table.updateWhere (fun e => e.filename = filename && e.directory = old)
      (fun e => { e with directory }) es).1.map (fun e => (e.url, e.timestamp)) =
        es.map fun e => (e.url, e.timestamp) := fun es => Table.keys_updateWhere _ _ _ _ fun _ => rfl
  refine Prod.ext (Db.visits_setEvents _ _ _) (funext fun t' => ?_)
  cases t <;> cases t' <;> first | exact hkeys _ | rfl

namespace VisitsRebuilder

variable (icloudDir downloads : Text)

theorem rehydrateFilesystem_same {β : Type*} (g : Db → β)
    (hu : ∀ db date n, g (db.upsertSnapshot date n) = g db)
    (hd : ∀ db t directory filename old, g (db.updateDirectory t directory filename old).1 = g db)
    (db : Db) (archive : Option Archive) : g (rehydrateFilesystem icloudDir downloads db archive).1 = g db := by
  unfold rehydrateFilesystem
  cases archive with
  | none => rfl
  | some entries =>
    refine List.foldlRecOn (motive := fun (x : Db × RehydrateStats) => g x.1 = g db) _ _ rfl ?_
    intro s hs e _
    split
    · split
      · unfold rehydrateDate
        refine List.foldlRecOn (motive := fun (x : Db × RehydrateStats) => g x.1 = g db) _ _ ?_ ?_
        · rw [hu, hs]
        · intro s' hs' fname _
          simp only [relocateFile, hd, hs']
      · exact hs
    · exact hs

theorem rows_rehydrateFilesystem (db : Db) (archive : Option Archive) :
    (rehydrateFilesystem icloudDir downloads db archive).1.rows = db.rows :=
  rehydrateFilesystem_same icloudDir downloads Db.rows Db.rows_upsertSnapshot Db.rows_updateDirectory db archive

/-! ## Where rehydrating puts an event -/

def moveEvent (e : Event) (m : Text × Text) : Event :=
  if e.filename = m.2 && e.directory = downloads then { e with directory := m.1 } else e

/-- The moves that rehydrating makes, each a directory and a file name. -/
def moves (archive : Archive) : List (Text × Text) :=
  (archive.insertionSort fun a b => a.1 ≤ b.1).flatMap fun e =>
    match e.2 with
    | some dateDir => if dateDirRe e.1 then (snapshotFiles e.1 dateDir).map
        (Prod.mk (osPathJoin icloudDir e.1)) else []
    | none => []

theorem mem_moves {archive : Archive} {m : Text × Text} : m ∈ moves icloudDir archive ↔
    ∃ date sub, (date, some sub) ∈ archive ∧ dateDirRe date = true ∧ m.1 = osPathJoin icloudDir date ∧
      m.2 ∈ snapshotFiles date sub := by
  simp only [moves, List.mem_flatMap, List.mem_insertionSort]
  constructor
  · rintro ⟨⟨date, sub⟩, hx, hm⟩
    cases sub with
    | none => cases hm
    | some sub =>
      dsimp only at hm
      split at hm
      · rename_i hd
        obtain ⟨f, hf, rfl⟩ := List.mem_map.mp hm
        exact ⟨date, sub, hx, hd, rfl, hf⟩
      · cases hm
  · rintro ⟨date, sub, hx, hd, h₁, h₂⟩
    refine ⟨(date, some sub), hx, ?_⟩
    dsimp only
    rw [if_pos hd]
    exact List.mem_map.mpr ⟨m.2, h₂, by rw [← h₁]⟩

theorem mem_snapshotFiles {date f : Text} {sub : Dir} (hf : f ∈ sub.map Prod.fst)
    (hre : (snapshotFilenameRe f).isSome) :
    f ∈ snapshotFiles date sub := by
  have h₁ : f ≠ manifestFilename := by
    intro h; rw [h] at hre; revert hre; decide
  have h₂ : f ≠ logFilename date := ne_logFilename (Option.isSome_iff_ne_none.mp hre) date
  refine List.mem_filter.mpr ⟨mem_sortStrings.mpr hf, ?_⟩
  simp [h₁, h₂, hre]

theorem events_updateDirectory (db : Db) (t t' : EventsTable) (directory filename old : Text) :
    (db.updateDirectory t directory filename old).1.events t' =
      if t = t' then (db.events t').map (moveEvent old · (directory, filename)) else db.events t' := by
  unfold Db.updateDirectory
  rw [Db.events_setEvents]
  split
  · rename_i ht; rw [ht]; rfl
  · rfl

theorem events_relocateFile (dateDir : Text) (s : Db × RehydrateStats) (fname : Text) (t : EventsTable) :
    (relocateFile downloads dateDir s fname).1.events t =
      (s.1.events t).map (moveEvent downloads · (dateDir, fname)) := by
  simp only [relocateFile, events_updateDirectory]
  cases t <;> rfl

theorem foldl_map {σ ι ρ : Type*} (rows : σ → List ρ) (g : ι → ρ → ρ) {step : σ → ι → σ} {l : List ι}
    (h : ∀ x ∈ l, ∀ s, rows (step s x) = (rows s).map (g x)) (s : σ) :
    rows (l.foldl step s) = (rows s).map fun r => l.foldl (fun r x => g x r) r := by
  induction l generalizing s with
  | nil => simp
  | cons x l ih =>
    rw [List.foldl_cons, ih fun y hy => h y (List.mem_cons_of_mem _ hy), h x (by simp), List.map_map]
    rfl

theorem events_rehydrateFilesystem (db : Db) (archive : Archive) (t : EventsTable) :
    (rehydrateFilesystem icloudDir downloads db (some archive)).1.events t =
      (db.events t).map fun e => (moves icloudDir archive).foldl (moveEvent downloads) e := by
  have hdate : ∀ (s : Db × RehydrateStats) (entry : Text) (dateDir : Dir),
      (rehydrateDate icloudDir downloads s entry dateDir).1.events t = (s.1.events t).map fun e =>
        ((snapshotFiles entry dateDir).map (Prod.mk (osPathJoin icloudDir entry))).foldl
          (moveEvent downloads) e := by
    intro s entry dateDir
    have hups : ∀ n, (s.1.upsertSnapshot entry n).events t = s.1.events t := by
      intro n
      unfold Db.upsertSnapshot
      split <;> cases t <;> rfl
    unfold rehydrateDate
    rw [foldl_map (fun s : Db × RehydrateStats => s.1.events t) _
      fun fname _ s => events_relocateFile downloads (osPathJoin icloudDir entry) s fname t]
    simp only [hups, List.foldl_map]
  unfold rehydrateFilesystem moves
  rw [foldl_map (fun s : Db × RehydrateStats => s.1.events t) (fun x e =>
    (match x.2 with
      | some dateDir => if dateDirRe x.1 then (snapshotFiles x.1 dateDir).map
          (Prod.mk (osPathJoin icloudDir x.1)) else []
      | none => []).foldl (moveEvent downloads) e)]
  · simp only [List.foldl_flatMap]
  · intro x _ s
    split
    · split
      · exact hdate s x.1 _
      · simp
    · simp

theorem moved_stays {ms : List (Text × Text)} {e : Event} (h : ∀ m ∈ ms, m.2 = e.filename → m.1 = e.directory) :
    ms.foldl (moveEvent downloads) e = e := by
  induction ms with
  | nil => rfl
  | cons m ms ih =>
    have hm : moveEvent downloads e m = e := by
      unfold moveEvent
      split
      · rename_i hc
        simp only [Bool.and_eq_true, decide_eq_true_eq] at hc
        rw [h m (by simp) hc.1.symm]
      · rfl
    rw [List.foldl_cons, hm, ih fun m' hm' => h m' (List.mem_cons_of_mem _ hm')]

/-- **An event goes to the directory of its file**, if the archive has the file in one directory only. -/
theorem moved_to {ms : List (Text × Text)} {e : Event} (target : Text) (hd : e.directory = downloads)
    (h : ∀ m ∈ ms, m.2 = e.filename → m.1 = target) (hm : ∃ m ∈ ms, m.2 = e.filename) :
    ms.foldl (moveEvent downloads) e = { e with directory := target } := by
  induction ms with
  | nil => obtain ⟨m, hm, -⟩ := hm; cases hm
  | cons m ms ih =>
    have hms : ∀ m' ∈ ms, m'.2 = e.filename → m'.1 = target := fun m' hm' => h m' (List.mem_cons_of_mem _ hm')
    rw [List.foldl_cons]
    by_cases hc : m.2 = e.filename
    · have hmove : moveEvent downloads e m = { e with directory := target } := by
        simp [moveEvent, hc, hd, ← h m (by simp) hc]
      rw [hmove]
      exact moved_stays downloads hms
    · have hmove : moveEvent downloads e m = e := by simp [moveEvent, Ne.symm hc]
      rw [hmove]
      obtain ⟨m', hm', he⟩ := hm
      rcases List.mem_cons.mp hm' with rfl | hm'
      · exact absurd he hc
      · exact ih hms ⟨m', hm', he⟩

end VisitsRebuilder

end VisitLogger
