import VisitLogger.Steps

/-!
# What a manifest lists

A manifest written from rows lists their files, and a lookup depends on the
event rows of its file only.
-/

namespace VisitLogger

open SnapshotMover (ManifestRow manifestFilename ignoredNames)

def Mac.files (cfg : Config) (m : Mac) (date : Text) : List Text :=
  Folder.files ((m.folder date).getD ∅) (cfg.dateSubdir date)

def Mac.manifestNames (m : Mac) (date : Text) : List Text :=
  (Verify.manifestRows ((m.folder date).getD ∅)).map Verify.rowFilename

namespace Seal

variable {cfg : Config} {db db' : Db} {date dateSubdir f : Text} {m : Mac} {dir : Folder}

theorem manifestNames_text {mode : Nat} {rows : List ManifestRow} (hf : m.folder date = some dir)
    (hm : dir.lookup manifestFilename = some (.file mode (manifestText rows)))
    (h : ∀ row ∈ rows, Readable row) :
    m.manifestNames date = rows.map ManifestRow.filename := by
  have hrows : Verify.manifestRows dir = rows.map ManifestRow.fields := by
    rw [Verify.manifestRows, hm]
    simp only [manifestLines_text h, List.tail_cons, splitTabs_fields h]
  rw [Mac.manifestNames, hf, Option.getD_some, hrows, List.map_map]
  rfl

theorem listed_filename {row : ManifestRow} (h : listed db dateSubdir f = some row) :
    row.filename = tsvSanitise f := by
  unfold listed at h
  split at h
  · obtain ⟨info, -, rfl⟩ := Option.map_eq_some_iff.mp h
    rfl
  · cases h

theorem listed_isSome (hv : SnapshotName.isValid f = true) (hl : lookupEvent db f dateSubdir ≠ none) :
    ∃ row, listed db dateSubdir f = some row := by
  obtain ⟨info, hinfo⟩ := Option.ne_none_iff_exists'.mp hl
  exact ⟨_, by rw [listed, if_pos hv, rowOf, hinfo]; rfl⟩

theorem readable_rowsNow (db : Db) (dateSubdir : Text) (dir : Folder) :
    ∀ row ∈ rowsNow db dateSubdir dir, Readable row := by
  intro row hrow
  obtain ⟨f, -, he⟩ := List.mem_filterMap.mp hrow
  exact readable_listed he

/-- **A manifest lists every conforming file with an event row**, of the directory it is written for. -/
theorem mem_manifest {dir' : Folder} (hf : m.folder date = some dir')
    (hm : dir'.lookup manifestFilename = some (.file 0o444 (manifestText (rowsNow db dateSubdir dir))))
    (hmem : f ∈ dir.files dateSubdir) (hv : SnapshotName.isValid f = true)
    (hl : lookupEvent db f dateSubdir ≠ none) :
    tsvSanitise f ∈ m.manifestNames date := by
  obtain ⟨row, hrow⟩ := listed_isSome hv hl
  rw [manifestNames_text hf hm (readable_rowsNow _ _ _), ← listed_filename hrow]
  exact List.mem_map_of_mem (List.mem_filterMap.mpr ⟨f,
    mem_sortStrings.mpr ((mem_files_erase dir).mpr hmem), hrow⟩)

/-! ## Lookups -/

def eventsOf (db : Db) (t : EventsTable) (filename : Text) : List Event :=
  (db.events t).filter fun e => e.filename = filename

theorem lookupEvent_congr (hf : (0 : Byte) ∉ f) (hv : db'.visits = db.visits)
    (he : ∀ t, eventsOf db' t f = eventsOf db t f)
    (directory : Text) : lookupEvent db' f directory = lookupEvent db f directory := by
  have hmatch : ∀ (db : Db) t d, SnapshotMover.matching false db t f d =
    (eventsOf db t f).filter (·.directory = d) := by
    intro db t d
    rw [SnapshotMover.matching, eventsOf, List.filter_filter]
    simp [Bool.and_comm]
  have htitle : ∀ url, SnapshotMover.titleOf db' url = SnapshotMover.titleOf db url := by
    intro url
    rw [SnapshotMover.titleOf, SnapshotMover.titleOf, hv]
  unfold lookupEvent SnapshotMover.lookupEvent
  simp only [BVLHost.cString_of_notMem hf, hmatch, he, htitle]

theorem visits_updateDirectory (db : Db) (t : EventsTable) (directory filename old : Text) :
    (db.updateDirectory t directory filename old).1.visits = db.visits := by cases t <;> rfl

theorem eventsOf_updateDirectory {name : Text} (h : f ≠ name) (db : Db) (t t' : EventsTable)
    (directory old : Text) :
    eventsOf (db.updateDirectory t directory name old).1 t' f = eventsOf db t' f := by
  have hmove : ∀ e : Event, (VisitsRebuilder.moveEvent old e (directory, name)).filename = e.filename := by
    intro e
    unfold VisitsRebuilder.moveEvent
    split <;> rfl
  unfold eventsOf
  rw [VisitsRebuilder.events_updateDirectory]
  split
  · induction db.events t' with
    | nil => rfl
    | cons e es ih =>
      rw [List.map_cons, List.filter_cons, List.filter_cons, hmove, ih]
      by_cases he : e.filename = f
      · have hn : VisitsRebuilder.moveEvent old e (directory, name) = e := by
          unfold VisitsRebuilder.moveEvent
          rw [if_neg (by simp [he, h])]
        rw [hn]
      · simp [he]
  · rfl

theorem lookupEvent_updateDirectory {name : Text} (hf : (0 : Byte) ∉ f) (h : f ≠ name) (db : Db)
    (t : EventsTable)
    (directory old : Text) (dateSubdir : Text) :
    lookupEvent (db.updateDirectory t directory name old).1 f dateSubdir = lookupEvent db f dateSubdir :=
  lookupEvent_congr hf (visits_updateDirectory _ _ _ _ _) (fun t' =>
    eventsOf_updateDirectory h db t t' directory old) dateSubdir

end Seal

end VisitLogger
