import VisitLogger.SealValid

/-!
# The passes without faults

What `writeManifestFile`, `sealDirectory` and `moveOne` leave when no call
fails of itself. A pass over many dates or files is then taken apart date by
date (`Mac.SameDate`).
-/

namespace VisitLogger

open SnapshotMover (ManifestRow manifestFilename ignoredNames)

namespace Seal

variable {cfg : Config} {db : Db} {dateSubdir date : Text} {m : Mac} {dir logDir : Folder}

theorem rowsOf_noFaults (db : Db) (dateSubdir : Text) (files : List Text) :
    rowsOf noFaults db dateSubdir files = .ok (files.filterMap (listed db dateSubdir)) := by
  have hok : ∃ rows, rowsOf noFaults db dateSubdir files = .ok rows := by
    induction files with
    | nil => exact ⟨[], rfl⟩
    | cons f files ih =>
      obtain ⟨rows, ih⟩ := ih
      rw [rowsOf, ih]
      split
      · exact ⟨rows, rfl⟩
      · exact ⟨_, rfl⟩
  obtain ⟨rows, hrows⟩ := hok
  rw [hrows, rowsOf_ok hrows]

theorem writeManifestFile_noFaults (db : Db) (dateSubdir : Text) (dir : Folder) :
    writeManifestFile noFaults db dateSubdir dir = (freshDir db dateSubdir dir, none) := by
  have hb : buildManifestRows noFaults db dateSubdir (dir.erase manifestFilename) =
    .ok (rowsNow db dateSubdir dir) := by
    rw [buildManifestRows]
    exact rowsOf_noFaults db dateSubdir _
  unfold writeManifestFile
  simp only [noFaults, Bool.and_false, Bool.false_eq_true, if_false] at hb ⊢
  rw [hb]
  rfl

theorem rewriteManifest_noFaults (hf : m.folder date = some dir) :
    rewriteManifestForStraggler noFaults cfg m date =
    m.setFolder date (freshDir m.db (cfg.dateSubdir date) dir) := by
  rw [rewriteManifestForStraggler, hf]
  dsimp only
  rw [writeManifestFile_noFaults]

def Split (date : Text) (logDir dir : Folder) : Prop := logFilename date ∈ logDir ∧ logFilename date ∈ dir

instance (date : Text) (logDir dir : Folder) : Decidable (Split date logDir dir) :=
  inferInstanceAs (Decidable (_ ∧ _))

theorem sealDirectory_noFaults (hf : m.folder date = some dir) : sealDirectory noFaults cfg m date =
    if Split date m.logDir dir then (m.setFolder date (freshDir m.db (cfg.dateSubdir date) dir), some .moveLog)
    else
      ({ m with
          logDir := m.logDir.erase (logFilename date)
          archive := m.archive.insert date (.folder (sealedDir m.db (cfg.dateSubdir date) date m.logDir dir))
          db := m.db.upsertSnapshot date 1 }, none) := by
  have hmem : logFilename date ∈ freshDir m.db (cfg.dateSubdir date) dir ↔ logFilename date ∈ dir := by
    rw [← AList.lookup_isSome, ← AList.lookup_isSome, lookup_freshDir_ne _ _ _ (logFilename_ne_manifest date)]
  unfold sealDirectory moveLogIntoSealedDir Split
  rw [hf]
  dsimp only
  rw [writeManifestFile_noFaults]
  dsimp only
  unfold sealedDir
  cases hl : m.logDir.lookup (logFilename date) with
  | none =>
    have hlog : logFilename date ∉ m.logDir := AList.lookup_eq_none.mp hl
    simp only [hlog, false_and, if_false, erase_of_none hl]
    rfl
  | some log =>
    have hlog : logFilename date ∈ m.logDir := AList.lookup_isSome.mp (by rw [hl]; rfl)
    simp only [hmem, hlog, true_and, noFaults, Bool.or_false, decide_eq_true_eq, Bool.false_eq_true, if_false]
    by_cases hd : logFilename date ∈ dir
    · rw [if_pos hd, if_pos hd]
    · rw [if_neg hd, if_neg hd]
      rfl

end Seal

namespace Archive

variable {cfg : Config} {m : Mac} {name date : Text} {source : Node}

def relocated (cfg : Config) (db : Db) (name date : Text) : Db :=
  [EventsTable.read, .skimmed].foldl (fun db t =>
    (db.updateDirectory t (cfg.dateSubdir date) name cfg.downloadsSnapshotsDir).1) db

def landed (cfg : Config) (m : Mac) (name date : Text) (source : Node) : Mac :=
  { m with
    downloads := m.downloads.erase name
    archive := m.archive.insert date
      (.folder ((((m.folder date).getD ∅).erase name).insert name (source.chmod 0o444)))
    db := (relocated cfg m.db name date).insertSnapshot date }

theorem moveOne_plain (h : m.archive.lookup date = some .plain) :
    moveOne noFaults cfg m name date = (m, some .createDirectory) := by
  rw [moveOne, Mac.createDirectory, h]
  rfl

theorem sealedOf_relocated (cfg : Config) (db : Db) (name date d : Text) :
    (relocated cfg db name date).sealedOf d = db.sealedOf d := by
  rw [Db.sealedOf, relocated, List.foldl_cons, List.foldl_cons, List.foldl_nil, Db.snapshots_updateDirectory,
    Db.snapshots_updateDirectory]
  rfl

theorem moveOne_noFaults (h : m.archive.lookup date ≠ some .plain)
    (hs : m.downloads.lookup name = some source) :
    moveOne noFaults cfg m name date =
      (if m.db.sealedOf date = some 1 then Seal.rewriteManifestForStraggler noFaults cfg
        (landed cfg m name date source) date
        else landed cfg m name date source, none) := by
  rw [← sealedOf_relocated cfg m.db name date date]
  cases ha : m.archive.lookup date with
  | none =>
    unfold moveOne Mac.createDirectory landed
    simp only [ha, hs, noFaults, Mac.setFolder, Mac.folder, AList.lookup_insert, AList.insert_insert,
      Bool.and_false, Bool.false_eq_true, if_false, Option.getD_some, Option.getD_none]
    rfl
  | some site =>
    cases site with
    | plain => exact absurd ha h
    | folder dir =>
      have hf : m.folder date = some dir := by rw [Mac.folder, ha]
      unfold moveOne Mac.createDirectory landed
      simp only [ha, hf, hs, noFaults, Mac.setFolder, Bool.and_false, Bool.false_eq_true, if_false,
        Option.getD_some]
      rfl

end Archive

/-! ## Date by date -/

structure Mac.SameDate (d : Text) (m m' : Mac) : Prop where
  row : m'.db.sealedOf d = m.db.sealedOf d
  site : m'.archive.lookup d = m.archive.lookup d
  log : m'.logDir.lookup (logFilename d) = m.logDir.lookup (logFilename d)

namespace Mac.SameDate

variable {d date : Text} {m m' m'' : Mac}

theorem refl (d : Text) (m : Mac) : SameDate d m m := ⟨rfl, rfl, rfl⟩

theorem trans (h : SameDate d m m') (h' : SameDate d m' m'') : SameDate d m m'' :=
  ⟨h'.row.trans h.row, h'.site.trans h.site, h'.log.trans h.log⟩

theorem folder (h : SameDate d m m') : m'.folder d = m.folder d := by rw [Mac.folder, Mac.folder, h.site]

theorem setFolder (hd : d ≠ date) (m : Mac) (f : Folder) : SameDate d m (m.setFolder date f) :=
  ⟨rfl, AList.lookup_insert_ne hd, rfl⟩

theorem rewriteManifest (hd : d ≠ date) (cfg : Config) (m : Mac) :
    SameDate d m (Seal.rewriteManifestForStraggler noFaults cfg m date) := by
  unfold Seal.rewriteManifestForStraggler
  cases m.folder date with
  | none => exact refl d m
  | some dir => exact setFolder hd m _

theorem landed (hd : d ≠ date) (cfg : Config) (m : Mac) (name : Text) (source : Node) :
    SameDate d m (Archive.landed cfg m name date source) := by
  refine ⟨?_, AList.lookup_insert_ne hd, rfl⟩
  rw [Archive.landed, Db.sealedOf_insertSnapshot, if_neg hd.symm, Archive.sealedOf_relocated]

theorem moveOne (hd : d ≠ date) (cfg : Config) (m : Mac) {name : Text} {source : Node}
    (hs : m.downloads.lookup name = some source) :
      SameDate d m (Archive.moveOne noFaults cfg m name date).1 := by
  by_cases h : m.archive.lookup date = some .plain
  · rw [Archive.moveOne_plain h]
    exact refl d m
  · rw [Archive.moveOne_noFaults h hs]
    have hl := landed hd cfg m name source
    split
    · exact hl.trans (rewriteManifest hd cfg _)
    · exact hl

theorem sealDirectory (hd : d ≠ date) (cfg : Config) (m : Mac) :
    SameDate d m (Seal.sealDirectory noFaults cfg m date).1 := by
  cases hf : m.folder date with
  | none =>
    rw [Seal.sealDirectory, hf]
    exact refl d m
  | some dir =>
    rw [Seal.sealDirectory_noFaults hf]
    split
    · exact setFolder hd m _
    · refine ⟨?_, AList.lookup_insert_ne hd, AList.lookup_erase_ne fun he => hd (logFilename_inj he)⟩
      rw [Db.sealedOf_upsertSnapshot, if_neg hd.symm]

theorem sealDate (hd : d ≠ date) (cfg : Config) (m : Mac) : SameDate d m (Seal.sealDate cfg m date) := by
  unfold Seal.sealDate
  split
  · exact (setFolder hd m ∅).trans (sealDirectory hd cfg _)
  · exact sealDirectory hd cfg m

end Mac.SameDate

end VisitLogger
