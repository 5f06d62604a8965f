import VisitLogger.Mover

/-!
# Sealing by hand

`snapshot_sealer.cli` seals one directory, of the archive or of any other
place: it writes the manifest, and moves the log of the directory's date there.
Then it merges the logs that are left in `LOG_DIR`. These are the Python
passes; `Mover` has the Swift ones.
-/

namespace VisitLogger

open SnapshotMover (manifestFilename)

/-! ## Dates -/

def decimal (s : Text) : Nat := s.foldl (fun n b => n * 10 + (b.toNat - 48)) 0

def daysInMonth (year month : Nat) : Nat :=
  if month = 2 then if year % 4 = 0 ∧ (year % 100 ≠ 0 ∨ year % 400 = 0) then 29 else 28
  else if month = 4 ∨ month = 6 ∨ month = 9 ∨ month = 11 then 30
  else 31

/-- `datetime.date.fromisoformat` takes a text of the form YYYY-MM-DD. -/
def fromisoformat (s : Text) : Bool :=
  let year := decimal (s.take 4)
  let month := decimal ((s.drop 5).take 2)
  let day := decimal (s.drop 8)
  decide (IsDate s) && 1 ≤ year && 1 ≤ month && month ≤ 12 && 1 ≤ day && day ≤ daysInMonth year month

namespace SnapshotSealer

/-- The directory to seal, and whether it is the one of that name in `ICLOUD_SNAPSHOTS_DIR`. -/
structure Target where
  path : Text
  inArchive : Bool
  deriving DecidableEq, Repr

/-- `os.path.basename(os.path.normpath(target))` -/
def Target.base (t : Target) : Text := (Path.clean t.path).basename

structure Options where
  target : Target
  dryRun : Bool
  matchByFilename : Bool
  /-- There is a file at `DB_FILE`. -/
  dbExists : Bool
  deriving DecidableEq, Repr

/-- The directories and the database. When the target is not in the archive it is `elsewhere`. `inner` is
for a target that has directories under the names of logs: what each of them has under its own name. -/
structure Disk where
  mac : Mac
  elsewhere : Option Folder
  inner : Folder

def Disk.dir (s : Disk) (t : Target) : Option Folder := if t.inArchive then s.mac.folder t.base else s.elsewhere

def Disk.setDir (s : Disk) (t : Target) (dir : Folder) : Disk :=
  if t.inArchive then { s with mac := s.mac.setFolder t.base dir } else { s with elsewhere := some dir }

def extractDateKey (t : Target) : Option Text :=
  if !dateDirRe t.base then none else if fromisoformat t.base then some t.base else none

end SnapshotSealer

namespace SnapshotMover

open SnapshotSealer (Target Options extractDateKey)

/-! ## Sealing -/

/-- What `os.listdir` and `os.path.isfile` say of a directory. No name has a slash. -/
def listing (dir : Folder) : Listing where
  entries := (dir.entries.filter fun e => slash ∉ e.1).map fun e => (e.1, !e.2.isDir)
  noSlash e he := by
    obtain ⟨f, hf, rfl⟩ := List.mem_map.mp he
    exact of_decide_eq_true (List.mem_filter.mp hf).2

/-- `_write_manifest_file`; what it leaves in `mover_errors` is in `buildManifestRows`. -/
def writeManifestFile (matchByFilename : Bool) (db : Db) (dateSubdir : Text) (dir : Folder) : Folder :=
  let dir := dir.erase manifestFilename
  dir.insert manifestFilename
    (.file 0o444 (VisitLogger.Seal.manifestText
      (buildManifestRows matchByFilename db [] dateSubdir (listing dir) []).rows))

/-- `_move_log_into_sealed_dir`: the disk, and whether it got through without an `OSError`. `shutil.move`
replaces a file, and moves into a directory unless that has an entry of this name. -/
def moveLogIntoSealedDir (s : SnapshotSealer.Disk) (t : Target) (dir : Folder) (dateISO : Text) :
    SnapshotSealer.Disk × Bool :=
  let name := logFilename dateISO
  match s.mac.logDir.lookup name with
  | none => (s, true)
  | some src =>
    let gone := { s with mac := { s.mac with logDir := s.mac.logDir.erase name } }
    match dir.lookup name, src with
    | none, src => (gone.setDir t (dir.insert name (src.chmod 0o444)), true)
    | some (.file _ _), .file mode content =>
        (gone.setDir t (dir.insert name ((Node.file mode content).chmod 0o444)), true)
    | some (.file _ _), .dir _ => (s, false)
    | some (.dir mode), src =>
      if name ∈ s.inner then (s, false)
      else ({ gone with inner := s.inner.insert name src }.setDir t
        (dir.insert name ((Node.dir mode).chmod 0o444)), true)

/-- `_seal_directory`. An `OSError` ends it. -/
def sealDirectory (o : Options) (s : SnapshotSealer.Disk) (dir : Folder) : SnapshotSealer.Disk :=
  if o.dryRun then s
  else
    let dir := writeManifestFile o.matchByFilename s.mac.db o.target.path dir
    let s := s.setDir o.target dir
    match extractDateKey o.target with
    | none => s
    | some dateISO =>
      match moveLogIntoSealedDir s o.target dir dateISO with
      | (s, false) => s
      | (s, true) => { s with mac := { s.mac with db := s.mac.db.upsertSnapshot dateISO 1 } }

/-! ## Merging -/

/-- One entry of `LOG_DIR`. Text that is not UTF-8 raises an error that nobody catches (`false`); it is
read with universal newlines. -/
def mergeOne (today : Text) (m : Mac) (entry : Text) : Mac × Bool :=
  match logRe entry with
  | none => (m, true)
  | some dateISO =>
    if dateISO < today then
      match (m.folder dateISO).bind fun dir => (dir.lookup entry).map (dir, ·) with
      | none => ({ m with db := m.db.insertSnapshot dateISO }, true)
      | some (dir, dst) =>
        match m.logDir.lookup entry, dst with
        | some (.file _ body), .file _ content =>
          if isUtf8 body then
            ({ m with logDir := m.logDir.erase entry }.setFolder dateISO
              (dir.insert entry (.file 0o444 (content ++ universalNewlines body))), true)
          else (m.setFolder dateISO (dir.insert entry (dst.chmod 0o644)), false)
        | _, _ => (m.setFolder dateISO (dir.insert entry (dst.chmod 0o644)), true)
    else (m, true)

def mergeAll (today : Text) : List Text → Mac → Mac × Bool
  | [], m => (m, true)
  | entry :: entries, m =>
    match mergeOne today m entry with
    | (m, false) => (m, false)
    | (m, true) => mergeAll today entries m

/-- `_orphan_log_merge_pass` -/
def orphanLogMergePass (today : Text) (m : Mac) : Mac × Bool := mergeAll today (sortStrings m.logDir.keys) m

end SnapshotMover

namespace SnapshotSealer

inductive Exit where
  | returned (code : Nat)
  | raised
  deriving DecidableEq, Repr

/-- `cli`, from the resolved target on. -/
def cli (o : Options) (today : Text) (s : Disk) : Disk × Exit :=
  match s.dir o.target with
  | none => (s, .returned 1)
  | some dir =>
    if manifestFilename ∈ dir then (s, .returned 1)
    else if !o.dbExists then (s, .returned 1)
    else
      let s := SnapshotMover.sealDirectory o s dir
      if o.dryRun then (s, .returned 0)
      else
        match SnapshotMover.orphanLogMergePass today s.mac with
        | (mac, true) => ({ s with mac }, .returned 0)
        | (mac, false) => ({ s with mac }, .raised)

end SnapshotSealer

end VisitLogger
