import VisitLogger.Rehydrate
import VisitLogger.SealRuns
import VisitLogger.Verify

/-!
# Moving, sealing, merging

The passes of BVLVerifier, which also run one by one in the host: `Sweep` moves
snapshots from Downloads to the directory of their date, `Seal` writes the
manifest of a past date and moves its log there, `OrphanLog` merges the logs
that are left behind. Their rows in `mover_errors` are in `MoverErrors`.
-/

namespace VisitLogger

open SnapshotMover (ManifestRow manifestFilename ignoredNames)

/-! ## The file system -/

/-- What the archive has under the name of a date. -/
inductive Site where
  | folder (f : Folder)
  | plain

/-- The directories that the passes work on, and the database. Each date names
a directory of the archive. -/
structure Mac where
  downloads : Folder
  logDir : Folder
  archive : AList fun _ : Text => Site
  db : Db

structure Config where
  downloadsSnapshotsDir : Text
  archiveSnapshotsDir : Text

def Config.dateSubdir (cfg : Config) (date : Text) : Text := osPathJoin cfg.archiveSnapshotsDir date

/-- The calls that can throw. -/
inductive Call where
  | createDirectory
  | removeDest
  | copyItem
  | chmodDest
  | update (t : EventsTable)
  | querySealed
  | insertSnapshot
  | removeSource
  | removeManifest
  | list
  | lookup (filename : Text)
  | writeManifest
  | chmodManifest
  | moveLog
  | chmodLog
  | markSealed
  deriving DecidableEq, Repr

/-- The calls that throw. A copy that throws can leave a part of the file. -/
structure Faults where
  fails : Call → Bool := fun _ => false
  partialCopy : Option Text := none

def noFaults : Faults := {}

namespace Mac

def folder (m : Mac) (date : Text) : Option Folder :=
  match m.archive.lookup date with
  | some (.folder f) => some f
  | _ => none

def setFolder (m : Mac) (date : Text) (f : Folder) : Mac :=
  { m with archive := m.archive.insert date (.folder f) }

/-- `createDirectory(withIntermediateDirectories: true)`; it throws on a plain file. -/
def createDirectory (m : Mac) (date : Text) : Option Mac :=
  match m.archive.lookup date with
  | some (.folder _) => some m
  | some .plain => none
  | none => some (m.setFolder date ∅)

@[simp] theorem folder_setFolder (m : Mac) (date : Text)
  (f : Folder) : (m.setFolder date f).folder date = some f := by
  rw [folder, setFolder, AList.lookup_insert]

@[simp] theorem setFolder_setFolder (m : Mac) (date : Text) (f g : Folder) :
    (m.setFolder date f).setFolder date g = m.setFolder date g := by
  rw [setFolder, setFolder, setFolder, AList.insert_insert]

@[simp] theorem db_setFolder (m : Mac) (date : Text) (f : Folder) : (m.setFolder date f).db = m.db := rfl

@[simp] theorem logDir_setFolder (m : Mac) (date : Text) (f : Folder) : (m.setFolder date f).logDir =
  m.logDir := rfl

@[simp] theorem downloads_setFolder (m : Mac) (date : Text)
  (f : Folder) : (m.setFolder date f).downloads = m.downloads := rfl

end Mac

namespace Seal

section
variable (io : Faults) (cfg : Config)

/-! ## Sealing -/

def manifestText (rows : List ManifestRow) : Text :=
  tsvText manifestHeader ManifestRow.fields rows

def rowOf (db : Db) (dateSubdir filename : Text) : Option ManifestRow :=
  (lookupEvent db filename dateSubdir).map fun info =>
    ⟨tsvSanitise filename, info.tag, tsvSanitise info.timestamp, tsvSanitise info.url, tsvSanitise info.title⟩

/-- The loop over the files. Files whose name does not conform and orphans have no row. -/
def rowsOf (db : Db) (dateSubdir : Text) : List Text → Except Call (List ManifestRow)
  | [] => .ok []
  | f :: files =>
    if !SnapshotName.isValid f then rowsOf db dateSubdir files
    else if io.fails (.lookup f) then .error (.lookup f)
    else
      match rowsOf db dateSubdir files with
      | .error c => .error c
      | .ok rows => .ok ((rowOf db dateSubdir f).toList ++ rows)

def buildManifestRows (db : Db) (dateSubdir : Text) (dir : Folder) : Except Call (List ManifestRow) :=
  if io.fails .list then .error .list else rowsOf io db dateSubdir (sortStrings (dir.files dateSubdir))

/-- `writeManifestFile`, with the directory it leaves. -/
def writeManifestFile (db : Db) (dateSubdir : Text) (dir : Folder) : Folder × Option Call :=
  let old := dir.lookup manifestFilename
  if old.isSome && io.fails .removeManifest then
    ((old.map fun n => dir.insert manifestFilename (n.chmod 0o644)).getD dir, some .removeManifest)
  else
    let dir := dir.erase manifestFilename
    match buildManifestRows io db dateSubdir dir with
    | .error c => (dir, some c)
    | .ok rows =>
      if io.fails .writeManifest then (dir, some .writeManifest)
      else if io.fails .chmodManifest then
        (dir.insert manifestFilename (.file 0o644 (manifestText rows)), some .chmodManifest)
      else (dir.insert manifestFilename (.file 0o444 (manifestText rows)), none)

/-- `moveItem` throws when there is something under the new name. -/
def moveLogIntoSealedDir (date : Text) (logDir dir : Folder) : Folder × Folder × Option Call :=
  match logDir.lookup (logFilename date) with
  | none => (logDir, dir, none)
  | some log =>
    if logFilename date ∈ dir || io.fails .moveLog then (logDir, dir, some .moveLog)
    else
      let logDir := logDir.erase (logFilename date)
      if io.fails .chmodLog then (logDir, dir.insert (logFilename date) log, some .chmodLog)
      else (logDir, dir.insert (logFilename date) (log.chmod 0o444), none)

/-- `sealDirectory` on the directory of a date, and the call that threw in it, if one did. -/
def sealDirectory (m : Mac) (date : Text) : Mac × Option Call :=
  match m.folder date with
  | none => (m, some .list)
  | some dir =>
    match writeManifestFile io m.db (cfg.dateSubdir date) dir with
    | (dir, some c) => (m.setFolder date dir, some c)
    | (dir, none) =>
      match moveLogIntoSealedDir io date m.logDir dir with
      | (logDir, dir, some c) => ({ m with logDir }.setFolder date dir, some c)
      | (logDir, dir, none) =>
        let m := { m with logDir }.setFolder date dir
        if io.fails .markSealed then (m, some .markSealed)
        else ({ m with db := m.db.upsertSnapshot date 1 }, none)

def rewriteManifestForStraggler (m : Mac) (date : Text) : Mac :=
  match m.folder date with
  | none => m
  | some dir => m.setFolder date (writeManifestFile io m.db (cfg.dateSubdir date) dir).1

end

/-- `SELECT date FROM snapshots WHERE sealed = 0 AND date < ? ORDER BY date` -/
def unsealed (db : Db) (today : Text) : List Text :=
  sortStrings ((db.snapshots.filter fun s => s.2 = 0 && s.1 < today).map Prod.fst)

/-- One date of the pass. A plain file under its name is not replaced. -/
def sealDate (cfg : Config) (m : Mac) (date : Text) : Mac :=
  let m := if (m.archive.lookup date).isNone then m.setFolder date ∅ else m
  (sealDirectory noFaults cfg m date).1

def pass (cfg : Config) (today : Text) (m : Mac) : Mac := (unsealed m.db today).foldl (sealDate cfg) m

end Seal

namespace Archive

/-! ## Moving a snapshot -/

/-- `moveOne`, and the call that threw in it, if one did. -/
def moveOne (io : Faults) (cfg : Config) (m : Mac) (basename date : Text) : Mac × Option Call :=
  let dateSubdir := cfg.dateSubdir date
  if io.fails .createDirectory then (m, some .createDirectory)
  else
    match m.createDirectory date with
    | none => (m, some .createDirectory)
    | some m =>
      let dir := (m.folder date).getD ∅
      if basename ∈ dir && io.fails .removeDest then
        (m.setFolder date (((dir.lookup basename).map fun n =>
          dir.insert basename (n.chmod 0o644)).getD dir), some .removeDest)
      else
        let dir := dir.erase basename
        match m.downloads.lookup basename with
        | none => (m.setFolder date dir, some .copyItem)
        | some source =>
          if io.fails .copyItem then
            (m.setFolder date ((io.partialCopy.map fun s =>
              dir.insert basename (.file source.mode s)).getD dir), some .copyItem)
          else if io.fails .chmodDest then (m.setFolder date (dir.insert basename source), some .chmodDest)
          else
            let m := m.setFolder date (dir.insert basename (source.chmod 0o444))
            if io.fails (.update .read) then (m, some (.update .read))
            else
              let m := { m with db := (m.db.updateDirectory .read dateSubdir basename cfg.downloadsSnapshotsDir).1 }
              if io.fails (.update .skimmed) then (m, some (.update .skimmed))
              else
                let m := { m with db :=
                  (m.db.updateDirectory .skimmed dateSubdir basename cfg.downloadsSnapshotsDir).1 }
                if io.fails .querySealed then (m, some .querySealed)
                else
                  let isStraggler := m.db.sealedOf date = some 1
                  if io.fails .insertSnapshot then (m, some .insertSnapshot)
                  else
                    let m := { m with db := m.db.insertSnapshot date }
                    if io.fails .removeSource then (m, some .removeSource)
                    else
                      let m := { m with downloads := m.downloads.erase basename }
                      (if isStraggler then Seal.rewriteManifestForStraggler io cfg m date else m, none)

end Archive

namespace Sweep

/-- One entry of Downloads; `old` says which files are old enough. -/
def sweepOne (cfg : Config) (old : Text → Bool) (m : Mac) (name : Text) : Mac :=
  match m.downloads.lookup name with
  | none => m
  | some node =>
    if ignoredNames.contains name || node.isDir then m
    else
      match SnapshotName.dateString name with
      | none => m
      | some date => if old name then (Archive.moveOne noFaults cfg m name date).1 else m

def pass (cfg : Config) (old : Text → Bool) (m : Mac) : Mac := m.downloads.keys.foldl (sweepOne cfg old) m

end Sweep

/-! ## Merging the logs that are left behind -/

/-- What `String(contentsOfFile:encoding: .utf8)` accepts. -/
def isUtf8 : Text → Bool
  | [] => true
  | a :: t =>
    if a < 0x80 then isUtf8 t
    else if 0xC2 ≤ a ∧ a < 0xE0 then
      match t with
      | b :: t => (0x80 ≤ b && b < 0xC0) && isUtf8 t
      | _ => false
    else if 0xE0 ≤ a ∧ a < 0xF0 then
      match t with
      | b :: c :: t =>
        ((if a = 0xE0 then 0xA0 else 0x80) ≤ b && b < (if a = 0xED then 0xA0 else 0xC0)) &&
          (0x80 ≤ c && c < 0xC0) && isUtf8 t
      | _ => false
    else if 0xF0 ≤ a ∧ a < 0xF5 then
      match t with
      | b :: c :: d :: t =>
        ((if a = 0xF0 then 0x90 else 0x80) ≤ b && b < (if a = 0xF4 then 0x90 else 0xC0)) &&
          (0x80 ≤ c && c < 0xC0) && (0x80 ≤ d && d < 0xC0) && isUtf8 t
      | _ => false
    else false

namespace OrphanLog

/-- One entry of `LOG_DIR`. When the log cannot be read or its counterpart
cannot be opened, that is left writable. -/
def mergeOne (today : Text) (m : Mac) (entry : Text) : Mac :=
  match extractDate entry with
  | none => m
  | some date =>
    if date < today then
      match (m.folder date).bind fun dir => (dir.lookup entry).map (dir, ·) with
      | none => { m with db := m.db.insertSnapshot date }
      | some (dir, dst) =>
        match m.logDir.lookup entry, dst with
        | some (.file _ body), .file _ content =>
          if isUtf8 body then
            { m with logDir := m.logDir.erase entry }.setFolder date
              (dir.insert entry (.file 0o444 (content ++ body)))
          else m.setFolder date (dir.insert entry (dst.chmod 0o644))
        | _, _ => m.setFolder date (dir.insert entry (dst.chmod 0o644))
    else m

def mergePass (today : Text) (m : Mac) : Mac := (sortStrings m.logDir.keys).foldl (mergeOne today) m

end OrphanLog

def tick (cfg : Config) (today : Text) (old : Text → Bool) (m : Mac) : Mac :=
  OrphanLog.mergePass today (Seal.pass cfg today (Sweep.pass cfg old m))

end VisitLogger
