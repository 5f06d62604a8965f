import VisitLogger.Names
import VisitLogger.Paths
import VisitLogger.Replay

/-!
# Sealing a day's directory

`_build_manifest_rows` lists a directory, looks every conforming file up in the
events tables and writes one manifest row for each that has an event row. What
it leaves out it records in `mover_errors`: files whose name does not conform,
and conforming files without an event row (orphans).
-/

namespace VisitLogger

namespace SnapshotMover

def tsvSanitise (s : Text) : Text :=
  (s.map fun b => if b = tab ∨ b = nl then space else b).filter (· ≠ cr)

/-! ## Errors -/

inductive Errno where
  | ENOSPC
  | EROFS
  | EDQUOT
  | other
  deriving DecidableEq, Repr

inductive Exc where
  | osError (errno : Errno) (text : Text)
  | databaseError (text : Text)
  | operationalError (text : Text)
  | valueError (text : Text)
  deriving DecidableEq, Repr

def Exc.text : Exc → Text
  | osError _ t | databaseError t | operationalError t | valueError t => t

structure MoverError where
  key : Text
  operation : Text
  target : Text
  message : Text
  firstSeen : Text
  lastSeen : Text
  attempts : Nat
  notified : Nat
  immediate : Nat
  deriving DecidableEq, Repr

def isImmediate (op : Text) (exc : Exc) : Bool :=
  [ascii "top_level", ascii "rewrite_manifest", ascii "invalid_filename", ascii "orphan_file",
      ascii "manifest_invalid"].contains op ||
    match exc with
    | .osError errno _ => errno ≠ .other
    | .databaseError _ => true
    | _ => false

/-- `s[:n]`, which counts code points: a byte 10xxxxxx continues one. -/
def takeRunes : Nat → Text → Text
  | _, [] => []
  | 0, b :: s => if 0x80 ≤ b ∧ b < 0xC0 then b :: takeRunes 0 s else []
  | n + 1, b :: s => if 0x80 ≤ b ∧ b < 0xC0 then b :: takeRunes (n + 1) s else b :: takeRunes n s

def recordError (now op target : Text) (exc : Exc) (rows : List MoverError) : List MoverError :=
  let key := op ++ ascii ":" ++ target
  let message := takeRunes 500 (tsvSanitise exc.text)
  let immediate := if isImmediate op exc then 1 else 0
  if Table.has MoverError.key key rows then
    (Table.updateWhere (fun r => r.key = key)
      (fun r => { r with
        attempts := r.attempts + 1, lastSeen := now, message, immediate := max r.immediate immediate }) rows).1
  else rows ++ [⟨key, op, target, message, now, now, 1, 0, immediate⟩]

def reconcileDirScopedErrors (op dirPath : Text) (currentStrays : List Text) (rows : List MoverError) :
    List MoverError :=
  rows.filter fun r =>
    !(r.operation = op && (osPathJoin dirPath []).isPrefixOf r.target && !currentStrays.contains r.target)

/-! ## The manifest -/

def manifestFilename : Text := ascii "MANIFEST.tsv"

def ignoredNames : List Text := [ascii ".DS_Store"]

/-- A directory: the names `os.listdir` returns, with `os.path.isfile`. -/
structure Listing where
  entries : List (Text × Bool)
  noSlash : ∀ e ∈ entries, slash ∉ e.1

structure EventInfo where
  tag : Text
  url : Text
  timestamp : Text
  title : Text
  deriving DecidableEq, Repr

structure ManifestRow where
  filename : Text
  tag : Text
  timestamp : Text
  url : Text
  title : Text
  deriving DecidableEq, Repr

variable (matchByFilenameOnly : Bool) (db : Db)

def matching (t : EventsTable) (filename directory : Text) : List Event :=
  (db.events t).filter fun e => e.filename = filename && (matchByFilenameOnly || e.directory = directory)

/-- `COALESCE(v.title, '')` of the visit joined on the URL. -/
def titleOf (url : Text) : Text := ((db.visits.find? fun v => v.url = url).map Visit.title).getD []

/-- `_lookup_event`: the first matching row, of `read_events` before `skimmed_events`. -/
def lookupEvent (filename directory : Text) : Option EventInfo :=
  [EventsTable.read, EventsTable.skimmed].findSome? fun t =>
    (matching matchByFilenameOnly db t filename directory).head?.map fun e =>
      ⟨t.tag, e.url, e.timestamp, titleOf db e.url⟩

structure Manifest where
  rows : List ManifestRow
  currentInvalid : List Text
  currentOrphan : List Text
  errors : List MoverError
  deriving DecidableEq, Repr

def invalidFilename : Exc := .valueError (ascii "filename does not match snapshot format")

def orphanFile : Exc := .valueError (ascii "snapshot file has no matching events row")

def manifestStep (now dateSubdir : Text) (m : Manifest) (filename : Text) : Manifest :=
  let fullPath := osPathJoin dateSubdir filename
  if snapshotFilenameRe filename = none then
    { m with
      currentInvalid := m.currentInvalid ++ [fullPath]
      errors := recordError now (ascii "invalid_filename") fullPath invalidFilename m.errors }
  else
    match lookupEvent matchByFilenameOnly db filename dateSubdir with
    | none =>
      { m with
        currentOrphan := m.currentOrphan ++ [fullPath]
        errors := recordError now (ascii "orphan_file") fullPath orphanFile m.errors }
    | some info =>
      { m with
        rows := m.rows ++ [⟨tsvSanitise filename, info.tag, tsvSanitise info.timestamp, tsvSanitise info.url,
          tsvSanitise info.title⟩] }

def manifestFiles (dateSubdir : Text) (dir : Listing) : List Text :=
  let basename := (Path.clean dateSubdir).basename
  let expectedLog := if dateDirRe basename then some (logFilename basename) else none
  sortStrings <| (dir.entries.filter fun e =>
    e.1 ≠ manifestFilename && some e.1 ≠ expectedLog && !ignoredNames.contains e.1 && e.2).map Prod.fst

/-- `_build_manifest_rows`, with the `mover_errors` it leaves. -/
def buildManifestRows (now dateSubdir : Text) (dir : Listing) (errors : List MoverError) : Manifest :=
  let m := (manifestFiles dateSubdir dir).foldl (manifestStep matchByFilenameOnly db now dateSubdir)
    ⟨[], [], [], errors⟩
  { m with
    errors := reconcileDirScopedErrors (ascii "orphan_file") dateSubdir m.currentOrphan
      (reconcileDirScopedErrors (ascii "invalid_filename") dateSubdir m.currentInvalid m.errors) }

/-! ## What the loop leaves -/

def rowOf (dateSubdir filename : Text) : Option ManifestRow :=
  if snapshotFilenameRe filename = none then none
  else (lookupEvent matchByFilenameOnly db filename dateSubdir).map fun info =>
    ⟨tsvSanitise filename, info.tag, tsvSanitise info.timestamp, tsvSanitise info.url, tsvSanitise info.title⟩

def isOrphan (dateSubdir filename : Text) : Bool :=
  snapshotFilenameRe filename ≠ none && lookupEvent matchByFilenameOnly db filename dateSubdir = none

theorem manifestStep_eq (now dateSubdir : Text) (m : Manifest) (f : Text) :
    (manifestStep matchByFilenameOnly db now dateSubdir m f).rows =
        m.rows ++ (rowOf matchByFilenameOnly db dateSubdir f).toList ∧
      (manifestStep matchByFilenameOnly db now dateSubdir m f).currentOrphan =
        m.currentOrphan ++ if isOrphan matchByFilenameOnly db dateSubdir f then [osPathJoin dateSubdir f] else [] := by
  unfold manifestStep rowOf isOrphan
  by_cases hf : snapshotFilenameRe f = none
  · simp [hf]
  · cases hl : lookupEvent matchByFilenameOnly db f dateSubdir <;> simp [hf]

theorem manifest_foldl (now dateSubdir : Text) (fs : List Text) (m : Manifest) :
    (fs.foldl (manifestStep matchByFilenameOnly db now dateSubdir) m).rows =
        m.rows ++ fs.filterMap (rowOf matchByFilenameOnly db dateSubdir) ∧
      (fs.foldl (manifestStep matchByFilenameOnly db now dateSubdir) m).currentOrphan =
        m.currentOrphan ++ (fs.filter (isOrphan matchByFilenameOnly db dateSubdir)).map
          (osPathJoin dateSubdir) := by
  induction fs generalizing m with
  | nil => simp
  | cons f fs ih =>
    obtain ⟨h₁, h₂⟩ := manifestStep_eq matchByFilenameOnly db now dateSubdir m f
    obtain ⟨i₁, i₂⟩ := ih (manifestStep matchByFilenameOnly db now dateSubdir m f)
    rw [List.foldl_cons, i₁, i₂, h₁, h₂]
    constructor
    · cases hr : rowOf matchByFilenameOnly db dateSubdir f <;> simp [hr]
    · by_cases ho : isOrphan matchByFilenameOnly db dateSubdir f = true <;> simp [ho]

/-- **The manifest has one row for each conforming file with an event row**, and
the orphans are the other conforming files. -/
theorem buildManifestRows_eq (now dateSubdir : Text) (dir : Listing) (errors : List MoverError) :
    (buildManifestRows matchByFilenameOnly db now dateSubdir dir errors).rows =
        (manifestFiles dateSubdir dir).filterMap (rowOf matchByFilenameOnly db dateSubdir) ∧
      (buildManifestRows matchByFilenameOnly db now dateSubdir dir errors).currentOrphan =
        ((manifestFiles dateSubdir dir).filter (isOrphan matchByFilenameOnly db dateSubdir)).map
          (osPathJoin dateSubdir) := by
  obtain ⟨h₁, h₂⟩ := manifest_foldl matchByFilenameOnly db now dateSubdir (manifestFiles dateSubdir dir)
    ⟨[], [], [], errors⟩
  exact ⟨by simpa [buildManifestRows] using h₁, by simpa [buildManifestRows] using h₂⟩

end SnapshotMover

end VisitLogger
