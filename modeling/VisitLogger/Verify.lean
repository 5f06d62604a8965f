import Mathlib.Data.List.AList
import VisitLogger.Seal
import VisitLogger.SnapshotName

/-!
# Verifying a sealed directory

`Verify.directory` reads the manifest of a date directory and compares it with
the files there and with the database. A directory is valid when no check has
an issue.
-/

namespace VisitLogger

open SnapshotMover (ManifestRow EventInfo manifestFilename ignoredNames)

/-! ## Directories -/

/-- An entry of a directory, with its permission bits. -/
inductive Node where
  | file (mode : Nat) (content : Text)
  | dir (mode : Nat)
  deriving DecidableEq, Repr

namespace Node

def mode : Node → Nat
  | file m _ | dir m => m

def isDir : Node → Bool
  | file _ _ => false
  | dir _ => true

def chmod (m : Nat) : Node → Node
  | file _ c => file m c
  | dir _ => dir m

@[simp] theorem mode_chmod (m : Nat) (n : Node) : (n.chmod m).mode = m := by cases n <;> rfl

@[simp] theorem isDir_chmod (m : Nat) (n : Node) : (n.chmod m).isDir = n.isDir := by cases n <;> rfl

end Node

/-- A directory by name, in the order of `contentsOfDirectory`. -/
abbrev Folder := AList fun _ : Text => Node

/-- The log that a date directory holds. -/
def expectedLog (dateSubdir : Text) : Option Text :=
  let basename := lastPathComponent dateSubdir
  if isDateDirName basename then some (logFilename basename) else none

/-- What the passes over a directory skip by name. -/
def isSkipped (dateSubdir name : Text) : Bool :=
  name = manifestFilename || some name = expectedLog dateSubdir || ignoredNames.contains name

def Folder.files (dir : Folder) (dateSubdir : Text) : List Text :=
  (dir.entries.filter fun e => !isSkipped dateSubdir e.1 && !e.2.isDir).map Sigma.fst

/-! ## Strings -/

/-- Which texts Swift takes for the same string: canonically equivalent ones. The pattern
of snapshot names does not tell these apart. -/
structure StringEq where
  same : Text → Text → Bool
  refl : ∀ s, same s s
  symm : ∀ s t, same s t → same t s
  trans : ∀ s t u, same s t → same t u → same s u
  names : ∀ s t, same s t → SnapshotName.isValid s = SnapshotName.isValid t

namespace StringEq

/-- Equality of the bytes, which is that of texts with one spelling. -/
def bytes : StringEq where
  same s t := s = t
  refl _ := decide_eq_true rfl
  symm _ _ h := decide_eq_true (of_decide_eq_true h).symm
  trans _ _ _ h h' := decide_eq_true ((of_decide_eq_true h).trans (of_decide_eq_true h'))
  names _ _ h := congrArg SnapshotName.isValid (of_decide_eq_true h)

variable (strings : StringEq)

def contains (l : List Text) (s : Text) : Bool := l.any (strings.same s)

/-- `Set.insert`: of equal strings the first one stays. -/
def insert (l : List Text) (s : Text) : List Text := if strings.contains l s then l else l ++ [s]

end StringEq

namespace Seal

def manifestHeader : List Text := [ascii "filename", ascii "tag", ascii "timestamp", ascii "url", ascii "title"]

/-- `lookupEvent`; its query goes through C strings both ways. -/
def lookupEvent (db : Db) (filename directory : Text) : Option EventInfo :=
  (SnapshotMover.lookupEvent false db (BVLHost.cString filename) (BVLHost.cString directory)).map fun info =>
    ⟨info.tag, BVLHost.cString info.url, BVLHost.cString info.timestamp, BVLHost.cString info.title⟩

end Seal

namespace Verify

/-! ## The text of a manifest -/

/-- `split(separator: "\n")`, which goes by Characters: CR LF is one and does not split. -/
def splitNl : Text → List Text
  | [] => [[]]
  | [b] => if b = nl then [[], []] else [[b]]
  | b :: c :: t =>
    if b = cr ∧ c = nl then (splitNl t).modifyHead ([cr, nl] ++ ·)
    else if b = nl then [] :: splitNl (c :: t)
    else (splitNl (c :: t)).modifyHead (b :: ·)

def manifestLines (body : Text) : List Text :=
  let lines := splitNl body
  if lines.getLast? = some [] then lines.dropLast else lines

/-! ## Issues -/

inductive Issue where
  | manifestNotFound (path : Text)
  | manifestNotReadOnly (mode : Nat)
  | couldNotRead (e : Text)
  | manifestEmpty
  | headerMismatch (expected got : Text)
  | columnCount (rowNum got : Nat)
  | duplicateFilename (rowNum : Nat) (filename : Text)
  | couldNotList (dateSubdir e : Text)
  | nonConforming (filename : Text)
  | nonConformingListed (filename : Text)
  | noSuchFile (filename : Text)
  | notListed (filename : Text)
  | noEventsRow (filename : Text)
  | metadataMismatch (filename : Text) (row : ManifestRow) (info : EventInfo)
  | lookupFailed (filename e : Text)
  | orphanFile (filename : Text)
  | logNotFound (path : Text)
  | logNotRegular (path : Text)
  | logNotReadOnly (mode : Nat)
  deriving DecidableEq, Repr

def natText (n : Nat) : Text := ascii (toString n)

/-- `String(mode, radix: 8)` -/
def octal (n : Nat) : Text := (Nat.toDigits 8 n).map fun c => UInt8.ofNat c.toNat

def fieldsText (tag ts url title : Text) : Text :=
  ascii "(" ++ (ascii ", ").intercalate [tag, ts, url, title] ++ ascii ")"

def Issue.text : Issue → Text
  | manifestNotFound path => ascii "Manifest file not found at " ++ path
  | manifestNotReadOnly mode => ascii "Manifest is not read-only (mode 0o" ++ octal mode ++ ascii ")"
  | couldNotRead e => ascii "Could not read manifest: " ++ e
  | manifestEmpty => ascii "Manifest file is empty"
  | headerMismatch expected got =>
    ascii "Header mismatch: expected '" ++ expected ++ ascii "', got '" ++ got ++ ascii "'"
  | columnCount rowNum got => ascii "Row " ++ natText rowNum ++ ascii ": expected 5 columns, got " ++
      natText got
  | duplicateFilename rowNum filename =>
    ascii "Row " ++ natText rowNum ++ ascii ": duplicate filename '" ++ filename ++ ascii "'"
  | couldNotList dateSubdir e => ascii "Could not list " ++ dateSubdir ++ ascii ": " ++ e
  | nonConforming filename => ascii "Non-conforming file in directory: " ++ filename
  | nonConformingListed filename => ascii "Manifest also contains non-conforming filename '" ++
      filename ++ ascii "'"
  | noSuchFile filename => ascii "Manifest references " ++ filename ++ ascii " but no such file in directory"
  | notListed filename => ascii "File " ++ filename ++ ascii " is in directory but not listed in manifest"
  | noEventsRow filename => filename ++ ascii ": manifest row has no corresponding events row in DB"
  | metadataMismatch filename row info =>
    filename ++ ascii ": metadata mismatch " ++ emDash ++ ascii " manifest=" ++
      fieldsText row.tag row.timestamp row.url row.title ++ ascii " DB=" ++
      fieldsText info.tag (tsvSanitise info.timestamp) (tsvSanitise info.url) (tsvSanitise info.title)
  | lookupFailed filename e => filename ++ ascii ": events lookup failed: " ++ e
  | orphanFile filename => filename ++ ascii ": conforming file in directory has no corresponding events row in DB"
  | logNotFound path => ascii "Per-day log file not found at " ++ path
  | logNotRegular path => ascii "Per-day log " ++ path ++ ascii " is not a regular file"
  | logNotReadOnly mode => ascii "Per-day log is not read-only (mode 0o" ++ octal mode ++ ascii ")"

/-! ## The checks -/

/-- What the calls meet: the error of a call, if it has one, and the equality of strings.
A content that is not UTF-8 is an error of the read. -/
structure VerifyIo where
  strings : StringEq := .bytes
  read : Option Text := none
  readDirectory : Text := []
  list : Option Text := none
  lookup : Text → Option Text := fun _ => none

def readManifest (io : VerifyIo) : Node → Except Text Text
  | .dir _ => .error (io.read.getD io.readDirectory)
  | .file _ content =>
    match io.read with
    | some e => .error e
    | none => .ok content

section
variable (strings : StringEq)

def parseRow (acc : List ManifestRow × List Issue) (line : Nat × Text) : List ManifestRow × List Issue :=
  match splitTabs line.2 with
  | [filename, tag, ts, url, title] =>
    if strings.contains (acc.1.map ManifestRow.filename) filename then
      (acc.1, acc.2 ++ [.duplicateFilename line.1 filename])
    else (acc.1 ++ [⟨filename, tag, ts, url, title⟩], acc.2)
  | fields => (acc.1, acc.2 ++ [.columnCount line.1 fields.length])

def parseRows (lines : List Text) : List ManifestRow × List Issue :=
  ((List.range' 2 lines.length).zip lines).foldl (parseRow strings) ([], [])

def skips (dateSubdir name : Text) : Bool :=
  strings.same name manifestFilename || (expectedLog dateSubdir).any (strings.same name) ||
    strings.contains ignoredNames name

def files (dateSubdir : Text) (dir : Folder) : List Text :=
  (dir.entries.filter fun e => !skips strings dateSubdir e.1 && !e.2.isDir).map Sigma.fst

def conformingOnDisk (dateSubdir : Text) (dir : Folder) : List Text :=
  ((files strings dateSubdir dir).filter SnapshotName.isValid).foldl strings.insert []

def fileIssues (listed : List Text) (filename : Text) : List Issue :=
  if SnapshotName.isValid filename then []
  else .nonConforming filename :: if strings.contains listed filename then [.nonConformingListed filename] else []

end

/-- `manifestEntries[filename]` is the row with the name; it is looked up under a name of its own. -/
def rowIssues (io : VerifyIo) (db : Db) (dateSubdir : Text) (rows : List ManifestRow)
    (filename : Text) : List Issue :=
  match io.lookup filename with
  | some e => [.lookupFailed filename e]
  | none =>
    match Seal.lookupEvent db filename dateSubdir with
    | none => [.noEventsRow filename]
    | some info =>
      (rows.filter fun m => io.strings.same m.filename filename).flatMap fun m =>
        if io.strings.same m.tag info.tag && io.strings.same m.timestamp (tsvSanitise info.timestamp) &&
            io.strings.same m.url (tsvSanitise info.url) && io.strings.same m.title (tsvSanitise info.title) then []
        else [.metadataMismatch filename m info]

def orphanIssues (io : VerifyIo) (db : Db) (dateSubdir filename : Text) : List Issue :=
  match io.lookup filename with
  | some e => [.lookupFailed filename e]
  | none => if Seal.lookupEvent db filename dateSubdir = none then [.orphanFile filename] else []

def logIssues (dateSubdir : Text) (dir : Folder) : List Issue :=
  match expectedLog dateSubdir with
  | none => []
  | some logName =>
    match dir.lookup logName with
    | none => [.logNotFound (osPathJoin dateSubdir logName)]
    | some (.dir _) => [.logNotRegular (osPathJoin dateSubdir logName)]
    | some (.file mode _) => if mode ≠ 0o444 then [.logNotReadOnly mode] else []

/-- The checks from the rows on. `sorted` is by bytes, which matters for the order of issues. -/
def compare (io : VerifyIo) (db : Db) (dateSubdir : Text) (dir : Folder) (rows : List ManifestRow) :
    List Issue :=
  match io.list with
  | some e => [.couldNotList dateSubdir e]
  | none =>
    let manifestFilenames := rows.map ManifestRow.filename
    let conforming := conformingOnDisk io.strings dateSubdir dir
    let unlisted := sortStrings (conforming.filter fun f => !io.strings.contains manifestFilenames f)
    (files io.strings dateSubdir dir).flatMap (fileIssues io.strings manifestFilenames) ++
      -- non-conforming filenames are taken for flagged above
      ((sortStrings (manifestFilenames.filter fun f => !io.strings.contains conforming f)).filter
        SnapshotName.isValid).map .noSuchFile ++
      unlisted.map .notListed ++
      (sortStrings (manifestFilenames.filter (io.strings.contains conforming))).flatMap
        (rowIssues io db dateSubdir rows) ++
      unlisted.flatMap (orphanIssues io db dateSubdir) ++ logIssues dateSubdir dir

def issues (io : VerifyIo) (db : Db) (dateSubdir : Text) (dir : Folder) : List Issue :=
  match dir.lookup manifestFilename with
  | none => [.manifestNotFound (osPathJoin dateSubdir manifestFilename)]
  | some manifest =>
    (if manifest.mode ≠ 0o444 then [.manifestNotReadOnly manifest.mode] else []) ++
      match readManifest io manifest with
      | .error e => [.couldNotRead e]
      | .ok body =>
        match manifestLines body with
        | [] => [.manifestEmpty]
        | header :: lines =>
          let expectedHeader := joinTabs Seal.manifestHeader
          if io.strings.same header expectedHeader then
            let r := parseRows io.strings lines
            r.2 ++ compare io db dateSubdir dir r.1
          else [.headerMismatch expectedHeader header]

structure VerifyResult where
  isValid : Bool
  issues : List Text
  deriving DecidableEq, Repr

def directory (io : VerifyIo) (db : Db) (dateSubdir : Text) (dir : Folder) : VerifyResult :=
  let issues := issues io db dateSubdir dir
  ⟨issues.isEmpty, issues.map Issue.text⟩

end Verify

end VisitLogger
