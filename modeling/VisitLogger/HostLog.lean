import Mathlib.Data.List.AList
import VisitLogger.Text

/-!
# The log of the host

`HostLog.write` appends a line to a file. When the file would get too long, it first
becomes `path.1`, after `path.1` has become `path.2` and so on; the last one is removed.
-/

namespace VisitLogger

/-! ## Files -/

abbrev Files := AList fun _ : Text => Text

def Files.removeItem (fs : Files) (p : Text) : Option Files := if p ∈ fs then some (fs.erase p) else none

/-- `moveItem` replaces no file. -/
def Files.moveItem (fs : Files) (src dst : Text) : Option Files :=
  match fs.lookup src with
  | none => none
  | some content => if dst ∈ fs then none else some ((fs.erase src).insert dst content)

/-- `stride(from:through:by:)`, by -1. -/
def stride (first last : Int) : List Int := (List.range (first - last + 1).toNat).map fun k : Nat => first - k

/-! ## The log -/

structure HostLog where
  path : Text
  maxBytes : Int := 1048576
  backupCount : Int := 3

/-- The arguments of a `write`, and its timestamp. -/
structure LogWrite where
  timestamp : Text
  level : Text
  message : Text

def LogWrite.line (w : LogWrite) : Text :=
  w.timestamp ++ [space] ++ w.level ++ [space] ++ w.message ++ [nl]

namespace HostLog

variable (log : HostLog)

def backup (i : Int) : Text := log.path ++ ascii "." ++ ascii (toString i)

def size (fs : Files) : Nat := ((fs.lookup log.path).map List.length).getD 0

def ensureFileExists (fs : Files) : Files := if log.path ∈ fs then fs else fs.insert log.path []

/-- Where a call fails, `try?` goes on with the files as they are. -/
def rotateIfNeeded (fs : Files) (adding : Nat) : Files :=
  if log.maxBytes < log.size fs + adding then
    let fs := (fs.removeItem (log.backup log.backupCount)).getD fs
    let fs := (stride (log.backupCount - 1) 1).foldl (fun fs i =>
      if log.backup i ∈ fs then (fs.moveItem (log.backup i) (log.backup (i + 1))).getD fs else fs) fs
    if log.path ∈ fs then (fs.moveItem log.path (log.backup 1)).getD fs else fs
  else fs

def write (fs : Files) (w : LogWrite) : Files :=
  let data := w.line
  let fs := log.ensureFileExists (log.rotateIfNeeded fs data.length)
  fs.insert log.path ((fs.lookup log.path).getD [] ++ data)

/-- `path.N`, ..., `path.1`, `path`, one after the other. -/
def contents (fs : Files) : Text :=
  ((stride log.backupCount 1).map log.backup ++ [log.path]).flatMap fun p => (fs.lookup p).getD []

end HostLog

end VisitLogger
