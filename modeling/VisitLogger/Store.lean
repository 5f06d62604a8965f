import Mathlib.Data.List.AList
import Mathlib.Data.List.SplitBy
import Mathlib.Data.Prod.Lex
import VisitLogger.Names
import VisitLogger.Paths

/-!
# The server's store

The store mirrors the day logs of each machine under
`<logRoot>/<machine_id>/browser-visits-<date>.log`. `appendLogLines` extends
the files with the lines of a push, `linesAfter` streams them to a puller.
What the operating system does with the calls is given: `Io` has the errors of
an append, `ReadIo` those of a scan and the chunks that its reads return.
-/

namespace VisitLogger

open Framing

structure LogLine where
  date : Text
  lineOffset : Int
  rawLine : Text
  deriving DecidableEq, Repr

namespace LogLine

/-- `a` may stand before `b`: not `less(b, a)` in the call of `sort.Slice`. -/
def NotAfter (a b : LogLine) : Prop := a.date < b.date ∨ a.date = b.date ∧ a.lineOffset ≤ b.lineOffset

instance : DecidableRel NotAfter := fun _ _ => inferInstanceAs (Decidable (_ ∨ _))

theorem notAfter_iff {a b : LogLine} : a.NotAfter b ↔
    toLex (a.date, a.lineOffset) ≤ toLex (b.date, b.lineOffset) := by
  rw [NotAfter, Prod.Lex.toLex_le_toLex]

instance : Std.Total NotAfter where
  total a b := by
    rw [notAfter_iff, notAfter_iff]
    exact le_total _ _

instance : IsTrans LogLine NotAfter where
  trans a b c hab hbc := by
    rw [notAfter_iff] at hab hbc ⊢
    exact hab.trans hbc

end LogLine

/-- What `sort.Slice` promises: it orders the lines, and does not keep the order
of lines with the same date and offset. -/
structure SliceSort where
  run : List LogLine → List LogLine
  perm : ∀ l, (run l).Perm l
  sorted : ∀ l, (run l).Pairwise LogLine.NotAfter

def SliceSort.insertion : SliceSort where
  run l := l.insertionSort LogLine.NotAfter
  perm := List.perm_insertionSort _
  sorted := List.pairwise_insertionSort _

structure Disk where
  files : AList fun _ : Path => Text
  dirs : List Path

/-- The errors of an append, by the date of the group it is for. A write that
fails has written a number of bytes. -/
structure Io where
  mkdir : Text → Option Text := fun _ => none
  readDir : Option Text := none
  count : Text → Option Text := fun _ => none
  openFile : Text → Option Text := fun _ => none
  write : Text → Option (Nat × Text) := fun _ => none

def Io.noFault : Io := {}

namespace Disk

def empty : Disk := ⟨∅, []⟩

def bytes (disk : Disk) (p : Path) : Text := (disk.files.lookup p).getD []

def write (disk : Disk) (p : Path) (s : Text) : Disk := { disk with files := disk.files.insert p s }

/-- The file's directory is there. The root and the working directory always are. -/
def hasParent (disk : Disk) (p : Path) : Bool :=
  p.elems.tail = [] || disk.dirs.contains { p with elems := p.elems.tail }

/-- `os.MkdirAll`: the directory and those above it. -/
def mkdirAll (disk : Disk) (p : Path) : Disk :=
  { disk with dirs := (p.elems.tails.map (Path.mk p.rooted)).foldr List.insert disk.dirs }

def nameIn (dir p : Path) : Option Text :=
  match p.elems with
  | name :: es => if p.rooted = dir.rooted ∧ es = dir.elems then some name else none
  | [] => none

def fileNames (disk : Disk) (dir : Path) : List Text := disk.files.keys.filterMap (nameIn dir)

def subdirs (disk : Disk) (dir : Path) : List Text := disk.dirs.filterMap (nameIn dir)

/-- `os.ReadDir`. -/
def readDir (disk : Disk) (dir : Path) : List Text := disk.fileNames dir ++ disk.subdirs dir

end Disk

namespace Store

/-! ## Helpers -/

def groupByDate (lines : List LogLine) : List (List LogLine) := lines.splitBy fun a b => a.date == b.date

def logPath (logRoot : Path) (machineID date : Text) : Path := (logRoot.join machineID).join (logFilename date)

def pathFor (io : Io) (disk : Disk) (logRoot : Path) (machineID date : Text) : Disk × Except Text Path :=
  match io.mkdir date with
  | some e => (disk, .error e)
  | none => (disk.mkdirAll (logRoot.join machineID), .ok (logPath logRoot machineID date))

def countLines (disk : Disk) (path : Path) : Int := ((disk.bytes path).count nl : Nat)

def encode (lines : List LogLine) : Text := unlines nl (lines.map LogLine.rawLine)

def openError (io : Io) (disk : Disk) (date : Text) (path : Path) : Option Text :=
  if disk.hasParent path then io.openFile date
  else some (ascii "open " ++ path.toText ++ ascii ": no such file or directory")

/-- `appendFile`; the bytes written are those of all lines, or fewer. -/
def appendFile (io : Io) (disk : Disk) (date : Text) (path : Path) (lines : List LogLine) :
    Disk × Option Text :=
  match openError io disk date path with
  | some e => (disk, some e)
  | none =>
    match io.write date with
    | some (n, e) => (disk.write path (disk.bytes path ++ (encode lines).take n), some e)
    | none => (disk.write path (disk.bytes path ++ encode lines), none)

def intText (i : Int) : Text := ascii (toString i)

def gapText (machineID date : Text) (expected got : Int) : Text :=
  ascii "gap: " ++ machineID ++ ascii "/" ++ date ++ ascii " expected offset " ++ intText expected ++
    ascii ", got " ++
    intText got

/-! ## Appending -/

/-- The loop over a group: the lines to write and the new count. -/
def selectLines (machineID : Text) : Int → List LogLine → Except Text (List LogLine × Int)
  | curCount, [] => .ok ([], curCount)
  | curCount, l :: ls =>
    if l.lineOffset < curCount then selectLines machineID curCount ls -- already on disk
    else if l.lineOffset = curCount then
      match selectLines machineID (curCount + 1) ls with
      | .ok (toWrite, count) => .ok (l :: toWrite, count)
      | .error e => .error e
    else .error (gapText machineID l.date curCount l.lineOffset)

/-- One group of lines with one date: the disk, the lines put on it in full,
and the count of the file. -/
def appendGroup (io : Io) (logRoot : Path) (machineID : Text) (disk : Disk) (date : Text)
    (group : List LogLine) :
    Disk × List LogLine × Except Text Int :=
  match pathFor io disk logRoot machineID date with
  | (disk, .error e) => (disk, [], .error e)
  | (disk, .ok path) =>
    match io.count date with
    | some e => (disk, [], .error e)
    | none =>
      match selectLines machineID (countLines disk path) group with
      | .error e => (disk, [], .error e)
      | .ok (toWrite, curCount) =>
        if toWrite = [] then (disk, [], .ok curCount)
        else match appendFile io disk date path toWrite with
          | (disk, some e) => (disk, [], .error e)
          | (disk, none) => (disk, toWrite, .ok curCount)

def appendGroups (io : Io) (logRoot : Path) (machineID : Text) :
    Disk → Text × Int → List (List LogLine) → Disk × List LogLine × Except Text (Text × Int)
  | disk, latest, [] => (disk, [], .ok latest)
  | disk, _, group :: groups =>
    let date := (group.head?.map LogLine.date).getD []
    match appendGroup io logRoot machineID disk date group with
    | (disk, written, .error e) => (disk, written, .error e)
    | (disk, written, .ok curCount) =>
      let r := appendGroups io logRoot machineID disk (date, curCount - 1) groups
      (r.1, written ++ r.2.1, r.2.2)

/-- A directory can be opened, and not read. -/
def countError (io : Io) (disk : Disk) (date : Text) (path : Path) : Option Text :=
  if disk.dirs.contains path then some (ascii "read " ++ path.toText ++ ascii ": is a directory")
  else io.count date

def highWater (io : Io) (logRoot : Path) (machineID : Text) (disk : Disk) : Except Text (Text × Int) :=
  match io.readDir with
  | some e => .error e
  | none =>
    match (sortStrings ((disk.readDir (logRoot.join machineID)).filterMap parseLogFilename)).getLast? with
    | none => .ok ([], -1)
    | some latest =>
      match countError io disk latest (logPath logRoot machineID latest) with
      | some e => .error e
      | none => .ok (latest, countLines disk (logPath logRoot machineID latest) - 1)

/-- `Store.AppendLogLines`. Next to its result: the disk, and the lines that the
call put on disk in full. -/
def appendLogLines (sort : SliceSort) (io : Io) (logRoot : Path) (machineID : Text) (disk : Disk)
    (lines : List LogLine) : Disk × List LogLine × Except Text (Text × Int) :=
  if lines = [] then (disk, [], highWater io logRoot machineID disk)
  else appendGroups io logRoot machineID disk ([], 0) (groupByDate (sort.run lines))

/-! ## Scanning -/

/-- The errors of a scan, and the chunks in which the reads return a file. -/
structure ReadIo where
  readDir : Option Text := none
  openFile : Text → Option Text := fun _ => none
  chunks : Text → Text → List Text := fun _ s => [s]
  read : Text → Option Text := fun _ => none

section
variable {σ : Type*} (yield : σ → LogLine → σ × Bool) (sinceDate : Text) (sinceOffset : Int) (date : Text)

def emit (s : σ) (offset : Int) (line : Text) : σ × Bool :=
  if sinceDate < date ∨ sinceOffset < offset then yield s ⟨date, offset, line⟩ else (s, true)

def emitLines : σ → Int → List Text → σ × Bool
  | s, _, [] => (s, true)
  | s, offset, line :: lines =>
    match emit yield sinceDate sinceOffset date s offset line with
    | (s, false) => (s, false)
    | (s, true) => emitLines s (offset + 1) lines

/-- The read loop over one file, at `offset` and with `buf` left over. The reads
return `chunks` and then the end of the file, or an error. `false` stands for
the `io.EOF` that the loop returns when `yield` says stop. -/
def readLoop (readErr : Option Text) : σ → Int → Text → List Text → σ × Except Text Bool
  | s, offset, buf, [] =>
    match readErr with
    | some e => (s, .error e)
    | none =>
      if buf = [] then (s, .ok true)
      else
        let r := emit yield sinceDate sinceOffset date s offset buf
        (r.1, .ok r.2)
  | s, offset, buf, c :: cs =>
    let lines := closed nl (buf ++ c)
    match emitLines yield sinceDate sinceOffset date s offset lines with
    | (s, false) => (s, .ok false)
    | (s, true) => readLoop readErr s (offset + lines.length) (tail nl (buf ++ c)) cs

end

/-- The loop over the dates. A file whose loop was stopped is left, and the next
one is read. -/
def scanDates {σ : Type*} (rio : ReadIo) (yield : σ → LogLine → σ × Bool) (logRoot : Path)
    (machineID : Text) (disk : Disk)
    (sinceDate : Text) (sinceOffset : Int) : σ → List Text → σ × Except Text Unit
  | s, [] => (s, .ok ())
  | s, d :: dates =>
    match rio.openFile d with
    | some e => (s, .error e)
    | none =>
      match readLoop yield sinceDate sinceOffset d (rio.read d) s 0 []
          (rio.chunks d (disk.bytes (logPath logRoot machineID d))) with
      | (s, .error e) => (s, .error e)
      | (s, .ok _) => scanDates rio yield logRoot machineID disk sinceDate sinceOffset s dates

/-- The dates of the logs. -/
def datesFrom (disk : Disk) (logRoot : Path) (machineID sinceDate : Text) : List Text :=
  sortStrings (((disk.fileNames (logRoot.join machineID)).filterMap parseLogFilename).filter (sinceDate ≤ ·))

/-- `Store.LinesAfter`. The state `σ` is what `yield` closes over. -/
def linesAfter {σ : Type*} (rio : ReadIo) (yield : σ → LogLine → σ × Bool) (s : σ) (logRoot : Path)
    (machineID : Text)
    (disk : Disk) (sinceDate : Text) (sinceOffset : Int) : σ × Except Text Unit :=
  match rio.readDir with
  | some e => (s, .error e)
  | none => scanDates rio yield logRoot machineID disk sinceDate sinceOffset s
      (datesFrom disk logRoot machineID sinceDate)

end Store

end VisitLogger
