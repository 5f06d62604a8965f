import VisitLogger.Runs
import VisitLogger.Server

/-!
# The client's push

`do_push` as steps: it reads its cursor and the list of day logs at its start,
then goes through the files line by line, sends what it has gathered whenever
there are 500 lines and once more at the end, and then sets the cursor, which
`main` commits. Between any two steps the host can append a line, the process
can be killed, and a PushLogs can fail before it is applied or lose its reply.
-/

namespace VisitLogger

namespace SyncClient

open Framing

/-- A do_push under way: the cursor that it started from, the dates still to read
(the first is being read, up to line `index`), the lines gathered, and the last
line read. -/
structure Push where
  curDate : Text
  curOff : Int
  todo : List Text
  index : Nat
  pbLines : List LogLine
  lastDate : Text
  lastOff : Int
  deriving DecidableEq, Repr

/-- The laptop's day logs, its committed row of `sync_state`, the push under way,
the server, and what the server has answered to the pushes. -/
structure Sync where
  home : Disk
  row : Option (Text × Int)
  push : Option Push
  server : Server.State
  replies : List (Except Server.PushError (Text × Int))

structure Config where
  logDir : Path
  machineId : Text
  logRoot : Path
  sort : SliceSort

section
variable (cfg : Config)

def dayLog (date : Text) : Path := cfg.logDir.join (logFilename date)

def getCursor (row : Option (Text × Int)) : Text × Int := row.getD ([], -1)

/-- The cursor columns of a new row have their defaults. -/
def markAttempt (row : Option (Text × Int)) : Option (Text × Int) := some (row.getD ([], 0))

def listLocalLogDates (home : Disk) : List Text := sortStrings ((home.fileNames cfg.logDir).filterMap logRe)

def lines (home : Disk) (date : Text) : List Text := fileLines (home.bytes (dayLog cfg date))

def startPush (home : Disk) (row : Option (Text × Int)) : Push :=
  let cur := getCursor row
  let dates := listLocalLogDates cfg home
  { curDate := cur.1, curOff := cur.2
    todo := if cur.1 = [] then dates else dates.filter (cur.1 ≤ ·)
    index := 0, pbLines := [], lastDate := cur.1, lastOff := cur.2 }

def Push.startOff (p : Push) (date : Text) : Int := if date = p.curDate then p.curOff else -1

def Push.line (p : Push) (date raw : Text) : Push :=
  if (p.index : Int) ≤ p.startOff date then { p with index := p.index + 1 }
  else
    { p with
      index := p.index + 1
      pbLines := p.pbLines ++ [⟨date, p.index, raw⟩]
      lastDate := date
      lastOff := p.index }

inductive Outcome where
  | ok
  | notApplied
  | replyLost
  deriving DecidableEq, Repr

inductive Act where
  | append (date line : Text)
  | start
  | next
  | eof
  | send (o : Outcome)
  | finish
  | kill
  deriving DecidableEq, Repr

def appendLocal (home : Disk) (date line : Text) : Disk :=
  home.write (dayLog cfg date) (home.bytes (dayLog cfg date) ++ (line ++ [nl]))

/-- `_send_push`, with what `do_push` does after it: go on, or leave by the exception. -/
def sendPush (s : Sync) (p : Push) : Outcome → Sync
  | .notApplied => { s with push := none }
  | o =>
    let r := Server.pushLogs cfg.sort .noFault Server.noFault cfg.logRoot s.server (some cfg.machineId)
      ⟨cfg.machineId, p.pbLines⟩
    { s with
      server := r.1
      replies := s.replies ++ [r.2]
      push := match o, r.2 with
        | .ok, .ok _ => some { p with pbLines := [] }
        | _, _ => none }

def step (s : Sync) : Act → Option Sync
  | .append date line =>
    if IsDate date ∧ nl ∉ line ∧ cr ∉ line then some { s with home := appendLocal cfg s.home date line } else none
  | .start =>
    match s.push with
    | some _ => none
    | none =>
      let row := markAttempt s.row
      some { s with row, push := some (startPush cfg s.home row) }
  | .next =>
    match s.push with
    | none => none
    | some p =>
      match p.todo with
      | [] => none
      | date :: _ =>
        if 500 ≤ p.pbLines.length then none
        else (lines cfg s.home date)[p.index]?.map fun raw => { s with push := some (p.line date raw) }
  | .eof =>
    match s.push with
    | none => none
    | some p =>
      match p.todo with
      | [] => none
      | date :: rest =>
        if 500 ≤ p.pbLines.length ∨ p.index < (lines cfg s.home date).length then none
        else some { s with push := some { p with todo := rest, index := 0 } }
  | .send o =>
    match s.push with
    | none => none
    | some p =>
      if 500 ≤ p.pbLines.length ∨ p.todo = [] ∧ p.pbLines ≠ [] then some (sendPush cfg s p o) else none
  | .finish =>
    match s.push with
    | none => none
    | some p =>
      if p.todo = [] ∧ p.pbLines = [] then
        some { s with
          row := if (p.lastDate, p.lastOff) ≠ (p.curDate, p.curOff) then some (p.lastDate, p.lastOff) else s.row
          push := none }
      else none
  | .kill => s.push.map fun _ => { s with push := none }

def Sync.init (server : Server.State) : Sync := ⟨.empty, none, none, server, []⟩

def mirror (s : Sync) (date : Text) : Text := s.server.disk.bytes (Store.logPath cfg.logRoot cfg.machineId date)

end

end SyncClient

end VisitLogger
