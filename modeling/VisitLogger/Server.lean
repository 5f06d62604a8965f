import VisitLogger.Replay
import VisitLogger.Store

/-!
# The server's PushLogs

`pushLogs` is the handler: it checks the caller, mirrors the lines of the
request (`Store.appendLogLines`, which sorts them in place) and then replays
them one after the other. It stops at the first error, and what was done before
stays done.
-/

namespace VisitLogger

inductive Code where
  | unauthenticated
  | permissionDenied
  | invalidArgument
  | internal
  deriving DecidableEq, Repr

namespace Server

inductive PushError where
  | noIdentity
  | identityMismatch (id claimed : Text)
  | machineIdRequired
  | missingDate
  | append (e : Text)
  | replay (stmt : Store.Stmt)
  deriving DecidableEq, Repr

def PushError.code : PushError → Code
  | noIdentity => .unauthenticated
  | identityMismatch _ _ => .permissionDenied
  | machineIdRequired => .invalidArgument
  | missingDate => .invalidArgument
  | append _ => .internal
  | replay _ => .internal

/-- The message; `quote` is the verb `%q` and `sqlText` the text of an SQL error. -/
def PushError.message (quote : Text → Text) (sqlText : Store.Stmt → Text) : PushError → Text
  | noIdentity => ascii "no authenticated machine id"
  | identityMismatch id claimed =>
    ascii "cert identity " ++ quote id ++ ascii " does not match claimed machine_id " ++ quote claimed
  | machineIdRequired => ascii "machine_id required"
  | missingDate => ascii "log line missing date"
  | append e => ascii "append: " ++ e
  | replay stmt => ascii "replay: " ++ sqlText stmt

structure PushLogsRequest where
  machineId : Text
  lines : List LogLine
  deriving DecidableEq, Repr

structure State where
  disk : Disk
  db : Db

/-- `auth.CrossCheck`; `id` is the machine id in the context, if there is one. -/
def crossCheck (id : Option Text) (claimed : Text) : Option PushError :=
  match id with
  | none => some .noIdentity
  | some id => if id ≠ claimed then some (.identityMismatch id claimed) else none

/-- The loop that replays the lines. `fails i` are the calls that fail on line `i`. -/
def replayLines (fails : Nat → Store.Stmt → Bool) : Db → Nat → List LogLine → Db × Option Store.Stmt
  | db, _, [] => (db, none)
  | db, i, l :: ls =>
    match Store.replayLine (fails i) db l.rawLine with
    | (db, some e) => (db, some e)
    | (db, none) => replayLines fails db (i + 1) ls

def pushLogs (sort : SliceSort) (io : Io) (fails : Nat → Store.Stmt → Bool) (logRoot : Path) (s : State)
    (id : Option Text) (req : PushLogsRequest) : State × Except PushError (Text × Int) :=
  match crossCheck id req.machineId with
  | some e => (s, .error e)
  | none =>
    if req.machineId = [] then (s, .error .machineIdRequired)
    else if req.lines.any fun l => l.date = [] then (s, .error .missingDate)
    else
      match Store.appendLogLines sort io logRoot req.machineId s.disk req.lines with
      | (disk, _, .error e) => ({ s with disk }, .error (.append e))
      | (disk, _, .ok accepted) =>
        match replayLines fails s.db 0 (sort.run req.lines) with
        | (db, some e) => (⟨disk, db⟩, .error (.replay e))
        | (db, none) => (⟨disk, db⟩, .ok accepted)

def noFault : Nat → Store.Stmt → Bool := fun _ => Store.noFault

end Server

end VisitLogger
