import VisitLogger.MoverErrors
import VisitLogger.Pull
import VisitLogger.Raising

/-!
# sync_client.py as a whole

`main` takes the lock, marks the attempt, builds the channel, pushes, pulls and marks
the attempt again. Its failures go into `mover_errors`, and a push and a pull that
went through clear them. Every path that writes ends in a commit.
-/

namespace VisitLogger

open SnapshotMover (MoverError)
open Raising (Stmt seq forEach reraise)

namespace SyncClient

namespace Main

/-! ## The database and the world -/

structure SyncRow where
  machineId : Text
  cursorLogDate : Text
  cursorLineOffset : Int
  lastSyncAttemptAt : Text
  lastSyncSuccessAt : Text
  lastError : Text
  deriving DecidableEq, Repr

/-- The laptop, with the pushes sent and the number of times the clock was read. -/
structure State where
  db : Db
  syncState : List SyncRow
  moverErrors : List MoverError
  peerLogs : Disk
  pushes : List (List LogLine)
  ticks : Nat

/-- `config.json`. -/
structure Config where
  machineId : Option Text
  syncServer : Option Text
  deriving DecidableEq, Repr

inductive Lock where
  | free
  | held
  | error (e : Text)
  deriving DecidableEq, Repr

/-- What a run reads and what answers it. An exception is its text. A log is the lines
that are read of it, and the exception that ends the reading. -/
structure World where
  envMachineId : Option Text
  envServer : Option Text
  config : Except Text Config
  lock : Lock
  openDb : Option Text
  clock : Nat → Text
  isRecent : Text → Except Text Bool
  buildChannel : Text → Bool → Option Text
  localDates : List Text
  readLog : Text → List Text × Option Text
  pushLogs : Nat → List LogLine → Option Text
  pullLogs : List (Text × Text × Int) → List LogChunk × Option Text
  appendFails : Disk → Text → LogLine → Option Text

structure Args where
  insecure : Bool
  force : Bool
  server : Option Text
  deriving DecidableEq, Repr

/-- `None` and `''` count as false. -/
def truthy (a : Option Text) : Option Text := a.filter (· ≠ [])

variable (w : World) (peerLogsDir : Path)

/-! ## sync_state and mover_errors -/

def nowIso (s : State) : Text × State := (w.clock s.ticks, { s with ticks := s.ticks + 1 })

/-- The row of a machine, or its defaults. -/
def rowOf (machineId : Text) (rows : List SyncRow) : SyncRow :=
  (rows.find? fun r => r.machineId = machineId).getD ⟨machineId, [], 0, [], [], []⟩

/-- `INSERT ... ON CONFLICT(machine_id) DO UPDATE`. -/
def upsert (machineId : Text) (f : SyncRow → SyncRow) (rows : List SyncRow) : List SyncRow :=
  if Table.has SyncRow.machineId machineId rows then
    (Table.updateWhere (fun r => r.machineId = machineId) f rows).1
  else rows ++ [f ⟨machineId, [], 0, [], [], []⟩]

def getCursor (machineId : Text) (rows : List SyncRow) : Text × Int :=
  match rows.find? fun r => r.machineId = machineId with
  | none => ([], -1)
  | some r => (r.cursorLogDate, r.cursorLineOffset)

def setCursor (machineId date : Text) (offset : Int) (s : State) : State :=
  let now := nowIso w s
  { now.2 with
    syncState := upsert machineId
      (fun r => { r with cursorLogDate := date, cursorLineOffset := offset, lastSyncSuccessAt := now.1 }) now.2.syncState }

def markAttempt (machineId : Text) (error : Option Text) (s : State) : State :=
  let now := nowIso w s
  { now.2 with
    syncState := upsert machineId (fun r =>
      { r with lastSyncAttemptAt := now.1, lastError := error.getD [] }) now.2.syncState }

def shouldSkip (machineId : Text) (s : State) : Except Text Bool :=
  let last := (rowOf machineId s.syncState).lastSyncAttemptAt
  if last = [] then .ok false else w.isRecent last

def recordError (operation target message : Text) (immediate : Bool) (s : State) : State :=
  let now := nowIso w s
  { now.2 with moverErrors := SyncClient.recordError now.1 operation target message immediate now.2.moverErrors }

def clearError (operation target : Text) (s : State) : State :=
  { s with moverErrors := SyncClient.clearError operation target s.moverErrors }

def isAuthError (e : Text) : Bool :=
  let s := e.map fun b => if 65 ≤ b ∧ b ≤ 90 then b + 32 else b
  [ascii "unauthenticated", ascii "permission_denied", ascii "certificate"].any fun word => word <:+: s

/-! ## The push -/

section
variable (machineId endpoint : Text)

def sendPush (pbLines : List LogLine) : Stmt State Text :=
  reraise
    (fun s =>
      match w.pushLogs s.pushes.length pbLines with
      | none => (clearError (ascii "sync_push") endpoint { s with pushes := s.pushes ++ [pbLines] }, none)
      | some e => ({ s with pushes := s.pushes ++ [pbLines] }, some e))
    (fun e => recordError w (ascii "sync_push") endpoint e (isAuthError e))

structure Gathered where
  state : State
  pbLines : List LogLine
  last : Text × Int

def Gathered.onState (a : Stmt State Text) : Stmt Gathered Text := fun g =>
  let r := a g.state
  ({ g with state := r.1 }, r.2)

def pushLine (l : LogLine) : Stmt Gathered Text := fun g =>
  let g := { g with pbLines := g.pbLines ++ [l], last := (l.date, l.lineOffset) }
  if 500 ≤ g.pbLines.length then
    seq (Gathered.onState (sendPush w endpoint g.pbLines)) (Raising.update fun g => { g with pbLines := [] }) g
  else (g, none)

def linesAfter (date : Text) (after : Int) : List LogLine :=
  ((w.readLog date).1.zipIdx.filter fun l => after < l.2).map fun l => ⟨date, l.2, l.1⟩

def startOff (cur : Text × Int) (date : Text) : Int := if date = cur.1 then cur.2 else -1

def pushDate (cur : Text × Int) (date : Text) : Stmt Gathered Text :=
  seq (forEach (pushLine w endpoint) (linesAfter w date (startOff cur date))) fun g => (g, (w.readLog date).2)

def datesFrom (cur : Text × Int) : List Text :=
  if cur.1 = [] then w.localDates else w.localDates.filter (cur.1 ≤ ·)

def doPush : Stmt State Text := fun s =>
  let cur := getCursor machineId s.syncState
  let gather := seq (forEach (pushDate w endpoint cur) (datesFrom w cur)) fun g =>
    if g.pbLines = [] then (g, none) else Gathered.onState (sendPush w endpoint g.pbLines) g
  match gather ⟨s, [], cur⟩ with
  | (g, none) => (if g.last ≠ cur then setCursor w machineId g.last.1 g.last.2 g.state else g.state, none)
  | (g, some e) => (g.state, some e)

/-! ## The pull -/

def pullLine (peer : Text) (l : LogLine) : Stmt State Text := fun s =>
  match w.appendFails s.peerLogs peer l with
  | some e => (s, some e)
  | none =>
    ({ s with
        peerLogs := appendPeerLine peerLogsDir s.peerLogs peer l.date l.rawLine
        db := replayIntoDb s.db l.rawLine }, none)

def pullChunk (chunk : LogChunk) : Stmt State Text := fun s =>
  let last := lastOf (getCursor chunk.peerMachineId s.syncState) chunk.lines
  seq (forEach (pullLine w peerLogsDir chunk.peerMachineId) chunk.lines)
    (Raising.update (setCursor w chunk.peerMachineId last.1 last.2)) s

def doPull : Stmt State Text := fun s =>
  let stream := w.pullLogs (s.syncState.map fun r => (r.machineId, r.cursorLogDate, r.cursorLineOffset))
  reraise
    (seq (seq (forEach (pullChunk w peerLogsDir) stream.1) fun s => (s, stream.2))
      (Raising.update (clearError (ascii "sync_pull") endpoint)))
    (fun e => recordError w (ascii "sync_pull") endpoint e (isAuthError e)) s

end

/-! ## main -/

inductive Outcome where
  | noMachineId
  | noServer
  | locked
  | skipped
  | handshakeFailed (e : Text)
  | syncOk
  | syncFailed (e : Text)
  | raised (e : Text)
  deriving DecidableEq, Repr

def Outcome.exitCode : Outcome → Nat
  | .noMachineId => 2
  | .noServer | .locked | .skipped | .syncOk => 0
  | .handshakeFailed _ | .syncFailed _ | .raised _ => 1

def sync (insecure : Bool) (machineId endpoint : Text) (s : State) : State × Outcome :=
  let s := markAttempt w machineId none s
  match w.buildChannel endpoint insecure with
  | some e => (recordError w (ascii "sync_handshake") endpoint e true
      (markAttempt w machineId (some e) s), .handshakeFailed e)
  | none =>
    match seq (doPush w machineId endpoint) (doPull w peerLogsDir endpoint) s with
    | (s, none) => (markAttempt w machineId none s, .syncOk)
    | (s, some e) => (markAttempt w machineId (some e) s, .syncFailed e)

def machineIdFromConfig : Except Text (Option Text) :=
  match truthy w.envMachineId with
  | some env => .ok (some env)
  | none => w.config.map (·.machineId)

def serverEndpoint : Except Text (Option Text) :=
  match truthy w.envServer with
  | some env => .ok (some env)
  | none => w.config.map (·.syncServer)

def endpointOf (args : Args) : Except Text (Option Text) :=
  match truthy args.server with
  | some server => .ok (some server)
  | none => serverEndpoint w

def main (args : Args) (s : State) : State × Outcome :=
  match machineIdFromConfig w with
  | .error e => (s, .raised e)
  | .ok id =>
    match truthy id with
    | none => (s, .noMachineId)
    | some machineId =>
      match endpointOf w args with
      | .error e => (s, .raised e)
      | .ok server =>
        match truthy server with
        | none => (s, .noServer)
        | some endpoint =>
          match w.lock, w.openDb with
          | .held, _ => (s, .locked)
          | .error e, _ => (s, .raised e)
          | .free, some e => (s, .raised e)
          | .free, none =>
            match if args.force then .ok false else shouldSkip w machineId s with
            | .error e => (s, .raised e)
            | .ok true => (s, .skipped)
            | .ok false => sync w peerLogsDir args.insecure machineId endpoint s

end Main

end SyncClient

end VisitLogger
