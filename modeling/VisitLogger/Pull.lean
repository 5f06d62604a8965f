import VisitLogger.Push
import VisitLogger.ScanSound

/-!
# The pull

`Server.pullLogs` is the handler: it streams the lines of each peer past the
caller's cursor, in chunks of 128 lines. `SyncClient.doPull` applies the chunks
one after the other. In `PullLogs` both go step by step: between any two steps a
peer's push can extend a day log, a host of the laptop can write to its database,
and the pull can fail or be killed.
-/

namespace VisitLogger

structure LogChunk where
  peerMachineId : Text
  lines : List LogLine
  deriving DecidableEq, Repr

/-- The cursor columns of `sync_state`, by machine. -/
abbrev SyncState := AList fun _ : Text => Text × Int

namespace Server

def enrolledMachines (readDir : Option Text) (logRoot : Path) (disk : Disk) : Except Text (List Text) :=
  match readDir with
  | some e => .error e
  | none => .ok (sortStrings (disk.subdirs logRoot))

inductive PullError where
  | auth (e : PushError)
  | listMachines (e : Text)
  | scan (peer e : Text)
  | send (e : Text)
  deriving DecidableEq, Repr

def PullError.message (quote : Text → Text) (sqlText : Store.Stmt → Text) : PullError → Text
  | auth e => e.message quote sqlText
  | listMachines e => ascii "list machines: " ++ e
  | scan peer e => ascii "scan " ++ peer ++ ascii ": " ++ e
  | send e => e

structure PullLogsRequest where
  machineId : Text
  cursors : SyncState

def since (cursors : SyncState) (peer : Text) : Text × Int :=
  match cursors.lookup peer with
  | none => ([], -1)
  | some cursor => cursor

section
variable (send : List LogChunk → Option Text)

/-- What PullLogs gives to LinesAfter, with the batch and the chunks sent so far.
`send` is the error of the next `stream.Send`, if it has one. -/
def gather (peer : Text) (s : List LogLine × List LogChunk) (l : LogLine) :
    (List LogLine × List LogChunk) × Bool :=
  let batch := s.1 ++ [l]
  if 128 ≤ batch.length then
    match send s.2 with
    | some _ => ((batch, s.2), false)
    | none => (([], s.2 ++ [⟨peer, batch⟩]), true)
  else ((batch, s.2), true)

def pullPeers (rio : Text → Store.ReadIo) (logRoot : Path) (disk : Disk) (req : PullLogsRequest) :
    List LogChunk → List Text → List LogChunk × Except PullError Unit
  | sent, [] => (sent, .ok ())
  | sent, peer :: peers =>
    if peer = req.machineId then pullPeers rio logRoot disk req sent peers
    else
      let cursor := since req.cursors peer
      match Store.linesAfter (rio peer) (gather send peer) ([], sent) logRoot peer disk cursor.1 cursor.2 with
      | ((_, sent), .error e) => (sent, .error (.scan peer e))
      | ((batch, sent), .ok ()) =>
        if batch = [] then pullPeers rio logRoot disk req sent peers
        else
          match send sent with
          | some e => (sent, .error (.send e))
          | none => pullPeers rio logRoot disk req (sent ++ [⟨peer, batch⟩]) peers

def pullLogs (readDir : Option Text) (rio : Text → Store.ReadIo) (logRoot : Path) (disk : Disk)
    (id : Option Text)
    (req : PullLogsRequest) : List LogChunk × Except PullError Unit :=
  match crossCheck id req.machineId with
  | some e => ([], .error (.auth e))
  | none =>
    match enrolledMachines readDir logRoot disk with
    | .error e => ([], .error (.listMachines e))
    | .ok peers => pullPeers send rio logRoot disk req [] peers

end

end Server

namespace SyncClient

/-! ## The client -/

structure Laptop where
  db : Db
  syncState : SyncState
  peerLogs : Disk

def setCursor (state : SyncState) (machineId date : Text) (offset : Int) : SyncState :=
  state.insert machineId (date, offset)

def appendPeerLine (peerLogsDir : Path) (disk : Disk) (peer date raw : Text) : Disk :=
  let path := Store.logPath peerLogsDir peer date
  (disk.mkdirAll (peerLogsDir.join peer)).write path (disk.bytes path ++ (raw ++ [nl]))

def lastOf (cursor : Text × Int) (lines : List LogLine) : Text × Int :=
  (lines.getLast?.map fun l => (l.date, l.lineOffset)).getD cursor

def applyLine (peerLogsDir : Path) (peer : Text) (s : Laptop) (l : LogLine) : Laptop :=
  { s with
    peerLogs := appendPeerLine peerLogsDir s.peerLogs peer l.date l.rawLine
    db := replayIntoDb s.db l.rawLine }

def applyChunk (peerLogsDir : Path) (s : Laptop) (chunk : LogChunk) : Laptop :=
  let last := lastOf (getCursor (s.syncState.lookup chunk.peerMachineId)) chunk.lines
  let s := chunk.lines.foldl (applyLine peerLogsDir chunk.peerMachineId) s
  { s with syncState := setCursor s.syncState chunk.peerMachineId last.1 last.2 }

/-- `do_pull` with the chunks of its stream, when nothing fails. -/
def doPull (peerLogsDir : Path) (s : Laptop) (chunks : List LogChunk) : Laptop :=
  chunks.foldl (applyChunk peerLogsDir) s

end SyncClient

namespace PullLogs

/-! ## Step by step -/

/-- What is written to the laptop's database: a pulled line, or an operation of the host. -/
inductive Written where
  | pulled (peer : Text) (l : LogLine)
  | host (o : Op)

def Written.apply (db : Db) : Written → Db
  | pulled _ l => SyncClient.replayIntoDb db l.rawLine
  | host o => db.apply o

/-- The laptop's database, with a record of what was written to it. -/
structure Data where
  db : Db
  syncState : SyncState
  written : List Written

def Data.write (d : Data) (w : Written) : Data := { d with db := w.apply d.db, written := d.written ++ [w] }

/-- The chunk that the client is at, with the number of its lines that are
mirrored and the number that are replayed. -/
structure Chunk where
  peer : Text
  lines : List LogLine
  mirrored : Nat
  replayed : Nat

/-- A pull under way. The server has `peers` still to scan: of the first it has
listed the dates `todo`, if it has started on it, and is at line `index` of the
first date. The chunks in `stream` are sent and not received. `tx` is the
client's open transaction; `appended` says that the pull has extended a mirror. -/
structure Pull where
  request : SyncState
  peers : List Text
  todo : Option (List Text)
  index : Nat
  batch : List LogLine
  stream : List LogChunk
  chunk : Option Chunk
  tx : Option Data
  appended : Bool

/-- The server's day logs, and the laptop: its committed data, its mirrors of
the peers' day logs, and the pull under way. -/
structure State where
  server : Disk
  data : Data
  peerLogs : Disk
  pull : Option Pull

structure Config where
  logRoot : Path
  peerLogsDir : Path
  machineId : Text

inductive Act where
  | append (peer : Text) (io : Io) (date : Text) (group : List LogLine)
  | host (o : Op)
  | start
  | list
  | next
  | eof
  | endPeer
  | receive
  | mirror
  | replay
  | endChunk
  | finish
  | fail
  | kill

section
variable (cfg : Config)

def texts (logRoot : Path) (disk : Disk) (peer date : Text) : List Text :=
  Store.fileTexts (disk.bytes (Store.logPath logRoot peer date))

def peerLog (logRoot : Path) (disk : Disk) (peer : Text) : List LogLine :=
  (Store.datesFrom disk logRoot peer []).flatMap fun d => Store.numbered d 0 (texts logRoot disk peer d)

def startPull (s : State) : Pull where
  request := s.data.syncState
  peers := (sortStrings (s.server.subdirs cfg.logRoot)).filter (· ≠ cfg.machineId)
  todo := none
  index := 0
  batch := []
  stream := []
  chunk := none
  tx := none
  appended := false

def Pull.now (p : Pull) (d : Data) : Data := p.tx.getD d

def Pull.list (server : Disk) (p : Pull) : Option Pull :=
  match p.peers, p.todo with
  | peer :: _, none =>
    some { p with todo := some (Store.datesFrom server cfg.logRoot peer
      (Server.since p.request peer).1), index := 0 }
  | _, _ => none

/-- The server comes to a line, and gathers it if it is past the cursor. -/
def Pull.next (server : Disk) (p : Pull) : Option Pull :=
  match p.peers, p.todo with
  | peer :: _, some (date :: _) =>
    (texts cfg.logRoot server peer date)[p.index]?.map fun raw =>
      let cursor := Server.since p.request peer
      let l : LogLine := ⟨date, p.index, raw⟩
      let r := if Store.isPast cursor.1 cursor.2 l then
        (Server.gather (fun _ => none) peer (p.batch, p.stream) l).1
        else (p.batch, p.stream)
      { p with index := p.index + 1, batch := r.1, stream := r.2 }
  | _, _ => none

def Pull.eof (server : Disk) (p : Pull) : Option Pull :=
  match p.peers, p.todo with
  | peer :: _, some (date :: rest) =>
    if p.index < (texts cfg.logRoot server peer date).length then none else some { p with todo := some rest, index := 0 }
  | _, _ => none

/-- The server sends what is left of the batch, and goes on to the next peer. -/
def Pull.endPeer (p : Pull) : Option Pull :=
  match p.peers, p.todo with
  | peer :: peers, some [] =>
    some { p with
      peers
      todo := none
      batch := []
      stream := if p.batch = [] then p.stream else p.stream ++ [⟨peer, p.batch⟩] }
  | _, _ => none

def Pull.receive (p : Pull) : Option Pull :=
  match p.chunk, p.stream with
  | none, c :: stream => some { p with stream, chunk := some ⟨c.peerMachineId, c.lines, 0, 0⟩ }
  | _, _ => none

/-- The line that `append_peer_line` is called for next. -/
def Chunk.toMirror (c : Chunk) : Option LogLine :=
  if c.mirrored = c.replayed then c.lines[c.mirrored]? else none

/-- The line that `replay_into_db` is called for next. -/
def Chunk.toReplay (c : Chunk) : Option LogLine :=
  if c.replayed < c.mirrored then c.lines[c.replayed]? else none

def step (s : State) : Act → Option State
  | .append peer io date group => some { s with server :=
      (Store.appendGroup io cfg.logRoot peer s.server date group).1 }
  | .host o =>
    -- a host waits for the write lock
    if (s.pull.bind Pull.tx).isSome then none else some { s with data := s.data.write (.host o) }
  | .start =>
    match s.pull with
    | some _ => none
    | none => some { s with pull := some (startPull cfg s) }
  | .list => (s.pull.bind (Pull.list cfg s.server)).map fun p => { s with pull := some p }
  | .next => (s.pull.bind (Pull.next cfg s.server)).map fun p => { s with pull := some p }
  | .eof => (s.pull.bind (Pull.eof cfg s.server)).map fun p => { s with pull := some p }
  | .endPeer => (s.pull.bind Pull.endPeer).map fun p => { s with pull := some p }
  | .receive => (s.pull.bind Pull.receive).map fun p => { s with pull := some p }
  | .mirror => do
    let p ← s.pull
    let c ← p.chunk
    let l ← c.toMirror
    some { s with
      peerLogs := SyncClient.appendPeerLine cfg.peerLogsDir s.peerLogs c.peer l.date l.rawLine
      pull := some { p with chunk := some { c with mirrored := c.mirrored + 1 }, appended := true } }
  | .replay => do
    let p ← s.pull
    let c ← p.chunk
    let l ← c.toReplay
    some { s with
      pull := some { p with
        chunk := some { c with replayed := c.replayed + 1 }
        tx := some ((p.now s.data).write (.pulled c.peer l)) } }
  | .endChunk => do
    let p ← s.pull
    let c ← p.chunk
    if c.replayed < c.lines.length then none
    else
      let d := p.now s.data
      let last := SyncClient.lastOf (SyncClient.getCursor (d.syncState.lookup c.peer)) c.lines
      some { s with
        pull := some { p with
          chunk := none
          tx := some { d with syncState := SyncClient.setCursor d.syncState c.peer last.1 last.2 } } }
  | .finish => do
    let p ← s.pull
    if p.peers = [] ∧ p.stream = [] ∧ p.chunk.isNone then some { s with data := p.now s.data, pull := none } else none
  | .fail => s.pull.map fun p => { s with data := p.now s.data, pull := none }
  | .kill => s.pull.map fun _ => { s with pull := none }

def State.init (defaultDirectory : Text) : State := ⟨.empty, ⟨.empty defaultDirectory, ∅, []⟩, .empty, none⟩

end

end PullLogs

end VisitLogger
