import VisitLogger.HostSound
import VisitLogger.Pull

/-!
# The server and its laptops

Any number of laptops, each with its day logs, its database, its mirrors of the
peers' day logs and at most one sync under way, and the server that they share.
The steps are those of `SyncClient` and `PullLogs`, taken on one laptop's part
of the state, and those of the hosts: an invocation logs its action, commits its
transaction and logs its result, and it can die in between. Two kinds of failure are
left out: the server's own calls succeed on a push that reaches it, and an append to a
day log is a whole line without line breaks, or nothing.
-/

namespace VisitLogger

namespace Network

/-- An invocation that has logged its action, with whether it has committed. -/
structure Running where
  inv : BVLHost.Invocation
  committed : Bool
  deriving DecidableEq, Repr

structure Laptop where
  home : Disk
  row : Option (Text × Int)
  push : Option SyncClient.Push
  replies : List (Except Server.PushError (Text × Int))
  data : PullLogs.Data
  peerLogs : Disk
  pull : Option PullLogs.Pull
  running : List Running

/-- The machine ids are those of the certificates: one for each laptop, and plain names. -/
structure Config (ι : Type*) where
  logRoot : Path
  sort : SliceSort
  serverDirectory : Text
  machineId : ι → Text
  logDir : ι → Path
  peerLogsDir : ι → Path
  directory : ι → Text
  downloads : ι → Text
  plain : ∀ i, Plain (machineId i)
  distinct : Function.Injective machineId

structure State (ι : Type*) where
  server : Server.State
  laptop : ι → Laptop

inductive Act (ι : Type*) where
  | log (i : ι) (inv : BVLHost.Invocation)
  | commit (i : ι) (n : Nat)
  | answer (i : ι) (n : Nat)
  | die (i : ι) (n : Nat)
  | push (i : ι) (a : SyncClient.Act)
  | pull (i : ι) (a : PullLogs.Act)

def Act.isHost {ι : Type*} : Act ι → Bool
  | .push _ _ => false
  | .pull _ _ => false
  | _ => true

def PushCompletes {ι : Type*} (i : ι) (acts : List (Act ι)) : Prop :=
  ∃ before during after, acts = before ++ .push i .start :: (during ++ .push i .finish :: after)

def PullCompletes {ι : Type*} (i : ι) (acts : List (Act ι)) : Prop :=
  ∃ before during after, acts = before ++ .pull i .start :: (during ++ .pull i .finish :: after)

section
variable {ι : Type*} [DecidableEq ι] (cfg : Config ι)

def Config.sync (i : ι) : SyncClient.Config := ⟨cfg.logDir i, cfg.machineId i, cfg.logRoot, cfg.sort⟩

def Config.pulls (i : ι) : PullLogs.Config := ⟨cfg.logRoot, cfg.peerLogsDir i, cfg.machineId i⟩

namespace State

variable (s : State ι) (i : ι)

def set (l : Laptop) : State ι := { s with laptop := Function.update s.laptop i l }

def sync : SyncClient.Sync :=
  let l := s.laptop i
  ⟨l.home, l.row, l.push, s.server, l.replies⟩

def setSync (t : SyncClient.Sync) : State ι :=
  { s.set i { s.laptop i with home := t.home, row := t.row, push := t.push, replies := t.replies } with
    server := t.server }

def pulls : PullLogs.State :=
  let l := s.laptop i
  ⟨s.server.disk, l.data, l.peerLogs, l.pull⟩

def setPulls (t : PullLogs.State) : State ι :=
  s.set i { s.laptop i with data := t.data, peerLogs := t.peerLogs, pull := t.pull }

def setRunning (r : List Running) : State ι := s.set i { s.laptop i with running := r }

end State

/-- A host appends a line to the log of the day that its invocation started on. -/
def appendLine (s : State ι) (i : ι) (date line : Text) : Option (State ι) :=
  (SyncClient.step (cfg.sync i) (s.sync i) (.append date line)).map (s.setSync i)

def hostOps (i : ι) (inv : BVLHost.Invocation) : List Op :=
  BVLHost.ops (cfg.downloads i) inv.message.request inv.message.alsoOfInterest

/-- The steps of a laptop's sync, which its lock keeps to one at a time: a push
starts when there is no pull, and a pull when there is no push. -/
def canSync (l : Laptop) : Act ι → Bool
  | .push _ (.append _ _) => false
  | .push _ .start => l.pull.isNone
  | .pull _ (.append _ _ _ _) => false
  | .pull _ (.host _) => false
  | .pull _ .start => l.push.isNone
  | _ => true

def step (s : State ι) : Act ι → Option (State ι)
  | .log i inv =>
    if inv.Accepted then
      let r := (s.laptop i).running ++ [⟨inv, false⟩]
      if inv.faults.action.isSome then some (s.setRunning i r)
      else (appendLine cfg s i inv.todayISO (VisitLog.actionLine inv.recordId inv.message.request)).map
        fun s => s.setRunning i r
    else none
  | .commit i n =>
    match (s.laptop i).running[n]? with
    | none => none
    | some r =>
      if r.committed ∨ r.inv.faults.db.isSome then none
      else
        (Runs.run (PullLogs.step (cfg.pulls i)) (s.pulls i) ((hostOps cfg i r.inv).map .host)).map fun t =>
          (s.setPulls i t).setRunning i ((s.laptop i).running.set n { r with committed := true })
  | .answer i n =>
    match (s.laptop i).running[n]? with
    | none => none
    | some r =>
      if r.committed ∨ r.inv.faults.db.isSome then
        let left := (s.laptop i).running.eraseIdx n
        if r.inv.faults.result then some (s.setRunning i left)
        else
          let line := VisitLog.resultLine r.inv.recordId (BVLHost.resultText r.inv.errors)
          (appendLine cfg s i r.inv.todayISO line).map fun s => s.setRunning i left
      else none
  | .die i n => ((s.laptop i).running[n]?).map fun _ => s.setRunning i ((s.laptop i).running.eraseIdx n)
  | .push i a =>
    if canSync (s.laptop i) (.push i a) then (SyncClient.step (cfg.sync i) (s.sync i) a).map
      (s.setSync i) else none
  | .pull i a =>
    if canSync (s.laptop i) (.pull i a) then (PullLogs.step (cfg.pulls i) (s.pulls i) a).map
      (s.setPulls i) else none

def init : State ι where
  server := ⟨.empty, .empty cfg.serverDirectory⟩
  laptop i := ⟨.empty, none, none, [], ⟨.empty (cfg.directory i), ∅, []⟩, .empty, none, []⟩

/-! ## What is logged -/

def logged (s : State ι) (i : ι) : Set Text :=
  {raw | ∃ d, IsDate d ∧ raw ∈ SyncClient.lines (cfg.sync i) (s.laptop i).home d}

def mirrored (s : State ι) (i : ι) : Set Text :=
  {raw | ∃ d, IsDate d ∧ raw ∈ Framing.closed nl (SyncClient.mirror (cfg.sync i) (s.sync i) d)}

end

end Network

end VisitLogger
