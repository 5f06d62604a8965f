import VisitLogger.PullAlone

/-!
# The orders in which an undisturbed pull can go

The server scans and sends while the client receives and replays. When nothing
else comes in between, it does not matter how their steps fall: each keeps what
the laptop is going to have in the end (`Expects.step`, `pull_refines`).
-/

namespace VisitLogger

namespace PullLogs

open Store

section
variable (cfg : Config)

/-! ## What the server is going to send -/

def gatherLines (peer : Text) (s : List LogLine × List LogChunk) (ls : List LogLine) :
    List LogLine × List LogChunk :=
  ls.foldl (fun s l => (Server.gather (fun _ => none) peer s l).1) s

def sendRest (peer : Text) (r : List LogLine × List LogChunk) : List LogChunk :=
  if r.1 = [] then r.2 else r.2 ++ [⟨peer, r.1⟩]

def sendPeers (server : Disk) (request : SyncState) (sent : List LogChunk) (peers : List Text) : List LogChunk :=
  peers.foldl (fun sent peer => sendRest peer (gatherLines peer ([], sent)
    (scanned cfg.logRoot server peer (Server.since request peer)))) sent

def unread (server : Disk) (peer : Text) (index : Nat) : List Text → List LogLine
  | [] => []
  | date :: rest => numbered date index ((texts cfg.logRoot server peer date).drop index) ++
      rest.flatMap fun d => numbered d 0 (texts cfg.logRoot server peer d)

def Pull.ahead (server : Disk) (p : Pull) (peer : Text) : List LogLine :=
  let cursor := Server.since p.request peer
  (match p.todo with
    | none => unread cfg server peer 0 (datesFrom server cfg.logRoot peer cursor.1)
    | some dates => unread cfg server peer p.index dates).filter (isPast cursor.1 cursor.2)

/-- The chunks that are sent and not received, and those that will be sent. -/
def Pull.sent (server : Disk) (p : Pull) : List LogChunk :=
  match p.peers with
  | [] => p.stream
  | peer :: peers => sendPeers cfg server p.request
      (sendRest peer (gatherLines peer (p.batch, p.stream) (p.ahead cfg server peer))) peers

/-! ## What the laptop is going to have -/

def Chunk.applied (c : Chunk) (l : SyncClient.Laptop) : SyncClient.Laptop :=
  chunkEnd cfg.peerLogsDir c
    (match c.toReplay with
      | some m => { l with db := SyncClient.replayIntoDb l.db m.rawLine }
      | none => l) (c.lines.drop c.mirrored)

def Pull.applied (s : State) (p : Pull) : SyncClient.Laptop :=
  match p.chunk with
  | none => p.laptop s
  | some c => c.applied cfg (p.laptop s)

def outcome (s : State) (p : Pull) : SyncClient.Laptop :=
  SyncClient.doPull cfg.peerLogsDir (p.applied cfg s) (p.sent cfg s.server)

/-- A line is mirrored, then replayed, and then the next one is mirrored. -/
def Chunk.Ok (c : Chunk) : Prop :=
  c.mirrored = c.replayed ∨ c.mirrored = c.replayed + 1 ∧ c.replayed < c.lines.length

end

/-! ## The server's steps -/

/-- A step of the server leaves the client, and what is sent in the end. -/
structure Pull.Keeps (cfg : Config) (server : Disk) (p p' : Pull) : Prop where
  chunk : p'.chunk = p.chunk
  tx : p'.tx = p.tx
  sent : p'.sent cfg server = p.sent cfg server

section
variable {cfg : Config} {server : Disk} {p p' : Pull}

theorem unread_zero (peer : Text) (dates : List Text) : unread cfg server peer 0 dates =
    dates.flatMap fun d => numbered d 0 (texts cfg.logRoot server peer d) := by
  cases dates with
  | nil => rfl
  | cons date rest =>
    rw [unread, List.drop_zero, List.flatMap_cons]
    rfl

theorem keeps_list (h : Pull.list cfg server p = some p') : p.Keeps cfg server p' := by
  unfold Pull.list at h
  split at h
  · rename_i peer peers hpeers htodo
    cases h
    refine ⟨rfl, rfl, ?_⟩
    simp only [Pull.sent, hpeers, Pull.ahead, htodo]
  · cases h

theorem keeps_next (h : Pull.next cfg server p = some p') : p.Keeps cfg server p' := by
  unfold Pull.next at h
  split at h
  · rename_i peer peers date rest hpeers htodo
    obtain ⟨raw, hraw, rfl⟩ := Option.map_eq_some_iff.mp h
    obtain ⟨hlt, rfl⟩ := List.getElem?_eq_some_iff.mp hraw
    refine ⟨rfl, rfl, ?_⟩
    simp only [Pull.sent, hpeers, Pull.ahead, htodo, unread]
    rw [List.drop_eq_getElem_cons hlt, numbered, List.cons_append, List.filter_cons]
    split <;> rfl
  · cases h

theorem keeps_eof (h : Pull.eof cfg server p = some p') : p.Keeps cfg server p' := by
  unfold Pull.eof at h
  split at h
  · rename_i peer peers date rest hpeers htodo
    split at h
    · cases h
    · rename_i hlen
      cases h
      refine ⟨rfl, rfl, ?_⟩
      simp only [Pull.sent, hpeers, Pull.ahead, htodo, unread_zero]
      rw [unread, List.drop_of_length_le (not_lt.mp hlen), numbered, List.nil_append]
  · cases h

theorem keeps_endPeer (h : p.endPeer = some p') : p.Keeps cfg server p' := by
  unfold Pull.endPeer at h
  split at h
  · rename_i peer peers hpeers htodo
    cases h
    refine ⟨rfl, rfl, ?_⟩
    have hread : unread cfg server peer p.index [] = [] := rfl
    simp only [Pull.sent, hpeers, Pull.ahead, htodo, hread, List.filter_nil]
    cases peers with
    | nil => rfl
    | cons q qs =>
      simp only [sendPeers, List.foldl_cons, unread_zero]
      rfl
  · cases h

/-! ### What is sent comes after what is in the stream -/

theorem gatherLines_cons (peer : Text) (batch : List LogLine) (c : LogChunk) (stream : List LogChunk)
    (ls : List LogLine) : gatherLines peer (batch, c :: stream) ls =
      ((gatherLines peer (batch, stream) ls).1, c :: (gatherLines peer (batch, stream) ls).2) := by
  induction ls generalizing batch stream with
  | nil => rfl
  | cons l ls ih =>
    simp only [gatherLines, List.foldl_cons, Server.gather] at ih ⊢
    split
    · exact ih ..
    · exact ih ..

theorem sendRest_cons (peer : Text) (batch : List LogLine) (c : LogChunk) (stream : List LogChunk) :
    sendRest peer (batch, c :: stream) = c :: sendRest peer (batch, stream) := by
  unfold sendRest
  dsimp only
  split <;> rfl

theorem sendPeers_cons (request : SyncState) (c : LogChunk) (sent : List LogChunk) (peers : List Text) :
    sendPeers cfg server request (c :: sent) peers = c :: sendPeers cfg server request sent peers := by
  induction peers generalizing sent with
  | nil => rfl
  | cons peer peers ih =>
    simp only [sendPeers, List.foldl_cons] at ih ⊢
    rw [gatherLines_cons, sendRest_cons, ih]

theorem sent_stream {c : LogChunk} {stream : List LogChunk} (h : p.stream = c :: stream) :
    p.sent cfg server = c :: Pull.sent cfg server { p with stream } := by
  simp only [Pull.sent, h]
  split
  · rfl
  · rw [gatherLines_cons, sendRest_cons, sendPeers_cons]
    rfl

end

/-! ## The client's steps -/

section
variable {cfg : Config} {s t : State} {p : Pull}

/-- What is so of a pull whose laptop is going to be `l`, and of the laptop afterwards. -/
def Expects (cfg : Config) (server : Disk) (l : SyncClient.Laptop) (s : State) : Prop :=
  s.server = server ∧
    match s.pull with
    | some p => (∀ c, p.chunk = some c → c.Ok) ∧ outcome cfg s p = l
    | none => (⟨s.data.db, s.data.syncState, s.peerLogs⟩ : SyncClient.Laptop) = l

theorem expects_some {server : Disk} {l : SyncClient.Laptop} (hp : s.pull = some p) :
    Expects cfg server l s ↔ s.server = server ∧ (∀ c, p.chunk = some c → c.Ok) ∧ outcome cfg s p = l := by
  rw [Expects, hp]

theorem of_pull_step {f : Pull → Option Pull}
    (hs : (s.pull.bind f).map (fun p => { s with pull := some p }) = some t) :
    ∃ p p', s.pull = some p ∧ f p = some p' ∧ t = { s with pull := some p' } := by
  obtain ⟨p', hp', rfl⟩ := Option.map_eq_some_iff.mp hs
  obtain ⟨p, hp, hp'⟩ := Option.bind_eq_some_iff.mp hp'
  exact ⟨p, p', hp, hp', rfl⟩

theorem Expects.server_step {server : Disk} {l : SyncClient.Laptop} {f : Pull → Option Pull}
    (h : Expects cfg server l s) (hs : (s.pull.bind f).map (fun p => { s with pull := some p }) = some t)
    (hf : ∀ {p p'}, f p = some p' → p.Keeps cfg s.server p') : Expects cfg server l t := by
  obtain ⟨p, p', hp, hp', rfl⟩ := of_pull_step hs
  obtain ⟨hserver, hok, h⟩ := (expects_some hp).mp h
  obtain ⟨hchunk, hnow, hsent⟩ := hf hp'
  refine (expects_some rfl).mpr ⟨hserver, fun c hc => hok c (hchunk ▸ hc), ?_⟩
  rw [← h, outcome, outcome, hsent]
  simp only [Pull.applied, hchunk, Pull.laptop, Pull.now, hnow]

theorem Expects.receive {server : Disk} {l : SyncClient.Laptop} (h : Expects cfg server l s)
    (hs : step cfg s .receive = some t) : Expects cfg server l t := by
  obtain ⟨p, p', hp, hr, rfl⟩ := of_pull_step hs
  obtain ⟨hserver, hok, h⟩ := (expects_some hp).mp h
  unfold Pull.receive at hr
  split at hr
  · rename_i c stream hc hstream
    cases hr
    refine (expects_some rfl).mpr ⟨hserver, fun c' hc' => ?_, ?_⟩
    · cases hc'
      exact Or.inl rfl
    · rw [← h, outcome, outcome, sent_stream hstream, SyncClient.doPull, SyncClient.doPull, List.foldl_cons]
      congr 1
      simp only [Pull.applied, hc]
      rfl
  · cases hr

theorem Expects.mirror {server : Disk} {l : SyncClient.Laptop} (h : Expects cfg server l s)
    (hs : step cfg s .mirror = some t) : Expects cfg server l t := by
  simp only [step, Option.bind_eq_bind, Option.bind_eq_some_iff] at hs
  obtain ⟨p, hp, c, hc, m, hm, hs⟩ := hs
  cases hs
  obtain ⟨hserver, hok, h⟩ := (expects_some hp).mp h
  unfold Chunk.toMirror at hm
  split at hm
  · rename_i he
    obtain ⟨hlt, rfl⟩ := List.getElem?_eq_some_iff.mp hm
    refine (expects_some rfl).mpr ⟨hserver, fun c' hc' => ?_, ?_⟩
    · cases hc'
      exact Or.inr ⟨congrArg (· + 1) he, he ▸ hlt⟩
    · rw [← h, outcome, outcome]
      congr 1
      simp only [Pull.applied, hc, Chunk.applied, Chunk.toReplay]
      rw [if_pos (by omega), if_neg (by omega), List.drop_eq_getElem_cons hlt, ← he, hm]
      rfl
  · cases hm

theorem Expects.replay {server : Disk} {l : SyncClient.Laptop} (h : Expects cfg server l s)
    (hs : step cfg s .replay = some t) : Expects cfg server l t := by
  simp only [step, Option.bind_eq_bind, Option.bind_eq_some_iff] at hs
  obtain ⟨p, hp, c, hc, m, hm, hs⟩ := hs
  cases hs
  obtain ⟨hserver, hok, h⟩ := (expects_some hp).mp h
  have hr := hm
  unfold Chunk.toReplay at hm
  split at hm
  · rename_i hlt
    have he : c.mirrored = c.replayed + 1 := (hok c hc).elim (fun he => by omega) And.left
    refine (expects_some rfl).mpr ⟨hserver, fun c' hc' => ?_, ?_⟩
    · cases hc'
      exact Or.inl he
    · rw [← h, outcome, outcome]
      congr 1
      have hnone : Chunk.toReplay { c with replayed := c.replayed + 1 } = none := if_neg (by simp [he])
      simp only [Pull.applied, hc, Chunk.applied, hr, hnone]
      rfl
  · cases hm

theorem Expects.endChunk {server : Disk} {l : SyncClient.Laptop} (h : Expects cfg server l s)
    (hs : step cfg s .endChunk = some t) : Expects cfg server l t := by
  simp only [step, Option.bind_eq_bind, Option.bind_eq_some_iff] at hs
  obtain ⟨p, hp, c, hc, hs⟩ := hs
  obtain ⟨hserver, hok, h⟩ := (expects_some hp).mp h
  split at hs
  · cases hs
  · rename_i hlen
    cases hs
    have he : c.mirrored = c.replayed := (hok c hc).elim id fun h => absurd h.2 hlen
    refine (expects_some rfl).mpr ⟨hserver, fun c' hc' => ?_, ?_⟩
    · cases hc'
    · rw [← h, outcome, outcome]
      congr 1
      simp only [Pull.applied, hc, Chunk.applied, Chunk.toReplay]
      rw [if_neg (by omega), List.drop_of_length_le (by omega)]
      rfl

theorem Expects.finish {server : Disk} {l : SyncClient.Laptop} (h : Expects cfg server l s)
    (hs : step cfg s .finish = some t) : Expects cfg server l t := by
  simp only [step, Option.bind_eq_bind, Option.bind_eq_some_iff] at hs
  obtain ⟨p, hp, hs⟩ := hs
  obtain ⟨hserver, -, h⟩ := (expects_some hp).mp h
  split at hs
  · rename_i hnil
    cases hs
    obtain ⟨hpeers, hstream, hchunk⟩ := hnil
    refine ⟨hserver, ?_⟩
    rw [← h, outcome]
    simp only [Pull.applied, Option.isNone_iff_eq_none.mp hchunk, Pull.sent, hpeers, hstream]
    rfl
  · cases hs

/-- **Each step of the pull keeps what the laptop is going to have.** -/
theorem Expects.step {server : Disk} {l : SyncClient.Laptop} {a : Act} (h : Expects cfg server l s) (ha : a.Own)
    (hstart : a ≠ .start) (hs : PullLogs.step cfg s a = some t) : Expects cfg server l t := by
  cases a with
  | append => cases ha
  | host => cases ha
  | fail => cases ha
  | kill => cases ha
  | start => exact absurd rfl hstart
  | list => exact h.server_step hs keeps_list
  | next => exact h.server_step hs keeps_next
  | eof => exact h.server_step hs keeps_eof
  | endPeer => exact h.server_step hs keeps_endPeer
  | receive => exact h.receive hs
  | mirror => exact h.mirror hs
  | replay => exact h.replay hs
  | endChunk => exact h.endChunk hs
  | finish => exact h.finish hs

/-! ## From the start to the end -/

theorem pullPeers_eq {rio : Text → ReadIo} (hrio : ∀ P, QuietScan (rio P)) (server : Disk) (request : SyncState)
    (sent : List LogChunk) (peers : List Text) :
    (Server.pullPeers (fun _ => none) rio cfg.logRoot server ⟨cfg.machineId, request⟩ sent peers).1 =
      sendPeers cfg server request sent (peers.filter (· ≠ cfg.machineId)) := by
  induction peers generalizing sent with
  | nil => rfl
  | cons peer peers ih =>
    by_cases hown : peer = cfg.machineId
    · rw [List.filter_cons_of_neg (by simpa using hown), Server.pullPeers, if_pos hown, ih]
    · rw [List.filter_cons_of_pos (by simpa using hown), Server.pullPeers, if_neg hown]
      dsimp only
      rw [linesAfter_gather (hrio peer), sendPeers, List.foldl_cons, ← sendPeers, ← ih, sendRest, gatherLines]
      dsimp only
      split <;> rfl

theorem sent_startPull {rio : Text → ReadIo} (hrio : ∀ P, QuietScan (rio P)) (s : State) :
    (startPull cfg s).sent cfg s.server = (Server.pullLogs (fun _ => none) none rio cfg.logRoot s.server
      (some cfg.machineId) ⟨cfg.machineId, s.data.syncState⟩).1 := by
  have hchunks : (Server.pullLogs (fun _ => none) none rio cfg.logRoot s.server (some cfg.machineId)
      ⟨cfg.machineId, s.data.syncState⟩).1 = (Server.pullPeers (fun _ => none) rio cfg.logRoot s.server
        ⟨cfg.machineId, s.data.syncState⟩ [] (sortStrings (s.server.subdirs cfg.logRoot))).1 := by
    simp [Server.pullLogs, Server.crossCheck, Server.enrolledMachines]
  have hpeers : (startPull cfg s).peers =
      (sortStrings (s.server.subdirs cfg.logRoot)).filter (· ≠ cfg.machineId) := rfl
  rw [hchunks, pullPeers_eq hrio, ← hpeers, Pull.sent]
  cases (startPull cfg s).peers with
  | nil => rfl
  | cons peer peers =>
    simp only [Pull.ahead, startPull, unread_zero, sendPeers, List.foldl_cons]
    rfl

/-- **Every order of its steps gives what `do_pull` gives on what PullLogs sends**: a
pull with nothing else in between and no failure can end, whatever the reads of the
day logs return at a time, and whenever it has ended, the laptop is the same. -/
theorem pull_refines {rio : Text → ReadIo} (hrio : ∀ P, QuietScan (rio P)) (hp : s.pull = none) :
    let l := SyncClient.doPull cfg.peerLogsDir ⟨s.data.db, s.data.syncState, s.peerLogs⟩
      (Server.pullLogs (fun _ => none) none rio cfg.logRoot s.server (some cfg.machineId)
        ⟨cfg.machineId, s.data.syncState⟩).1
    Pulls cfg s l ∧ ∀ acts t, (∀ a ∈ acts, a.Own ∧ a ≠ .start) →
      Runs.run (PullLogs.step cfg) s (.start :: acts) = some t → t.pull = none →
        t.server = s.server ∧ t.data.db = l.db ∧ t.data.syncState = l.syncState ∧ t.peerLogs = l.peerLogs := by
  intro l
  refine ⟨pull_alone hrio hp, fun acts t hown hr hend => ?_⟩
  obtain ⟨s₁, hs₁, hr⟩ := Option.bind_eq_some_iff.mp hr
  rw [step_start hp] at hs₁
  cases hs₁
  have hstart : Expects cfg s.server l { s with pull := some (startPull cfg s) } := by
    refine (expects_some rfl).mpr ⟨rfl, fun c hc => ?_, ?_⟩
    · cases hc
    · have hsent : (startPull cfg s).sent cfg s.server = _ := sent_startPull hrio s
      change SyncClient.doPull _ _ ((startPull cfg s).sent cfg s.server) = l
      rw [hsent]
      rfl
  have hobeys : Runs.Obeys (PullLogs.step cfg) (fun _ a => a.Own ∧ a ≠ .start) _ acts :=
    Runs.obeys_of_forall (fun a ha _ => hown a ha) { s with pull := some (startPull cfg s) }
  obtain ⟨hserver, hl⟩ : Expects cfg s.server l t :=
    Runs.run_invariant (fun _ _ _ h ha hs => h.step ha.1 ha.2 hs) hstart hobeys hr
  rw [hend] at hl
  exact ⟨hserver, congrArg SyncClient.Laptop.db hl, congrArg SyncClient.Laptop.syncState hl,
    congrArg SyncClient.Laptop.peerLogs hl⟩

end

def bytewise : ReadIo := { chunks := fun _ data => data.map fun b => [b] }

theorem quietScan_bytewise : QuietScan bytewise := by
  refine ⟨rfl, rfl, rfl, fun _ data => ?_⟩
  change (data.map List.singleton).flatten = data
  rw [← List.flatMap_def]
  exact List.flatMap_singleton' data

def twoDaysShared : State :=
  { State.init [] with server := (runAppends .insertion ⟨true, [ascii "logs"]⟩ (ascii "m") Disk.empty twoDays).1 }

def laptopConfig : Config := ⟨⟨true, [ascii "logs"]⟩, ⟨true, [ascii "peers"]⟩, ascii "laptop"⟩

theorem pull_refines_bytewise :
    let sent := (Server.pullLogs (fun _ => none) none (fun _ => bytewise) ⟨true, [ascii "logs"]⟩
      twoDaysShared.server (some (ascii "laptop")) ⟨ascii "laptop", ∅⟩).1
    let l := SyncClient.doPull ⟨true, [ascii "peers"]⟩ ⟨.empty [], ∅, .empty⟩ sent
    sent = [⟨ascii "m", [⟨ascii "2024-05-01", 0, ascii "a"⟩, ⟨ascii "2024-05-01", 1, ascii "c"⟩,
        ⟨ascii "2024-05-02", 0, ascii "b"⟩]⟩] ∧
      Pulls laptopConfig twoDaysShared l ∧ ∀ acts t, (∀ a ∈ acts, a.Own ∧ a ≠ .start) →
        Runs.run (PullLogs.step laptopConfig) twoDaysShared (.start :: acts) = some t → t.pull = none →
          t.server = twoDaysShared.server ∧ t.data.db = l.db ∧ t.data.syncState = l.syncState ∧
            t.peerLogs = l.peerLogs :=
  ⟨by decide +kernel, pull_refines (fun _ => quietScan_bytewise) rfl⟩

end PullLogs

end VisitLogger
