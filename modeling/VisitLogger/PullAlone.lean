import VisitLogger.PullRebuild

/-!
# A pull that nothing disturbs

A pull goes step by step, with the day logs, the database and the faults of
others in between. When nothing comes in between, its steps amount to
`Server.pullLogs`, and then `SyncClient.doPull` on the chunks that this sends.
-/

namespace VisitLogger

namespace PullLogs

open Store

def Act.Own : Act → Prop
  | .append .. | .host _ | .fail | .kill => False
  | _ => True

def Pull.laptop (p : Pull) (s : State) : SyncClient.Laptop :=
  ⟨(p.now s.data).db, (p.now s.data).syncState, s.peerLogs⟩

def Pulls (cfg : Config) (s : State) (l : SyncClient.Laptop) : Prop :=
  ∃ s', Runs.Reaches (step cfg) Act.Own s s' ∧ s'.pull = none ∧ s'.server = s.server ∧ s'.data.db = l.db ∧
    s'.data.syncState = l.syncState ∧ s'.peerLogs = l.peerLogs

section
variable {cfg : Config} {s t : State} {p : Pull} {l : SyncClient.Laptop}

theorem Pulls.next {a : Act} (hs : step cfg s a = some t) (ha : a.Own) (hserver : t.server = s.server)
    (h : Pulls cfg t l) :
    Pulls cfg s l := by
  obtain ⟨s', h, hpull, hserver', hend⟩ := h
  exact ⟨s', .next hs ha h, hpull, hserver'.trans hserver, hend⟩

/-! ## The client -/

def chunkEnd (peerLogsDir : Path) (c : Chunk) (l : SyncClient.Laptop) (rest : List LogLine) :
    SyncClient.Laptop :=
  let last := SyncClient.lastOf (SyncClient.getCursor (l.syncState.lookup c.peer)) c.lines
  let l := rest.foldl (SyncClient.applyLine peerLogsDir c.peer) l
  { l with syncState := SyncClient.setCursor l.syncState c.peer last.1 last.2 }

theorem applyChunk_eq {peerLogsDir : Path} {chunk : LogChunk} {laptop : SyncClient.Laptop} :
    SyncClient.applyChunk peerLogsDir laptop chunk =
      chunkEnd peerLogsDir ⟨chunk.peerMachineId, chunk.lines, 0, 0⟩ laptop chunk.lines :=
  rfl

theorem pulls_lines {stream : List LogChunk}
    (hrest : ∀ (s : State) (p : Pull), s.pull = some p → p.peers = [] → p.stream = stream → p.chunk = none →
      Pulls cfg s (SyncClient.doPull cfg.peerLogsDir (p.laptop s) stream))
    (rest : List LogLine) {c : Chunk} (hp : s.pull = some p) (hpeers : p.peers = [])
    (hstream : p.stream = stream)
    (hc : p.chunk = some c) (he : c.mirrored = c.replayed) (hdrop : c.lines.drop c.replayed = rest) :
    Pulls cfg s (SyncClient.doPull cfg.peerLogsDir (chunkEnd cfg.peerLogsDir c (p.laptop s) rest) stream) := by
  obtain ⟨peer, lines, i, j⟩ := c
  obtain rfl : i = j := he
  dsimp only at hdrop
  induction rest generalizing s p i with
  | nil =>
    have hlen : ¬i < lines.length := not_lt.mpr (List.drop_eq_nil_iff.mp hdrop)
    let p' : Pull := { p with
      chunk := none
      tx := some { p.now s.data with
        syncState := (chunkEnd cfg.peerLogsDir ⟨peer, lines, i, i⟩ (p.laptop s) []).syncState } }
    have hstep : step cfg s .endChunk = some { s with pull := some p' } := by
      simp only [step, hp, hc, Option.bind_eq_bind, Option.bind_some, if_neg hlen]
      rfl
    exact .next hstep trivial rfl (hrest _ p' rfl hpeers hstream rfl)
  | cons m rest ih =>
    have hm : lines[i]? = some m := by
      have h := congrArg List.head? hdrop
      rwa [List.head?_drop] at h
    let p' : Pull := { p with chunk := some ⟨peer, lines, i + 1, i⟩, appended := true }
    let s' : State := { s with
      peerLogs := SyncClient.appendPeerLine cfg.peerLogsDir s.peerLogs peer m.date m.rawLine
      pull := some p' }
    let p'' : Pull := { p' with
      chunk := some ⟨peer, lines, i + 1, i + 1⟩
      tx := some ((p.now s.data).write (.pulled peer m)) }
    have hmirror : step cfg s .mirror = some s' := by
      simp only [step, hp, hc, Option.bind_eq_bind, Option.bind_some, Chunk.toMirror, if_true, hm]
      rfl
    have hreplay : step cfg s' .replay = some { s' with pull := some p'' } := by
      simp only [step, Option.bind_eq_bind, Option.bind_some, Chunk.toReplay, p', s',
        if_pos (Nat.lt_succ_self i), hm]
      rfl
    have hnext : lines.drop (i + 1) = rest := by rw [← List.tail_drop, hdrop, List.tail_cons]
    exact .next hmirror trivial rfl (.next hreplay trivial rfl
      (ih (p := p'') rfl hpeers hstream (i + 1) rfl hnext))

theorem pulls_chunks (stream : List LogChunk) (s : State) (p : Pull) (hp : s.pull = some p)
    (hpeers : p.peers = [])
    (hstream : p.stream = stream) (hc : p.chunk = none) :
    Pulls cfg s (SyncClient.doPull cfg.peerLogsDir (p.laptop s) stream) := by
  induction stream generalizing s p with
  | nil =>
    have hstep : step cfg s .finish = some { s with data := p.now s.data, pull := none } := by
      simp only [step, hp, hpeers, hstream, hc, Option.bind_eq_bind, Option.bind_some,
        Option.isNone_none, and_self, if_true]
    exact .next hstep trivial rfl ⟨_, .refl _, rfl, rfl, rfl, rfl, rfl⟩
  | cons c stream ih =>
    let p' : Pull := { p with stream, chunk := some ⟨c.peerMachineId, c.lines, 0, 0⟩ }
    have hstep : step cfg s .receive = some { s with pull := some p' } := by
      simp only [step, hp, Option.bind_some, Pull.receive, hstream, hc, Option.map_some]
      rfl
    rw [SyncClient.doPull, List.foldl_cons, applyChunk_eq]
    have hlines : Pulls cfg { s with pull := some p' } _ :=
      pulls_lines ih c.lines (p := p') rfl hpeers rfl rfl rfl rfl
    exact .next hstep trivial rfl hlines

/-! ## The server -/

def gathered (since : Text × Int) (peer : Text) (p : Pull) (ls : List LogLine) : List LogLine × List LogChunk :=
  (ls.filter (isPast since.1 since.2)).foldl (fun s l => (Server.gather (fun _ => none) peer s l).1)
    (p.batch, p.stream)

theorem pulls_day {peer date : Text} {peers rest : List Text} (raws : List Text) (hp : s.pull = some p)
    (hpeers : p.peers = peer :: peers) (ht : p.todo = some (date :: rest))
    (hraws : (texts cfg.logRoot s.server peer date).drop p.index = raws)
    (h : Pulls cfg { s with pull := some { p with
      todo := some rest
      index := 0
      batch := (gathered (Server.since p.request peer) peer p (numbered date p.index raws)).1
      stream := (gathered (Server.since p.request peer) peer p
        (numbered date p.index raws)).2 } } l) : Pulls cfg s l := by
  induction raws generalizing s p with
  | nil =>
    have hlen : ¬p.index < (texts cfg.logRoot s.server peer date).length :=
      not_lt.mpr (List.drop_eq_nil_iff.mp hraws)
    have hstep : step cfg s .eof = some { s with pull := some { p with todo := some rest, index := 0 } } := by
      simp only [step, hp, Option.bind_some, Pull.eof, hpeers, ht, if_neg hlen, Option.map_some]
    exact .next hstep trivial rfl h
  | cons raw raws ih =>
    have hraw : (texts cfg.logRoot s.server peer date)[p.index]? = some raw := by
      have h := congrArg List.head? hraws
      rwa [List.head?_drop] at h
    have hnext : (texts cfg.logRoot s.server peer date).drop (p.index + 1) = raws := by
      rw [← List.tail_drop, hraws, List.tail_cons]
    let r := gathered (Server.since p.request peer) peer p [⟨date, p.index, raw⟩]
    let p' : Pull := { p with index := p.index + 1, batch := r.1, stream := r.2 }
    have hstep : step cfg s .next = some { s with pull := some p' } := by
      simp only [step, hp, Option.bind_some, Pull.next, hpeers, ht, hraw, Option.map_some, p', r,
        gathered, List.filter_cons, List.filter_nil]
      split <;> rfl
    have hmore : ∀ ls, gathered (Server.since p.request peer) peer p' ls =
        gathered (Server.since p.request peer) peer p (⟨date, p.index, raw⟩ :: ls) := by
      intro ls
      simp only [gathered, p', r, List.filter_cons, List.filter_nil]
      split <;> rfl
    refine .next hstep trivial rfl (ih (p := p') rfl hpeers ht hnext ?_)
    simp only [p', hmore, numbered] at h ⊢
    exact h

theorem pulls_days {peer : Text} {peers : List Text} (dates : List Text) (hp : s.pull = some p)
    (hpeers : p.peers = peer :: peers)
    (ht : p.todo = some dates) (hi : p.index = 0)
    (h : Pulls cfg { s with pull := some { p with
      todo := some []
      batch := (gathered (Server.since p.request peer) peer p
        (dates.flatMap fun d => numbered d 0 (texts cfg.logRoot s.server peer d))).1
      stream := (gathered (Server.since p.request peer) peer p
        (dates.flatMap fun d => numbered d 0
          (texts cfg.logRoot s.server peer d))).2 } } l) : Pulls cfg s l := by
  obtain ⟨server, data, peerLogs, pull⟩ := s
  obtain rfl : pull = some p := hp
  induction dates generalizing p with
  | nil =>
    obtain ⟨request, _, _, index, batch, stream, chunk, tx, appended⟩ := p
    subst ht
    exact h
  | cons date rest ih =>
    refine pulls_day _ rfl hpeers ht (by rw [hi, List.drop_zero]) ?_
    let r := gathered (Server.since p.request peer) peer p
      (numbered date p.index (texts cfg.logRoot server peer date))
    let p' : Pull := { p with todo := some rest, index := 0, batch := r.1, stream := r.2 }
    have hmore : ∀ ls, gathered (Server.since p.request peer) peer p' ls =
      gathered (Server.since p.request peer) peer p
        (numbered date p.index (texts cfg.logRoot server peer date) ++ ls) := by
      intro ls
      simp only [gathered, p', r, List.filter_append, List.foldl_append]
    refine ih (p := p') hpeers rfl rfl ?_
    rw [List.flatMap_cons, hi] at h
    rw [hi] at hmore
    simp only [p', hmore]
    exact h

theorem pulls_peers {rio : Text → ReadIo} (hrio : ∀ P, QuietScan (rio P)) (peers : List Text)
    (hp : s.pull = some p)
    (hpeers : p.peers = peers.filter (· ≠ cfg.machineId)) (ht : p.todo = none) (hb : p.batch = [])
    (h : ∀ p' : Pull, p'.now s.data = p.now s.data → p'.peers = [] → p'.chunk = p.chunk →
      p'.stream =
        (Server.pullPeers (fun _ => none) rio cfg.logRoot s.server ⟨cfg.machineId, p.request⟩ p.stream peers).1 →
      Pulls cfg { s with pull := some p' } l) : Pulls cfg s l := by
  obtain ⟨server, data, peerLogs, pull⟩ := s
  obtain rfl : pull = some p := hp
  induction peers generalizing p with
  | nil => exact h p rfl hpeers rfl rfl
  | cons peer peers ih =>
    by_cases hown : peer = cfg.machineId
    · rw [List.filter_cons_of_neg (by simpa using hown)] at hpeers
      apply ih hpeers ht hb
      simpa only [Server.pullPeers, if_pos hown] using h
    · rw [List.filter_cons_of_pos (by simpa using hown)] at hpeers
      obtain ⟨request, ps, todo, index, batch, stream, chunk, tx, appended⟩ := p
      obtain rfl : ps = peer :: peers.filter (· ≠ cfg.machineId) := hpeers
      obtain rfl : todo = none := ht
      obtain rfl : batch = [] := hb
      let p : Pull := ⟨request, peer :: peers.filter (· ≠ cfg.machineId), none, index, [], stream,
        chunk, tx, appended⟩
      let cursor := Server.since request peer
      let p₁ : Pull := { p with todo := some (datesFrom server cfg.logRoot peer cursor.1), index := 0 }
      have hlist : step cfg ⟨server, data, peerLogs, some p⟩ .list =
        some ⟨server, data, peerLogs, some p₁⟩ := rfl
      let r := (scanned cfg.logRoot server peer cursor).foldl (fun s l =>
        (Server.gather (fun _ => none) peer s l).1) ([], stream)
      refine .next hlist trivial rfl (pulls_days (datesFrom server cfg.logRoot peer cursor.1)
        (p := p₁) rfl rfl rfl rfl ?_)
      let p₂ : Pull := { p₁ with todo := some [], batch := r.1, stream := r.2 }
      let sent := if r.1 = [] then r.2 else r.2 ++ [⟨peer, r.1⟩]
      let p₃ : Pull := { p₂ with peers := peers.filter (· ≠ cfg.machineId), todo := none, batch := [], stream := sent }
      have hend : step cfg ⟨server, data, peerLogs, some p₂⟩ .endPeer = some ⟨server, data, peerLogs, some p₃⟩ := rfl
      have hsent : (Server.pullPeers (fun _ => none) rio cfg.logRoot server ⟨cfg.machineId, request⟩ stream
          (peer :: peers)).1 =
            (Server.pullPeers (fun _ => none) rio cfg.logRoot server ⟨cfg.machineId, request⟩ sent
              peers).1 := by
        rw [Server.pullPeers, if_neg hown]
        dsimp only
        rw [linesAfter_gather (hrio peer)]
        change (if r.1 = [] then _ else _ : List LogChunk × Except Server.PullError Unit).1 = _
        simp only [sent]
        split <;> rfl
      have hrest : Pulls cfg ⟨server, data, peerLogs, some p₃⟩ l := by
        refine ih (p := p₃) rfl rfl rfl fun p' hnow hnil hc hstream => h p' hnow hnil hc ?_
        rw [hstream, hsent]
      have h₂ : Pulls cfg ⟨server, data, peerLogs, some p₂⟩ l := .next hend trivial rfl hrest
      exact h₂

theorem pull_started {rio : Text → ReadIo} (hrio : ∀ P, QuietScan (rio P)) :
    Pulls cfg { s with pull := some (startPull cfg s) }
      (SyncClient.doPull cfg.peerLogsDir ⟨s.data.db, s.data.syncState, s.peerLogs⟩
        (Server.pullLogs (fun _ => none) none rio cfg.logRoot s.server (some cfg.machineId)
          ⟨cfg.machineId, s.data.syncState⟩).1) := by
  have hchunks : (Server.pullLogs (fun _ => none) none rio cfg.logRoot s.server (some cfg.machineId)
      ⟨cfg.machineId, s.data.syncState⟩).1 = (Server.pullPeers (fun _ => none) rio cfg.logRoot s.server
        ⟨cfg.machineId, s.data.syncState⟩ [] (sortStrings (s.server.subdirs cfg.logRoot))).1 := by
    simp [Server.pullLogs, Server.crossCheck, Server.enrolledMachines]
  rw [hchunks]
  refine pulls_peers hrio _ (p := startPull cfg s) rfl rfl rfl rfl fun p' hnow hpeers hc hstream => ?_
  have h : Pulls cfg { s with pull := some p' } _ := pulls_chunks _ _ p' rfl hpeers hstream hc
  have hlaptop : p'.laptop { s with pull := some p' } = ⟨s.data.db, s.data.syncState, s.peerLogs⟩ := by
    simp only [Pull.laptop, hnow]
    rfl
  rw [hlaptop] at h
  exact h

theorem step_start (hp : s.pull = none) :
    step cfg s .start = some { s with pull := some (startPull cfg s) } := by
  simp only [step, hp]

/-- **A pull alone is `do_pull` on what PullLogs sends**, whatever the reads of its files return at a time. -/
theorem pull_alone {rio : Text → ReadIo} (hrio : ∀ P, QuietScan (rio P)) (hp : s.pull = none) :
    Pulls cfg s (SyncClient.doPull cfg.peerLogsDir ⟨s.data.db, s.data.syncState, s.peerLogs⟩
      (Server.pullLogs (fun _ => none) none rio cfg.logRoot s.server (some cfg.machineId)
        ⟨cfg.machineId, s.data.syncState⟩).1) :=
  .next (step_start hp) trivial rfl (pull_started hrio)

end

end PullLogs

end VisitLogger
