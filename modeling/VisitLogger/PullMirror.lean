import VisitLogger.PullSound

/-!
# The mirrors of the peers

A pull extends its mirrors as it goes, outside the transaction that holds the
cursors. What it has still to append carries on where each mirror ends
(`Follow`). A pull that is killed after an append, or fails in the middle of a
chunk, leaves mirrors ahead of their cursors, and the next pull appends the same
lines again (`pull_killed_duplicates`). In the runs where that does not happen
every mirror is a prefix of the server's (`peer_mirror_prefix`).
-/

namespace VisitLogger

namespace PullLogs

open Framing Store

/-! ## What is in the queue for one day log -/

def lane (P d : Text) (queue : List (Text × LogLine)) : List LogLine :=
  (queue.filter fun x => x.1 = P ∧ x.2.date = d).map Prod.snd

theorem lane_append (P d : Text) (queue more : List (Text × LogLine)) :
    lane P d (queue ++ more) = lane P d queue ++ lane P d more := by
  rw [lane, List.filter_append, List.map_append, lane, lane]

theorem lane_cons (P d peer : Text) (l : LogLine) (queue : List (Text × LogLine)) :
    lane P d ((peer, l) :: queue) = if peer = P ∧ l.date = d then l :: lane P d queue else lane P d queue := by
  by_cases h : peer = P ∧ l.date = d
  · simp [lane, h]
  · rw [if_neg h, lane, List.filter_cons_of_neg (by simpa using h), lane]

/-- The mirrors have `m d` lines of day `d`: those up to the cursor, and none of later days. -/
def AtCursor (m : Text → Nat) (c : Text × Int) : Prop :=
  ∀ d, IsDate d → (c.1 < d → m d = 0) ∧ (c.1 = d → (m d : Int) = c.2 + 1)

/-- The queue carries on where the mirrors end; `reached` is the last line of
each peer that is mirrored. -/
structure Follow (logRoot : Path) (server : Disk) (m : Text → Text → Nat) (reached : Text → Text × Int)
    (queue : List (Text × LogLine)) : Prop where
  queued : ∀ x ∈ queue, Plain x.1 ∧ x.2 ∈ peerLog logRoot server x.1
  sorted : queue.Pairwise fun x y => x.1 = y.1 → Before x.2 y.2
  counts : ∀ P d, CountUp (m P d) (lane P d queue)
  after : ∀ x ∈ queue, (reached x.1).1 ≤ x.2.date
  cursor : ∀ P, Plain P → AtCursor (m P) (reached P)

section
variable {logRoot : Path} {server server' : Disk} {m m' : Text → Text → Nat}
  {reached reached' : Text → Text × Int} {queue : List (Text × LogLine)} {peer : Text} {l : LogLine}

theorem Follow.grown (h : Follow logRoot server m reached queue) (hg : Grown logRoot server server') :
    Follow logRoot server' m reached queue :=
  ⟨fun x hx => ⟨(h.queued x hx).1, hg.mem (h.queued x hx).1 (h.queued x hx).2⟩, h.sorted, h.counts,
    h.after, h.cursor⟩

theorem Follow.push (h : Follow logRoot server m reached queue) (hP : Plain peer)
    (hl : l ∈ peerLog logRoot server peer)
    (hlast : ∀ k, (peer, k) ∈ queue → Before k l) (hafter : (reached peer).1 ≤ l.date)
    (hcount : l.lineOffset = (m peer l.date : Int) + (lane peer l.date queue).length) :
    Follow logRoot server m reached (queue ++ [(peer, l)]) := by
  refine ⟨queued_push h.queued hP hl, sorted_push h.sorted hlast, fun P d => ?_, fun x hx => ?_, h.cursor⟩
  · rw [lane_append, lane_cons]
    apply (h.counts P d).append
    split
    · rename_i he
      obtain ⟨rfl, rfl⟩ := he
      intro i hi
      obtain rfl : i = 0 := by simpa [lane] using hi
      simp [hcount]
    · exact fun i hi => absurd hi (by simp [lane])
  · rcases List.mem_append.mp hx with hx | hx
    · exact h.after x hx
    · obtain rfl := List.mem_singleton.mp hx
      exact hafter

theorem Follow.head (h : Follow logRoot server m reached ((peer, l) :: queue)) :
    l.lineOffset = m peer l.date := by
  have hc := h.counts peer l.date
  rw [lane_cons, if_pos ⟨rfl, rfl⟩] at hc
  have h₀ := hc 0 (by simp)
  simpa using h₀

theorem Follow.pop (h : Follow logRoot server m reached ((peer, l) :: queue))
    (hm : ∀ P d, Plain P → IsDate d → m' P d = m P d + if P = peer ∧ d = l.date then 1 else 0)
    (hr : ∀ P, reached' P = if P = peer then (l.date, l.lineOffset) else reached P) :
    Follow logRoot server m' reached' queue := by
  obtain ⟨hhead, hsorted⟩ := List.pairwise_cons.mp h.sorted
  obtain ⟨hP, hl⟩ := h.queued (peer, l) (by simp)
  have hdate := (mem_peerLog.mp hl).1
  have hoff := h.head
  refine ⟨fun x hx => h.queued x (List.mem_cons_of_mem _ hx), hsorted, fun P d => ?_, fun x hx => ?_,
    fun P hP' d hd => ?_⟩
  · have hc := h.counts P d
    rw [lane_cons] at hc
    split at hc
    · rename_i he
      obtain ⟨rfl, rfl⟩ := he
      rw [hm peer l.date hP hdate, if_pos ⟨rfl, rfl⟩]
      intro i hi
      have := hc (i + 1) (by simpa using hi)
      simp only [List.getElem_cons_succ] at this
      omega
    · rename_i hne
      intro i hi
      -- a lane that has lines is of a plain peer and a date
      have hmem := List.getElem_mem hi
      obtain ⟨x, hx, -⟩ := List.mem_map.mp hmem
      obtain ⟨hxq, hxe⟩ := List.mem_filter.mp hx
      simp only [decide_eq_true_eq] at hxe
      obtain ⟨rfl, rfl⟩ := hxe
      obtain ⟨hxP, hxl⟩ := h.queued x (List.mem_cons_of_mem _ hxq)
      rw [hm x.1 x.2.date hxP (mem_peerLog.mp hxl).1, if_neg fun he => hne ⟨he.1.symm, he.2.symm⟩]
      exact hc i hi
  · rw [hr]
    split
    · rename_i he
      rcases hhead x hx he.symm with hlt | ⟨hd, -⟩
      · exact le_of_lt hlt
      · exact le_of_eq hd
    · exact h.after x (List.mem_cons_of_mem _ hx)
  · rw [hr, hm P d hP' hd]
    by_cases he : P = peer
    · subst he
      rw [if_pos rfl]
      refine ⟨fun hlt => ?_, fun hd => ?_⟩
      · have := (h.cursor P hP d hd).1 (lt_of_le_of_lt (h.after (P, l) (by simp)) hlt)
        rw [this, if_neg fun he => ne_of_gt hlt he.2]
      · simp only at hd
        rw [if_pos ⟨rfl, hd.symm⟩, ← hd, hoff]
        simp
    · rw [if_neg he, if_neg fun h => he h.1, Nat.add_zero]
      exact h.cursor P hP' d hd

end

/-! ## The scan under way -/

def base (since : Text × Int) (d : Text) : Int := if d = since.1 then since.2 + 1 else 0

/-- The lines of a day that are mirrored or queued reach to where the scan is. -/
structure ScanAt (m : Text → Text → Nat) (reached : Text →
  Text × Int) (queue : List (Text × LogLine)) (since : Text × Int)
    (peer : Text) (dates : List Text) (index : Nat) : Prop where
  sorted : dates.Pairwise (· < ·)
  ahead : ∀ e ∈ dates, IsDate e ∧ since.1 ≤ e ∧ (reached peer).1 ≤ e
  behind : ∀ l, (peer, l) ∈ queue → ∀ e ∈ dates, l.date ≤ e
  reading : ∀ e rest, dates = e :: rest →
    (m peer e : Int) + (lane peer e queue).length = max (index : Int) (base since e)
  later : ∀ e ∈ dates.tail, (m peer e : Int) + (lane peer e queue).length = base since e

section
variable {m m' : Text → Text → Nat} {reached reached' : Text →
  Text × Int} {queue queue' : List (Text × LogLine)}
  {since : Text × Int} {peer date : Text} {dates rest : List Text} {index : Nat} {l : LogLine}

theorem ScanAt.start (server : Disk) (logRoot : Path) (hat : AtCursor (m peer) since)
    (hr : reached peer = since)
    (hq : ∀ l, (peer, l) ∉ queue) :
    ScanAt m reached queue since peer (datesFrom server logRoot peer since.1) 0 := by
  have hlane : ∀ e, lane peer e queue = [] := by
    intro e
    rw [lane, List.map_eq_nil_iff, List.filter_eq_nil_iff]
    intro x hx he
    simp only [decide_eq_true_eq] at he
    obtain ⟨rfl, -⟩ := he
    exact hq x.2 hx
  have hbase : ∀ e ∈ datesFrom server logRoot peer since.1, (m peer e : Int) +
    (lane peer e queue).length = base since e := by
    intro e he
    obtain ⟨hd, hle, -⟩ := mem_datesFrom.mp he
    rw [hlane, base]
    split
    · rename_i heq
      rw [(hat e hd).2 heq.symm]
      simp
    · rename_i hne
      rw [(hat e hd).1 (lt_of_le_of_ne hle (Ne.symm hne))]
      simp
  refine ⟨datesFrom_sorted server logRoot peer since.1, fun e he => ?_, fun l hl => absurd hl (hq l),
    fun e rest he => ?_, fun e he => hbase e (List.mem_of_mem_tail he)⟩
  · obtain ⟨hd, hle, -⟩ := mem_datesFrom.mp he
    exact ⟨hd, hle, by rw [hr]; exact hle⟩
  · rw [hbase e (by simp [he])]
    have := hbase e (by simp [he])
    have hnn : 0 ≤ base since e := by rw [← this]; omega
    simp [hnn]

/-- What moves from the queue to a mirror does not change where the scan is. -/
theorem ScanAt.pop {P : Text} (h : ScanAt m reached ((peer, l) :: queue) since P dates index) (hP : Plain P)
    (hm : ∀ Q d, Plain Q → IsDate d → m' Q d = m Q d + if Q = peer ∧ d = l.date then 1 else 0)
    (hr : ∀ Q, reached' Q = if Q = peer then (l.date, l.lineOffset) else reached Q) :
    ScanAt m' reached' queue since P dates index := by
  have hn : ∀ e, IsDate e → (m' P e : Int) + (lane P e queue).length =
      (m P e : Int) + (lane P e ((peer, l) :: queue)).length := by
    intro e he
    rw [hm P e hP he, lane_cons]
    by_cases hp : peer = P ∧ l.date = e
    · obtain ⟨rfl, rfl⟩ := hp
      simp only [and_self, if_true, List.length_cons]
      omega
    · rw [if_neg hp, if_neg fun h => hp ⟨h.1.symm, h.2.symm⟩]
      simp
  refine ⟨h.sorted, fun e he => ?_, fun k hk => h.behind k (List.mem_cons_of_mem _ hk),
    fun e rest he => ?_, fun e he => ?_⟩
  · obtain ⟨hd, hs, hle⟩ := h.ahead e he
    refine ⟨hd, hs, ?_⟩
    rw [hr]
    split
    · rename_i hp
      subst hp
      exact h.behind l (by simp) e he
    · exact hle
  · rw [hn e (h.ahead e (by simp [he])).1]
    exact h.reading e rest he
  · rw [hn e (h.ahead e (List.mem_of_mem_tail he)).1]
    exact h.later e he

theorem ScanAt.congr (h : ScanAt m reached queue since peer dates index) (hr : reached' peer = reached peer) :
    ScanAt m reached' queue since peer dates index :=
  ⟨h.sorted, fun e he => by rw [hr]; exact h.ahead e he, h.behind, h.reading, h.later⟩

/-- A line past the cursor comes next after those that are mirrored or queued. -/
theorem ScanAt.next_offset (h : ScanAt m reached queue since peer (date :: rest) index) {raw : Text}
    (hp : isPast since.1 since.2 ⟨date, index, raw⟩ = true) :
    (index : Int) = (m peer date : Int) + (lane peer date queue).length := by
  rw [h.reading date rest rfl]
  simp only [isPast, Bool.or_eq_true, decide_eq_true_eq] at hp
  have hle : base since date ≤ index := by
    unfold base
    split
    · rename_i he
      rcases hp with hlt | hoff
      · rw [he] at hlt; exact absurd hlt (lt_irrefl _)
      · omega
    · omega
  omega

theorem ScanAt.next (h : ScanAt m reached queue since peer (date :: rest) index) (raw : Text) :
    ScanAt m reached
      (queue ++ if isPast since.1 since.2 ⟨date, index, raw⟩ then [(peer, ⟨date, index, raw⟩)] else [])
      since peer (date :: rest) (index + 1) := by
  have hread := h.reading date rest rfl
  have hlater : ∀ e ∈ rest, e ≠ date := fun e he => ne_of_gt ((List.pairwise_cons.mp h.sorted).1 e he)
  by_cases hp : isPast since.1 since.2 ⟨date, index, raw⟩ = true
  · have hoff := h.next_offset hp
    rw [if_pos hp]
    refine ⟨h.sorted, h.ahead, fun k hk e he => ?_, fun e rest' he => ?_, fun e he => ?_⟩
    · rcases List.mem_append.mp hk with hk | hk
      · exact h.behind k hk e he
      · obtain ⟨-, rfl⟩ := Prod.mk.inj (List.mem_singleton.mp hk)
        rcases List.mem_cons.mp he with rfl | he
        · exact le_rfl
        · exact le_of_lt ((List.pairwise_cons.mp h.sorted).1 e he)
    · obtain rfl := (List.cons.inj he).1
      rw [lane_append, lane_cons, if_pos ⟨rfl, rfl⟩, List.length_append]
      simp only [lane, List.filter_nil, List.map_nil, List.length_singleton] at *
      omega
    · rw [lane_append, lane_cons, if_neg fun h => hlater e he h.2.symm]
      simp only [lane, List.filter_nil, List.map_nil, List.append_nil]
      exact h.later e he
  · rw [if_neg hp, List.append_nil]
    refine ⟨h.sorted, h.ahead, h.behind, fun e rest' he => ?_, h.later⟩
    obtain rfl := (List.cons.inj he).1
    rw [hread]
    simp only [isPast, Bool.or_eq_true, decide_eq_true_eq, not_or] at hp
    have hdate : date = since.1 := le_antisymm (not_lt.mp hp.1) (h.ahead date (by simp)).2.1
    have : base since date = since.2 + 1 := by rw [base, if_pos hdate]
    omega

theorem ScanAt.eof (h : ScanAt m reached queue since peer (date :: rest) index) :
    ScanAt m reached queue since peer rest 0 := by
  obtain ⟨hhead, hsorted⟩ := List.pairwise_cons.mp h.sorted
  have hmem : ∀ e ∈ rest, e ∈ date :: rest := fun e he => List.mem_cons_of_mem _ he
  refine ⟨hsorted, fun e he => h.ahead e (hmem e he), fun l hl e he => h.behind l hl e (hmem e he),
    fun e rest' he => ?_, fun e he => h.later e (List.mem_of_mem_tail he)⟩
  have her : e ∈ rest := by simp [he]
  rw [h.later e her]
  have hne : e ≠ since.1 := ne_of_gt (lt_of_le_of_lt (h.ahead date (by simp)).2.1 (hhead e her))
  rw [base, if_neg hne]
  simp

end

/-! ## The mirrors -/

/-- Each mirror holds whole lines, and is a prefix of the server's. -/
structure MirrorInv (cfg : Config) (server peerLogs : Disk) : Prop where
  closed : ∀ P d, Plain P → IsDate d → tail nl (peerLogs.bytes (logPath cfg.peerLogsDir P d)) = []
  lines : ∀ P d, Plain P → IsDate d → texts cfg.peerLogsDir peerLogs P d <+: texts cfg.logRoot server P d

def counts (cfg : Config) (peerLogs : Disk) (P d : Text) : Nat := (texts cfg.peerLogsDir peerLogs P d).length

section
variable {cfg : Config} {server server' peerLogs : Disk} {peer : Text} {l : LogLine}

theorem nl_notMem_texts {logRoot : Path} {disk : Disk} {P d t : Text} (h : t ∈ texts logRoot disk P d) :
    nl ∉ t := by
  rcases List.mem_append.mp h with h | h
  · exact nl_notMem_closed nl h
  · split at h
    · cases h
    · obtain rfl := List.mem_singleton.mp h
      exact nl_notMem_tail nl _

theorem MirrorInv.grown (h : MirrorInv cfg server peerLogs) (hg : Grown cfg.logRoot server server') :
    MirrorInv cfg server' peerLogs :=
  ⟨h.closed, fun P d hP hd => (h.lines P d hP hd).trans (hg.lines P d hP hd)⟩

theorem texts_appendPeerLine (h : MirrorInv cfg server peerLogs) (hP : Plain peer) (hd : IsDate l.date)
    (hnl : nl ∉ l.rawLine)
    {P d : Text} (hP' : Plain P) (hd' : IsDate d) :
    tail nl ((SyncClient.appendPeerLine cfg.peerLogsDir peerLogs peer l.date l.rawLine).bytes
        (logPath cfg.peerLogsDir P d)) = [] ∧
      texts cfg.peerLogsDir (SyncClient.appendPeerLine cfg.peerLogsDir peerLogs peer l.date l.rawLine) P d =
        texts cfg.peerLogsDir peerLogs P d ++ if P = peer ∧ d = l.date then [l.rawLine] else [] := by
  have hbytes := (peerLogs.mkdirAll (cfg.peerLogsDir.join peer)).bytes_write
    (logPath cfg.peerLogsDir peer l.date)
    (logPath cfg.peerLogsDir P d) (peerLogs.bytes (logPath cfg.peerLogsDir peer l.date) ++ (l.rawLine ++ [nl]))
  unfold texts SyncClient.appendPeerLine
  rw [hbytes]
  have hclosed := h.closed P d hP' hd'
  by_cases he : P = peer ∧ d = l.date
  · obtain ⟨rfl, rfl⟩ := he
    have hl : l.rawLine ++ [nl] = unlines nl [l.rawLine] := by simp
    have hmem : ∀ t ∈ [l.rawLine], nl ∉ t := fun t ht => by rw [List.mem_singleton.mp ht]; exact hnl
    have htail : tail nl (peerLogs.bytes (logPath cfg.peerLogsDir P l.date) ++ unlines nl [l.rawLine]) =
      [] := by
      rw [tail_append, hclosed, List.nil_append, tail_unlines nl hmem]
    rw [if_pos rfl, if_pos ⟨rfl, rfl⟩, hl]
    refine ⟨htail, ?_⟩
    rw [fileTexts, fileTexts, htail, hclosed, closed_append_unlines nl hclosed hmem]
    simp
  · rw [if_neg fun hp => he ((logPath_inj₂ hP' hP hd'.noSlash hd.noSlash).mp hp), if_neg he, List.append_nil]
    exact ⟨hclosed, rfl⟩

theorem MirrorInv.append (h : MirrorInv cfg server peerLogs) (hP : Plain peer)
    (hl : l ∈ peerLog cfg.logRoot server peer)
    (hoff : l.lineOffset = counts cfg peerLogs peer l.date) :
    MirrorInv cfg server (SyncClient.appendPeerLine cfg.peerLogsDir peerLogs peer l.date l.rawLine) ∧
      ∀ P d, Plain P → IsDate d →
        counts cfg (SyncClient.appendPeerLine cfg.peerLogsDir peerLogs peer l.date l.rawLine) P d =
          counts cfg peerLogs P d + if P = peer ∧ d = l.date then 1 else 0 := by
  obtain ⟨hd, i, hi, hget⟩ := mem_peerLog.mp hl
  have hnl := nl_notMem_texts (List.mem_of_getElem? hget)
  refine ⟨⟨fun P d hP' hd' => (texts_appendPeerLine h hP hd hnl hP' hd').1, fun P d hP' hd' => ?_⟩,
    fun P d hP' hd' => ?_⟩
  · rw [(texts_appendPeerLine h hP hd hnl hP' hd').2]
    by_cases he : P = peer ∧ d = l.date
    · obtain ⟨rfl, rfl⟩ := he
      obtain ⟨more, hmore⟩ := h.lines P l.date hP' hd'
      rw [if_pos ⟨rfl, rfl⟩, ← hmore]
      apply (List.prefix_append_right_inj _).mpr
      -- the first of the lines that the mirror lacks
      have hlen : i = (texts cfg.peerLogsDir peerLogs P l.date).length := by
        rw [hi] at hoff
        exact_mod_cast hoff
      rw [← hmore, hlen, List.getElem?_append_right le_rfl, Nat.sub_self] at hget
      cases more with
      | nil => cases hget
      | cons t more =>
        obtain rfl : t = l.rawLine := Option.some.inj hget
        exact ⟨more, rfl⟩
    · rw [if_neg he, List.append_nil]
      exact h.lines P d hP' hd'
  · rw [counts, (texts_appendPeerLine h hP hd hnl hP' hd').2, List.length_append, counts]
    split <;> rfl

end

/-! ## The pull under way -/

def Pull.Waiting (p : Pull) (P : Text) : Prop :=
  ∃ peer peers, p.peers = peer :: peers ∧ (P ∈ peers ∨ P = peer ∧ p.todo = none)

def Pull.reached (p : Pull) (d : Data) (P : Text) : Text × Int :=
  let cur := SyncClient.getCursor ((p.now d).syncState.lookup P)
  match p.chunk with
  | none => cur
  | some c => if c.peer = P then SyncClient.lastOf cur (c.lines.take c.mirrored) else cur

structure MirrorPull (cfg : Config) (server peerLogs : Disk) (d : Data) (p : Pull) : Prop where
  request : p.request = d.syncState
  nodup : p.peers.Nodup
  plain : ∀ P ∈ p.peers, Plain P
  follow : Follow cfg.logRoot server (counts cfg peerLogs) (p.reached d) (p.queue Chunk.mirrored)
  chunk : ∀ c, p.chunk = some c → Plain c.peer ∧ c.replayed ≤ c.mirrored ∧ ¬p.Waiting c.peer
  stream : ∀ c ∈ p.stream, Plain c.peerMachineId ∧ ¬p.Waiting c.peerMachineId
  queue : ∀ x ∈ p.queue Chunk.mirrored, ¬p.Waiting x.1
  waiting : ∀ P, p.Waiting P → p.reached d P = SyncClient.getCursor (d.syncState.lookup P)
  scan : ∀ P peers dates, p.peers = P :: peers → p.todo = some dates →
    ScanAt (counts cfg peerLogs) (p.reached d) (p.queue Chunk.mirrored)
      (Server.since p.request P) P dates p.index
  kept : p.appended = false → ∀ P, Plain P →
    AtCursor (counts cfg peerLogs P) (SyncClient.getCursor (d.syncState.lookup P))

section
variable {cfg : Config} {server server' peerLogs : Disk} {d : Data} {p p' : Pull}

theorem MirrorPull.start {s : State} (hs : ServerInv cfg.logRoot s.server)
    (h : ∀ P, Plain P → AtCursor (counts cfg s.peerLogs P) (SyncClient.getCursor (s.data.syncState.lookup P))) :
    MirrorPull cfg s.server s.peerLogs s.data (startPull cfg s) := by
  have hq := queue_start cfg Chunk.mirrored s
  refine ⟨rfl, ?_, fun P hP => hs.plain P (mem_sortStrings.mp (List.mem_filter.mp hP).1), ?_, nofun, nofun, ?_,
    fun P _ => rfl, nofun, fun _ => h⟩
  · exact ((sortStrings_perm _).nodup_iff.mpr (Disk.nodup_subdirs hs.dirs _)).filter _
  · rw [hq]
    exact ⟨nofun, List.Pairwise.nil, fun P d i hi => absurd hi (by simp [lane]), nofun, h⟩
  · rw [hq]; exact nofun

theorem MirrorPull.grown (h : MirrorPull cfg server peerLogs d p) (hg : Grown cfg.logRoot server server') :
    MirrorPull cfg server' peerLogs d p :=
  ⟨h.request, h.nodup, h.plain, h.follow.grown hg, h.chunk, h.stream, h.queue, h.waiting, h.scan, h.kept⟩

theorem MirrorPull.host (h : MirrorPull cfg server peerLogs d p) (ht : p.tx = none) (w : Written) :
    MirrorPull cfg server peerLogs (d.write w) p := by
  have hr : p.reached (d.write w) = p.reached d := by
    funext P
    simp only [Pull.reached, Pull.now, ht]
    rfl
  refine ⟨h.request, h.nodup, h.plain, ?_, h.chunk, h.stream, h.queue, ?_, ?_, h.kept⟩
  · rw [hr]; exact h.follow
  · rw [hr]; exact h.waiting
  · rw [hr]; exact h.scan

theorem MirrorPull.chunk_of (h : MirrorPull cfg server peerLogs d p)
    (hw : ∀ P, p'.Waiting P → p.Waiting P) {c : Chunk}
    (hc : p.chunk = some c) : Plain c.peer ∧ c.replayed ≤ c.mirrored ∧ ¬p'.Waiting c.peer := by
  obtain ⟨hP, hle, hnot⟩ := h.chunk c hc
  exact ⟨hP, hle, fun hx => hnot (hw _ hx)⟩

theorem MirrorPull.stream_of (h : MirrorPull cfg server peerLogs d p) (hw : ∀ P, p'.Waiting P → p.Waiting P)
    {c : LogChunk} (hc : c ∈ p.stream) : Plain c.peerMachineId ∧ ¬p'.Waiting c.peerMachineId := by
  obtain ⟨hP, hnot⟩ := h.stream c hc
  exact ⟨hP, fun hx => hnot (hw _ hx)⟩

theorem MirrorPull.list (h : MirrorPull cfg server peerLogs d p) (hs : p.list cfg server = some p') :
    MirrorPull cfg server peerLogs d p' := by
  obtain ⟨peer, peers, hp, ht, rfl⟩ := Pull.list_spec hs
  have hwaiting : p.Waiting peer := ⟨peer, peers, hp, Or.inr ⟨rfl, ht⟩⟩
  have hsub : ∀ P, Pull.Waiting { p with
      todo := some (datesFrom server cfg.logRoot peer (Server.since p.request peer).1), index := 0 } P →
        p.Waiting P := by
    rintro P ⟨peer', peers', hp', h | ⟨-, h⟩⟩
    · exact ⟨peer', peers', hp', Or.inl h⟩
    · cases h
  refine ⟨h.request, h.nodup, h.plain, h.follow, fun c => h.chunk_of hsub, fun c => h.stream_of hsub,
    fun x hx hw => h.queue x hx (hsub _ hw), fun P hw => h.waiting P (hsub P hw),
      fun P ps dates hps hdates => ?_, h.kept⟩
  rw [hp] at hps
  obtain ⟨rfl, rfl⟩ := List.cons.inj hps
  cases hdates
  have hr : p.reached d peer = Server.since p.request peer := by
    rw [h.waiting peer hwaiting, since_eq, h.request]
  exact ScanAt.start server cfg.logRoot (hr ▸ h.follow.cursor peer (h.plain peer (by simp [hp]))) hr
    fun l hl => h.queue (peer, l) hl hwaiting

theorem MirrorPull.next (h : MirrorPull cfg server peerLogs d p) (hs : p.next cfg server = some p') :
    MirrorPull cfg server peerLogs d p' := by
  obtain ⟨peer, peers, date, rest, raw, hp, ht, hraw, hp', ht', hi', hsame, hstream, hq⟩ := Pull.next_spec hs
  have hplain : Plain peer := h.plain peer (by simp [hp])
  have hscan := h.scan peer peers _ hp ht
  have hqueue := hq Chunk.mirrored
  have hr : p'.reached d = p.reached d := by
    funext P
    simp only [Pull.reached, Pull.now, hsame.tx, hsame.chunk]
  have hw : ∀ P, p'.Waiting P ↔ p.Waiting P := by intro P; unfold Pull.Waiting; rw [hp', ht']
  have hpeer : ¬p'.Waiting peer := by
    rw [hw]
    rintro ⟨peer', peers', he, hmem | ⟨-, hn⟩⟩
    · rw [hp] at he
      obtain ⟨rfl, rfl⟩ := List.cons.inj he
      exact (List.nodup_cons.mp (hp ▸ h.nodup)).1 hmem
    · rw [ht] at hn; cases hn
  have hdate := (hscan.ahead date (by simp)).1
  refine ⟨hsame.request ▸ h.request, hp' ▸ h.nodup, hp' ▸ h.plain, ?_, fun c hc => ?_, fun c hc => ?_,
    fun x hx => ?_, fun P hP => ?_, fun P ps dates hps hdates => ?_, ?_⟩
  · rw [hr, hqueue]
    split
    · rename_i hpast
      have hoff := hscan.next_offset hpast
      apply h.follow.push hplain
      · exact mem_peerLog.mpr ⟨hdate, p.index, rfl, hraw⟩
      · intro k hk
        rcases lt_or_eq_of_le (hscan.behind k hk date (by simp)) with hlt | he
        · exact Or.inl hlt
        · right
          refine ⟨he, ?_⟩
          -- `k` is among the lines of its day that are queued
          have hmem : k ∈ lane peer date (p.queue Chunk.mirrored) :=
            List.mem_map.mpr ⟨(peer, k), List.mem_filter.mpr ⟨hk, by simpa using he⟩, rfl⟩
          obtain ⟨i, hi, rfl⟩ := List.getElem_of_mem hmem
          rw [h.follow.counts peer date i hi]
          simp only
          omega
      · exact (hscan.ahead date (by simp)).2.2
      · exact hoff
    · rw [List.append_nil]; exact h.follow
  · rw [hsame.chunk] at hc
    exact h.chunk_of (fun P => (hw P).mp) hc
  · rcases hstream c hc with hc | ⟨-, he⟩
    · exact h.stream_of (fun P => (hw P).mp) hc
    · rw [he]; exact ⟨hplain, hpeer⟩
  · rw [hqueue] at hx
    rcases List.mem_append.mp hx with hx | hx
    · exact fun hP => h.queue x hx ((hw _).mp hP)
    · split at hx
      · obtain rfl := List.mem_singleton.mp hx
        exact hpeer
      · cases hx
  · rw [hr]; exact h.waiting P ((hw P).mp hP)
  · rw [hp', hp] at hps
    rw [ht', ht] at hdates
    obtain ⟨rfl, rfl⟩ := List.cons.inj hps
    cases hdates
    rw [hr, hqueue, hi', hsame.request]
    exact hscan.next raw
  · rw [hsame.appended]; exact h.kept

theorem MirrorPull.eof (h : MirrorPull cfg server peerLogs d p) (hs : p.eof cfg server = some p') :
    MirrorPull cfg server peerLogs d p' := by
  obtain ⟨peer, peers, date, rest, hp, ht, hlen, rfl⟩ := Pull.eof_spec hs
  have hw : ∀ P, Pull.Waiting { p with todo := some rest, index := 0 } P → p.Waiting P := by
    rintro P ⟨peer', peers', he, hmem | ⟨-, hn⟩⟩
    · exact ⟨peer', peers', he, Or.inl hmem⟩
    · cases hn
  refine ⟨h.request, h.nodup, h.plain, h.follow, fun c => h.chunk_of hw, fun c => h.stream_of hw,
    fun x hx hP => h.queue x hx (hw _ hP), fun P hP => h.waiting P (hw P hP),
      fun P ps dates hps hdates => ?_, h.kept⟩
  rw [hp] at hps
  obtain ⟨rfl, rfl⟩ := List.cons.inj hps
  cases hdates
  exact (h.scan peer peers _ hp ht).eof

theorem MirrorPull.endPeer (h : MirrorPull cfg server peerLogs d p) (hs : p.endPeer = some p') :
    MirrorPull cfg server peerLogs d p' := by
  obtain ⟨peer, peers, hp, ht, hp', ht', hsame, hstream, hq⟩ := Pull.endPeer_spec hs
  have hr : p'.reached d = p.reached d := by
    funext P
    simp only [Pull.reached, Pull.now, hsame.tx, hsame.chunk]
  -- the peer after it was waiting in the list, and now is at its head
  have hw : ∀ P, p'.Waiting P → p.Waiting P := by
    rintro P ⟨peer', peers', he, hmem⟩
    rw [hp'] at he
    refine ⟨peer, peers, hp, Or.inl ?_⟩
    rw [he]
    rcases hmem with hmem | ⟨rfl, -⟩
    · exact List.mem_cons_of_mem _ hmem
    · simp
  have hpeer : ¬p'.Waiting peer := by
    rintro ⟨peer', peers', he, hmem⟩
    rw [hp'] at he
    apply (List.nodup_cons.mp (hp ▸ h.nodup)).1
    rw [he]
    rcases hmem with hmem | ⟨rfl, -⟩
    · exact List.mem_cons_of_mem _ hmem
    · simp
  refine ⟨hsame.request ▸ h.request, ?_, fun P hP => h.plain P ?_, ?_, fun c hc => ?_, fun c hc => ?_,
    fun x hx => ?_, fun P hP => ?_, fun P ps dates _ hdates => ?_, ?_⟩
  · rw [hp']; exact (List.nodup_cons.mp (hp ▸ h.nodup)).2
  · rw [hp]; exact List.mem_cons_of_mem _ (hp' ▸ hP)
  · rw [hr, hq]; exact h.follow
  · rw [hsame.chunk] at hc
    exact h.chunk_of hw hc
  · rcases hstream c hc with hc | ⟨-, he⟩
    · exact h.stream_of hw hc
    · rw [he]; exact ⟨h.plain peer (by simp [hp]), hpeer⟩
  · rw [hq] at hx
    exact fun hP => h.queue x hx (hw _ hP)
  · rw [hr]; exact h.waiting P (hw P hP)
  · rw [ht'] at hdates; cases hdates
  · rw [hsame.appended]; exact h.kept

theorem MirrorPull.receive (h : MirrorPull cfg server peerLogs d p) (hs : p.receive = some p') :
    MirrorPull cfg server peerLogs d p' := by
  obtain ⟨c, stream, hnone, hst, hchunk, hstream, hp', ht', hi', hreq, htx, happ, hq⟩ := Pull.receive_spec hs
  have hqueue := hq Chunk.mirrored fun _ _ => rfl
  have hr : p'.reached d = p.reached d := by
    funext P
    simp only [Pull.reached, Pull.now, htx, hchunk, hnone, List.take_zero]
    split <;> rfl
  have hw : ∀ P, p'.Waiting P ↔ p.Waiting P := by intro P; unfold Pull.Waiting; rw [hp', ht']
  refine ⟨hreq ▸ h.request, hp' ▸ h.nodup, hp' ▸ h.plain, ?_, fun c' hc' => ?_, fun c' hc' => ?_,
    fun x hx => ?_, fun P hP => ?_, fun P ps dates hps hdates => ?_, ?_⟩
  · rw [hr, hqueue]; exact h.follow
  · rw [hchunk] at hc'
    cases hc'
    obtain ⟨hP, hnot⟩ := h.stream_of (fun P => (hw P).mp) (show c ∈ p.stream by simp [hst])
    exact ⟨hP, le_rfl, hnot⟩
  · rw [hstream] at hc'
    exact h.stream_of (fun P => (hw P).mp) (by rw [hst]; exact List.mem_cons_of_mem _ hc')
  · rw [hqueue] at hx
    exact fun hP => h.queue x hx ((hw _).mp hP)
  · rw [hr]; exact h.waiting P ((hw P).mp hP)
  · rw [hr, hqueue, hi', hreq]
    exact h.scan P ps dates (hp' ▸ hps) (ht' ▸ hdates)
  · rw [happ]; exact h.kept

theorem MirrorPull.mirror (h : MirrorPull cfg server peerLogs d p) (hm : MirrorInv cfg server peerLogs)
    {c : Chunk}
    (hc : p.chunk = some c) (he : c.mirrored = c.replayed) {l : LogLine} (hl : c.lines[c.mirrored]? = some l) :
    MirrorInv cfg server (SyncClient.appendPeerLine cfg.peerLogsDir peerLogs c.peer l.date l.rawLine) ∧
      MirrorPull cfg server (SyncClient.appendPeerLine cfg.peerLogsDir peerLogs c.peer l.date l.rawLine) d
        { p with chunk := some { c with mirrored := c.mirrored + 1 }, appended := true } := by
  have hq := Pull.queue_advance Chunk.mirrored { c with mirrored := c.mirrored + 1 } hc hl rfl rfl rfl p.tx true
  have hr : ∀ P, Pull.reached { p with chunk := some { c with mirrored := c.mirrored + 1 }, appended := true } d P =
      if P = c.peer then (l.date, l.lineOffset) else p.reached d P := by
    intro P
    simp only [Pull.reached, Pull.now, hc]
    by_cases hP : c.peer = P
    · rw [if_pos hP, if_pos hP.symm, lastOf_eq (getLast?_take_succ hl)]
    · rw [if_neg hP, if_neg (Ne.symm hP), if_neg hP]
  have hfollow := h.follow
  rw [hq] at hfollow
  obtain ⟨hP, hline⟩ := hfollow.queued (c.peer, l) (by simp)
  obtain ⟨hm', hcounts⟩ := hm.append hP hline hfollow.head
  have hsub : ∀ x ∈ Pull.queue Chunk.mirrored { p with chunk := some { c with mirrored := c.mirrored + 1 }, appended := true },
      x ∈ p.queue Chunk.mirrored := fun x hx => by rw [hq]; exact List.mem_cons_of_mem _ hx
  refine ⟨hm', h.request, h.nodup, h.plain, hfollow.pop hcounts hr, fun c' hc' => ?_, h.stream,
    fun x hx => h.queue x (hsub x hx), fun P hw => ?_, fun P ps dates hps hdates => ?_,
      fun happ => by cases happ⟩
  · cases hc'
    obtain ⟨hP, hle, hnot⟩ := h.chunk c hc
    exact ⟨hP, by simp only; omega, hnot⟩
  · rw [hr, if_neg]
    · exact h.waiting P hw
    · rintro rfl
      exact (h.chunk c hc).2.2 hw
  · have hscan := h.scan P ps dates hps hdates
    rw [hq] at hscan
    exact hscan.pop (h.plain P (by rw [show p.peers = P :: ps from hps]; simp)) hcounts hr

theorem MirrorPull.replay (h : MirrorPull cfg server peerLogs d p) {c : Chunk} (hc : p.chunk = some c)
    (hlt : c.replayed < c.mirrored) (w : Written) :
    MirrorPull cfg server peerLogs d { p with
      chunk := some { c with replayed := c.replayed + 1 }
      tx := some ((p.now d).write w) } := by
  have hq := Pull.queue_congr Chunk.mirrored { c with replayed := c.replayed + 1 } hc rfl rfl rfl
    (some ((p.now d).write w)) p.appended
  have hr : Pull.reached { p with
      chunk := some { c with replayed := c.replayed + 1 }
      tx := some ((p.now d).write w) } d = p.reached d := by
    funext P
    simp only [Pull.reached, hc]
    rfl
  refine ⟨h.request, h.nodup, h.plain, ?_, fun c' hc' => ?_, h.stream, ?_, fun P hw => ?_,
    fun P ps dates hps hdates => ?_, h.kept⟩
  · rw [hr, hq]; exact h.follow
  · cases hc'
    exact ⟨(h.chunk c hc).1, hlt, (h.chunk c hc).2.2⟩
  · rw [hq]; exact h.queue
  · rw [hr]; exact h.waiting P hw
  · rw [hr, hq]; exact h.scan P ps dates hps hdates

theorem MirrorPull.endChunk (h : MirrorPull cfg server peerLogs d p) {c : Chunk} (hc : p.chunk = some c)
    (hlen : c.lines.length ≤ c.replayed) {cur : Text × Int}
    (hcur : cur = SyncClient.getCursor ((p.now d).syncState.lookup c.peer)) :
    MirrorPull cfg server peerLogs d { p with
      chunk := none
      tx := some { p.now d with
        syncState := SyncClient.setCursor (p.now d).syncState c.peer (SyncClient.lastOf cur c.lines).1
          (SyncClient.lastOf cur c.lines).2 } } := by
  obtain ⟨hP, hle, hnot⟩ := h.chunk c hc
  have hq := fun tx => Pull.queue_endChunk Chunk.mirrored hc (hlen.trans hle) tx
  have hr : ∀ d', d'.syncState = SyncClient.setCursor (p.now d).syncState c.peer
    (SyncClient.lastOf cur c.lines).1
      (SyncClient.lastOf cur c.lines).2 →
        Pull.reached { p with chunk := none, tx := some d' } d = p.reached d := by
    intro d' hd'
    funext P
    simp only [Pull.reached, Pull.now, Option.getD_some, hd', hc, SyncClient.setCursor]
    by_cases he : c.peer = P
    · subst he
      rw [if_pos rfl, AList.lookup_insert, List.take_of_length_le (hlen.trans hle), hcur]
      rfl
    · rw [if_neg he, AList.lookup_insert_ne (Ne.symm he)]
  refine ⟨h.request, h.nodup, h.plain, ?_, fun c' hc' => (by cases hc'), h.stream, ?_, fun P hw => ?_,
    fun P ps dates hps hdates => ?_, h.kept⟩
  · rw [hr _ rfl, hq]; exact h.follow
  · rw [hq]; exact h.queue
  · rw [hr _ rfl]; exact h.waiting P hw
  · rw [hr _ rfl, hq]; exact h.scan P ps dates hps hdates

end

/-! ## Every run -/

/-- No pull is killed once it has extended a mirror, and none fails in a chunk of
which it has mirrored a line. -/
def Settled (s : State) : Act → Prop
  | .append peer io date group => AppendOk peer io date group
  | .fail => ∀ p c, s.pull = some p → p.chunk = some c → c.mirrored = 0
  | .kill => ∀ p, s.pull = some p → p.appended = false
  | _ => True

structure InStep (cfg : Config) (s : State) : Prop where
  server : ServerInv cfg.logRoot s.server
  mirrors : MirrorInv cfg s.server s.peerLogs
  cursors : s.pull = none → ∀ P, Plain P → AtCursor (counts cfg s.peerLogs P)
    (SyncClient.getCursor (s.data.syncState.lookup P))
  pull : ∀ p, s.pull = some p → MirrorPull cfg s.server s.peerLogs s.data p

section
variable {cfg : Config} {defaultDirectory : Text} {s s' : State}

theorem InStep.init : InStep cfg (.init defaultDirectory) := by
  refine ⟨⟨fun _ _ _ _ => rfl, List.nodup_nil, nofun⟩, ⟨fun _ _ _ _ => rfl, fun _ _ _ _ => List.nil_prefix⟩,
    fun _ P _ d hd => ⟨fun _ => rfl, fun he => absurd he.symm hd.ne_nil⟩, nofun⟩

theorem InStep.setPull (h : InStep cfg s) {p' : Pull} (hp' : MirrorPull cfg s.server s.peerLogs s.data p') :
    InStep cfg { s with pull := some p' } :=
  ⟨h.server, h.mirrors, nofun, fun q hq => by cases hq; exact hp'⟩

theorem InStep.commit (h : InStep cfg s) {p : Pull} (hp : s.pull = some p)
    (hc : ∀ c, p.chunk = some c → c.mirrored = 0) :
    InStep cfg { s with data := p.now s.data, pull := none } := by
  refine ⟨h.server, h.mirrors, fun _ P hP => ?_, nofun⟩
  have hat := (h.pull p hp).follow.cursor P hP
  have hr : p.reached s.data P = SyncClient.getCursor ((p.now s.data).syncState.lookup P) := by
    unfold Pull.reached
    cases hchunk : p.chunk with
    | none => rfl
    | some c =>
      simp only [hc c hchunk, List.take_zero]
      split <;> rfl
  rw [← hr]
  exact hat

theorem InStep.step {a : Act} (h : InStep cfg s) (ha : Settled s a) (hs : s' ∈ step cfg s a) :
    InStep cfg s' := by
  cases a with
  | append peer io date group =>
    cases hs
    obtain ⟨hserver, hg, -⟩ := append_grown h.server ha
    exact ⟨hserver, h.mirrors.grown hg, h.cursors, fun p hp => (h.pull p hp).grown hg⟩
  | host o =>
    simp only [PullLogs.step, Option.mem_def, Option.ite_none_left_eq_some, Option.some.injEq] at hs
    obtain ⟨hlock, rfl⟩ := hs
    refine ⟨h.server, h.mirrors, h.cursors, fun p hp => (h.pull p hp).host ?_ _⟩
    simpa [show s.pull = some p from hp] using hlock
  | start =>
    simp only [PullLogs.step] at hs
    split at hs
    · cases hs
    · rename_i hnone
      cases hs
      exact h.setPull (.start h.server (h.cursors hnone))
  | list =>
    obtain ⟨p, p', hp, hf, rfl⟩ := step_pull hs
    exact h.setPull ((h.pull p hp).list hf)
  | next =>
    obtain ⟨p, p', hp, hf, rfl⟩ := step_pull hs
    exact h.setPull ((h.pull p hp).next hf)
  | eof =>
    obtain ⟨p, p', hp, hf, rfl⟩ := step_pull hs
    exact h.setPull ((h.pull p hp).eof hf)
  | endPeer =>
    obtain ⟨p, p', hp, hf, rfl⟩ := step_pull hs
    exact h.setPull ((h.pull p hp).endPeer hf)
  | receive =>
    obtain ⟨p, p', hp, hf, rfl⟩ := step_pull hs
    exact h.setPull ((h.pull p hp).receive hf)
  | mirror =>
    obtain ⟨p, c, l, hp, hc, he, hl, rfl⟩ := step_mirror hs
    obtain ⟨hm, hpull⟩ := (h.pull p hp).mirror h.mirrors hc he hl
    exact ⟨h.server, hm, fun hnone => (by cases hnone), fun q hq => by cases hq; exact hpull⟩
  | replay =>
    obtain ⟨p, c, l, hp, hc, hlt, -, rfl⟩ := step_replay hs
    exact h.setPull ((h.pull p hp).replay hc hlt _)
  | endChunk =>
    obtain ⟨p, c, cur, hp, hc, hlen, hcur, rfl⟩ := step_endChunk hs
    exact h.setPull ((h.pull p hp).endChunk hc hlen hcur)
  | finish =>
    obtain ⟨p, hp, -, -, hnone, rfl⟩ := step_finish hs
    exact h.commit hp fun c hc => by rw [hnone] at hc; cases hc
  | fail =>
    obtain ⟨p, hp, rfl⟩ := Option.map_eq_some_iff.mp hs
    exact h.commit hp fun c hc => ha p c hp hc
  | kill =>
    obtain ⟨p, hp, rfl⟩ := Option.map_eq_some_iff.mp hs
    exact ⟨h.server, h.mirrors, fun _ P hP => (h.pull p hp).kept (ha p hp) P hP, fun q hq => by cases hq⟩

end

/-- **Mirrors of peers**, in every run in which no pull is killed once it has
extended a mirror and none fails in a chunk of which it has mirrored a line: each
holds whole lines, a prefix of those that the server has. -/
theorem peer_mirror_prefix (cfg : Config) (defaultDirectory : Text) {acts : List Act} {s : State}
    (ho : Runs.Obeys (step cfg) Settled (.init defaultDirectory) acts)
    (hr : Runs.run (step cfg) (.init defaultDirectory) acts = some s) {P d : Text} (hP : Plain P)
    (hd : IsDate d) :
    ∃ ls, s.peerLogs.bytes (logPath cfg.peerLogsDir P d) = unlines nl ls ∧
      ls <+: texts cfg.logRoot s.server P d := by
  have hinv : InStep cfg s := Runs.run_invariant (fun _ _ _ h ha hs => h.step ha hs) InStep.init ho hr
  have hclosed := hinv.mirrors.closed P d hP hd
  refine ⟨_, (unlines_of_tail_nil nl hclosed).symm, ?_⟩
  have hlines := hinv.mirrors.lines P d hP hd
  rw [texts, fileTexts, if_pos hclosed, List.append_nil] at hlines
  exact hlines

theorem peer_mirror_prefix_firstChunk :
    ∃ s, Runs.run (step laptop) (.init []) (pushed 0 (ascii "x") :: (firstChunk ++ [.fail])) = some s ∧
      ∃ ls, s.peerLogs.bytes (logPath laptop.peerLogsDir (ascii "b") (ascii "2024-05-01")) = unlines nl ls ∧
        ls <+: texts laptop.logRoot s.server (ascii "b") (ascii "2024-05-01") := by
  have ho : Runs.Obeys (step laptop) Settled (.init []) ((pushed 0 (ascii "x") :: firstChunk) ++ [.fail]) := by
    refine Runs.obeys_append ⟨pushed_ok (by decide) (by decide), fun s _ => Runs.obeys_of_forall ?_ s⟩ fun s hs => ?_
    · intro a ha s
      simp only [firstChunk, List.mem_cons, List.not_mem_nil, or_false] at ha
      rcases ha with rfl | rfl | rfl | rfl | rfl | rfl | rfl | rfl | rfl <;> trivial
    · -- its chunk is over
      have h : Runs.run (step laptop) (.init []) (pushed 0 (ascii "x") :: firstChunk) = some _ := rfl
      obtain rfl := Option.some.inj (h.symm.trans hs)
      refine ⟨fun q k hq hk => ?_, fun _ _ => trivial⟩
      cases hq
      cases hk
  have hP : Plain (ascii "b") := ⟨by decide, by decide, by decide, by decide⟩
  exact ⟨_, rfl, peer_mirror_prefix laptop [] ho rfl hP (by decide)⟩

/-- A pull is killed before its commit; the next one appends the line again. -/
theorem pull_killed_duplicates :
    ∃ s, Runs.run (step laptop) (.init [])
      (pushed 0 (ascii "x") :: (firstChunk ++ .kill :: (firstChunk ++ [.finish]))) = some s ∧
      s.server.bytes (logPath laptop.logRoot (ascii "b") (ascii "2024-05-01")) = ascii "x\n" ∧
      s.peerLogs.bytes (logPath laptop.peerLogsDir (ascii "b") (ascii "2024-05-01")) = ascii "x\nx\n" ∧
      ¬texts laptop.peerLogsDir s.peerLogs (ascii "b") (ascii "2024-05-01") <+:
        texts laptop.logRoot s.server (ascii "b") (ascii "2024-05-01") :=
  ⟨_, rfl, by decide, by decide, by decide⟩

end PullLogs

end VisitLogger
