import VisitLogger.PullQueue

/-!
# A pull skips nothing

Up to a cursor, every line of the peer is in the database (`Upto`). A pull keeps
that in its transaction: the lines in its queue are in order and have nothing
before them that is not in the database or in the queue itself. So the cursor,
which is put on the last line of a chunk, has everything behind it, wherever the
pull is committed or rolled back; and a pull that completes has replayed every
line that its scans met (`pulled_covered`).
-/

namespace VisitLogger

namespace PullLogs

open Store

/-! ## What is in the database -/

def Got (written : List Written) (queue : List (Text × LogLine)) (peer : Text) (l : LogLine) : Prop :=
  .pulled peer l ∈ written ∨ (peer, l) ∈ queue

def Upto (logRoot : Path) (server : Disk) (written : List Written) (peer : Text) (c : Text × Int) : Prop :=
  ∀ l ∈ peerLog logRoot server peer, Reached c l → .pulled peer l ∈ written

/-- The cursor stands on a line of the peer, and all up to it is in the database. -/
structure CursorOk (logRoot : Path) (server : Disk) (written : List Written) (peer : Text)
  (c : Text × Int) : Prop where
  plain : Plain peer
  line : ∃ l ∈ peerLog logRoot server peer, (l.date, l.lineOffset) = c
  upto : Upto logRoot server written peer c

def DataInv (logRoot : Path) (server : Disk) (d : Data) : Prop :=
  ∀ P c, d.syncState.lookup P = some c → CursorOk logRoot server d.written P c

section
variable {logRoot : Path} {server server' : Disk} {written written' : List Written}
  {queue queue' : List (Text × LogLine)} {peer : Text} {c : Text × Int} {d : Data}

theorem Got.mono {l : LogLine} (h : Got written queue peer l) (hw : ∀ w ∈ written, w ∈ written')
    (hq : ∀ x ∈ queue, x ∈ queue') : Got written' queue' peer l :=
  h.imp (fun h => hw _ h) (fun h => hq _ h)

theorem not_reached_nil {l : LogLine} (hd : IsDate l.date) (o : Int) : ¬Reached ([], o) l := by
  rintro (h | ⟨h, -⟩)
  · exact List.not_lt_nil _ h
  · exact hd.ne_nil h

theorem DataInv.upto (h : DataInv logRoot server d) (P : Text) :
    Upto logRoot server d.written P (SyncClient.getCursor (d.syncState.lookup P)) := by
  cases hl : d.syncState.lookup P with
  | none => exact fun l hm hr => absurd hr (not_reached_nil (mem_peerLog.mp hm).1 _)
  | some c => exact (h P c hl).upto

theorem since_eq (cursors : SyncState) (P : Text) :
    Server.since cursors P = SyncClient.getCursor (cursors.lookup P) := by
  unfold Server.since SyncClient.getCursor
  cases cursors.lookup P <;> rfl

theorem CursorOk.mono (h : CursorOk logRoot server written peer c) (hw : ∀ w ∈ written, w ∈ written') :
    CursorOk logRoot server written' peer c :=
  ⟨h.plain, h.line, fun l hl hr => hw _ (h.upto l hl hr)⟩

theorem CursorOk.grown (h : CursorOk logRoot server written peer c) (hg : Grown logRoot server server')
    (ho : InOrder logRoot server server') : CursorOk logRoot server' written peer c := by
  obtain ⟨l, hl, rfl⟩ := h.line
  exact ⟨h.plain, ⟨l, hg.mem h.plain hl, rfl⟩, fun m hm hr => h.upto m (hg.reached ho h.plain hl hm hr) hr⟩

theorem DataInv.grown (h : DataInv logRoot server d) (hg : Grown logRoot server server')
    (ho : InOrder logRoot server server') : DataInv logRoot server' d := fun P c hc => (h P c hc).grown hg ho

theorem DataInv.write (h : DataInv logRoot server d) (w : Written) : DataInv logRoot server (d.write w) :=
  fun P c hc => (h P c hc).mono fun _ hm => List.mem_append_left _ hm

end

/-! ## The scan under way -/

/-- The scan of a peer, with the dates it has still to read: it has come to
everything before them, and what is queued is behind it. -/
structure ScanInv (logRoot : Path) (server : Disk) (written : List Written) (queue : List (Text × LogLine))
    (since : Text × Int) (peer : Text) (dates : List Text) (index : Nat) : Prop where
  sorted : dates.Pairwise (· < ·)
  files : ∀ e ∈ dates, IsDate e ∧ since.1 ≤ e ∧ logPath logRoot peer e ∈ server.files.keys
  within : ∀ e rest, dates = e :: rest → index ≤ (texts logRoot server peer e).length
  passed : ∀ l ∈ peerLog logRoot server peer, l.date ∉ dates → (∃ e ∈ dates, l.date < e) →
    Got written queue peer l
  reading : ∀ l ∈ peerLog logRoot server peer, dates.head? = some l.date → l.lineOffset < index →
    Got written queue peer l
  behind : ∀ l, (peer, l) ∈ queue → ∀ e ∈ dates, l.date < e ∨ dates.head? = some e ∧ l.date = e ∧
    l.lineOffset < index

section
variable {logRoot : Path} {server server' : Disk} {written written' : List Written}
  {queue queue' : List (Text × LogLine)} {peer date : Text} {since : Text × Int} {dates rest : List Text} {index : Nat}

theorem ScanInv.congr (h : ScanInv logRoot server written queue since peer dates index)
    (hgot : ∀ l, Got written queue peer l → Got written' queue' peer l) (hq : ∀ x ∈ queue', x ∈ queue) :
    ScanInv logRoot server written' queue' since peer dates index :=
  ⟨h.sorted, h.files, h.within, fun l hl hd he => hgot l (h.passed l hl hd he),
    fun l hl hd ho => hgot l (h.reading l hl hd ho), fun l hl => h.behind l (hq _ hl)⟩

theorem ScanInv.grown (h : ScanInv logRoot server written queue since peer dates index) (hP : Plain peer)
    (hg : Grown logRoot server server') (ho : InOrder logRoot server server') :
    ScanInv logRoot server' written queue since peer dates index := by
  refine ⟨h.sorted, fun e he => ?_, fun e rest he => ?_, fun l hl hd he => ?_, fun l hl hd hoff => ?_, h.behind⟩
  · obtain ⟨hd, hs, hk⟩ := h.files e he
    exact ⟨hd, hs, hg.keys _ hk⟩
  · exact (h.within e rest he).trans (hg.lines peer e hP (h.files e (by simp [he])).1).length_le
  · obtain ⟨e, hem, hlt⟩ := he
    obtain ⟨hed, -, hk⟩ := h.files e hem
    exact h.passed l (ho.mem hP hl hed hlt hk) hd ⟨e, hem, hlt⟩
  · obtain ⟨rest, hrest⟩ := List.head?_eq_some_iff.mp hd
    have hlen := h.within l.date rest hrest
    exact h.reading l (hg.old hP hl (by omega)) hd hoff

/-- The scan starts: what is before its dates is at or before the cursor. -/
theorem ScanInv.start (hu : Upto logRoot server written peer since) (hq : ∀ l, (peer, l) ∉ queue) :
    ScanInv logRoot server written queue since peer (datesFrom server logRoot peer since.1) 0 := by
  refine ⟨datesFrom_sorted server logRoot peer since.1, fun e he => mem_datesFrom.mp he,
    fun _ _ _ => Nat.zero_le _, fun l hl hd _ => ?_, fun l hl _ hoff => ?_, fun l hl => absurd hl (hq l)⟩
  · left
    apply hu l hl
    by_contra hr
    have hle : since.1 ≤ l.date := not_lt.mp fun hlt => hr (Or.inl hlt)
    exact hd (mem_datesFrom.mpr ⟨(mem_peerLog.mp hl).1, hle, mem_keys_of_peerLog hl⟩)
  · obtain ⟨-, i, hi, -⟩ := mem_peerLog.mp hl
    omega

theorem ScanInv.line_mem (h : ScanInv logRoot server written queue since peer (date :: rest) index) {raw : Text}
    (hraw : (texts logRoot server peer date)[index]? = some raw) :
      ⟨date, index, raw⟩ ∈ peerLog logRoot server peer :=
  mem_peerLog.mpr ⟨(h.files date (by simp)).1, index, rfl, hraw⟩

/-- What comes before the line that the scan is at is in the database or queued. -/
theorem ScanInv.before (h : ScanInv logRoot server written queue since peer (date :: rest) index)
    {raw : Text} {l : LogLine}
    (hl : l ∈ peerLog logRoot server peer) (hb : Before l ⟨date, index, raw⟩) : Got written queue peer l := by
  rcases hb with hlt | ⟨he, hoff⟩
  · refine h.passed l hl (fun hm => ?_) ⟨date, by simp, hlt⟩
    rcases List.mem_cons.mp hm with he | hm
    · rw [he] at hlt; exact lt_irrefl _ hlt
    · exact lt_asymm hlt ((List.pairwise_cons.mp h.sorted).1 _ hm)
  · exact h.reading l hl (by rw [he]; rfl) hoff

theorem ScanInv.next (h : ScanInv logRoot server written queue since peer (date :: rest) index) {raw : Text}
    (hraw : (texts logRoot server peer date)[index]? = some raw) (hu : Upto logRoot server written peer since) :
    ScanInv logRoot server written
      (queue ++ if isPast since.1 since.2 ⟨date, index, raw⟩ then [(peer, ⟨date, index, raw⟩)] else [])
      since peer (date :: rest) (index + 1) := by
  have hmem := h.line_mem hraw
  have hq : ∀ x ∈ queue, x ∈ queue ++
      if isPast since.1 since.2 ⟨date, index, raw⟩ then [(peer, ⟨date, index, raw⟩)] else [] :=
    fun x hx => List.mem_append_left _ hx
  refine ⟨h.sorted, h.files, fun e rest he => ?_, fun l hl hd he => (h.passed l hl hd he).mono (fun _ => id) hq,
    fun l hl hd hoff => ?_, fun l hl e he => ?_⟩
  · obtain rfl := (List.cons.inj he).1
    exact (List.getElem?_eq_some_iff.mp hraw).1
  · by_cases hlt : l.lineOffset < index
    · exact (h.reading l hl hd hlt).mono (fun _ => id) hq
    · have hdate : l.date = date := (Option.some.inj hd).symm
      obtain rfl : l = ⟨date, index, raw⟩ := peerLog_unique hl hmem hdate (by simp only; omega)
      by_cases hp : isPast since.1 since.2 ⟨date, index, raw⟩
      · right
        rw [if_pos hp]
        exact List.mem_append_right _ (by simp)
      · -- a line that is not past the cursor
        left
        apply hu _ hl
        simp only [isPast, Bool.or_eq_true, decide_eq_true_eq, not_or] at hp
        right
        exact ⟨le_antisymm (not_lt.mp hp.1) (h.files date (by simp)).2.1, not_lt.mp hp.2⟩
  · have hhead : ∀ m : LogLine, m.date = date → m.lineOffset < ((index + 1 : Nat) : Int) →
        m.date < e ∨ (date :: rest).head? = some e ∧ m.date = e ∧ m.lineOffset < ((index + 1 : Nat) : Int) := by
      intro m hm hoff
      rcases List.mem_cons.mp he with rfl | he
      · exact Or.inr ⟨rfl, hm, hoff⟩
      · left; rw [hm]; exact (List.pairwise_cons.mp h.sorted).1 _ he
    rcases List.mem_append.mp hl with hl | hl
    · rcases h.behind l hl e he with hlt | ⟨hh, hd, hoff⟩
      · exact Or.inl hlt
      · exact Or.inr ⟨hh, hd, by omega⟩
    · split at hl
      · obtain ⟨-, rfl⟩ := Prod.mk.inj (List.mem_singleton.mp hl)
        exact hhead _ rfl (by simp only; omega)
      · cases hl

theorem ScanInv.eof (h : ScanInv logRoot server written queue since peer (date :: rest) index)
    (hlen : (texts logRoot server peer date).length ≤ index) :
    ScanInv logRoot server written queue since peer rest 0 := by
  obtain ⟨hhead, hsorted⟩ := List.pairwise_cons.mp h.sorted
  refine ⟨hsorted, fun e he => h.files e (List.mem_cons_of_mem _ he), fun _ _ _ => Nat.zero_le _,
    fun l hl hd he => ?_, fun l hl _ hoff => ?_, fun l hl e he => ?_⟩
  · obtain ⟨hld, i, hi, hget⟩ := mem_peerLog.mp hl
    by_cases hdate : l.date = date
    · apply h.reading l hl (by rw [hdate]; rfl)
      have := (List.getElem?_eq_some_iff.mp hget).1
      rw [hdate] at this
      omega
    · obtain ⟨e, hem, hlt⟩ := he
      exact h.passed l hl (by simp [hdate, hd]) ⟨e, List.mem_cons_of_mem _ hem, hlt⟩
  · obtain ⟨-, i, hi, -⟩ := mem_peerLog.mp hl
    omega
  · rcases h.behind l hl e (List.mem_cons_of_mem _ he) with hlt | ⟨hh, hd, -⟩
    · exact Or.inl hlt
    · left; rw [hd, ← Option.some.inj hh]
      rw [← Option.some.inj hh] at he
      exact absurd (hhead _ he) (lt_irrefl _)

end

/-! ## The queue -/

/-- The queue is in order, and has nothing before it that is not in the database. -/
structure QueueInv (logRoot : Path) (server : Disk) (written : List Written)
  (queue : List (Text × LogLine)) : Prop where
  queued : ∀ x ∈ queue, Plain x.1 ∧ x.2 ∈ peerLog logRoot server x.1
  sorted : queue.Pairwise fun x y => x.1 = y.1 → Before x.2 y.2
  closed : ∀ x ∈ queue, ∀ l ∈ peerLog logRoot server x.1, Before l x.2 → Got written queue x.1 l

section
variable {logRoot : Path} {server server' : Disk} {written written' : List Written}
  {queue queue' : List (Text × LogLine)} {peer : Text} {l : LogLine}

theorem QueueInv.mono (h : QueueInv logRoot server written queue) (hw : ∀ w ∈ written, w ∈ written') :
    QueueInv logRoot server written' queue :=
  ⟨h.queued, h.sorted, fun x hx l hl hb => (h.closed x hx l hl hb).mono hw fun _ => id⟩

theorem reached_of_before {a b : LogLine} (h : Before a b) : Reached (b.date, b.lineOffset) a :=
  h.imp_right fun ⟨hd, ho⟩ => ⟨hd, le_of_lt ho⟩

theorem QueueInv.grown (h : QueueInv logRoot server written queue) (hg : Grown logRoot server server')
    (ho : InOrder logRoot server server') : QueueInv logRoot server' written queue := by
  refine ⟨fun x hx => ?_, h.sorted, fun x hx l hl hb => ?_⟩
  · obtain ⟨hP, hm⟩ := h.queued x hx
    exact ⟨hP, hg.mem hP hm⟩
  · obtain ⟨hP, hm⟩ := h.queued x hx
    exact h.closed x hx l (hg.reached ho hP hm hl (reached_of_before hb)) hb

theorem queued_push (h : ∀ x ∈ queue, Plain x.1 ∧ x.2 ∈ peerLog logRoot server x.1) (hP : Plain peer)
    (hl : l ∈ peerLog logRoot server peer) :
      ∀ x ∈ queue ++ [(peer, l)], Plain x.1 ∧ x.2 ∈ peerLog logRoot server x.1 := by
  intro x hx
  rcases List.mem_append.mp hx with hx | hx
  · exact h x hx
  · obtain rfl := List.mem_singleton.mp hx
    exact ⟨hP, hl⟩

theorem sorted_push (h : queue.Pairwise fun x y => x.1 = y.1 → Before x.2 y.2)
    (hlast : ∀ m, (peer, m) ∈ queue → Before m l) :
    (queue ++ [(peer, l)]).Pairwise fun x y => x.1 = y.1 → Before x.2 y.2 := by
  rw [List.pairwise_append]
  refine ⟨h, List.pairwise_singleton _ _, fun x hx y hy he => ?_⟩
  obtain rfl := List.mem_singleton.mp hy
  simp only at he
  subst he
  exact hlast x.2 hx

theorem QueueInv.push (h : QueueInv logRoot server written queue) (hP : Plain peer)
    (hl : l ∈ peerLog logRoot server peer)
    (hlast : ∀ m, (peer, m) ∈ queue → Before m l)
    (hclosed : ∀ m ∈ peerLog logRoot server peer, Before m l → Got written queue peer m) :
    QueueInv logRoot server written (queue ++ [(peer, l)]) := by
  have hq : ∀ x ∈ queue, x ∈ queue ++ [(peer, l)] := fun x hx => List.mem_append_left _ hx
  refine ⟨queued_push h.queued hP hl, sorted_push h.sorted hlast, fun x hx m hm hb => ?_⟩
  rcases List.mem_append.mp hx with hx | hx
  · exact (h.closed x hx m hm hb).mono (fun _ => id) hq
  · obtain rfl := List.mem_singleton.mp hx
    exact (hclosed m hm hb).mono (fun _ => id) hq

theorem Got.pop {P : Text} {m : LogLine} (h : Got written ((peer, l) :: queue) P m) :
    Got (written ++ [.pulled peer l]) queue P m := by
  rcases h with h | h
  · exact Or.inl (List.mem_append_left _ h)
  · rcases List.mem_cons.mp h with he | h
    · obtain ⟨rfl, rfl⟩ := Prod.mk.inj he
      exact Or.inl (List.mem_append_right _ (by simp))
    · exact Or.inr h

/-- A line is taken from the front of the queue: the cursor may stand on it. -/
theorem QueueInv.pop (h : QueueInv logRoot server written ((peer, l) :: queue)) :
    QueueInv logRoot server (written ++ [.pulled peer l]) queue ∧
      CursorOk logRoot server (written ++ [.pulled peer l]) peer (l.date, l.lineOffset) := by
  obtain ⟨hhead, hsorted⟩ := List.pairwise_cons.mp h.sorted
  obtain ⟨hP, hl⟩ := h.queued (peer, l) (by simp)
  refine ⟨⟨fun x hx => h.queued x (List.mem_cons_of_mem _ hx), hsorted,
    fun x hx m hm hb => (h.closed x (List.mem_cons_of_mem _ hx) m hm hb).pop⟩, hP, ⟨l, hl, rfl⟩,
      fun m hm hr => ?_⟩
  by_cases hb : Before m l
  · rcases h.closed (peer, l) (by simp) m hm hb with hw | hq
    · exact List.mem_append_left _ hw
    · -- in the queue it would come after `l`
      rcases List.mem_cons.mp hq with he | hq
      · obtain ⟨-, rfl⟩ := Prod.mk.inj he
        exact absurd hb (before_irrefl _)
      · exact absurd hb (before_asymm (hhead _ hq rfl))
  · obtain rfl : m = l := by
      rcases hr with hlt | ⟨hd, hle⟩
      · exact absurd (Or.inl hlt) hb
      · refine peerLog_unique hm hl hd (le_antisymm hle ?_)
        exact not_lt.mp fun hlt => hb (Or.inr ⟨hd, hlt⟩)
    exact List.mem_append_right _ (by simp)

end

/-! ## The pull under way -/

structure ChunkInv (logRoot : Path) (server : Disk) (written : List Written) (c : Chunk) : Prop where
  plain : Plain c.peer
  ne_nil : c.lines ≠ []
  last : ∀ l, (c.lines.take c.replayed).getLast? = some l →
    CursorOk logRoot server written c.peer (l.date, l.lineOffset)

structure PullInv (logRoot : Path) (server : Disk) (d : Data) (p : Pull) : Prop where
  data : DataInv logRoot server (p.now d)
  kept : ∀ w ∈ d.written, w ∈ (p.now d).written
  request : p.request = d.syncState
  nodup : p.peers.Nodup
  plain : ∀ P ∈ p.peers, Plain P
  queue : QueueInv logRoot server (p.now d).written (p.queue Chunk.replayed)
  chunk : ∀ c, p.chunk = some c → ChunkInv logRoot server (p.now d).written c
  stream : ∀ c ∈ p.stream, c.lines ≠ [] ∧ Plain c.peerMachineId
  ahead : ∀ P peers, p.peers = P :: peers → ∀ x ∈ p.queue Chunk.replayed, x.1 ∉ peers ∧
    (p.todo = none → x.1 ≠ P)
  scan : ∀ P peers dates, p.peers = P :: peers → p.todo = some dates →
    ScanInv logRoot server (p.now d).written (p.queue Chunk.replayed) (Server.since p.request P) P dates p.index

section
variable {cfg : Config} {logRoot : Path} {server server' : Disk} {d : Data} {p p' : Pull}

theorem PullInv.start {s : State} (hs : ServerInv cfg.logRoot s.server)
    (h : DataInv cfg.logRoot s.server s.data) :
    PullInv cfg.logRoot s.server s.data (startPull cfg s) := by
  have hq := queue_start cfg Chunk.replayed s
  have hmem : ∀ P ∈ (startPull cfg s).peers, P ∈ s.server.subdirs cfg.logRoot := by
    intro P hP
    exact mem_sortStrings.mp (List.mem_filter.mp hP).1
  refine ⟨h, fun _ => id, rfl, ?_, fun P hP => hs.plain P (hmem P hP), ?_, nofun, nofun, ?_, nofun⟩
  · exact ((sortStrings_perm _).nodup_iff.mpr (Disk.nodup_subdirs hs.dirs _)).filter _
  · rw [hq]; exact ⟨nofun, List.Pairwise.nil, nofun⟩
  · rw [hq]; exact nofun

theorem PullInv.grown (h : PullInv logRoot server d p) (hg : Grown logRoot server server')
    (ho : InOrder logRoot server server') : PullInv logRoot server' d p := by
  refine ⟨h.data.grown hg ho, h.kept, h.request, h.nodup, h.plain, h.queue.grown hg ho, fun c hc => ?_,
    h.stream, h.ahead, fun P peers dates hp ht =>
      (h.scan P peers dates hp ht).grown (h.plain P (by simp [hp])) hg ho⟩
  obtain ⟨hP, hne, hlast⟩ := h.chunk c hc
  exact ⟨hP, hne, fun l hl => (hlast l hl).grown hg ho⟩

/-- A host writes to the database while the pull has no transaction open. -/
theorem PullInv.host (h : PullInv logRoot server d p) (ht : p.tx = none) (w : Written) :
    PullInv logRoot server (d.write w) p := by
  have hnow : ∀ d, p.now d = d := fun d => by rw [Pull.now, ht]; rfl
  obtain ⟨hdata, -, hreq, hnodup, hplain, hqueue, hchunk, hstream, hahead, hscan⟩ := h
  rw [hnow] at hdata hqueue hchunk hscan
  have hw : ∀ x ∈ d.written, x ∈ (d.write w).written := fun x hx => List.mem_append_left _ hx
  refine ⟨?_, ?_, hreq, hnodup, hplain, ?_, fun c hc => ?_, hstream, hahead, fun P peers dates hp ht => ?_⟩
  · rw [hnow]; exact hdata.write w
  · rw [hnow]; exact fun _ => id
  · rw [hnow]; exact hqueue.mono hw
  · rw [hnow]
    exact ⟨(hchunk c hc).plain, (hchunk c hc).ne_nil, fun l hl => ((hchunk c hc).last l hl).mono hw⟩
  · rw [hnow]
    exact (hscan P peers dates hp ht).congr (fun l hl => hl.mono hw fun _ => id) fun _ => id

theorem PullInv.upto (h : PullInv logRoot server d p) (hd : DataInv logRoot server d) (P : Text) :
    Upto logRoot server (p.now d).written P (Server.since p.request P) := by
  rw [since_eq, h.request]
  exact fun l hl hr => h.kept _ (hd.upto P l hl hr)

theorem PullInv.list (h : PullInv cfg.logRoot server d p) (hd : DataInv cfg.logRoot server d)
    (hs : p.list cfg server = some p') : PullInv cfg.logRoot server d p' := by
  have hu := h.upto hd
  obtain ⟨peer, peers, hp, ht, rfl⟩ := Pull.list_spec hs
  have hnone : ∀ l, (peer, l) ∉ p.queue Chunk.replayed := fun l hl => (h.ahead peer peers hp _ hl).2 ht rfl
  refine ⟨h.data, h.kept, h.request, h.nodup, h.plain, h.queue, h.chunk, h.stream, fun P ps hps x hx => ?_,
    fun P ps dates hps hdates => ?_⟩
  · exact ⟨(h.ahead P ps hps x hx).1, nofun⟩
  · rw [hp] at hps
    obtain ⟨rfl, rfl⟩ := List.cons.inj hps
    cases hdates
    exact ScanInv.start (hu peer) hnone

theorem PullInv.next (h : PullInv cfg.logRoot server d p) (hd : DataInv cfg.logRoot server d)
    (hs : p.next cfg server = some p') : PullInv cfg.logRoot server d p' := by
  obtain ⟨peer, peers, date, rest, raw, hp, ht, hraw, hp', ht', hi', hsame, hstream, hq⟩ := Pull.next_spec hs
  have hnow : p'.now d = p.now d := by rw [Pull.now, hsame.tx, Pull.now]
  have hplain : Plain peer := h.plain peer (by simp [hp])
  have hscan := h.scan peer peers _ hp ht
  have hu := h.upto hd peer
  have hqueue := hq Chunk.replayed
  have hline := hscan.line_mem hraw
  refine ⟨hnow ▸ h.data, hnow ▸ h.kept, hsame.request ▸ h.request, hp' ▸ h.nodup, hp' ▸ h.plain, ?_,
    fun c hc => ?_, fun c hc => ?_, fun P ps hps x hx => ?_, fun P ps dates hps hdates => ?_⟩
  · rw [hnow, hqueue]
    split
    · apply h.queue.push hplain hline
      · intro m hm
        rcases hscan.behind m hm date (by simp) with hlt | ⟨-, hmd, hoff⟩
        · exact Or.inl hlt
        · exact Or.inr ⟨hmd, hoff⟩
      · exact fun m hm hb => hscan.before hm hb
    · rw [List.append_nil]; exact h.queue
  · rw [hnow]
    exact h.chunk c (by rw [← hsame.chunk]; exact hc)
  · rcases hstream c hc with hc | ⟨hne, hpeer⟩
    · exact h.stream c hc
    · exact ⟨hne, hpeer ▸ hplain⟩
  · rw [hp', hp] at hps
    obtain ⟨rfl, rfl⟩ := List.cons.inj hps
    refine ⟨?_, fun hn => by rw [ht', ht] at hn; cases hn⟩
    rw [hqueue] at hx
    rcases List.mem_append.mp hx with hx | hx
    · exact (h.ahead peer peers hp x hx).1
    · split at hx
      · obtain rfl := List.mem_singleton.mp hx
        exact (List.nodup_cons.mp (hp ▸ h.nodup)).1
      · cases hx
  · rw [hp', hp] at hps
    rw [ht', ht] at hdates
    obtain ⟨rfl, rfl⟩ := List.cons.inj hps
    cases hdates
    rw [hnow, hqueue, hi', hsame.request]
    exact hscan.next hraw hu

theorem PullInv.eof (h : PullInv cfg.logRoot server d p) (hs : p.eof cfg server = some p') :
    PullInv cfg.logRoot server d p' := by
  obtain ⟨peer, peers, date, rest, hp, ht, hlen, rfl⟩ := Pull.eof_spec hs
  refine ⟨h.data, h.kept, h.request, h.nodup, h.plain, h.queue, h.chunk, h.stream,
    fun P ps hps x hx => ⟨(h.ahead P ps hps x hx).1, nofun⟩, fun P ps dates hps hdates => ?_⟩
  rw [hp] at hps
  obtain ⟨rfl, rfl⟩ := List.cons.inj hps
  cases hdates
  exact (h.scan peer peers _ hp ht).eof hlen

theorem PullInv.endPeer (h : PullInv cfg.logRoot server d p) (hs : p.endPeer = some p') :
    PullInv cfg.logRoot server d p' := by
  obtain ⟨peer, peers, hp, ht, hp', ht', hsame, hstream, hq⟩ := Pull.endPeer_spec hs
  have hnow : p'.now d = p.now d := by rw [Pull.now, hsame.tx, Pull.now]
  have hsub : ∀ P ∈ peers, P ∈ p.peers := fun P hP => by rw [hp]; exact List.mem_cons_of_mem _ hP
  refine ⟨hnow ▸ h.data, hnow ▸ h.kept, hsame.request ▸ h.request, ?_,
    fun P hP => h.plain P (hsub P (hp' ▸ hP)), ?_, fun c hc => ?_, fun c hc => ?_,
      fun P ps hps x hx => ?_, fun P ps dates _ hdates => ?_⟩
  · rw [hp']; exact (List.nodup_cons.mp (hp ▸ h.nodup)).2
  · rw [hnow, hq]; exact h.queue
  · rw [hnow]
    exact h.chunk c (by rw [← hsame.chunk]; exact hc)
  · rcases hstream c hc with hc | ⟨hne, hpeer⟩
    · exact h.stream c hc
    · exact ⟨hne, hpeer ▸ h.plain peer (by simp [hp])⟩
  · rw [hq] at hx
    have hnot := (h.ahead peer peers hp x hx).1
    rw [hp'] at hps
    rw [hps, List.mem_cons, not_or] at hnot
    exact ⟨hnot.2, fun _ => hnot.1⟩
  · rw [ht'] at hdates; cases hdates

theorem PullInv.receive (h : PullInv cfg.logRoot server d p) (hs : p.receive = some p') :
    PullInv cfg.logRoot server d p' := by
  obtain ⟨c, stream, -, hst, hchunk, hstream, hp', ht', hi', hreq, htx, -, hq⟩ := Pull.receive_spec hs
  have hnow : p'.now d = p.now d := by rw [Pull.now, htx, Pull.now]
  have hqueue := hq Chunk.replayed fun _ _ => rfl
  refine ⟨hnow ▸ h.data, hnow ▸ h.kept, hreq ▸ h.request, hp' ▸ h.nodup, hp' ▸ h.plain, ?_, fun c' hc' => ?_,
    fun c' hc' => ?_, fun P ps hps x hx => ?_, fun P ps dates hps hdates => ?_⟩
  · rw [hnow, hqueue]; exact h.queue
  · rw [hchunk] at hc'
    cases hc'
    obtain ⟨hne, hP⟩ := h.stream c (by simp [hst])
    exact ⟨hP, hne, nofun⟩
  · rw [hstream] at hc'
    exact h.stream c' (by rw [hst]; exact List.mem_cons_of_mem _ hc')
  · rw [hqueue] at hx
    rw [ht']
    exact h.ahead P ps (hp' ▸ hps) x hx
  · rw [hnow, hqueue, hi', hreq]
    exact h.scan P ps dates (hp' ▸ hps) (ht' ▸ hdates)

theorem getLast?_take_succ {ls : List LogLine} {i : Nat} {l : LogLine} (h : ls[i]? = some l) :
    (ls.take (i + 1)).getLast? = some l := by
  rw [List.take_add_one, h]
  simp

theorem lastOf_eq {ls : List LogLine} {l : LogLine} (h : ls.getLast? = some l) (c : Text × Int) :
    SyncClient.lastOf c ls = (l.date, l.lineOffset) := by
  rw [SyncClient.lastOf, h]
  rfl

theorem PullInv.mirror (h : PullInv logRoot server d p) {c : Chunk} (hc : p.chunk = some c) :
    PullInv logRoot server d { p with chunk := some { c with mirrored := c.mirrored + 1 }, appended := true } := by
  have hq := Pull.queue_congr Chunk.replayed { c with mirrored := c.mirrored + 1 } hc rfl rfl rfl p.tx true
  refine ⟨h.data, h.kept, h.request, h.nodup, h.plain, ?_, fun c' hc' => ?_, h.stream, ?_, ?_⟩
  · rw [hq]; exact h.queue
  · cases hc'
    exact ⟨(h.chunk c hc).plain, (h.chunk c hc).ne_nil, (h.chunk c hc).last⟩
  · rw [hq]; exact h.ahead
  · rw [hq]; exact h.scan

theorem PullInv.replay (h : PullInv logRoot server d p) {c : Chunk} (hc : p.chunk = some c) {l : LogLine}
    (hl : c.lines[c.replayed]? = some l) :
    PullInv logRoot server d { p with
      chunk := some { c with replayed := c.replayed + 1 }
      tx := some ((p.now d).write (.pulled c.peer l)) } := by
  have hq := Pull.queue_advance Chunk.replayed { c with replayed := c.replayed + 1 } hc hl rfl rfl rfl
    (some ((p.now d).write (.pulled c.peer l))) p.appended
  have hw : ∀ w ∈ (p.now d).written, w ∈ ((p.now d).write (.pulled c.peer l)).written :=
    fun w hm => List.mem_append_left _ hm
  have hqueue := h.queue
  have hscan := h.scan
  have hahead := h.ahead
  rw [hq] at hqueue hscan hahead
  obtain ⟨hqueue', hcursor⟩ := hqueue.pop
  refine ⟨h.data.write _, fun w hm => hw w (h.kept w hm), h.request, h.nodup, h.plain, hqueue',
    fun c' hc' => ?_, h.stream, fun P ps hps x hx => hahead P ps hps x (List.mem_cons_of_mem _ hx),
      fun P ps dates hps hdates => ?_⟩
  · cases hc'
    refine ⟨(h.chunk c hc).plain, (h.chunk c hc).ne_nil, fun m hm => ?_⟩
    rw [getLast?_take_succ hl] at hm
    cases hm
    exact hcursor
  · exact (hscan P ps dates hps hdates).congr (fun m hm => hm.pop) fun x hx => List.mem_cons_of_mem _ hx

theorem PullInv.endChunk (h : PullInv logRoot server d p) {c : Chunk} (hc : p.chunk = some c)
    (hlen : c.lines.length ≤ c.replayed) (cur : Text × Int) :
    PullInv logRoot server d { p with
      chunk := none
      tx := some { p.now d with
        syncState := SyncClient.setCursor (p.now d).syncState c.peer (SyncClient.lastOf cur c.lines).1
          (SyncClient.lastOf cur c.lines).2 } } := by
  obtain ⟨hP, hne, hlast⟩ := h.chunk c hc
  have hq := fun tx => Pull.queue_endChunk Chunk.replayed hc hlen tx
  have hcursor := hlast (c.lines.getLast hne)
    (by rw [List.take_of_length_le hlen, List.getLast?_eq_getLast_of_ne_nil hne])
  refine ⟨fun P k hk => ?_, h.kept, h.request, h.nodup, h.plain, ?_, nofun, h.stream, ?_, ?_⟩
  · simp only [Pull.now, Option.getD_some, SyncClient.setCursor,
      lastOf_eq (List.getLast?_eq_getLast_of_ne_nil hne)] at hk
    by_cases he : P = c.peer
    · subst he
      rw [AList.lookup_insert] at hk
      cases hk
      exact hcursor
    · rw [AList.lookup_insert_ne he] at hk
      exact h.data P k hk
  · rw [hq]; exact h.queue
  · rw [hq]; exact h.ahead
  · rw [hq]; exact h.scan

end

/-! ## Every run -/

/-- A push adds the lines of one date to a peer's day log, and the peer's dates do not go back. -/
def Allowed (cfg : Config) (s : State) : Act → Prop
  | .append peer io date group => AppendOk peer io date group ∧ NotBack cfg.logRoot s.server peer io date group
  | _ => True

def DbOk (defaultDirectory : Text) (d : Data) : Prop :=
  d.db = d.written.foldl Written.apply (.empty defaultDirectory)

structure Inv (cfg : Config) (defaultDirectory : Text) (s : State) : Prop where
  server : ServerInv cfg.logRoot s.server
  data : DataInv cfg.logRoot s.server s.data
  db : DbOk defaultDirectory s.data
  pull : ∀ p, s.pull = some p → PullInv cfg.logRoot s.server s.data p ∧ DbOk defaultDirectory (p.now s.data)

section
variable {cfg : Config} {defaultDirectory : Text} {s s' : State} {d : Data}

theorem DbOk.write (h : DbOk defaultDirectory d) (w : Written) : DbOk defaultDirectory (d.write w) := by
  rw [DbOk, Data.write, List.foldl_append, ← h]
  rfl

theorem Inv.init : Inv cfg defaultDirectory (.init defaultDirectory) :=
  ⟨⟨fun _ _ _ _ => rfl, List.nodup_nil, nofun⟩, fun _ _ h => by simp [State.init] at h, rfl, nofun⟩

theorem step_pull {f : Pull → Option Pull}
    (h : ((s.pull.bind f).map fun p => { s with pull := some p }) = some s') :
    ∃ p p', s.pull = some p ∧ f p = some p' ∧ s' = { s with pull := some p' } := by
  obtain ⟨p', hp', rfl⟩ := Option.map_eq_some_iff.mp h
  obtain ⟨p, hp, hf⟩ := Option.bind_eq_some_iff.mp hp'
  exact ⟨p, p', hp, hf, rfl⟩

theorem Inv.setPull (h : Inv cfg defaultDirectory s) {p p' : Pull} (hp : s.pull = some p)
    (hinv : PullInv cfg.logRoot s.server s.data p') (htx : p'.tx = p.tx) (peerLogs : Disk) :
    Inv cfg defaultDirectory { s with peerLogs, pull := some p' } := by
  refine ⟨h.server, h.data, h.db, fun q hq => ?_⟩
  cases hq
  refine ⟨hinv, ?_⟩
  rw [Pull.now, htx]
  exact (h.pull p hp).2

theorem Inv.commit (h : Inv cfg defaultDirectory s) {p : Pull} (hp : s.pull = some p) :
    Inv cfg defaultDirectory { s with data := p.now s.data, pull := none } :=
  ⟨h.server, (h.pull p hp).1.data, (h.pull p hp).2, nofun⟩

theorem step_mirror (h : step cfg s .mirror = some s') : ∃ p c l, s.pull = some p ∧ p.chunk = some c ∧
    c.mirrored = c.replayed ∧ c.lines[c.mirrored]? = some l ∧
    s' = { s with
      peerLogs := SyncClient.appendPeerLine cfg.peerLogsDir s.peerLogs c.peer l.date l.rawLine
      pull := some { p with chunk := some { c with mirrored := c.mirrored + 1 }, appended := true } } := by
  simp only [step, Option.bind_eq_bind, Option.bind_eq_some_iff, Option.some.injEq] at h
  obtain ⟨p, hp, c, hc, l, hl, rfl⟩ := h
  unfold Chunk.toMirror at hl
  split at hl
  · rename_i he
    exact ⟨p, c, l, hp, hc, he, hl, rfl⟩
  · cases hl

theorem step_replay (h : step cfg s .replay = some s') : ∃ p c l, s.pull = some p ∧ p.chunk = some c ∧
    c.replayed < c.mirrored ∧ c.lines[c.replayed]? = some l ∧
    s' = { s with
      pull := some { p with
        chunk := some { c with replayed := c.replayed + 1 }
        tx := some ((p.now s.data).write (.pulled c.peer l)) } } := by
  simp only [step, Option.bind_eq_bind, Option.bind_eq_some_iff, Option.some.injEq] at h
  obtain ⟨p, hp, c, hc, l, hl, rfl⟩ := h
  unfold Chunk.toReplay at hl
  split at hl
  · rename_i hlt
    exact ⟨p, c, l, hp, hc, hlt, hl, rfl⟩
  · cases hl

theorem step_endChunk (h : step cfg s .endChunk = some s') : ∃ p c cur, s.pull = some p ∧ p.chunk = some c ∧
    c.lines.length ≤ c.replayed ∧ cur = SyncClient.getCursor ((p.now s.data).syncState.lookup c.peer) ∧
    s' = { s with
      pull := some { p with
        chunk := none
        tx := some { p.now s.data with
          syncState := SyncClient.setCursor (p.now s.data).syncState c.peer (SyncClient.lastOf cur c.lines).1
            (SyncClient.lastOf cur c.lines).2 } } } := by
  simp only [step, Option.bind_eq_bind, Option.bind_eq_some_iff] at h
  obtain ⟨p, hp, c, hc, h⟩ := h
  split at h
  · cases h
  · rename_i hlt
    exact ⟨p, c, _, hp, hc, not_lt.mp hlt, rfl, (Option.some.inj h).symm⟩

theorem step_finish (h : step cfg s .finish = some s') : ∃ p, s.pull = some p ∧ p.peers = [] ∧ p.stream = [] ∧
    p.chunk = none ∧ s' = { s with data := p.now s.data, pull := none } := by
  simp only [step, Option.bind_eq_bind, Option.bind_eq_some_iff, Option.ite_none_right_eq_some,
    Option.some.injEq, Option.isNone_iff_eq_none] at h
  obtain ⟨p, hp, ⟨hpeers, hstream, hchunk⟩, rfl⟩ := h
  exact ⟨p, hp, hpeers, hstream, hchunk, rfl⟩

theorem Inv.step {a : Act} (h : Inv cfg defaultDirectory s) (ha : Allowed cfg s a) (hs : s' ∈ step cfg s a) :
    Inv cfg defaultDirectory s' := by
  cases a with
  | append peer io date group =>
    cases hs
    obtain ⟨hserver, hg, ho⟩ := append_grown h.server ha.1
    refine ⟨hserver, h.data.grown hg (ho ha.2), h.db, fun p hp => ?_⟩
    obtain ⟨hinv, hdb⟩ := h.pull p hp
    exact ⟨hinv.grown hg (ho ha.2), hdb⟩
  | host o =>
    simp only [PullLogs.step, Option.mem_def, Option.ite_none_left_eq_some, Option.some.injEq] at hs
    obtain ⟨hlock, rfl⟩ := hs
    refine ⟨h.server, h.data.write _, h.db.write _, fun p hp => ?_⟩
    -- a host writes only while the pull has no transaction open
    have htx : p.tx = none := by simpa [show s.pull = some p from hp] using hlock
    refine ⟨(h.pull p hp).1.host htx _, ?_⟩
    rw [Pull.now, htx]
    exact h.db.write _
  | start =>
    simp only [PullLogs.step] at hs
    split at hs
    · cases hs
    · cases hs
      refine ⟨h.server, h.data, h.db, fun p hp => ?_⟩
      cases hp
      exact ⟨.start h.server h.data, h.db⟩
  | list =>
    obtain ⟨p, p', hp, hf, rfl⟩ := step_pull hs
    obtain ⟨peer, peers, -, -, he⟩ := Pull.list_spec hf
    exact h.setPull hp ((h.pull p hp).1.list h.data hf) (by rw [he]) _
  | next =>
    obtain ⟨p, p', hp, hf, rfl⟩ := step_pull hs
    obtain ⟨-, -, -, -, -, -, -, -, -, -, -, hsame, -⟩ := Pull.next_spec hf
    exact h.setPull hp ((h.pull p hp).1.next h.data hf) hsame.tx _
  | eof =>
    obtain ⟨p, p', hp, hf, rfl⟩ := step_pull hs
    obtain ⟨peer, peers, date, rest, -, -, -, he⟩ := Pull.eof_spec hf
    exact h.setPull hp ((h.pull p hp).1.eof hf) (by rw [he]) _
  | endPeer =>
    obtain ⟨p, p', hp, hf, rfl⟩ := step_pull hs
    obtain ⟨-, -, -, -, -, -, hsame, -⟩ := Pull.endPeer_spec hf
    exact h.setPull hp ((h.pull p hp).1.endPeer hf) hsame.tx _
  | receive =>
    obtain ⟨p, p', hp, hf, rfl⟩ := step_pull hs
    obtain ⟨-, -, -, -, -, -, -, -, -, -, htx, -⟩ := Pull.receive_spec hf
    exact h.setPull hp ((h.pull p hp).1.receive hf) htx _
  | mirror =>
    obtain ⟨p, c, l, hp, hc, -, -, rfl⟩ := step_mirror hs
    exact h.setPull hp ((h.pull p hp).1.mirror hc) rfl _
  | replay =>
    obtain ⟨p, c, l, hp, hc, -, hl, rfl⟩ := step_replay hs
    refine ⟨h.server, h.data, h.db, fun q hq => ?_⟩
    cases hq
    exact ⟨(h.pull p hp).1.replay hc hl, (h.pull p hp).2.write _⟩
  | endChunk =>
    obtain ⟨p, c, cur, hp, hc, hlen, -, rfl⟩ := step_endChunk hs
    refine ⟨h.server, h.data, h.db, fun q hq => ?_⟩
    cases hq
    exact ⟨(h.pull p hp).1.endChunk hc hlen cur, (h.pull p hp).2⟩
  | finish =>
    obtain ⟨p, hp, -, -, -, rfl⟩ := step_finish hs
    exact h.commit hp
  | fail =>
    obtain ⟨p, hp, rfl⟩ := Option.map_eq_some_iff.mp hs
    exact h.commit hp
  | kill =>
    obtain ⟨p, hp, rfl⟩ := Option.map_eq_some_iff.mp hs
    exact ⟨h.server, h.data, h.db, fun q hq => by cases hq⟩

/-! ## Pulls that complete -/

def Awaits (cfg : Config) (P : Text) (l : LogLine) (s : State) (p : Pull) : Prop :=
  Got (p.now s.data).written (p.queue Chunk.replayed) P l ∨
    l ∈ peerLog cfg.logRoot s.server P ∧ ∃ peers dates, p.peers = P :: peers ∧ p.todo = some dates ∧
      l.date ∈ dates ∧
      (dates.head? = some l.date → p.index ≤ l.lineOffset)

/-- The pull that is under way, if it still is, awaits the line. -/
def StillAwaits (cfg : Config) (P : Text) (l : LogLine) (s : State) : Prop :=
  ∀ p, s.pull = some p → Awaits cfg P l s p

theorem Awaits.same {P : Text} {l : LogLine} {p : Pull} (p' : Pull) (h : Awaits cfg P l s p)
    (hnow : p'.now s.data = p.now s.data)
    (hq : p'.queue Chunk.replayed = p.queue Chunk.replayed) (hpeers : p'.peers = p.peers)
    (htodo : p'.todo = p.todo)
    (hindex : p'.index = p.index) (peerLogs : Disk) :
      Awaits cfg P l { s with peerLogs, pull := some p' } p' := by
  unfold Awaits at *
  rw [hnow, hq, hpeers, htodo, hindex]
  exact h

theorem Awaits.list {P : Text} {l : LogLine} {p p' : Pull} (hinv : PullInv cfg.logRoot s.server s.data p)
    (hd : DataInv cfg.logRoot s.server s.data) (hs : p.list cfg s.server = some p') {peers : List Text}
    (hp : p.peers = P :: peers) (hl : l ∈ peerLog cfg.logRoot s.server P) :
    Awaits cfg P l { s with pull := some p' } p' := by
  obtain ⟨peer, ps, hp', -, rfl⟩ := Pull.list_spec hs
  rw [hp] at hp'
  obtain ⟨rfl, rfl⟩ := List.cons.inj hp'
  obtain ⟨hdate, i, hi, -⟩ := mem_peerLog.mp hl
  by_cases hle : (Server.since p.request P).1 ≤ l.date
  · right
    exact ⟨hl, peers, _, hp, rfl, mem_datesFrom.mpr ⟨hdate, hle, mem_keys_of_peerLog hl⟩,
      fun _ => by simp only; omega⟩
  · left; left
    exact hinv.upto hd P l hl (Or.inl (not_le.mp hle))

theorem Awaits.next {P : Text} {l : LogLine} {p p' : Pull} (h : Awaits cfg P l s p)
    (hf : p.next cfg s.server = some p')
    (hinv : PullInv cfg.logRoot s.server s.data p') : Awaits cfg P l { s with pull := some p' } p' := by
  obtain ⟨peer, peers, date, rest, raw, hpeers, ht, -, hpeers', ht', hi', hsame, -, hqueue⟩ := Pull.next_spec hf
  have hnow : p'.now s.data = p.now s.data := by rw [Pull.now, hsame.tx, Pull.now]
  unfold Awaits
  rw [hnow, hqueue]
  rcases h with hg | ⟨hl, ps, dates, hps, hdates, hmem, hidx⟩
  · exact Or.inl (hg.mono (fun _ => id) fun x hx => List.mem_append_left _ hx)
  · by_cases hlt : dates.head? = some l.date ∧ l.lineOffset < p'.index
    · -- the scan has just passed it
      left
      have hscan := hinv.scan P ps dates (hpeers'.trans hps) (ht'.trans hdates)
      have hgot := hscan.reading l hl hlt.1 hlt.2
      rw [hnow, hqueue] at hgot
      exact hgot
    · right
      refine ⟨hl, ps, dates, hpeers'.trans hps, ht'.trans hdates, hmem, fun hh => ?_⟩
      exact not_lt.mp fun hoff => hlt ⟨hh, hoff⟩

theorem Awaits.eof {P : Text} {l : LogLine} {p p' : Pull} (h : Awaits cfg P l s p)
    (hf : p.eof cfg s.server = some p') :
    Awaits cfg P l { s with pull := some p' } p' := by
  obtain ⟨peer, peers, date, rest, hpeers, ht, hlen, rfl⟩ := Pull.eof_spec hf
  rcases h with hg | ⟨hl, ps, dates, hps, hdates, hmem, hidx⟩
  · exact Or.inl hg
  · right
    rw [hpeers] at hps
    rw [ht] at hdates
    obtain ⟨rfl, rfl⟩ := List.cons.inj hps
    cases hdates
    obtain ⟨-, i, hi, hget⟩ := mem_peerLog.mp hl
    have hlt := (List.getElem?_eq_some_iff.mp hget).1
    refine ⟨hl, peers, rest, hpeers, rfl, (List.mem_cons.mp hmem).resolve_left fun he => ?_,
      fun _ => by simp only; omega⟩
    have hle := hidx (by rw [he]; rfl)
    rw [he] at hlt
    omega

theorem StillAwaits.of_pull {P : Text} {l : LogLine} {p : Pull} (hp : s.pull = some p)
    (h : Awaits cfg P l s p) :
    StillAwaits cfg P l s := by
  intro q hq
  obtain rfl : p = q := Option.some.inj (hp.symm.trans hq)
  exact h

theorem StillAwaits.step {P : Text} {l : LogLine} {a : Act} (h : Inv cfg defaultDirectory s)
    (hw : StillAwaits cfg P l s) (hP : Plain P) (ha : Allowed cfg s a) (hne : a ≠ .start)
    (hs : s' ∈ PullLogs.step cfg s a) :
    StillAwaits cfg P l s' := by
  have hinv' := (h.step ha hs).pull
  cases a with
  | append peer io date group =>
    cases hs
    intro p hp
    -- the mirror only grows, so the pull comes to the line later
    exact (hw p hp).imp_right fun hmem => ⟨(append_grown h.server ha.1).2.1.mem hP hmem.1, hmem.2⟩
  | host o =>
    simp only [PullLogs.step, Option.mem_def, Option.ite_none_left_eq_some, Option.some.injEq] at hs
    obtain ⟨hlock, rfl⟩ := hs
    intro p hp
    -- the host holds the lock, so the pull has written nothing that is not committed
    have htx : p.tx = none := by simpa [show s.pull = some p from hp] using hlock
    refine (hw p hp).imp_left fun hg => ?_
    rw [Pull.now, htx] at hg ⊢
    exact hg.mono (fun w hm => List.mem_append_left _ hm) fun _ => id
  | start => exact absurd rfl hne
  | list =>
    obtain ⟨p, p', hp, hf, rfl⟩ := step_pull hs
    obtain ⟨peer, peers, -, ht, rfl⟩ := Pull.list_spec hf
    refine .of_pull rfl ?_
    rcases hw p hp with hg | ⟨-, peers, dates, -, ht', -⟩
    · exact Or.inl hg
    · rw [ht] at ht'; cases ht'
  | next =>
    obtain ⟨p, p', hp, hf, rfl⟩ := step_pull hs
    exact .of_pull rfl ((hw p hp).next hf (hinv' p' rfl).1)
  | eof =>
    obtain ⟨p, p', hp, hf, rfl⟩ := step_pull hs
    exact .of_pull rfl ((hw p hp).eof hf)
  | endPeer =>
    obtain ⟨p, p', hp, hf, rfl⟩ := step_pull hs
    obtain ⟨peer, peers, hpeers, ht, -, -, hsame, -, hqueue⟩ := Pull.endPeer_spec hf
    refine .of_pull rfl ?_
    rcases hw p hp with hg | ⟨-, ps, dates, -, hdates, hmem, -⟩
    · left
      rw [Pull.now, hsame.tx, hqueue]
      exact hg
    · rw [ht] at hdates
      cases hdates
      cases hmem
  | receive =>
    obtain ⟨p, p', hp, hf, rfl⟩ := step_pull hs
    obtain ⟨c, stream, -, -, -, -, hpeers, ht, hi, -, htx, -, hqueue⟩ := Pull.receive_spec hf
    have hnow : p'.now s.data = p.now s.data := by rw [Pull.now, htx, Pull.now]
    exact .of_pull rfl ((hw p hp).same p' hnow (hqueue _ fun _ _ => rfl) hpeers ht hi _)
  | mirror =>
    obtain ⟨p, c, m, hp, hc, -, -, rfl⟩ := step_mirror hs
    have hqueue := Pull.queue_congr Chunk.replayed { c with mirrored := c.mirrored + 1 } hc rfl rfl rfl p.tx true
    exact .of_pull rfl ((hw p hp).same { p with chunk := some { c with mirrored := c.mirrored + 1 }, appended := true } rfl hqueue
      rfl rfl rfl _)
  | replay =>
    obtain ⟨p, c, m, hp, hc, -, hm, rfl⟩ := step_replay hs
    refine .of_pull rfl ((hw p hp).imp_left fun hg => ?_)
    rw [Pull.queue_advance Chunk.replayed { c with replayed := c.replayed + 1 } hc hm rfl rfl rfl
      (some ((p.now s.data).write (.pulled c.peer m))) p.appended] at hg
    -- either this is the line, which is now in the database, or it is further down
    exact hg.pop
  | endChunk =>
    obtain ⟨p, c, cur, hp, hc, hlen, -, rfl⟩ := step_endChunk hs
    refine .of_pull rfl ((hw p hp).imp_left fun hg => ?_)
    rw [Pull.queue_endChunk Chunk.replayed hc hlen]
    exact hg
  | finish =>
    obtain ⟨p, -, -, -, -, rfl⟩ := step_finish hs
    intro q hq
    cases hq
  | fail =>
    obtain ⟨p, -, rfl⟩ := Option.map_eq_some_iff.mp hs
    intro q hq
    cases hq
  | kill =>
    obtain ⟨p, -, rfl⟩ := Option.map_eq_some_iff.mp hs
    intro q hq
    cases hq

theorem StillAwaits.finish {P : Text} {l : LogLine} (hw : StillAwaits cfg P l s)
    (hs : PullLogs.step cfg s .finish = some s') :
    .pulled P l ∈ s'.data.written := by
  obtain ⟨p, hp, hpeers, hstream, hchunk, rfl⟩ := step_finish hs
  have hqueue : p.queue Chunk.replayed = [] := by
    simp only [Pull.queue, hpeers, hstream, hchunk]
    rfl
  rcases hw p hp with (hg | hg) | ⟨-, ps, dates, hps, -⟩
  · exact hg
  · rw [hqueue] at hg; cases hg
  · rw [hpeers] at hps; cases hps

end

/-- **A pull skips nothing.** In every run, the committed tables are what the
lines and operations written to them make, and every line of a peer at or before
its cursor has been replayed into them. After a pull that completes, so has every
line that was on the server when it scanned the peer. -/
theorem pulled_covered (cfg : Config) (defaultDirectory : Text) {acts : List Act} {s : State}
    (ho : Runs.Obeys (step cfg) (Allowed cfg) (.init defaultDirectory) acts)
    (hr : Runs.run (step cfg) (.init defaultDirectory) acts = some s) :
    s.data.db = s.data.written.foldl Written.apply (.empty defaultDirectory) ∧
      (∀ P, ∀ l ∈ peerLog cfg.logRoot s.server P,
        Reached (SyncClient.getCursor (s.data.syncState.lookup P)) l → .pulled P l ∈ s.data.written) ∧
      ∀ before during, acts = before ++ .list :: (during ++ [.finish]) → .start ∉ during →
        ∀ s₁ p P peers, Runs.run (step cfg) (.init defaultDirectory) before = some s₁ → s₁.pull = some p →
          p.peers = P :: peers → ∀ l ∈ peerLog cfg.logRoot s₁.server P, .pulled P l ∈ s.data.written := by
  have hinv : Inv cfg defaultDirectory s :=
    Runs.run_invariant (fun _ _ _ h ha hs => h.step ha hs) Inv.init ho hr
  refine ⟨hinv.db, hinv.data.upto, ?_⟩
  rintro before during rfl hstart s₁ p P peers hr₁ hp hpeers l hl
  obtain ⟨ho₁, ho'⟩ := ho.append
  have hinv₁ : Inv cfg defaultDirectory s₁ :=
    Runs.run_invariant (fun _ _ _ h ha hs => h.step ha hs) Inv.init ho₁ hr₁
  rw [Runs.run_append, hr₁] at hr
  obtain ⟨s₂, hs₂, hr⟩ := Option.bind_eq_some_iff.mp
    (show Runs.run (step cfg) s₁ (.list :: (during ++ [.finish])) = some s from hr)
  obtain ⟨hlist, ho''⟩ := ho' s₁ hr₁
  obtain ⟨ho₂, ho₃⟩ := (ho'' s₂ hs₂).append
  rw [Runs.run_append] at hr
  obtain ⟨s₃, hr₃, hr⟩ := Option.bind_eq_some_iff.mp hr
  obtain ⟨s₄, hs₄, hr⟩ := Option.bind_eq_some_iff.mp hr
  cases hr
  have hP : Plain P := (hinv₁.pull p hp).1.plain P (by simp [hpeers])
  have hw₂ : StillAwaits cfg P l s₂ := by
    obtain ⟨q, p', hq, hf, rfl⟩ := step_pull hs₂
    obtain rfl : q = p := Option.some.inj (hq.symm.trans hp)
    exact .of_pull rfl (Awaits.list (hinv₁.pull _ hp).1 hinv₁.data hf hpeers hl)
  have hw₃ : Inv cfg defaultDirectory s₃ ∧ StillAwaits cfg P l s₃ := by
    have hall : Runs.Obeys (step cfg) (fun s a => Allowed cfg s a ∧ a ≠ .start) s₂ during :=
      ho₂.and fun a ha he => hstart (he ▸ ha)
    have hstep : ∀ s a s', Inv cfg defaultDirectory s ∧ StillAwaits cfg P l s → Allowed cfg s a ∧ a ≠ .start →
        s' ∈ step cfg s a → Inv cfg defaultDirectory s' ∧ StillAwaits cfg P l s' :=
      fun s a s' h ha hs => ⟨h.1.step ha.1 hs, h.2.step h.1 hP ha.1 ha.2 hs⟩
    exact Runs.run_invariant hstep ⟨hinv₁.step hlist hs₂, hw₂⟩ hall hr₃
  exact hw₃.2.finish hs₄

/-! ## A run -/

def laptop : Config := ⟨⟨true, [ascii "logs"]⟩, ⟨true, [ascii "peers"]⟩, ascii "a"⟩

def pushed (offset : Int) (raw : Text) : Act :=
  .append (ascii "b") .noFault (ascii "2024-05-01") [⟨ascii "2024-05-01", offset, raw⟩]

def firstChunk : List Act := [.start, .list, .next, .eof, .endPeer, .receive, .mirror, .replay, .endChunk]

theorem pushed_ok {date raw : Text} (hd : IsDate date) (hraw : nl ∉ raw) :
    AppendOk (ascii "b") .noFault date [⟨date, 0, raw⟩] := by
  refine ⟨⟨by decide, by decide, by decide, by decide⟩, hd, fun _ _ _ => nofun, fun l hl => ?_⟩
  obtain rfl := List.mem_singleton.mp hl
  exact ⟨rfl, hraw⟩

/-- A line of one day and a line of the next. -/
def bothDays : List Act :=
  [pushed 0 (ascii "x"), .append (ascii "b") .noFault (ascii "2024-05-02") [⟨ascii "2024-05-02", 0, ascii "y"⟩]]

def scan : List Act := [.next, .eof, .next, .eof, .endPeer, .receive]

/-- The first pull fails after its first line; the second starts from the same cursor. -/
def resumedRun : List Act :=
  bothDays ++ ([.start, .list] ++ scan ++ [.mirror, .replay, .fail, .start]) ++
    .list :: (scan ++ [.mirror, .replay, .mirror, .replay, .endChunk] ++ [.finish])

theorem resumed_allowed : Runs.Obeys (step laptop) (Allowed laptop) (.init []) resumedRun := by
  refine ⟨⟨pushed_ok (by decide) (by decide), Or.inr fun e _ _ => nofun⟩, fun s hs =>
    ⟨⟨pushed_ok (by decide) (by decide), Or.inr fun e he hlt hmem => ?_⟩, fun s _ => Runs.obeys_of_forall ?_ s⟩⟩
  · -- the one day log is the earlier one
    have hkeys : s.server.files.keys = [Store.logPath laptop.logRoot (ascii "b") (ascii "2024-05-01")] := by
      obtain rfl := Option.some.inj hs
      rfl
    rw [hkeys, List.mem_singleton] at hmem
    obtain rfl := Store.logPath_inj he.noSlash (by decide) hmem
    exact absurd hlt (by decide)
  · intro a ha s
    cases a with
    | append peer io date group => simp [scan] at ha
    | _ => trivial

theorem pulled_covered_resumed : ∃ s, Runs.run (step laptop) (.init []) resumedRun = some s ∧
    s.data.db = s.data.written.foldl Written.apply (.empty []) ∧
      .pulled (ascii "b") ⟨ascii "2024-05-01", 0, ascii "x"⟩ ∈ s.data.written ∧
      .pulled (ascii "b") ⟨ascii "2024-05-02", 0, ascii "y"⟩ ∈ s.data.written := by
  obtain ⟨s, hs⟩ : ∃ s, Runs.run (step laptop) (.init []) resumedRun = some s := ⟨_, rfl⟩
  obtain ⟨hdb, -, hpull⟩ := pulled_covered laptop [] resumed_allowed hs
  have hall := hpull (bothDays ++ ([.start, .list] ++ scan ++ [.mirror, .replay, .fail, .start]))
    (scan ++ [.mirror, .replay, .mirror, .replay, .endChunk]) rfl (by simp [scan]) _ _ (ascii "b") [] rfl rfl rfl
  exact ⟨s, hs, hdb, hall _ (by decide +kernel), hall _ (by decide +kernel)⟩

end PullLogs

end VisitLogger
