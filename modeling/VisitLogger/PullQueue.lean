import VisitLogger.Pull
import VisitLogger.Runs
import VisitLogger.ServerSound

/-!
# What a pull has under way

Two facts serve every proof about pulls. A push of a peer only adds lines at the
ends of its day logs (`append_grown`). And the lines that the server has come to
and the client has not are one queue (`Pull.queue`): the server adds at its end,
the client takes from its front, and the batches and chunks in between do not
show.
-/

namespace VisitLogger

namespace PullLogs

open Framing Store

/-! ## The lines of a peer -/

section
variable {logRoot : Path} {disk : Disk} {peer date : Text} {l l' : LogLine}

theorem mem_numbered {o : Int} {ts : List Text} :
    l ∈ numbered date o ts ↔ l.date = date ∧ ∃ i : Nat, l.lineOffset = o + i ∧ ts[i]? = some l.rawLine := by
  constructor
  · intro h
    obtain ⟨i, hi, rfl⟩ := List.getElem_of_mem h
    refine ⟨?_, i, countUp_numbered date o ts i hi, ?_⟩
    · clear h
      induction ts generalizing o i with
      | nil => cases hi
      | cons t ts ih =>
        cases i with
        | zero => rfl
        | succ i => exact ih i (by simpa [numbered] using hi)
    · have hraw := congrArg (·[i]?) (rawLine_numbered date o ts)
      simp only [List.getElem?_map, List.getElem?_eq_getElem hi, Option.map_some] at hraw
      exact hraw.symm
  · rintro ⟨rfl, i, ho, hi⟩
    induction ts generalizing o i with
    | nil => cases hi
    | cons t ts ih =>
      cases i with
      | zero =>
        obtain rfl : t = l.rawLine := Option.some.inj hi
        rw [numbered]
        obtain rfl : l.lineOffset = o := by omega
        exact List.mem_cons_self
      | succ i =>
        rw [numbered]
        exact List.mem_cons_of_mem _ (ih i (by omega) hi)

theorem mem_peerLog : l ∈ peerLog logRoot disk peer ↔
    IsDate l.date ∧ ∃ i : Nat, l.lineOffset = i ∧ (texts logRoot disk peer l.date)[i]? = some l.rawLine := by
  simp only [peerLog, List.mem_flatMap, mem_numbered, mem_datesFrom]
  constructor
  · rintro ⟨d, ⟨hd, -, -⟩, rfl, i, ho, hi⟩
    exact ⟨hd, i, by omega, hi⟩
  · rintro ⟨hd, i, ho, hi⟩
    refine ⟨l.date, ⟨hd, not_lt.mp (List.not_lt_nil _), ?_⟩, rfl, i, by omega, hi⟩
    apply Disk.mem_keys_of_bytes
    intro hb
    rw [texts, hb] at hi
    cases hi

theorem mem_keys_of_peerLog (h : l ∈ peerLog logRoot disk peer) :
    logPath logRoot peer l.date ∈ disk.files.keys := by
  obtain ⟨d, hd, hl⟩ := List.mem_flatMap.mp h
  rw [(mem_numbered.mp hl).1]
  exact (mem_datesFrom.mp hd).2.2

theorem peerLog_unique (h : l ∈ peerLog logRoot disk peer) (h' : l' ∈ peerLog logRoot disk peer)
    (hd : l.date = l'.date)
    (ho : l.lineOffset = l'.lineOffset) : l = l' := by
  obtain ⟨-, i, hi, hg⟩ := mem_peerLog.mp h
  obtain ⟨-, j, hj, hg'⟩ := mem_peerLog.mp h'
  obtain rfl : i = j := by omega
  rw [hd] at hg
  obtain ⟨d, o, r⟩ := l
  obtain ⟨d', o', r'⟩ := l'
  simp only at hd ho hg hg'
  rw [hd, ho, Option.some.inj (hg.symm.trans hg')]

end

theorem before_irrefl (l : LogLine) : ¬Before l l := by
  rintro (h | ⟨-, h⟩)
  · exact lt_irrefl _ h
  · exact lt_irrefl _ h

theorem before_asymm {a b : LogLine} (h : Before a b) : ¬Before b a := by
  rintro (h' | ⟨he, h'⟩)
  · rcases h with h | ⟨he, -⟩
    · exact lt_asymm h h'
    · rw [he] at h'; exact lt_irrefl _ h'
  · rcases h with h | ⟨-, h⟩
    · rw [he] at h; exact lt_irrefl _ h
    · exact lt_asymm h h'

def Reached (c : Text × Int) (l : LogLine) : Prop := l.date < c.1 ∨ l.date = c.1 ∧ l.lineOffset ≤ c.2

/-! ## Pushes -/

/-- The mirrors end with newlines, and their directories have plain names. -/
structure ServerInv (logRoot : Path) (disk : Disk) : Prop where
  closed : ∀ P d, Plain P → IsDate d → tail nl (disk.bytes (logPath logRoot P d)) = []
  dirs : disk.dirs.Nodup
  plain : ∀ name ∈ disk.subdirs logRoot, Plain name

/-- Day logs only gain lines at their ends. -/
structure Grown (logRoot : Path) (disk disk' : Disk) : Prop where
  lines : ∀ P d, Plain P → IsDate d → texts logRoot disk P d <+: texts logRoot disk' P d
  keys : ∀ p ∈ disk.files.keys, p ∈ disk'.files.keys

/-- A day log gains no line when there is one of a later date. -/
def InOrder (logRoot : Path) (disk disk' : Disk) : Prop :=
  ∀ P d e, Plain P → IsDate d → IsDate e → d < e → logPath logRoot P e ∈ disk.files.keys →
    texts logRoot disk' P d = texts logRoot disk P d

/-- An append as it comes from a client: the lines of one date, without newlines,
and a write that fails leaves nothing. -/
structure AppendOk (peer : Text) (io : Io) (date : Text) (group : List LogLine) : Prop where
  plain : Plain peer
  isDate : IsDate date
  whole : io.Whole
  lines : ∀ l ∈ group, l.date = date ∧ nl ∉ l.rawLine

/-- The peer's dates do not go back: the append changes nothing, or there is no
day log of a later date. -/
def NotBack (logRoot : Path) (disk : Disk) (peer : Text) (io : Io) (date : Text)
    (group : List LogLine) : Prop :=
  (appendGroup io logRoot peer disk date group).1.files = disk.files ∨
    ∀ e, IsDate e → date < e → logPath logRoot peer e ∉ disk.files.keys

section
variable {logRoot : Path} {disk : Disk} {peer date : Text} {io : Io} {group : List LogLine}

theorem logPath_plain (hp : Plain peer) (hd : slash ∉ date) :
    logPath logRoot peer date = (logRoot.child peer).child (logFilename date) := by
  rw [logPath_eq hd, Path.join_plain hp]

theorem logPath_inj₂ {P d : Text} (hP : Plain P) (hp : Plain peer) (hd : slash ∉ d) (hdate : slash ∉ date) :
    logPath logRoot P d = logPath logRoot peer date ↔ P = peer ∧ d = date := by
  rw [logPath_plain hP hd, logPath_plain hp hdate, Path.child_inj, Path.child_inj]
  constructor
  · rintro ⟨⟨-, rfl⟩, h⟩
    exact ⟨rfl, logFilename_inj h⟩
  · rintro ⟨rfl, rfl⟩
    exact ⟨⟨rfl, rfl⟩, rfl⟩

theorem appendGroup_files (ha : AppendOk peer io date group) :
    (appendGroup io logRoot peer disk date group).1.files = disk.files ∨
      ∃ w, (∀ l ∈ w, l ∈ group) ∧ (appendGroup io logRoot peer disk date group).1.files =
        disk.files.insert (logPath logRoot peer date) (disk.bytes (logPath logRoot peer date) ++ encode w) := by
  rcases hg : appendGroup io logRoot peer disk date group with ⟨disk', written, r⟩
  rcases appendGroup_cases hg with ⟨c, -, hs, hf⟩ | ⟨-, -, hf | ⟨w, c, n, msg, hw, -, -, hf⟩⟩
  · split at hf
    · exact Or.inl hf
    · exact Or.inr ⟨written, fun l hl => (selectLines_ok hs).2.1.subset hl, hf⟩
  · exact Or.inl hf
  · right
    refine ⟨[], nofun, ?_⟩
    rw [hf, ha.whole _ _ _ hw, List.take_zero]
    rfl

theorem nodup_mkdirAll (h : disk.dirs.Nodup) (p : Path) : (disk.mkdirAll p).dirs.Nodup := by
  unfold Disk.mkdirAll
  generalize p.elems.tails.map (Path.mk p.rooted) = ps
  induction ps with
  | nil => exact h
  | cons q ps ih => exact ih.insert

theorem subdirs_mkdirAll (hp : Plain peer) {name : Text}
    (h : name ∈ (disk.mkdirAll (logRoot.join peer)).subdirs logRoot) :
    name = peer ∨ name ∈ disk.subdirs logRoot := by
  rw [Disk.mem_subdirs, Disk.mem_dirs_mkdirAll, Path.join_plain hp] at h
  rw [Disk.mem_subdirs]
  refine h.imp_left fun h => ?_
  obtain ⟨t, ht, he⟩ := List.mem_map.mp h
  simp only [Path.child, Path.mk.injEq, true_and] at he ht
  rw [he, List.mem_tails] at ht
  -- a suffix as long as the whole
  have := ht.eq_of_length (by simp)
  exact (List.cons.inj this).1

/-- **A push adds lines at the end** of one day log. -/
theorem append_grown (h : ServerInv logRoot disk) (ha : AppendOk peer io date group) :
    ServerInv logRoot (appendGroup io logRoot peer disk date group).1 ∧
      Grown logRoot disk (appendGroup io logRoot peer disk date group).1 ∧
      (NotBack logRoot disk peer io date group →
        InOrder logRoot disk (appendGroup io logRoot peer disk date group).1) := by
  have hdirs : (appendGroup io logRoot peer disk date group).1.dirs = disk.dirs ∨
      (appendGroup io logRoot peer disk date group).1.dirs =
        (disk.mkdirAll (logRoot.join peer)).dirs := appendGroup_mkdir.imp_left (congrArg Disk.dirs)
  have hfiles : (appendGroup io logRoot peer disk date group).1.files = disk.files ∨
      ∃ w, (∀ l ∈ w, l ∈ group) ∧ (appendGroup io logRoot peer disk date group).1.files =
        disk.files.insert (logPath logRoot peer date) (disk.bytes (logPath logRoot peer date) ++ encode w) :=
    appendGroup_files ha
  unfold NotBack
  generalize (appendGroup io logRoot peer disk date group).1 = disk' at *
  have hnodup : disk'.dirs.Nodup := by
    rcases hdirs with he | he <;> rw [he]
    · exact h.dirs
    · exact nodup_mkdirAll h.dirs _
  -- the push makes the directory of its own machine only
  have hplain : ∀ name ∈ disk'.subdirs logRoot, Plain name := by
    intro name hn
    rw [Disk.mem_subdirs] at hn
    rcases hdirs with he | he <;> rw [he, ← Disk.mem_subdirs] at hn
    · exact h.plain name hn
    · rcases subdirs_mkdirAll ha.plain hn with rfl | hn
      · exact ha.plain
      · exact h.plain name hn
  rcases hfiles with hf | ⟨w, hw, hf⟩
  · have hbytes : ∀ p, disk'.bytes p = disk.bytes p := bytes_congr hf
    have htexts : ∀ P d, texts logRoot disk' P d = texts logRoot disk P d :=
      fun P d => by rw [texts, hbytes, texts]
    refine ⟨⟨fun P d hP hd => by rw [hbytes]; exact h.closed P d hP hd, hnodup, hplain⟩,
      ⟨fun P d _ _ => ?_, fun p hp => ?_⟩, fun _ P d e _ _ _ _ _ => htexts P d⟩
    · rw [htexts]
    · rw [hf]; exact hp
  · have hnl : ∀ t ∈ w.map LogLine.rawLine, nl ∉ t := by
      intro t ht
      obtain ⟨l, hl, rfl⟩ := List.mem_map.mp ht
      exact (ha.lines l (hw l hl)).2
    -- no other day log changes
    have hother : ∀ P d, Plain P → IsDate d → ¬(P = peer ∧ d = date) →
        disk'.bytes (logPath logRoot P d) = disk.bytes (logPath logRoot P d) := by
      intro P d hP hd hne
      rw [bytes_insert hf, if_neg fun he => hne ((logPath_inj₂ hP ha.plain hd.noSlash ha.isDate.noSlash).mp he)]
    have hsame := bytes_insert (q := logPath logRoot peer date) hf
    rw [if_pos rfl] at hsame
    have hclosed := h.closed peer date ha.plain ha.isDate
    refine ⟨⟨fun P d hP hd => ?_, hnodup, hplain⟩, ⟨fun P d hP hd => ?_, fun p hp => ?_⟩,
      fun hback P d e hP hd he hlt hk => ?_⟩
    · by_cases hPd : P = peer ∧ d = date
      · obtain ⟨rfl, rfl⟩ := hPd
        rw [hsame, tail_append, hclosed, List.nil_append, encode, tail_unlines nl hnl]
      · rw [hother P d hP hd hPd]; exact h.closed P d hP hd
    · by_cases hPd : P = peer ∧ d = date
      · obtain ⟨rfl, rfl⟩ := hPd
        rw [texts, texts, hsame, fileTexts, fileTexts, hclosed, if_pos rfl, List.append_nil,
          closed_append, List.append_assoc]
        exact List.prefix_append _ _
      · rw [texts, texts, hother P d hP hd hPd]
    · rw [hf, ← AList.mem_keys, AList.mem_insert]
      exact Or.inr (AList.mem_keys.mpr hp)
    · by_cases hPd : P = peer ∧ d = date
      · obtain ⟨rfl, rfl⟩ := hPd
        rcases hback with hback | hback
        · rw [texts, bytes_congr hback, texts]
        · exact absurd hk (hback e he hlt)
      · rw [texts, hother P d hP hd hPd, texts]

end

section
variable {logRoot : Path} {disk disk' : Disk} {P : Text} {l l' : LogLine}

theorem Grown.mem (h : Grown logRoot disk disk') (hP : Plain P) (hl : l ∈ peerLog logRoot disk P) :
    l ∈ peerLog logRoot disk' P := by
  obtain ⟨hd, i, ho, hi⟩ := mem_peerLog.mp hl
  refine mem_peerLog.mpr ⟨hd, i, ho, ?_⟩
  obtain ⟨more, hmore⟩ := h.lines P l.date hP hd
  rw [← hmore, List.getElem?_append_left (List.getElem?_eq_some_iff.mp hi).1, hi]

theorem InOrder.mem (h : InOrder logRoot disk disk') (hP : Plain P) (hl : l ∈ peerLog logRoot disk' P)
    {e : Text}
    (he : IsDate e) (hlt : l.date < e) (hk : logPath logRoot P e ∈ disk.files.keys) :
      l ∈ peerLog logRoot disk P := by
  obtain ⟨hd, i, ho, hi⟩ := mem_peerLog.mp hl
  rw [h P l.date e hP hd he hlt hk] at hi
  exact mem_peerLog.mpr ⟨hd, i, ho, hi⟩

theorem Grown.old (h : Grown logRoot disk disk') (hP : Plain P) (hl : l ∈ peerLog logRoot disk' P)
    (hlt : l.lineOffset < (texts logRoot disk P l.date).length) : l ∈ peerLog logRoot disk P := by
  obtain ⟨hd, i, ho, hi⟩ := mem_peerLog.mp hl
  obtain ⟨more, hmore⟩ := h.lines P l.date hP hd
  rw [← hmore, List.getElem?_append_left (by omega)] at hi
  exact mem_peerLog.mpr ⟨hd, i, ho, hi⟩

theorem Grown.reached (h : Grown logRoot disk disk') (ho : InOrder logRoot disk disk') (hP : Plain P)
    (hl : l ∈ peerLog logRoot disk P) (hl' : l' ∈ peerLog logRoot disk' P)
    (hr : Reached (l.date, l.lineOffset) l') :
    l' ∈ peerLog logRoot disk P := by
  obtain ⟨hd, i, hoff, hi⟩ := mem_peerLog.mp hl
  rcases hr with hlt | ⟨he, hle⟩
  · exact ho.mem hP hl' hd hlt (mem_keys_of_peerLog hl)
  · apply h.old hP hl'
    have := (List.getElem?_eq_some_iff.mp hi).1
    simp only at he hle
    rw [he]
    omega

end

/-! ## A push is a run of appends -/

theorem appendGroups_run (cfg : Config) (io : Io) (peer : Text) (latest : Text × Int)
    (groups : List (List LogLine))
    (s : State) : ∃ acts : List Act, (∀ a ∈ acts, ∃ group ∈ groups, a =
      .append peer io (groupDate group) group) ∧
      Runs.run (step cfg) s acts =
        some { s with server := (appendGroups io cfg.logRoot peer s.server latest groups).1 } := by
  induction groups generalizing latest s with
  | nil => exact ⟨[], nofun, rfl⟩
  | cons group groups ih =>
    rcases appendGroups_cons io cfg.logRoot peer s.server latest group groups with
      ⟨e, disk, written, hg, h⟩ | ⟨c, disk, written, hg, h⟩
    · refine ⟨[.append peer io (groupDate group) group],
        fun a ha => ⟨group, by simp, List.mem_singleton.mp ha⟩, ?_⟩
      simp only [Runs.run, step, hg, h, Option.bind_some]
    · obtain ⟨acts, hacts, hrun⟩ := ih (groupDate group, c - 1) { s with server := disk }
      refine ⟨.append peer io (groupDate group) group :: acts, fun a ha => ?_, ?_⟩
      · rcases List.mem_cons.mp ha with rfl | ha
        · exact ⟨group, by simp, rfl⟩
        · obtain ⟨g, hgm, rfl⟩ := hacts a ha
          exact ⟨g, List.mem_cons_of_mem _ hgm, rfl⟩
      · simp only [Runs.run, step, hg, h, Option.bind_some]
        exact hrun

/-- **PushLogs, as a run of appends**: what it does to the mirrors, whether it succeeds or not. -/
theorem pushLogs_run (cfg : Config) (sort : SliceSort) {io : Io} (hio : io.Whole)
    (fails : Nat → Store.Stmt → Bool)
    (server : Server.State) (id : Option Text) {req : Server.PushLogsRequest} (hP : Plain req.machineId)
    (hl : ∀ l ∈ req.lines, l.Proper) {s : State} (hs : s.server = server.disk) :
    ∃ acts : List Act,
      (∀ a ∈ acts, ∃ date group, a = .append req.machineId io date group ∧
        AppendOk req.machineId io date group) ∧
        Runs.run (step cfg) s acts =
          some { s with server := (Server.pushLogs sort io fails cfg.logRoot server id req).1.disk } := by
  have happend : ∃ acts : List Act,
      (∀ a ∈ acts, ∃ date group, a = .append req.machineId io date group ∧
        AppendOk req.machineId io date group) ∧
        Runs.run (step cfg) s acts =
          some { s with server := (appendLogLines sort io cfg.logRoot req.machineId server.disk req.lines).1 } := by
    unfold appendLogLines
    rw [← hs]
    split
    · exact ⟨[], nofun, rfl⟩
    · obtain ⟨acts, hacts, hrun⟩ := appendGroups_run cfg io req.machineId ([],
        0) (groupByDate (sort.run req.lines)) s
      refine ⟨acts, fun a ha => ?_, hrun⟩
      obtain ⟨group, hg, rfl⟩ := hacts a ha
      have hmem : ∀ l ∈ group, l ∈ req.lines := fun l hlg =>
        (sort.perm req.lines).mem_iff.mp (mem_groupByDate.mp ⟨group, hg, hlg⟩)
      obtain ⟨m, hm⟩ := List.exists_mem_of_ne_nil group (List.ne_nil_of_mem_splitBy hg)
      refine ⟨_, _, rfl, hP, ?_, hio, fun l hlg => ⟨groupDate_mem hg l hlg, (hl l (hmem l hlg)).noNl⟩⟩
      rw [← groupDate_mem hg m hm]
      exact (hl m (hmem m hm)).date
  rcases Server.pushLogs_cases sort io fails cfg.logRoot server id req with
    ⟨-, e, he, -⟩ | ⟨-, -, -, a, rfl, ⟨e, -, he⟩ | ⟨r, db, -, rfl, ⟨st, -, he⟩ | ⟨-, he⟩⟩⟩
  · refine ⟨[], nofun, ?_⟩
    rw [he, ← hs]
    rfl
  all_goals
    rw [he]
    exact happend

/-! ## The queue -/

def tag (peer : Text) (ls : List LogLine) : List (Text × LogLine) := ls.map (Prod.mk peer)

/-- The lines, with their peers, that the server has gathered and the client has
not come to; `pos` says how far the client is in its chunk. -/
def Pull.queue (pos : Chunk → Nat) (p : Pull) : List (Text × LogLine) :=
  (match p.chunk with
    | none => []
    | some c => tag c.peer (c.lines.drop (pos c))) ++
  (p.stream.flatMap fun c => tag c.peerMachineId c.lines) ++
  match p.peers with
    | [] => []
    | peer :: _ => tag peer p.batch

theorem gather_queue (peer : Text) (s : List LogLine × List LogChunk) (l : LogLine) :
    ((Server.gather (fun _ => none) peer s l).1.2.flatMap fun c => tag c.peerMachineId c.lines) ++
        tag peer (Server.gather (fun _ => none) peer s l).1.1 =
      (s.2.flatMap fun c => tag c.peerMachineId c.lines) ++ (tag peer s.1 ++ [(peer, l)]) := by
  unfold Server.gather
  by_cases h : 128 ≤ (s.1 ++ [l]).length
  · simp only [h, if_true]
    simp [tag]
  · simp only [h, if_false]
    simp [tag]

theorem mem_gather {peer : Text} {s : List LogLine × List LogChunk} {l : LogLine} {c : LogChunk}
    (h : c ∈ (Server.gather (fun _ => none) peer s l).1.2) :
      c ∈ s.2 ∨ c.lines ≠ [] ∧ c.peerMachineId = peer := by
  unfold Server.gather at h
  by_cases hl : 128 ≤ (s.1 ++ [l]).length
  · simp only [hl, if_true] at h
    rcases List.mem_append.mp h with h | h
    · exact Or.inl h
    · obtain rfl := List.mem_singleton.mp h
      exact Or.inr ⟨by simp, rfl⟩
  · simp only [hl, if_false] at h
    exact Or.inl h

/-- A step of the server leaves what the client has alone. -/
structure Pull.SameClient (p p' : Pull) : Prop where
  request : p'.request = p.request
  chunk : p'.chunk = p.chunk
  tx : p'.tx = p.tx
  appended : p'.appended = p.appended

section
variable {cfg : Config} {server : Disk} {p p' : Pull} {pos : Chunk → Nat}

theorem Pull.list_spec (h : p.list cfg server = some p') :
    ∃ peer peers, p.peers = peer :: peers ∧ p.todo = none ∧
    p' = { p with
      todo := some (datesFrom server cfg.logRoot peer (Server.since p.request peer).1)
      index := 0 } := by
  unfold Pull.list at h
  split at h
  · rename_i peer peers hp ht
    exact ⟨peer, peers, hp, ht, (Option.some.inj h).symm⟩
  · cases h

theorem Pull.next_spec (h : p.next cfg server = some p') : ∃ peer peers date rest raw,
    p.peers = peer :: peers ∧ p.todo = some (date :: rest) ∧
      (texts cfg.logRoot server peer date)[p.index]? = some raw ∧
    p'.peers = p.peers ∧ p'.todo = p.todo ∧ p'.index = p.index + 1 ∧ p.SameClient p' ∧
    (∀ c ∈ p'.stream, c ∈ p.stream ∨ c.lines ≠ [] ∧ c.peerMachineId = peer) ∧
    ∀ pos, p'.queue pos = p.queue pos ++
      if isPast (Server.since p.request peer).1 (Server.since p.request peer).2 ⟨date, p.index, raw⟩ then
        [(peer, ⟨date, p.index, raw⟩)] else [] := by
  unfold Pull.next at h
  split at h
  · rename_i peer peers date rest hp ht
    obtain ⟨raw, hraw, rfl⟩ := Option.map_eq_some_iff.mp h
    refine ⟨peer, peers, date, rest, raw, hp, ht, hraw, rfl, rfl, rfl, ⟨rfl, rfl, rfl, rfl⟩, ?_, fun pos => ?_⟩
    · intro c hc
      simp only at hc
      split at hc
      · exact mem_gather hc
      · exact Or.inl hc
    · simp only [Pull.queue, hp]
      by_cases hpast : isPast (Server.since p.request peer).1 (Server.since p.request peer).2
          ⟨date, p.index, raw⟩
      · rw [if_pos hpast, if_pos hpast, List.append_assoc, gather_queue]
        simp only [List.append_assoc]
      · rw [if_neg hpast, if_neg hpast, List.append_nil]
  · cases h

theorem Pull.eof_spec (h : p.eof cfg server = some p') : ∃ peer peers date rest,
    p.peers = peer :: peers ∧ p.todo = some (date :: rest) ∧
      (texts cfg.logRoot server peer date).length ≤ p.index ∧
    p' = { p with todo := some rest, index := 0 } := by
  unfold Pull.eof at h
  split at h
  · rename_i peer peers date rest hp ht
    split at h
    · cases h
    · rename_i hlen
      exact ⟨peer, peers, date, rest, hp, ht, not_lt.mp hlen, (Option.some.inj h).symm⟩
  · cases h

theorem Pull.endPeer_spec (h : p.endPeer = some p') : ∃ peer peers, p.peers = peer :: peers ∧ p.todo = some [] ∧
    p'.peers = peers ∧ p'.todo = none ∧ p.SameClient p' ∧
    (∀ c ∈ p'.stream, c ∈ p.stream ∨ c.lines ≠ [] ∧ c.peerMachineId = peer) ∧
      ∀ pos, p'.queue pos = p.queue pos := by
  unfold Pull.endPeer at h
  split at h
  · rename_i peer peers hp ht
    cases h
    refine ⟨peer, peers, hp, ht, rfl, rfl, ⟨rfl, rfl, rfl, rfl⟩, fun c hc => ?_, fun pos => ?_⟩
    · simp only at hc
      split at hc
      · exact Or.inl hc
      · rename_i hb
        rcases List.mem_append.mp hc with hc | hc
        · exact Or.inl hc
        · obtain rfl := List.mem_singleton.mp hc
          exact Or.inr ⟨hb, rfl⟩
    · simp only [Pull.queue, hp]
      by_cases hb : p.batch = []
      · cases peers <;> simp [hb, tag]
      · cases peers <;> simp [hb, tag]
  · cases h

theorem Pull.receive_spec (h : p.receive = some p') : ∃ c stream, p.chunk = none ∧ p.stream = c :: stream ∧
    p'.chunk = some ⟨c.peerMachineId, c.lines, 0, 0⟩ ∧ p'.stream = stream ∧ p'.peers = p.peers ∧
      p'.todo = p.todo ∧
    p'.index = p.index ∧ p'.request = p.request ∧ p'.tx = p.tx ∧ p'.appended = p.appended ∧
    ∀ pos, (∀ peer ls, pos ⟨peer, ls, 0, 0⟩ = 0) → p'.queue pos = p.queue pos := by
  unfold Pull.receive at h
  split at h
  · rename_i c stream hc hs
    cases h
    refine ⟨c, stream, hc, hs, rfl, rfl, rfl, rfl, rfl, rfl, rfl, rfl, fun pos hpos => ?_⟩
    simp only [Pull.queue, hc, hs, hpos, List.drop_zero, List.flatMap_cons, List.nil_append]
  · cases h

theorem Pull.queue_advance (pos : Chunk → Nat) {c : Chunk} (c' : Chunk) {l : LogLine}
    (hc : p.chunk = some c) (hl : c.lines[pos c]? = some l)
    (hpeer : c'.peer = c.peer) (hlines : c'.lines = c.lines) (hpos : pos c' = pos c + 1) (tx : Option Data)
    (appended : Bool) :
    p.queue pos = (c.peer, l) :: ({ p with chunk := some c', tx, appended } : Pull).queue pos := by
  obtain ⟨hi, rfl⟩ := List.getElem?_eq_some_iff.mp hl
  simp only [Pull.queue, hc, hpeer, hlines, hpos]
  rw [List.drop_eq_getElem_cons hi]
  simp only [tag, List.map_cons, List.cons_append]

theorem Pull.queue_congr (pos : Chunk → Nat) {c : Chunk} (c' : Chunk) (hc : p.chunk = some c)
    (hpeer : c'.peer = c.peer) (hlines : c'.lines = c.lines)
    (hpos : pos c' = pos c) (tx : Option Data) (appended : Bool) :
    ({ p with chunk := some c', tx, appended } : Pull).queue pos = p.queue pos := by
  simp only [Pull.queue, hc, hpeer, hlines, hpos]

theorem Pull.queue_endChunk (pos : Chunk → Nat) {c : Chunk} (hc : p.chunk = some c)
    (hl : c.lines.length ≤ pos c) (tx : Option Data) :
    ({ p with chunk := none, tx } : Pull).queue pos = p.queue pos := by
  simp only [Pull.queue, hc, List.drop_eq_nil_of_le hl, tag, List.map_nil]

theorem queue_start (cfg : Config) (pos : Chunk → Nat) (s : State) : (startPull cfg s).queue pos = [] := by
  simp only [startPull, Pull.queue]
  split <;> rfl

end

end PullLogs

end VisitLogger
