import VisitLogger.PullSound
import VisitLogger.Settled
import VisitLogger.Writers

/-!
# A pull after a rebuild

`visits_rebuilder.rebuild` drops the tables and brings back what the laptop's own
logs hold. The cursors of the peers stay, so the pull after it streams the lines
past them and no others. What the two leave out is what only lines up to the
cursors hold (`complete_after_rebuild_iff`).
-/

namespace VisitLogger

/-! ## What a rebuild applies -/

namespace VisitsRebuilder

section
variable (downloads : Text)

/-- **What a rebuild leaves**: the successful actions of the logs, applied to empty tables. -/
theorem rows_rebuild (icloudDir : Text) (db : Db) (logDir : Option Dir) (archive : Option Archive) :
    (rebuild icloudDir downloads {} db logDir archive).1.rows =
      ((Db.empty downloads).ops (actionOps downloads (localActions logDir archive))).rows := by
  have h := rows_replayFiles downloads ⟨Db.empty downloads, ∅, {}⟩ (collectLogPaths logDir archive)
  simp only [rebuild, if_true, Option.map_some, Option.getD_some, rows_rehydrateFilesystem, replayLogs]
  exact h

end

end VisitsRebuilder

/-! ## What a pull applies -/

namespace SyncClient

theorem lineOp_same (directory raw : Text) : Option.Rel Op.Same (lineOp directory raw) (lineOp [] raw) := by
  unfold lineOp
  split
  · rename_i i ts u ti rest _
    refine .some ⟨rfl, rfl, rfl, ?_⟩
    cases rest with
    | nil => exact Or.inl rfl
    | cons tag rest =>
      dsimp only
      split
      · exact Or.inl rfl
      · cases EventsTable.forTag tag with
        | none => exact Or.inl rfl
        | some t =>
          cases rest with
          | nil => exact Or.inl rfl
          | cons f rest => exact Or.inr ⟨t, f, directory, f, [], rfl, rfl⟩
  · exact .none

theorem rows_replayLines {a b : Db} (h : a.rows = b.rows) (lines : List Text) :
    (replayLines a lines).rows = (b.ops (lines.filterMap (lineOp []))).rows := by
  induction lines generalizing a b with
  | nil => exact h
  | cons raw lines ih =>
    rw [replayLines, List.foldl_cons, List.filterMap_cons, replayIntoDb_eq]
    have hs := lineOp_same a.defaultDirectory raw
    cases ho : lineOp [] raw with
    | none =>
      rw [ho] at hs
      cases hn : lineOp a.defaultDirectory raw with
      | none => exact ih h
      | some o => rw [hn] at hs; cases hs
    | some o =>
      rw [ho] at hs
      cases hn : lineOp a.defaultDirectory raw with
      | none => rw [hn] at hs; cases hs
      | some o' =>
        rw [hn] at hs
        cases hs with
        | some hsame => exact ih (Db.rows_apply h hsame)

theorem db_applyChunk (peerLogsDir : Path) (s : Laptop) (c : LogChunk) :
    (applyChunk peerLogsDir s c).db = replayLines s.db (c.lines.map LogLine.rawLine) := by
  have h : ∀ (ls : List LogLine) (s : Laptop), (ls.foldl (applyLine peerLogsDir c.peerMachineId) s).db =
      replayLines s.db (ls.map LogLine.rawLine) := by
    intro ls
    induction ls with
    | nil => exact fun _ => rfl
    | cons l ls ih =>
      intro s
      rw [List.foldl_cons, ih]
      rfl
  exact h c.lines s

theorem db_doPull (peerLogsDir : Path) (s : Laptop) (chunks : List LogChunk) :
    (doPull peerLogsDir s chunks).db =
      replayLines s.db ((chunks.flatMap LogChunk.lines).map LogLine.rawLine) := by
  induction chunks generalizing s with
  | nil => rfl
  | cons c chunks ih =>
    rw [doPull, List.foldl_cons]
    have := ih (applyChunk peerLogsDir s c)
    rw [doPull] at this
    rw [this, db_applyChunk, List.flatMap_cons, List.map_append, replayLines, replayLines, replayLines,
      List.foldl_append]

end SyncClient

namespace PullLogs

open Store

/-- A scan that meets no error. -/
structure QuietScan (rio : ReadIo) : Prop where
  readDir : rio.readDir = none
  openFile : rio.openFile = fun _ => none
  read : rio.read = fun _ => none
  chunks : ∀ d t, (rio.chunks d t).flatten = t

section
variable {logRoot : Path} {server : Disk}

/-- The lines of a peer that a scan from the cursor yields. -/
def scanned (logRoot : Path) (server : Disk) (peer : Text) (cursor : Text × Int) : List LogLine :=
  ((datesFrom server logRoot peer cursor.1).flatMap fun d => numbered d 0 (texts logRoot server peer d)).filter
    (isPast cursor.1 cursor.2)

theorem mem_scanned {peer : Text} {cursor : Text × Int} {l : LogLine} :
    l ∈ scanned logRoot server peer cursor ↔ l ∈ peerLog logRoot server peer ∧ ¬Reached cursor l := by
  simp only [scanned, List.mem_filter, List.mem_flatMap, mem_numbered, isPast, Bool.or_eq_true,
    decide_eq_true_eq]
  constructor
  · rintro ⟨⟨d, hd, rfl, i, hi, hget⟩, hpast⟩
    obtain ⟨hdate, hle, -⟩ := mem_datesFrom.mp hd
    refine ⟨mem_peerLog.mpr ⟨hdate, i, by omega, hget⟩, ?_⟩
    rintro (hlt | ⟨he, hoff⟩)
    · exact absurd hle (not_le.mpr hlt)
    · rcases hpast with hp | hp
      · rw [he] at hp; exact lt_irrefl _ hp
      · omega
  · rintro ⟨hl, hr⟩
    obtain ⟨hdate, i, hi, hget⟩ := mem_peerLog.mp hl
    have hle : cursor.1 ≤ l.date := not_lt.mp fun hlt => hr (Or.inl hlt)
    refine ⟨⟨l.date, mem_datesFrom.mpr ⟨hdate, hle, mem_keys_of_peerLog hl⟩, rfl, i, by omega, hget⟩, ?_⟩
    rcases lt_or_eq_of_le hle with hlt | he
    · exact Or.inl hlt
    · right
      by_contra hoff
      exact hr (Or.inr ⟨he.symm, not_lt.mp hoff⟩)

theorem foldl_gather (peer : Text) (s : List LogLine × List LogChunk) (ls : List LogLine) :
    ((ls.foldl (fun s l => (Server.gather (fun _ => none) peer s l).1) s).2.flatMap LogChunk.lines) ++
        (ls.foldl (fun s l => (Server.gather (fun _ => none) peer s l).1) s).1 =
      s.2.flatMap LogChunk.lines ++ s.1 ++ ls := by
  induction ls generalizing s with
  | nil => simp
  | cons l ls ih =>
    rw [List.foldl_cons, ih]
    unfold Server.gather
    by_cases h : 128 ≤ (s.1 ++ [l]).length
    · simp only [h, if_true]
      simp
    · simp only [h, if_false]
      simp

theorem linesAfter_gather {rio : ReadIo} (hrio : QuietScan rio) (logRoot : Path) (server : Disk)
    (peer : Text) (cursor : Text × Int)
    (s : List LogLine × List LogChunk) :
    linesAfter rio (Server.gather (fun _ => none) peer) s logRoot peer server cursor.1 cursor.2 =
      ((scanned logRoot server peer cursor).foldl (fun s l =>
        (Server.gather (fun _ => none) peer s l).1) s, .ok ()) := by
  have hy : ∀ s l, (Server.gather (fun _ => none) peer s l).2 = true := by
    intro s l
    unfold Server.gather
    dsimp only
    split <;> rfl
  rw [linesAfter, hrio.readDir]
  exact scanDates_all cursor.1 cursor.2 hy hrio.openFile hrio.read hrio.chunks logRoot peer server s
    (datesFrom server logRoot peer cursor.1)

theorem pullPeers_lines {rio : Text → ReadIo} (hrio : ∀ P, QuietScan (rio P)) (logRoot : Path)
    (server : Disk) (req : Server.PullLogsRequest)
    (sent : List LogChunk) (peers : List Text) :
    (Server.pullPeers (fun _ => none) rio logRoot server req sent peers).2 = .ok () ∧
      (Server.pullPeers (fun _ => none) rio logRoot server req sent peers).1.flatMap LogChunk.lines =
        sent.flatMap LogChunk.lines ++ (peers.filter (· ≠ req.machineId)).flatMap fun P =>
          scanned logRoot server P (Server.since req.cursors P) := by
  induction peers generalizing sent with
  | nil => simp [Server.pullPeers]
  | cons peer peers ih =>
    unfold Server.pullPeers
    by_cases hown : peer = req.machineId
    · rw [if_pos hown, List.filter_cons_of_neg (by simpa using hown)]
      exact ih sent
    · rw [if_neg hown, List.filter_cons_of_pos (by simpa using hown), List.flatMap_cons]
      have hlines := foldl_gather peer ([], sent) (scanned logRoot server peer (Server.since req.cursors peer))
      dsimp only
      rw [linesAfter_gather (hrio peer)]
      generalize (scanned logRoot server peer (Server.since req.cursors peer)).foldl
        (fun s l => (Server.gather (fun _ => none) peer s l).1) ([], sent) = r at hlines
      obtain ⟨batch, sent'⟩ := r
      rw [List.append_nil] at hlines
      by_cases hbatch : batch = []
      · subst hbatch
        rw [List.append_nil] at hlines
        simp only [if_true]
        rw [← List.append_assoc, ← hlines]
        exact ih sent'
      · simp only [if_neg hbatch]
        obtain ⟨hok, hchunk⟩ := ih (sent' ++ [⟨peer, batch⟩])
        refine ⟨hok, ?_⟩
        rw [hchunk, ← List.append_assoc, ← hlines, List.flatMap_append, List.flatMap_singleton]

end

/-! ## A rebuild and a pull -/

def Holds (db : Db) (o : Op) : Prop :=
  o.url ∈ db.urls ∧ ∀ t f d, o.mark = .event t f d → (o.url, o.timestamp) ∈ db.keys t

def Covered (l : List Op) (o : Op) : Prop :=
  (∃ o' ∈ l, o'.url = o.url) ∧ ∀ t f d, o.mark = .event t f d →
    ∃ o' ∈ l, (∃ f d, o'.mark = .event t f d) ∧ (o.url, o.timestamp) = (o'.url, o'.timestamp)

theorem covered_of_mem {l : List Op} {o : Op} (h : o ∈ l) : Covered l o :=
  ⟨⟨o, h, rfl⟩, fun _ f d hm => ⟨o, h, ⟨f, d, hm⟩, rfl⟩⟩

theorem Covered.mono {l l' : List Op} (h : ∀ o ∈ l, o ∈ l') {o : Op} (hc : Covered l o) : Covered l' o := by
  obtain ⟨⟨o₁, ho₁, hu⟩, he⟩ := hc
  refine ⟨⟨o₁, h o₁ ho₁, hu⟩, fun t f d hm => ?_⟩
  obtain ⟨o₂, ho₂, hk⟩ := he t f d hm
  exact ⟨o₂, h o₂ ho₂, hk⟩

theorem holds_ops {db : Db} {downloads : Text} {l : List Op}
    (h : db.rows = ((Db.empty downloads).ops l).rows) (o : Op) :
    Holds db o ↔ Covered l o := by
  have hurls : db.urls = ((Db.empty downloads).ops l).urls := congrArg (fun r => r.1.map Visit.url) h
  have hkeys : ∀ t, db.keys t = ((Db.empty downloads).ops l).keys t := congrFun (congrArg Prod.snd h)
  refine and_congr ?_ (forall_congr' fun t => forall_congr' fun f => forall_congr' fun d =>
    imp_congr Iff.rfl ?_)
  · rw [hurls, Db.urls_ops]
    simp [Db.empty, Db.urls]
  · rw [hkeys, Db.keys_ops]
    cases t <;> simp [Db.empty, Db.keys, Db.events]

section
variable (cfg : Config) (downloads : Text) (logDir : Option VisitsRebuilder.Dir)
  (archive : Option VisitsRebuilder.Archive)

def peerLines (s : State) : List (Text × LogLine) :=
  ((sortStrings (s.server.subdirs cfg.logRoot)).filter (· ≠ cfg.machineId)).flatMap fun P =>
    tag P (peerLog cfg.logRoot s.server P)

/-- The laptop's cursor of the line's peer is at the line or past it. -/
def Passed (s : State) (x : Text × LogLine) : Prop :=
  Reached (SyncClient.getCursor (s.data.syncState.lookup x.1)) x.2

instance (c : Text × Int) : DecidablePred (Reached c) := fun _ => inferInstanceAs (Decidable (_ ∨ _))

instance (s : State) : DecidablePred (Passed s) := fun _ => inferInstanceAs (Decidable (Reached _ _))

/-- What the laptop's own logs and the peers' lines past its cursors add. -/
def broughtBack (s : State) : List Op :=
  VisitsRebuilder.actionOps downloads (VisitsRebuilder.localActions logDir archive) ++
    ((peerLines cfg s).filter fun x => ¬Passed s x).filterMap fun x => SyncClient.lineOp [] x.2.rawLine

/-- `rebuild` on the laptop, and then a pull in which nothing fails. -/
def rebuildAndPull (icloudDir : Text) (rio : Text → ReadIo) (s : State) :
    SyncClient.Laptop × Except Server.PullError Unit :=
  let db := (VisitsRebuilder.rebuild icloudDir downloads {} s.data.db logDir archive).1
  let r := Server.pullLogs (fun _ => none) none rio cfg.logRoot s.server (some cfg.machineId)
    ⟨cfg.machineId, s.data.syncState⟩
  (SyncClient.doPull cfg.peerLogsDir ⟨db, s.data.syncState, s.peerLogs⟩ r.1, r.2)

variable {cfg downloads logDir archive}

theorem mem_peerLines {s : State} {P : Text} {l : LogLine} : (P, l) ∈ peerLines cfg s ↔
    (P ∈ s.server.subdirs cfg.logRoot ∧ P ≠ cfg.machineId) ∧ l ∈ peerLog cfg.logRoot s.server P := by
  simp only [peerLines, List.mem_flatMap, List.mem_filter, mem_sortStrings, decide_eq_true_eq, tag,
    List.mem_map, Prod.mk.injEq]
  constructor
  · rintro ⟨Q, hQ, l, hl, rfl, rfl⟩
    exact ⟨hQ, hl⟩
  · rintro ⟨hP, hl⟩
    exact ⟨P, hP, l, hl, rfl, rfl⟩

theorem mem_broughtBack {s : State} {o : Op} : o ∈ broughtBack cfg downloads logDir archive s ↔
    o ∈ VisitsRebuilder.actionOps downloads (VisitsRebuilder.localActions logDir archive) ∨
      ∃ x ∈ peerLines cfg s, ¬Passed s x ∧ SyncClient.lineOp [] x.2.rawLine = some o := by
  simp only [broughtBack, List.mem_append, List.mem_filterMap, List.mem_filter, decide_eq_true_eq, and_assoc]

variable (cfg downloads logDir archive)

theorem pullLogs_lines {rio : Text → ReadIo} (hrio : ∀ P, QuietScan (rio P)) (s : State) :
    ∃ chunks, Server.pullLogs (fun _ => none) none rio cfg.logRoot s.server (some cfg.machineId)
        ⟨cfg.machineId, s.data.syncState⟩ = (chunks, .ok ()) ∧
      ∀ l, l ∈ chunks.flatMap LogChunk.lines ↔ ∃ P, (P, l) ∈ peerLines cfg s ∧ ¬Passed s (P, l) := by
  obtain ⟨hok, hlines⟩ := pullPeers_lines hrio cfg.logRoot s.server
    ⟨cfg.machineId, s.data.syncState⟩ [] (sortStrings (s.server.subdirs cfg.logRoot))
  refine ⟨_, Prod.ext rfl ?_, fun l => ?_⟩
  · simpa [Server.pullLogs, Server.crossCheck, Server.enrolledMachines] using hok
  · have hsent : (Server.pullLogs (fun _ => none) none rio cfg.logRoot s.server (some cfg.machineId)
        ⟨cfg.machineId, s.data.syncState⟩).1.flatMap LogChunk.lines =
          ((sortStrings (s.server.subdirs cfg.logRoot)).filter (· ≠ cfg.machineId)).flatMap fun P =>
            scanned cfg.logRoot s.server P (Server.since s.data.syncState P) := by
      simpa [Server.pullLogs, Server.crossCheck, Server.enrolledMachines] using hlines
    rw [hsent]
    simp only [List.mem_flatMap, List.mem_filter, mem_sortStrings, decide_eq_true_eq, mem_scanned,
      mem_peerLines, Passed, since_eq, and_assoc]

theorem rows_rebuildAndPull (icloudDir : Text) {rio : Text → ReadIo} (hrio : ∀ P, QuietScan (rio P))
    (s : State) :
    (rebuildAndPull cfg downloads logDir archive icloudDir rio s).2 = .ok () ∧
      ∃ l, (rebuildAndPull cfg downloads logDir archive icloudDir rio s).1.db.rows =
        ((Db.empty downloads).ops l).rows ∧
        ∀ o, o ∈ l ↔ o ∈ broughtBack cfg downloads logDir archive s := by
  obtain ⟨chunks, hr, hmem⟩ := pullLogs_lines cfg hrio s
  refine ⟨congrArg Prod.snd hr, VisitsRebuilder.actionOps downloads
    (VisitsRebuilder.localActions logDir archive) ++
    ((chunks.flatMap LogChunk.lines).map LogLine.rawLine).filterMap (SyncClient.lineOp []), ?_, fun o => ?_⟩
  · unfold rebuildAndPull
    dsimp only
    rw [hr, SyncClient.db_doPull, Db.ops_append]
    exact SyncClient.rows_replayLines (VisitsRebuilder.rows_rebuild downloads icloudDir s.data.db logDir archive) _
  · rw [List.mem_append, mem_broughtBack]
    refine or_congr Iff.rfl ?_
    simp only [List.mem_filterMap, List.mem_map, hmem]
    constructor
    · rintro ⟨_, ⟨l, ⟨P, hx, hp⟩, rfl⟩, ho⟩
      exact ⟨(P, l), hx, hp, ho⟩
    · rintro ⟨⟨P, l⟩, hx, hp, ho⟩
      exact ⟨l.rawLine, ⟨l, ⟨P, hx, hp⟩, rfl⟩, ho⟩

/-- **What a rebuild loses.** After the rebuild and the pull, everything in the
peers' logs is there if and only if what the lines up to the cursors hold is also
in the laptop's own logs or past the cursors. The push of the sync is over in `s`:
it extends the server's log of the laptop and the laptop's own row. -/
theorem complete_after_rebuild_iff (icloudDir : Text) {rio : Text → ReadIo}
    (hrio : ∀ P, QuietScan (rio P)) (s : State) :
    (rebuildAndPull cfg downloads logDir archive icloudDir rio s).2 = .ok () ∧
      ((∀ x ∈ peerLines cfg s, ∀ o ∈ SyncClient.lineOp [] x.2.rawLine,
          Holds (rebuildAndPull cfg downloads logDir archive icloudDir rio s).1.db o) ↔
        ∀ x ∈ peerLines cfg s, Passed s x → ∀ o ∈ SyncClient.lineOp [] x.2.rawLine,
          Covered (broughtBack cfg downloads logDir archive s) o) := by
  obtain ⟨hok, l, hrows, hl⟩ := rows_rebuildAndPull cfg downloads logDir archive icloudDir hrio s
  refine ⟨hok, fun h x hx _ o ho => ?_, fun h x hx o ho => ?_⟩
  · exact ((holds_ops hrows o).mp (h x hx o ho)).mono fun o => (hl o).mp
  · rw [holds_ops hrows]
    by_cases hp : Passed s x
    · exact (h x hx hp o ho).mono fun o => (hl o).mpr
    · exact covered_of_mem ((hl o).mpr (mem_broughtBack.mpr (Or.inr ⟨x, hx, hp, ho⟩)))

end

/-! ## A run -/

theorem quietScan : QuietScan {} := ⟨rfl, rfl, rfl, fun _ t => List.append_nil t⟩

/-- A visit of the peer, pulled and then past the cursor for good. -/
def peerVisit : Text := ascii "i\t2024-05-01T00:00:00Z\thttps://a.example/\tA"

theorem complete_after_rebuild_iff_pulled :
    ∃ s, Runs.run (step laptop) (.init []) (pushed 0 peerVisit :: (firstChunk ++ [.finish])) = some s ∧
      (rebuildAndPull laptop [] (some []) (some []) [] (fun _ => {}) s).2 = .ok () ∧
        ((∀ x ∈ peerLines laptop s, ∀ o ∈ SyncClient.lineOp [] x.2.rawLine,
            Holds (rebuildAndPull laptop [] (some []) (some []) [] (fun _ => {}) s).1.db o) ↔
          ∀ x ∈ peerLines laptop s, Passed s x → ∀ o ∈ SyncClient.lineOp [] x.2.rawLine,
            Covered (broughtBack laptop [] (some []) (some []) s) o) :=
  ⟨_, rfl, complete_after_rebuild_iff laptop [] (some []) (some []) [] (fun _ => quietScan) _⟩

/-- The visit was in the database; the rebuild drops it and the pull does not bring it back. -/
theorem rebuild_loses_pulled_visit :
    ∃ s, Runs.run (step laptop) (.init []) (pushed 0 peerVisit :: (firstChunk ++ [.finish])) = some s ∧
      (rebuildAndPull laptop [] (some []) (some []) [] (fun _ => {}) s).2 = .ok () ∧
      ∃ x ∈ peerLines laptop s, ∃ o ∈ SyncClient.lineOp [] x.2.rawLine, o.url ∈ s.data.db.urls ∧
        ¬Holds (rebuildAndPull laptop [] (some []) (some []) [] (fun _ => {}) s).1.db o :=
  ⟨_, rfl, by decide, (ascii "b", ⟨ascii "2024-05-01", 0, peerVisit⟩), by decide, _, rfl, by decide,
    fun h => absurd h.1 (by decide)⟩

end PullLogs

end VisitLogger
