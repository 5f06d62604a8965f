import VisitLogger.LiveRebuild

/-!
# Rebuilding after a history of invocations

Over a history, replaying the day logs so far keeps up with the live database
(`Replayed.step`), and the live rows of archived snapshots point at the archive
(`Placed.step`). Rehydrating moves the replayed rows to the same directories,
so a rebuild gives the live rows back (`rebuilt_same`).
-/

namespace VisitLogger

open Framing

namespace BVLHost

open VisitsRebuilder (replayOneFile replayFile Archive Dir freshLog archivedLog archivedLogs collectLogPaths_eq)

/-! ## Histories -/

/-- `inv` records the snapshot `b` and moves it to the archive. -/
structure Invocation.Archives (inv : Invocation) (b : Text) : Prop where
  commits : inv.Commits
  event : isEventTag inv.message.request.tag = true
  filename : inv.message.request.filename = snapshotPath b
  ne_nil : b ≠ []
  noSlash : slash ∉ b
  moved : inv.moved.isSome = true

/-- Invocations one after the other, whose log appends succeed. -/
structure History where
  downloads : Text
  icloudDir : Text
  invs : List Invocation
  logged : ∀ inv ∈ invs, inv.faults.action = none ∧ inv.faults.result = false
  uuid : ∀ inv ∈ invs, looksLikeUuid inv.recordId = true
  isDate : ∀ inv ∈ invs, IsDate inv.todayISO
  dates : invs.Pairwise fun a b => a.todayISO ≤ b.todayISO
  clean : ∀ inv ∈ invs, ∀ f ∈ VisitLog.actionFields inv.recordId inv.message.request, Clean f
  named : ∀ inv ∈ invs, inv.Named
  /-- No two events have the same snapshot. -/
  once : ∀ a ∈ invs, ∀ b ∈ invs, a.Commits → b.Commits → isEventTag a.message.request.tag = true →
    isEventTag b.message.request.tag = true → a.message.request.filename = b.message.request.filename →
    a.message.request.filename ≠ [] →
      a.message.request.tag = b.message.request.tag ∧ a.message.request.url = b.message.request.url ∧
        a.message.request.timestamp = b.message.request.timestamp
  /-- A snapshot is moved to the directory of its own date. -/
  moved : ∀ inv ∈ invs, ∀ m, inv.moved = some m →
    snapshotFilenameRe (lastPathComponent inv.message.request.filename) = some m.1 ∧
      m.2 = osPathJoin icloudDir m.1

def History.final (h : History) : State := run h.downloads h.invs

/-! ## Day logs -/

theorem map_other_logs {logs : List (Text × Text)} {d : Text} (h : d ∉ logs.map Prod.fst) (l : Text) :
    logs.map (fun f => if f.1 = d then (f.1, f.2 ++ l ++ [nl]) else f) = logs := by
  conv_rhs => rw [← List.map_id logs]
  refine List.map_congr_left fun f hf => ?_
  rw [if_neg fun hd => h (List.mem_map.mpr ⟨f, hf, hd⟩)]
  rfl

theorem appendLine_new {logs : List (Text × Text)} {d : Text} (h : d ∉ logs.map Prod.fst) (l : Text) :
    VisitLog.appendLine logs d l = logs ++ [(d, l ++ [nl])] := by
  have hhas : Table.has Prod.fst d logs = false := by
    rw [Bool.eq_false_iff]; exact fun c => h ((Table.has_iff _).mp c)
  simp only [VisitLog.appendLine, Table.insertOrIgnore, hhas, Bool.false_eq_true, if_false, Table.updateWhere,
    List.map_append, decide_eq_true_eq, map_other_logs h]
  simp

theorem appendLine_last {logs : List (Text × Text)} {d c : Text} (h : d ∉ logs.map Prod.fst) (l : Text) :
    VisitLog.appendLine (logs ++ [(d, c)]) d l = logs ++ [(d, c ++ l ++ [nl])] := by
  have hhas : Table.has Prod.fst d (logs ++ [(d, c)]) = true := (Table.has_iff _).mpr (by simp)
  simp only [VisitLog.appendLine, Table.insertOrIgnore, hhas, if_true, Table.updateWhere, List.map_append,
    decide_eq_true_eq, map_other_logs h]
  simp

/-- The logs after an accepted and logged write. -/
def Invocation.addTo (inv : Invocation) (logs : List (Text × Text)) : List (Text × Text) :=
  VisitLog.appendLine (VisitLog.appendLine logs inv.todayISO
    (VisitLog.actionLine inv.recordId inv.message.request))
    inv.todayISO (VisitLog.resultLine inv.recordId (resultText inv.errors))

/-- **A write goes to the end of the newest log**, or begins the next. -/
theorem addTo_cases {logs : List (Text × Text)} (hs : logs.Pairwise fun a b => a.1 < b.1) {inv : Invocation}
    (hd : ∀ f ∈ logs, f.1 ≤ inv.todayISO) :
    (∃ logs₀ c, logs = logs₀ ++ [(inv.todayISO, c)] ∧
      inv.addTo logs = logs₀ ++ [(inv.todayISO, c ++ inv.chunk)]) ∨
      inv.todayISO ∉ logs.map Prod.fst ∧ inv.addTo logs = logs ++ [(inv.todayISO, inv.chunk)] := by
  by_cases hmem : inv.todayISO ∈ logs.map Prod.fst
  · left
    obtain ⟨⟨d, c⟩, hf, rfl⟩ := List.mem_map.mp hmem
    obtain ⟨logs₀, rest, rfl⟩ := List.append_of_mem hf
    obtain ⟨-, hrest, hbefore⟩ := List.pairwise_append.mp hs
    cases rest with
    | cons g rest =>
      -- a log after today's would be of a later date
      have h₁ := (List.pairwise_cons.mp hrest).1 g (by simp)
      exact absurd (hd g (by simp)) (not_le.mpr h₁)
    | nil =>
      have hnot : inv.todayISO ∉ logs₀.map Prod.fst := by
        intro hm
        obtain ⟨g, hg, hgd⟩ := List.mem_map.mp hm
        have hlt := hbefore g hg (inv.todayISO, c) (by simp)
        rw [hgd] at hlt
        exact lt_irrefl _ hlt
      refine ⟨logs₀, c, rfl, ?_⟩
      rw [Invocation.addTo, appendLine_last hnot, appendLine_last hnot]
      simp [Invocation.chunk]
  · right
    refine ⟨hmem, ?_⟩
    rw [Invocation.addTo, appendLine_new hmem, appendLine_last hmem]
    simp [Invocation.chunk]

theorem sorted_addTo {logs : List (Text × Text)} (hs : logs.Pairwise fun a b => a.1 < b.1) {inv : Invocation}
    (hd : ∀ f ∈ logs, f.1 ≤ inv.todayISO) : (inv.addTo logs).Pairwise fun a b => a.1 < b.1 := by
  rcases addTo_cases hs hd with ⟨logs₀, c, rfl, hnew⟩ | ⟨hnot, hnew⟩
  · obtain ⟨h₀, -, hbefore⟩ := List.pairwise_append.mp hs
    rw [hnew, List.pairwise_append]
    refine ⟨h₀, List.pairwise_singleton _ _, fun a ha b hb => ?_⟩
    rw [List.mem_singleton.mp hb]
    exact hbefore a ha (inv.todayISO, c) (by simp)
  · rw [hnew, List.pairwise_append]
    refine ⟨hs, List.pairwise_singleton _ _, fun a ha b hb => ?_⟩
    rw [List.mem_singleton.mp hb]
    exact lt_of_le_of_ne (hd a ha) fun he => hnot (List.mem_map.mpr ⟨a, ha, he⟩)

theorem mem_addTo {logs : List (Text × Text)} (hs : logs.Pairwise fun a b => a.1 < b.1) {inv : Invocation}
    (hd : ∀ f ∈ logs, f.1 ≤ inv.todayISO) {f : Text × Text} (hf : f ∈ inv.addTo logs) :
    f ∈ logs ∨ ∃ c, f = (inv.todayISO, c ++ inv.chunk) := by
  rcases addTo_cases hs hd with ⟨logs₀, c, rfl, hnew⟩ | ⟨-, hnew⟩
  · rw [hnew] at hf
    rcases List.mem_append.mp hf with hf | hf
    · exact Or.inl (List.mem_append_left _ hf)
    · exact Or.inr ⟨c, List.mem_singleton.mp hf⟩
  · rw [hnew] at hf
    rcases List.mem_append.mp hf with hf | hf
    · exact Or.inl hf
    · exact Or.inr ⟨[], List.mem_singleton.mp hf⟩

theorem op_event {inv : Invocation} {downloads f d : Text} {t : EventsTable}
    (h : (inv.op downloads).mark = .event t f d) :
    inv.message.request.tag = t.tag ∧ f = osPathBasename inv.message.request.filename ∧ d = downloads := by
  unfold Invocation.op Action.op at h
  split at h
  · cases h
  · split at h
    · rename_i ht
      injection h with h₁ h₂ h₃
      exact ⟨by rw [← h₁]; exact EventsTable.forTag_eq_some ht, h₂.symm, h₃.symm⟩
    · cases h

/-! ## Replaying keeps up -/

/-- The state of the rebuilder after the day logs, from truncated tables. -/
def replayed (downloads : Text) (logs : List (Text × Text)) : VisitsRebuilder.State :=
  logs.foldl (replayFile downloads) ⟨Db.empty downloads, ∅, {}⟩

structure Replayed (downloads : Text) (invs : List Invocation) (s : State) : Prop where
  sorted : s.logs.Pairwise fun a b => a.1 < b.1
  dates : ∀ f ∈ s.logs, ∃ inv ∈ invs, inv.todayISO = f.1
  ended : ∀ f ∈ s.logs, ∃ a, f.2 = a ++ [nl]
  same : (replayed downloads s.logs).db.forget = s.db.forget
  fresh : ∀ t, ∀ e ∈ (replayed downloads s.logs).db.events t, e.directory = downloads

theorem Replayed.replayed_addTo {downloads : Text} {invs : List Invocation} {s : State}
    (hr : Replayed downloads invs s)
    {inv : Invocation} (hle : ∀ f ∈ s.logs, f.1 ≤ inv.todayISO) :
    ∃ st : VisitsRebuilder.State, st.db.forget = s.db.forget ∧
      (∀ t, ∀ e ∈ st.db.events t, e.directory = downloads) ∧
      replayed downloads (inv.addTo s.logs) = replayOneFile downloads st inv.chunk := by
  rcases addTo_cases hr.sorted hle with ⟨logs₀, c, hold, hnew⟩ | ⟨-, hnew⟩
  · obtain ⟨a, ha⟩ := hr.ended (inv.todayISO, c) (by simp [hold])
    refine ⟨_, hr.same, hr.fresh, ?_⟩
    dsimp only at ha
    rw [hnew, hold, replayed, replayed, List.foldl_append, List.foldl_append, List.foldl_cons, List.foldl_nil,
      List.foldl_cons, List.foldl_nil, replayFile, replayFile, ha, List.append_assoc, List.singleton_append,
      VisitsRebuilder.replayOneFile_append]
  · -- the new day has a row in snapshots
    refine ⟨{ replayed downloads s.logs with db :=
      (replayed downloads s.logs).db.insertSnapshot inv.todayISO }, hr.same,
        fun t e he => hr.fresh t e (by cases t <;> exact he), ?_⟩
    rw [hnew, replayed, List.foldl_append, List.foldl_cons, List.foldl_nil, replayFile]
    rfl

/-- **Step.** -/
theorem Replayed.step {h : History} {invs : List Invocation} {s : State} (hr : Replayed h.downloads invs s)
    {inv : Invocation} (hinv : inv ∈ h.invs) (hd : ∀ x ∈ invs, x.todayISO ≤ inv.todayISO)
    (hn : inv.Commits → inv.NoNul) : Replayed h.downloads (invs ++ [inv]) (handle h.downloads s inv).1 := by
  obtain ⟨hlog, hres⟩ := h.logged inv hinv
  have hforget := forget_handle (fun hc => ⟨hn hc, h.named inv hinv⟩) h.downloads s
  by_cases hacc : inv.Accepted
  · have hle : ∀ f ∈ s.logs, f.1 ≤ inv.todayISO := by
      intro f hf
      obtain ⟨x, hx, hxf⟩ := hr.dates f hf
      exact hxf ▸ hd x hx
    have hlogs : (handle h.downloads s inv).1.logs = inv.addTo s.logs := by
      rw [handle_accepted hacc]
      simp only [hlog, hres, Option.isSome_none, Bool.false_eq_true, if_false]
      rfl
    have hchunk : ∀ st, (replayOneFile h.downloads st inv.chunk).db =
        if inv.faults.db = none then st.db.apply (inv.op h.downloads) else st.db :=
      fun st => db_replayOneFile_chunk hacc (h.uuid inv hinv) hlog (h.clean inv hinv) h.downloads st
    have hend : ∃ a, inv.chunk = a ++ [nl] :=
      ⟨_, by rw [Invocation.chunk, ← List.cons_append, ← List.append_assoc]⟩
    obtain ⟨st, hsame, hfresh, hdb⟩ := hr.replayed_addTo hle
    refine ⟨?_, ?_, ?_, ?_, ?_⟩
    · rw [hlogs]
      exact sorted_addTo hr.sorted hle
    · intro f hf
      rw [hlogs] at hf
      rcases mem_addTo hr.sorted hle hf with hf | ⟨c, rfl⟩
      · obtain ⟨x, hx, hxf⟩ := hr.dates f hf
        exact ⟨x, List.mem_append_left _ hx, hxf⟩
      · exact ⟨inv, by simp, rfl⟩
    · intro f hf
      rw [hlogs] at hf
      rcases mem_addTo hr.sorted hle hf with hf | ⟨c, rfl⟩
      · exact hr.ended f hf
      · obtain ⟨a, ha⟩ := hend
        exact ⟨c ++ a, by rw [ha, List.append_assoc]⟩
    · rw [hlogs, hdb, hchunk]
      by_cases hc : inv.faults.db = none
      · rw [if_pos hc, Db.forget_apply, hsame, hforget.1 ⟨hacc, hc⟩]
      · rw [if_neg hc, hsame, hforget.2 fun c => hc c.2]
    · rw [hlogs, hdb, hchunk]
      intro t e he
      split at he
      · rcases Db.mem_events_apply.mp he with he | ⟨⟨f, d, hm, rfl⟩, -⟩
        · exact hfresh t e he
        · -- an event of the replay is put in Downloads
          obtain ⟨-, -, rfl⟩ := op_event hm
          rfl
      · exact hfresh t e he
  · rw [handle_refused hacc]
    exact ⟨hr.sorted, fun f hf => by
      obtain ⟨x, hx, hxf⟩ := hr.dates f hf
      exact ⟨x, List.mem_append_left _ hx, hxf⟩, hr.ended, hr.same, hr.fresh⟩

/-! ## Archived snapshots -/

/-- The event points at the archive directory of its snapshot's date. -/
def Home (icloudDir : Text) (e : Event) : Prop :=
  ∃ d, snapshotFilenameRe e.filename = some d ∧ e.directory = osPathJoin icloudDir d

structure Placed (icloudDir downloads : Text) (invs : List Invocation) (db : Db) : Prop where
  keys : ∀ inv ∈ invs, inv.Commits → ∀ t : EventsTable, inv.message.request.tag = t.tag →
    (inv.message.request.url, inv.message.request.timestamp) ∈ db.keys t
  directory : ∀ t, ∀ e ∈ db.events t, e.directory = downloads ∨ Home icloudDir e
  archived : ∀ t, ∀ e ∈ db.events t, ∀ inv ∈ invs, inv.Archives e.filename → Home icloudDir e

theorem mem_events_relocate {db : Db} {dateSubdir basename downloads : Text} {t : EventsTable} {e : Event} :
    e ∈ (relocate db dateSubdir basename downloads).events t ↔
      ∃ e₀ ∈ db.events t, e = VisitsRebuilder.moveEvent downloads e₀ (dateSubdir, basename) := by
  have h : (relocate db dateSubdir basename downloads).events t =
      (db.events t).map (VisitsRebuilder.moveEvent downloads · (dateSubdir, basename)) := by
    rw [relocate_eq, VisitsRebuilder.events_updateDirectory, VisitsRebuilder.events_updateDirectory]
    cases t <;> rfl
  rw [h, List.mem_map]
  exact exists_congr fun _ => and_congr_right fun _ => eq_comm

theorem filename_moveEvent (downloads : Text) (e : Event) (m : Text × Text) :
    (VisitsRebuilder.moveEvent downloads e m).filename = e.filename := by
  unfold VisitsRebuilder.moveEvent
  split <;> rfl

theorem moveEvent_cases {icloudDir downloads b d : Text} (hre : snapshotFilenameRe b = some d) (e : Event) :
    VisitsRebuilder.moveEvent downloads e (osPathJoin icloudDir d, b) = e ∨
      Home icloudDir (VisitsRebuilder.moveEvent downloads e (osPathJoin icloudDir d, b)) := by
  unfold VisitsRebuilder.moveEvent
  split
  · rename_i hm
    simp only [Bool.and_eq_true, decide_eq_true_eq] at hm
    exact Or.inr ⟨d, by simpa [hm.1] using hre, rfl⟩
  · exact Or.inl rfl

theorem events_writes {inv : Invocation} (hacc : inv.Accepted) (hn : inv.NoNul) (hs : inv.Named)
    (downloads : Text)
    (db : Db) (t : EventsTable) :
    (writes downloads inv.message.request inv.message.alsoOfInterest db).events t =
      (db.apply (inv.op downloads)).events t := by
  rw [writes_eq downloads hacc.tag, ops, bound_op hacc hn hs]
  split
  · rw [Db.ops, List.foldl_cons, List.foldl_cons, List.foldl_nil]
    exact (Db.events_setOfInterest _ _ _).trans (Db.events_insertVisit _ _ _ _ _)
  · rfl

theorem mem_events_committed {h : History} {inv : Invocation} (hinv : inv ∈ h.invs) (hc : inv.Commits)
    (hn : inv.NoNul) {s : State} {t : EventsTable} {e : Event}
    (he : e ∈ (handle h.downloads s inv).1.db.events t) :
    ∃ e₀, (e₀ ∈ s.db.events t ∨
        ((∃ f, (inv.op h.downloads).mark = .event t f h.downloads ∧
          e₀ = ⟨inv.message.request.url, inv.message.request.timestamp, f, h.downloads⟩) ∧
          (inv.message.request.url, inv.message.request.timestamp) ∉ s.db.keys t)) ∧
      ((∀ b, ¬inv.Archives b) ∧ e = e₀ ∨ ∃ b d, inv.Archives b ∧ snapshotFilenameRe b = some d ∧
        e = VisitsRebuilder.moveEvent h.downloads e₀ (osPathJoin h.icloudDir d, b)) := by
  have hnew : ∀ e₀, e₀ ∈ (writes h.downloads inv.message.request inv.message.alsoOfInterest
      (s.db.insertSnapshot inv.todayISO)).events t → e₀ ∈ s.db.events t ∨
        ((∃ f, (inv.op h.downloads).mark = .event t f h.downloads ∧
          e₀ = ⟨inv.message.request.url, inv.message.request.timestamp, f, h.downloads⟩) ∧
          (inv.message.request.url, inv.message.request.timestamp) ∉ s.db.keys t) := by
    intro e₀ he₀
    rw [events_writes hc.1 hn (h.named inv hinv)] at he₀
    have hsnap : (s.db.insertSnapshot inv.todayISO).events t = s.db.events t := by cases t <;> rfl
    have hkeys : (s.db.insertSnapshot inv.todayISO).keys t = s.db.keys t := by simp [Db.keys, hsnap]
    rcases Db.mem_events_apply.mp he₀ with he₀ | ⟨⟨f, d, hm, rfl⟩, hk⟩
    · exact Or.inl (hsnap ▸ he₀)
    · obtain ⟨-, -, rfl⟩ := op_event hm
      exact Or.inr ⟨⟨f, hm, rfl⟩, hkeys ▸ hk⟩
  rw [handle_accepted hc.1] at he
  simp only [dbWrites, hc.2] at he
  by_cases hev : isEventTag inv.message.request.tag = true ∧ inv.message.request.filename ≠ []
  · rw [if_pos (by simpa using hev)] at he
    obtain hf | ⟨b, hf, hne, hb⟩ := h.named inv hinv hev.1
    · exact absurd hf hev.2
    · cases hm : inv.moved with
      | none =>
        rw [hm] at he
        exact ⟨e, hnew e he, Or.inl ⟨fun b' hb' => by simpa [hm] using hb'.moved, rfl⟩⟩
      | some m =>
        obtain ⟨date, dateSubdir⟩ := m
        rw [hm] at he
        obtain ⟨hre, rfl⟩ : snapshotFilenameRe _ = some date ∧ dateSubdir = osPathJoin h.icloudDir date :=
          h.moved inv hinv _ hm
        have hbase : lastPathComponent inv.message.request.filename = b := by
          rw [hf]; exact (basename_snapshotPath hne hb).1
        have hcs : cString b = b := by
          have hfile : inv.message.request.filename ∈ VisitLog.actionFields inv.recordId inv.message.request := by
            have ht : inv.message.request.tag = ascii "read" ∨ inv.message.request.tag = ascii "skimmed" := by
              simpa [isEventTag] using hev.1
            have hne' : inv.message.request.tag ≠ [] := by rintro h0; rw [h0] at ht; revert ht; decide
            simp [VisitLog.actionFields, hne', ht]
          have h0 := hn _ hfile
          rw [hf] at h0
          exact cString_of_notMem fun hm => h0 (List.mem_append_right _ hm)
        rw [hbase] at hre
        have hsnap : ∀ db : Db, (db.insertSnapshot date).events t = db.events t := fun _ => by cases t <;> rfl
        rw [archived, hsnap, hbase, hcs] at he
        obtain ⟨e₀, he₀, rfl⟩ := mem_events_relocate.mp he
        exact ⟨e₀, hnew e₀ he₀, Or.inr ⟨b, date, ⟨hc, hev.1, hf, hne, hb, by rw [hm]; rfl⟩, hre, rfl⟩⟩
  · rw [if_neg (by simpa using hev)] at he
    refine ⟨e, hnew e he, Or.inl ⟨fun b hb => hev ⟨hb.event, ?_⟩, rfl⟩⟩
    rw [hb.filename]; simp [snapshotPath, ascii]

theorem events_not_committed {inv : Invocation} (h : ¬inv.Commits) (downloads : Text) (s : State)
    (t : EventsTable) :
    (handle downloads s inv).1.db.events t = s.db.events t := by
  by_cases hacc : inv.Accepted
  · obtain ⟨f, hf⟩ := Option.ne_none_iff_exists'.mp fun hdb => h ⟨hacc, hdb⟩
    rw [handle_accepted hacc]
    simp only [dbWrites, hf]
    obtain ⟨_ | _, e⟩ := f <;> cases t <;> rfl
  · rw [handle_refused hacc]

theorem mem_keys_committed {inv : Invocation} (hc : inv.Commits) (hn : inv.NoNul) (hs : inv.Named)
    (downloads : Text)
    (s : State) {t : EventsTable} {k : Text × Text}
    (hk : k ∈ s.db.keys t ∨ inv.message.request.tag = t.tag ∧
      k = (inv.message.request.url, inv.message.request.timestamp)) :
    k ∈ (handle downloads s inv).1.db.keys t := by
  have hrows : (handle downloads s inv).1.db.keys t =
      (s.db.ops (ops downloads inv.message.request inv.message.alsoOfInterest)).keys t := by
    rw [handle_accepted hc.1]
    have h := rows_dbWrites downloads hc.1 s.db
    rw [if_pos hc.2] at h
    exact congrFun (congrArg Prod.snd h) t
  rw [hrows, Db.keys_ops]
  refine hk.imp_right fun ⟨ht, hk⟩ => ?_
  refine ⟨_, List.mem_cons_self, ?_, ?_⟩
  · rw [bound_op hc.1 hn hs]
    exact ⟨osPathBasename inv.message.request.filename, downloads, by
      simp [Invocation.op, Action.op, ht, t.tag_ne.2]⟩
  · rw [bound_op hc.1 hn hs]; exact hk

/-- A new row is not that of a snapshot that an earlier invocation archived. -/
theorem Placed.not_archives {h : History} {invs : List Invocation} (hsub : ∀ x ∈ invs, x ∈ h.invs) {s : State}
    (hp : Placed h.icloudDir h.downloads invs s.db) {inv : Invocation} (hinv : inv ∈ h.invs) (hc : inv.Commits)
    {t : EventsTable} {f : Text} (hm : (inv.op h.downloads).mark = .event t f h.downloads)
    (hk : (inv.message.request.url, inv.message.request.timestamp) ∉ s.db.keys t) {x : Invocation}
    (hx : x ∈ invs) :
    ¬x.Archives f := by
  intro hxa
  obtain ⟨ht, hf, -⟩ := op_event hm
  have hev : isEventTag inv.message.request.tag = true := by rw [ht]; exact isEventTag_tag t
  have hname : inv.message.request.filename = snapshotPath f := by
    rcases h.named inv hinv hev with hnil | ⟨b, hb, hbne, hbs⟩
    · rw [hnil] at hf; exact absurd hf hxa.ne_nil
    · rw [hf, hb, (basename_snapshotPath hbne hbs).2]
  -- the two would be the same event, and its row is there
  obtain ⟨h₁, h₂, h₃⟩ := h.once x (hsub x hx) inv hinv hxa.commits hc hxa.event hev
    (hxa.filename.trans hname.symm) (by rw [hxa.filename]; simp [snapshotPath, ascii])
  have hkey := hp.keys x hx hxa.commits t (h₁.trans ht)
  rw [h₂, h₃] at hkey
  exact hk hkey

/-- **Step.** The row that an archiving invocation moves is its own. -/
theorem Placed.step {h : History} {invs : List Invocation} (hsub : ∀ x ∈ invs, x ∈ h.invs) {s : State}
    (hp : Placed h.icloudDir h.downloads invs s.db) {inv : Invocation} (hinv : inv ∈ h.invs)
    (hn : inv.Commits → inv.NoNul) :
    Placed h.icloudDir h.downloads (invs ++ [inv]) (handle h.downloads s inv).1.db := by
  by_cases hc : inv.Commits
  · have hkeys := fun t k => mem_keys_committed hc (hn hc) (h.named inv hinv) h.downloads s (t := t) (k := k)
    refine ⟨fun x hx hxc t ht => ?_, fun t e he => ?_, fun t e he x hx hxa => ?_⟩
    · rcases List.mem_append.mp hx with hx | hx
      · exact hkeys t _ (Or.inl (hp.keys x hx hxc t ht))
      · obtain rfl := List.mem_singleton.mp hx
        exact hkeys t _ (Or.inr ⟨ht, rfl⟩)
    · obtain ⟨e₀, he₀, hmove⟩ := mem_events_committed hinv hc (hn hc) he
      have hd : e₀.directory = h.downloads ∨ Home h.icloudDir e₀ := by
        rcases he₀ with he₀ | ⟨⟨f, -, rfl⟩, -⟩
        · exact hp.directory t e₀ he₀
        · exact Or.inl rfl
      rcases hmove with ⟨-, rfl⟩ | ⟨b, d, -, hre, rfl⟩
      · exact hd
      · rcases moveEvent_cases hre e₀ with he | he
        · rw [he]
          exact hd
        · exact Or.inr he
    · obtain ⟨e₀, he₀, hmove⟩ := mem_events_committed hinv hc (hn hc) he
      have hfile : e.filename = e₀.filename := by
        rcases hmove with ⟨-, rfl⟩ | ⟨b, d, -, -, rfl⟩
        · rfl
        · exact filename_moveEvent _ _ _
      rw [hfile] at hxa
      rcases List.mem_append.mp hx with hx | hx
      · -- a row at home stays there, whatever is moved
        have hhome : Home h.icloudDir e₀ := by
          rcases he₀ with he₀ | ⟨⟨f, hm, rfl⟩, hk⟩
          · exact hp.archived t e₀ he₀ x hx hxa
          · exact absurd hxa (hp.not_archives hsub hinv hc hm hk hx)
        rcases hmove with ⟨-, rfl⟩ | ⟨b, d, -, hre, rfl⟩
        · exact hhome
        · rcases moveEvent_cases hre e₀ with he | he
          · rw [he]
            exact hhome
          · exact he
      · obtain rfl := List.mem_singleton.mp hx
        rcases hmove with ⟨hno, -⟩ | ⟨b, d, hb, hre, rfl⟩
        · exact absurd hxa (hno _)
        · -- the row is that of the file that is moved: home already, or still in the downloads
          have hbe : b = e₀.filename := by
            have := hb.filename.symm.trans hxa.filename
            simpa [snapshotPath] using this
          unfold VisitsRebuilder.moveEvent
          by_cases hd : e₀.directory = h.downloads
          · rw [if_pos (by simp [hbe, hd])]
            exact ⟨d, by rw [← hbe]; exact hre, rfl⟩
          · rw [if_neg (by simp [hd])]
            rcases he₀ with he₀ | ⟨⟨f, -, rfl⟩, -⟩
            · exact (hp.directory t e₀ he₀).resolve_left hd
            · exact absurd rfl hd
  · have hevents := events_not_committed hc h.downloads s
    refine ⟨fun x hx hxc t ht => ?_, fun t e he => ?_, fun t e he x hx hxa => ?_⟩
    · rw [Db.keys, hevents]
      rcases List.mem_append.mp hx with hx | hx
      · exact hp.keys x hx hxc t ht
      · rw [List.mem_singleton.mp hx] at hxc; exact absurd hxc hc
    · rw [hevents] at he; exact hp.directory t e he
    · rw [hevents] at he
      rcases List.mem_append.mp hx with hx | hx
      · exact hp.archived t e he x hx hxa
      · rw [List.mem_singleton.mp hx] at hxa; exact absurd hxa.commits hc

/-- **Run.** -/
theorem History.replayed_placed (h : History) (hn : ∀ inv ∈ h.invs, inv.Commits → inv.NoNul) :
    Replayed h.downloads h.invs h.final ∧ Placed h.icloudDir h.downloads h.invs h.final.db := by
  have hrun : ∀ invs : List Invocation, (∀ x ∈ invs, x ∈ h.invs) →
      (invs.Pairwise fun a b => a.todayISO ≤ b.todayISO) →
      Replayed h.downloads invs (run h.downloads invs) ∧
        Placed h.icloudDir h.downloads invs (run h.downloads invs).db := by
    intro invs hsub hsorted
    induction invs using List.reverseRecOn with
    | nil =>
      have hnone : ∀ (t : EventsTable) (e : Event), e ∉ (Db.empty h.downloads).events t := fun t e he => by
        cases t <;> cases he
      refine ⟨⟨List.Pairwise.nil, fun f hf => ?_, fun f hf => ?_, rfl, fun t e he => absurd he (hnone t e)⟩,
        fun x hx => ?_, fun t e he => absurd he (hnone t e), fun t e he => absurd he (hnone t e)⟩
      · cases hf
      · cases hf
      · cases hx
    | append_singleton invs inv ih =>
      obtain ⟨hs, -, hd⟩ := List.pairwise_append.mp hsorted
      obtain ⟨hr, hp⟩ := ih (fun x hx => hsub x (List.mem_append_left _ hx)) hs
      have hinv : inv ∈ h.invs := hsub inv (by simp)
      rw [run_snoc]
      exact ⟨hr.step hinv (fun x hx => hd x hx inv (by simp)) (hn inv hinv),
        hp.step (fun x hx => hsub x (List.mem_append_left _ hx)) hinv (hn inv hinv)⟩
  exact hrun h.invs (fun _ hx => hx) h.dates

/-! ## The files that a rebuild finds -/

/-- Each day's log lies in LOG_DIR or in the archive directory of its date, and
nothing else there passes for a day log. -/
structure LogsStored (logs : List (Text × Text)) (logDir : Dir) (archive : Archive) : Prop where
  kept : ∀ f ∈ logs, (logFilename f.1, some f.2) ∈ logDir ∨
    ∃ sub, (f.1, some sub) ∈ archive ∧ (logFilename f.1, some f.2) ∈ sub
  once : ∀ f ∈ logs, logFilename f.1 ∈ logDir.map Prod.fst →
    ∀ sub, (f.1, some sub) ∈ archive → logFilename f.1 ∉ sub.map Prod.fst
  fresh : ∀ name content d, (name, some content) ∈ logDir → logRe name = some d → name = logFilename d ∧
    (d, content) ∈ logs
  archived : ∀ date sub, (date, some sub) ∈ archive → ∀ name content, (name, some content) ∈ sub →
    logRe name = some date → name = logFilename date ∧ (date, content) ∈ logs
  logNames : (logDir.map Prod.fst).Nodup
  dateNames : (archive.map Prod.fst).Nodup
  subNames : ∀ date sub, (date, some sub) ∈ archive → (sub.map Prod.fst).Nodup

/-- The archive has the snapshots that were moved to it, each in the directory of its date only. -/
structure SnapshotsStored (h : History) (archive : Archive) : Prop where
  kept : ∀ inv ∈ h.invs, ∀ b, inv.Archives b → ∀ m, inv.moved = some m →
    ∃ sub, (m.1, some sub) ∈ archive ∧ b ∈ sub.map Prod.fst
  dated : ∀ date sub, (date, some sub) ∈ archive → dateDirRe date = true → ∀ f ∈ sub.map Prod.fst,
    ∀ d, snapshotFilenameRe f = some d → d = date

namespace LogsStored

variable {logs : List (Text × Text)} {logDir : Dir} {archive : Archive} (h : LogsStored logs logDir archive)

include h

theorem freshLog_eq_some {x : Text × Option Text} (hx : x ∈ logDir) {e : Text × Nat × Text}
    (he : freshLog x = some e) :
    ∃ d content, e = (d, 1, content) ∧ x = (logFilename d, some content) ∧ (d, content) ∈ logs := by
  obtain ⟨entry, file⟩ := x
  unfold freshLog at he
  split at he
  · rename_i d content hre hfile
    dsimp only at hre hfile
    subst hfile
    obtain ⟨rfl, hlog⟩ := h.fresh entry content d hx hre
    exact ⟨d, content, (Option.some.inj he).symm, rfl, hlog⟩
  · cases he

theorem archivedLog_eq_some {date : Text} {sub : Dir} (hsub : (date, some sub) ∈ archive)
    {x : Text × Option Text}
    (hx : x ∈ sub) {e : Text × Nat × Text} (he : archivedLog date x = some e) :
    ∃ content, e = (date, 0, content) ∧ x = (logFilename date, some content) ∧ (date, content) ∈ logs := by
  obtain ⟨entry, file⟩ := x
  unfold archivedLog at he
  split at he
  · rename_i d content hre hfile
    dsimp only at hre hfile
    subst hfile
    split at he
    · rename_i hd
      subst hd
      obtain ⟨rfl, hlog⟩ := h.archived d sub hsub entry content hx hre
      exact ⟨content, (Option.some.inj he).symm, rfl, hlog⟩
    · cases he
  · cases he

theorem mem_archivedLogs {x : Text × Option Dir} (hx : x ∈ archive) {e : Text × Nat × Text}
    (he : e ∈ archivedLogs x) :
    ∃ sub content, x = (x.1, some sub) ∧ e = (x.1, 0, content) ∧ (logFilename x.1, some content) ∈ sub ∧
      (x.1, content) ∈ logs := by
  obtain ⟨date, sub⟩ := x
  unfold archivedLogs at he
  split at he
  · cases sub with
    | none => cases he
    | some sub =>
      obtain ⟨y, hy, he⟩ := List.mem_filterMap.mp he
      obtain ⟨content, rfl, rfl, hlog⟩ := h.archivedLog_eq_some hx hy he
      exact ⟨sub, content, rfl, rfl, hy, hlog⟩
  · cases he

theorem distinct : (archive.flatMap archivedLogs ++ logDir.filterMap freshLog).Pairwise fun a b => a.1 ≠
    b.1 := by
  have hnames : logDir.Pairwise fun x y => x.1 ≠ y.1 := List.pairwise_map.mp h.logNames
  have hdates : archive.Pairwise fun x y => x.1 ≠ y.1 := List.pairwise_map.mp h.dateNames
  refine List.pairwise_append.mpr ⟨List.pairwise_flatMap.mpr ⟨fun x hx => ?_, ?_⟩, ?_, fun a ha b hb => ?_⟩
  · -- a date directory has one file of the day log's name
    obtain ⟨date, sub⟩ := x
    unfold archivedLogs
    split
    · cases sub with
      | none => exact List.Pairwise.nil
      | some sub =>
        refine List.pairwise_filterMap.mpr ((List.pairwise_map.mp (h.subNames date sub hx)).imp_of_mem ?_)
        intro y y' hy hy' hne e he e' he'
        obtain ⟨_, -, rfl, -⟩ := h.archivedLog_eq_some hx hy he
        obtain ⟨_, -, rfl, -⟩ := h.archivedLog_eq_some hx hy' he'
        exact absurd rfl hne
    · exact List.Pairwise.nil
  · refine hdates.imp_of_mem fun {x y} hx hy hne e he e' he' => ?_
    obtain ⟨_, _, -, rfl, -⟩ := h.mem_archivedLogs hx he
    obtain ⟨_, _, -, rfl, -⟩ := h.mem_archivedLogs hy he'
    exact hne
  · refine List.pairwise_filterMap.mpr (hnames.imp_of_mem fun {x y} hx hy hne e he e' he' => ?_)
    obtain ⟨d, _, rfl, rfl, -⟩ := h.freshLog_eq_some hx he
    obtain ⟨d', _, rfl, rfl, -⟩ := h.freshLog_eq_some hy he'
    exact fun hd => hne (congrArg logFilename hd)
  · intro hab
    obtain ⟨x, hx, ha⟩ := List.mem_flatMap.mp ha
    obtain ⟨y, hy, hb⟩ := List.mem_filterMap.mp hb
    obtain ⟨sub, c, hsub, rfl, hc, hlog⟩ := h.mem_archivedLogs hx ha
    obtain ⟨d, _, rfl, rfl, -⟩ := h.freshLog_eq_some hy hb
    dsimp only at hab
    subst hab
    exact h.once _ hlog (List.mem_map_of_mem hy) sub (hsub ▸ hx) (List.mem_map_of_mem hc)

theorem mem_found (hdate : ∀ f ∈ logs, IsDate f.1) (f : Text × Text) :
    f ∈ (archive.flatMap archivedLogs ++ logDir.filterMap freshLog).map (fun e => (e.1, e.2.2)) ↔ f ∈ logs := by
  constructor
  · intro hf
    obtain ⟨e, he, rfl⟩ := List.mem_map.mp hf
    rcases List.mem_append.mp he with he | he
    · obtain ⟨x, hx, he⟩ := List.mem_flatMap.mp he
      obtain ⟨_, _, -, rfl, -, hlog⟩ := h.mem_archivedLogs hx he
      exact hlog
    · obtain ⟨x, hx, he⟩ := List.mem_filterMap.mp he
      obtain ⟨_, _, rfl, -, hlog⟩ := h.freshLog_eq_some hx he
      exact hlog
  · intro hf
    have hre := logRe_logFilename (hdate f hf)
    rcases h.kept f hf with hx | ⟨sub, hsub, hx⟩
    · refine List.mem_map.mpr ⟨(f.1, 1, f.2), List.mem_append_right _ (List.mem_filterMap.mpr ⟨_, hx, ?_⟩), rfl⟩
      simp [freshLog, hre]
    · refine List.mem_map.mpr ⟨(f.1, 0, f.2), List.mem_append_left _ (List.mem_flatMap.mpr ⟨_, hsub, ?_⟩), rfl⟩
      have hdir : dateDirRe f.1 = true := by
        have := ((hdate f hf).takeDate []).2
        rw [List.append_nil] at this
        simp [dateDirRe, this, atEnd]
      rw [archivedLogs, if_pos hdir]
      exact List.mem_filterMap.mpr ⟨_, hx, by simp [archivedLog, hre]⟩

end LogsStored

/-- **The rebuilder replays the day logs in order**, wherever each of them lies. -/
theorem collectLogPaths_stored {logs : List (Text × Text)} (hsorted : logs.Pairwise fun a b => a.1 < b.1)
    (hdate : ∀ f ∈ logs, IsDate f.1) {logDir : Option Dir} {archive : Option Archive}
    (h : LogsStored logs (logDir.getD []) (archive.getD [])) :
    VisitsRebuilder.collectLogPaths logDir archive = logs := by
  rw [collectLogPaths_eq]
  have hd := h.distinct
  have hm := h.mem_found hdate
  generalize (archive.getD []).flatMap archivedLogs ++ (logDir.getD []).filterMap freshLog = found at hd hm
  have hnodup : (found.map fun e => (e.1, e.2.2)).Nodup :=
    List.pairwise_map.mpr (hd.imp fun hne he => hne (Prod.mk.inj he).1)
  have hlogs : logs.Nodup := hsorted.imp fun hlt he => absurd (congrArg Prod.fst he) (ne_of_lt hlt)
  have hperm : ((found.insertionSort VisitsRebuilder.logBefore).map fun e => (e.1, e.2.2)).Perm logs :=
    ((List.perm_insertionSort _ _).map _).trans ((List.perm_ext_iff_of_nodup hnodup hlogs).mpr hm)
  have hfound : ((found.insertionSort VisitsRebuilder.logBefore).map fun e => (e.1, e.2.2)).Pairwise
      fun a b => a.1 ≤ b.1 := by
    refine List.pairwise_map.mpr ((List.pairwise_insertionSort VisitsRebuilder.logBefore found).imp ?_)
    rintro a b (h | ⟨h, -⟩)
    · exact le_of_lt h
    · exact le_of_eq h
  have hle : logs.Pairwise fun a b => a.1 ≤ b.1 := hsorted.imp fun h => le_of_lt h
  refine List.Perm.eq_of_pairwise ?_ hfound hle hperm
  intro a b ha hb hab hba
  have hdates : (logs.map Prod.fst).Nodup := List.pairwise_map.mpr (hsorted.imp fun h => ne_of_lt h)
  exact List.inj_on_of_nodup_map hdates (hperm.mem_iff.mp ha) hb (le_antisymm hab hba)

/-! ## A rebuild gives the live rows back -/

def visitColumns (v : Visit) : Text × Text × Text × Nat × Nat :=
  (v.url, v.timestamp, v.title, v.read, v.skimmed)

def eventColumns (e : Event) : Text × Text × Text := (e.url, e.timestamp, e.filename)

theorem visitColumns_forget (db : Db) : db.forget.visits.map visitColumns = db.visits.map visitColumns := by
  rw [Db.forget, List.map_map]; rfl

theorem eventColumns_forget (db : Db) (t : EventsTable) :
    (db.forget.events t).map eventColumns = (db.events t).map eventColumns := by
  rw [Db.events_forget, List.map_map]; rfl

theorem rebuild_stored (h : History) (hn : ∀ inv ∈ h.invs, inv.Commits → inv.NoNul) {logDir : Option Dir}
    {archive : Option Archive} (hl : LogsStored h.final.logs (logDir.getD []) (archive.getD [])) (db : Db) :
    (VisitsRebuilder.rebuild h.icloudDir h.downloads {} db logDir archive).1 =
      (VisitsRebuilder.rehydrateFilesystem h.icloudDir h.downloads
        (replayed h.downloads h.final.logs).db archive).1 := by
  have hr := (h.replayed_placed hn).1
  have hdate : ∀ f ∈ h.final.logs, IsDate f.1 := by
    intro f hf
    obtain ⟨inv, hinv, hd⟩ := hr.dates f hf
    exact hd ▸ h.isDate inv hinv
  have hlogs := collectLogPaths_stored hr.sorted hdate hl
  have hreplay : (VisitsRebuilder.replayLogs h.downloads (Db.empty h.downloads) logDir archive).1 =
      (replayed h.downloads h.final.logs).db := by
    rw [VisitsRebuilder.replayLogs, hlogs]; rfl
  rw [← hreplay]; rfl

theorem Home.moved_to {h : History} {archive : Archive} (ht : SnapshotsStored h archive) {e₀ e : Event}
    (hcols : eventColumns e₀ = eventColumns e) (hd : e₀.directory = h.downloads) (hhome : Home h.icloudDir e)
    {inv : Invocation} (hinv : inv ∈ h.invs) (ha : inv.Archives e.filename) :
    (VisitsRebuilder.moves h.icloudDir archive).foldl (VisitsRebuilder.moveEvent h.downloads) e₀ = e := by
  obtain ⟨d, hre, hdir⟩ := hhome
  obtain ⟨m, hm⟩ := Option.isSome_iff_exists.mp ha.moved
  simp only [eventColumns, Prod.mk.injEq] at hcols
  obtain ⟨hurl, hts, hfile⟩ := hcols
  have hmd : m.1 = d := by
    have := (h.moved inv hinv m hm).1
    rw [ha.filename, (basename_snapshotPath ha.ne_nil ha.noSlash).1, hre] at this
    exact (Option.some.inj this).symm
  obtain ⟨sub, hsub, hb⟩ := ht.kept inv hinv _ ha m hm
  rw [VisitsRebuilder.moved_to h.downloads (osPathJoin h.icloudDir d) hd]
  · cases e₀; cases e
    simp_all
  · intro m' hm' hf
    obtain ⟨date, sub', hx, hdate, h₁, h₂⟩ := (VisitsRebuilder.mem_moves h.icloudDir).mp hm'
    have hin : m'.2 ∈ sub'.map Prod.fst := mem_sortStrings.mp (List.mem_filter.mp h₂).1
    have := ht.dated date sub' hx hdate m'.2 hin d (by rw [hf, hfile]; exact hre)
    rw [h₁, this]
  · refine ⟨(osPathJoin h.icloudDir d, e.filename), (VisitsRebuilder.mem_moves h.icloudDir).mpr ?_, hfile.symm⟩
    exact ⟨d, sub, hmd ▸ hsub, dateDirRe_snapshot hre, rfl,
      VisitsRebuilder.mem_snapshotFiles hb (by rw [hre]; rfl)⟩

/-- **A rebuild gives the live rows back**: every visits row but for its mark, and
every event row, with its directory if its snapshot was archived. -/
theorem rebuilt_same (h : History) (hn : ∀ inv ∈ h.invs, inv.Commits → inv.NoNul) {logDir : Option Dir}
    {archive : Option Archive} (hl : LogsStored h.final.logs (logDir.getD []) (archive.getD []))
    (ht : SnapshotsStored h (archive.getD [])) (db : Db) :
    let rebuilt := (VisitsRebuilder.rebuild h.icloudDir h.downloads {} db logDir archive).1
    rebuilt.visits.map visitColumns = h.final.db.visits.map visitColumns ∧
      (∀ t, (rebuilt.events t).map eventColumns = (h.final.db.events t).map eventColumns) ∧
      ∀ t, ∀ e ∈ h.final.db.events t, (∃ inv ∈ h.invs, inv.Archives e.filename) → e ∈ rebuilt.events t := by
  intro rebuilt
  obtain ⟨hr, hp⟩ := h.replayed_placed hn
  have heq : rebuilt = (VisitsRebuilder.rehydrateFilesystem h.icloudDir h.downloads
      (replayed h.downloads h.final.logs).db archive).1 := rebuild_stored h hn hl db
  have hforget : rebuilt.forget = h.final.db.forget := by
    rw [heq, VisitsRebuilder.forget_rehydrateFilesystem, hr.same]
  refine ⟨?_, fun t => ?_, fun t e he ha => ?_⟩
  · rw [← visitColumns_forget, hforget, visitColumns_forget]
  · rw [← eventColumns_forget, hforget, eventColumns_forget]
  · obtain ⟨inv, hinv, ha⟩ := ha
    have hhome := hp.archived t e he inv hinv ha
    -- the row that the replay left for it, still in Downloads
    have hmem : { e with directory := [] } ∈ (replayed h.downloads h.final.logs).db.forget.events t := by
      rw [hr.same, Db.events_forget]
      exact List.mem_map.mpr ⟨e, he, rfl⟩
    rw [Db.events_forget] at hmem
    obtain ⟨e₀, he₀, heq₀⟩ := List.mem_map.mp hmem
    have hcols : eventColumns e₀ = eventColumns e := by
      simp only [Event.mk.injEq] at heq₀
      simp [eventColumns, heq₀]
    obtain ⟨m, hm⟩ := Option.isSome_iff_exists.mp ha.moved
    obtain ⟨sub, hsub, -⟩ := ht.kept inv hinv _ ha m hm
    cases archive with
    | none => cases hsub
    | some entries =>
      rw [heq, VisitsRebuilder.events_rehydrateFilesystem]
      exact List.mem_map.mpr ⟨e₀, he₀, Home.moved_to ht hcols (hr.fresh t e₀ he₀) hhome hinv ha⟩

/-! ## While no log has moved -/

def logDirOf (logs : List (Text × Text)) : Dir := logs.map fun f => (logFilename f.1, some f.2)

theorem logsStored_logDirOf {logs : List (Text × Text)} (hdate : ∀ f ∈ logs, IsDate f.1)
    (hnodup : (logs.map Prod.fst).Nodup) {archive : Archive} (hdates : (archive.map Prod.fst).Nodup)
    (hsub : ∀ date sub, (date, some sub) ∈ archive → (sub.map Prod.fst).Nodup ∧ ∀ x ∈ sub, logRe x.1 = none) :
    LogsStored logs (logDirOf logs) archive where
  kept f hf := Or.inl (List.mem_map.mpr ⟨f, hf, rfl⟩)
  once f hf _ sub hs hm := by
    obtain ⟨x, hx, hxf⟩ := List.mem_map.mp hm
    have := (hsub _ _ hs).2 x hx
    rw [hxf, logRe_logFilename (hdate f hf)] at this
    cases this
  fresh name content d hm hre := by
    obtain ⟨f, hf, he⟩ := List.mem_map.mp hm
    cases he
    rw [logRe_logFilename (hdate f hf)] at hre
    cases hre
    exact ⟨rfl, hf⟩
  archived date sub hs name content hm hre := by
    have := (hsub _ _ hs).2 _ hm
    rw [hre] at this
    cases this
  logNames := by
    rw [logDirOf, List.map_map]
    exact List.pairwise_map.mpr ((List.pairwise_map.mp hnodup).imp fun hne he => hne (logFilename_inj he))
  dateNames := hdates
  subNames date sub hs := (hsub _ _ hs).1

def archivedRead : Invocation where
  recordId := ascii "0123456789abcdef0123456789abcdef"
  todayISO := ascii "2024-05-01"
  message := ⟨[], ascii "https://a.example/", ascii "2024-05-01T12:00:00Z", ascii "A", ascii "read",
    snapshotPath (ascii "2024-05-01T12-00-00Z-0a1b.mhtml"), false⟩
  faults := {}
  moved := some (ascii "2024-05-01", ascii "/archive/2024-05-01")

def readHistory : History where
  downloads := ascii "/downloads"
  icloudDir := ascii "/archive"
  invs := [archivedRead]
  logged inv h := by rw [List.mem_singleton.mp h]; decide
  uuid inv h := by rw [List.mem_singleton.mp h]; decide
  isDate inv h := by rw [List.mem_singleton.mp h]; decide
  dates := List.pairwise_singleton _ _
  clean inv h := by rw [List.mem_singleton.mp h]; decide
  named inv h _ := by
    rw [List.mem_singleton.mp h]
    exact Or.inr ⟨ascii "2024-05-01T12-00-00Z-0a1b.mhtml", by decide, by decide, by decide⟩
  once a ha b hb _ _ _ _ _ _ := by
    rw [List.mem_singleton.mp ha, List.mem_singleton.mp hb]
    exact ⟨rfl, rfl, rfl⟩
  moved inv h m hm := by
    rw [List.mem_singleton.mp h] at hm ⊢
    cases hm
    exact ⟨by decide, by decide⟩

def readArchive : Archive := [(ascii "2024-05-01", some [(ascii "2024-05-01T12-00-00Z-0a1b.mhtml", some [])])]

set_option maxRecDepth 4000 in
theorem readHistory_dates : readHistory.final.logs.map Prod.fst = [ascii "2024-05-01"] := by decide

theorem rebuilt_same_read :
    let rebuilt := (VisitsRebuilder.rebuild readHistory.icloudDir readHistory.downloads {} (Db.empty [])
      (some (logDirOf readHistory.final.logs)) (some readArchive)).1
    rebuilt.visits.map visitColumns = readHistory.final.db.visits.map visitColumns ∧
      (∀ t, (rebuilt.events t).map eventColumns = (readHistory.final.db.events t).map eventColumns) ∧
      ∀ t, ∀ e ∈ readHistory.final.db.events t, (∃ inv ∈ readHistory.invs, inv.Archives e.filename) →
        e ∈ rebuilt.events t := by
  have hdate : ∀ f ∈ readHistory.final.logs, IsDate f.1 := by
    intro f hf
    have := List.mem_map_of_mem (f := Prod.fst) hf
    rw [readHistory_dates, List.mem_singleton] at this
    rw [this]; decide
  have hsub : ∀ date sub, (date, some sub) ∈ readArchive →
      date = ascii "2024-05-01" ∧ sub = [(ascii "2024-05-01T12-00-00Z-0a1b.mhtml", some [])] := by
    intro date sub hs
    simpa [readArchive] using List.mem_singleton.mp hs
  have hn : ∀ inv ∈ readHistory.invs, inv.Commits → inv.NoNul := by
    intro inv hinv _
    rw [List.mem_singleton.mp hinv]; decide
  have hl : LogsStored readHistory.final.logs ((some (logDirOf readHistory.final.logs)).getD [])
      ((some readArchive).getD []) := by
    refine logsStored_logDirOf hdate ?_ (List.nodup_singleton _) fun date sub hs => ?_
    · rw [readHistory_dates]; exact List.nodup_singleton _
    · rw [(hsub date sub hs).2]; decide
  have ht : SnapshotsStored readHistory readArchive := by
    refine ⟨fun inv hinv b hb m hm => ?_, fun date sub hs _ f hf d hd => ?_⟩
    · rw [List.mem_singleton.mp hinv] at hm hb
      cases hm
      have hbase := hb.filename
      have hreq : archivedRead.message.request.filename =
        snapshotPath (ascii "2024-05-01T12-00-00Z-0a1b.mhtml") := by decide
      rw [hreq] at hbase
      exact ⟨_, List.mem_singleton_self _, by rw [← List.append_cancel_left hbase]; decide⟩
    · obtain ⟨rfl, rfl⟩ := hsub date sub hs
      rw [List.map_singleton, List.mem_singleton] at hf
      subst hf
      have hre : snapshotFilenameRe (ascii "2024-05-01T12-00-00Z-0a1b.mhtml") =
        some (ascii "2024-05-01") := by decide
      exact (Option.some.inj (hre.symm.trans hd)).symm
  exact rebuilt_same readHistory hn hl ht (Db.empty [])

/-! ## A title with a NUL byte -/

def nulVisit : Invocation where
  recordId := ascii "0123456789abcdef0123456789abcdef"
  todayISO := ascii "2024-05-01"
  message := ⟨[], ascii "https://a.example/", ascii "2024-05-01T12:00:00Z", ascii "A" ++ 0 :: ascii "B",
    [], [], false⟩
  faults := {}
  moved := none

def nulHistory : History where
  downloads := ascii "/downloads"
  icloudDir := ascii "/archive"
  invs := [nulVisit]
  logged inv h := by rw [List.mem_singleton.mp h]; decide
  uuid inv h := by rw [List.mem_singleton.mp h]; decide
  isDate inv h := by rw [List.mem_singleton.mp h]; decide
  dates := List.pairwise_singleton _ _
  clean inv h := by rw [List.mem_singleton.mp h]; decide
  named inv h ht := by
    rw [List.mem_singleton.mp h] at ht
    exact absurd ht (by decide)
  once a ha b hb _ _ _ _ _ _ := by
    rw [List.mem_singleton.mp ha, List.mem_singleton.mp hb]
    exact ⟨rfl, rfl, rfl⟩
  moved inv h m hm := by rw [List.mem_singleton.mp h] at hm; cases hm

set_option maxRecDepth 4000 in
/-- The live title ends at the NUL byte, the rebuilt one does not. -/
theorem nul_title_differs :
    LogsStored nulHistory.final.logs (logDirOf nulHistory.final.logs) [] ∧ SnapshotsStored nulHistory [] ∧
      nulHistory.final.db.visits.map visitColumns =
        [(ascii "https://a.example/", ascii "2024-05-01T12:00:00Z", ascii "A", 0, 0)] ∧
      (VisitsRebuilder.rebuild nulHistory.icloudDir nulHistory.downloads {} (Db.empty [])
          (some (logDirOf nulHistory.final.logs)) none).1.visits.map visitColumns =
        [(ascii "https://a.example/", ascii "2024-05-01T12:00:00Z", ascii "A" ++ 0 :: ascii "B", 0, 0)] := by
  have hdates : nulHistory.final.logs.map Prod.fst = [ascii "2024-05-01"] := by decide
  have hdate : ∀ f ∈ nulHistory.final.logs, IsDate f.1 := by
    intro f hf
    have := List.mem_map_of_mem (f := Prod.fst) hf
    rw [hdates, List.mem_singleton] at this
    rw [this]; decide
  refine ⟨logsStored_logDirOf hdate ?_ List.nodup_nil fun _ _ hs => ?_,
    ⟨fun inv hinv b hb m hm => ?_, fun _ _ hs => ?_⟩, by decide, by decide⟩
  · rw [hdates]; exact List.nodup_singleton _
  · cases hs
  · rw [List.mem_singleton.mp hinv] at hm; cases hm
  · cases hs

end BVLHost

end VisitLogger
