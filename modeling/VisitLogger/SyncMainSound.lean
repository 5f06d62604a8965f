import VisitLogger.SyncMain

/-!
# Which failures a sync clears

A push clears its failures batch by batch, and so not at all when there is nothing to
send; a pull clears its own; and nothing clears those of the handshake.
-/

namespace VisitLogger

open SnapshotMover (MoverError)
open Raising (Stmt seq forEach reraise Keeps keeps_seq keeps_forEach keeps_reraise)

namespace SyncClient

namespace Main

variable {w : World} {peerLogsDir : Path} {machineId endpoint : Text}

/-! ## The push -/

def cursorOf (machineId : Text) (rows : List SyncRow) : Text × Int :=
  let r := rowOf machineId rows
  (r.cursorLogDate, r.cursorLineOffset)

def pending (w : World) (cur : Text × Int) : List LogLine :=
  (datesFrom w cur).flatMap fun d => linesAfter w d (startOff cur d)

theorem find_upsert (machineId : Text) (f : SyncRow → SyncRow) (hf : ∀ r, (f r).machineId = r.machineId)
    (rows : List SyncRow) :
    (upsert machineId f rows).find? (fun r => r.machineId = machineId) = some (f (rowOf machineId rows)) := by
  unfold upsert
  split
  · rename_i hhas
    have hsome : (rows.find? fun r => r.machineId = machineId).isSome := by
      obtain ⟨r, hr, hk⟩ := List.mem_map.mp ((Table.has_iff SyncRow.machineId).mp hhas)
      exact List.find?_isSome.mpr ⟨r, hr, by simpa using hk⟩
    obtain ⟨r, hr⟩ := Option.isSome_iff_exists.mp hsome
    have hk : r.machineId = machineId := by simpa using List.find?_some hr
    rw [Table.find_updateWhere SyncRow.machineId _ f rows hf, rowOf, hr]
    simp [hk]
  · rename_i hhas
    have hnone : (rows.find? fun r => r.machineId = machineId) = none := by
      refine List.find?_eq_none.mpr fun r hr hk => hhas ?_
      exact (Table.has_iff SyncRow.machineId).mpr (List.mem_map.mpr ⟨r, hr, by simpa using hk⟩)
    rw [List.find?_append, rowOf, hnone]
    simp [hf]

theorem getCursor_markAttempt (w : World) (machineId : Text) (error : Option Text) (s : State) :
    getCursor machineId (markAttempt w machineId error s).syncState = cursorOf machineId s.syncState := by
  have hrows : (markAttempt w machineId error s).syncState = upsert machineId
      (fun r => { r with lastSyncAttemptAt := (nowIso w s).1, lastError := error.getD [] }) s.syncState := rfl
  have hfind := find_upsert machineId
    (fun r => { r with lastSyncAttemptAt := (nowIso w s).1, lastError := error.getD [] }) (fun _ =>
      rfl) s.syncState
  rw [getCursor, hrows, hfind]
  rfl

theorem sendPush_none {pbLines : List LogLine} {s t : State} (h : sendPush w endpoint pbLines s = (t, none)) :
    t.moverErrors = SyncClient.clearError (ascii "sync_push") endpoint s.moverErrors := by
  have := Raising.reraise_eq_none h
  split at this
  · cases this
    rfl
  · cases this

theorem clearError_twice (operation target : Text) (rows : List MoverError) :
    SyncClient.clearError operation target (SyncClient.clearError operation target rows) =
      SyncClient.clearError operation target rows := by
  simp [SyncClient.clearError, List.filter_filter]

/-- The lines `ls` are gathered, and either none of them is sent or the failures are cleared. -/
def IsGathered (endpoint : Text) (rows : List MoverError) (ls : List LogLine) (g : Gathered) : Prop :=
  g.state.moverErrors = rows ∧ g.pbLines = ls ∨
    g.state.moverErrors = SyncClient.clearError (ascii "sync_push") endpoint rows ∧ ls ≠ []

theorem IsGathered.sent {rows : List MoverError} {ls pbLines : List LogLine} {g h : Gathered}
    (hg : IsGathered endpoint rows ls g)
    (hsend : Gathered.onState (sendPush w endpoint pbLines) g = (h, none)) :
    h.state.moverErrors = SyncClient.clearError (ascii "sync_push") endpoint rows := by
  have hstate : sendPush w endpoint pbLines g.state = (h.state, none) := by
    obtain ⟨hfst, hsnd⟩ := Prod.mk.inj hsend
    exact Prod.ext (congrArg Gathered.state hfst) hsnd
  rw [sendPush_none hstate]
  rcases hg with ⟨hrows, -⟩ | ⟨hrows, -⟩
  · rw [hrows]
  · rw [hrows, clearError_twice]

theorem isGathered_line {rows : List MoverError} {ls : List LogLine} {l : LogLine} {g h : Gathered}
    (hg : IsGathered endpoint rows ls g) (hline : pushLine w endpoint l g = (h, none)) :
    IsGathered endpoint rows (ls ++ [l]) h := by
  have hnext : IsGathered endpoint rows (ls ++ [l])
      { g with pbLines := g.pbLines ++ [l], last := (l.date, l.lineOffset) } := by
    rcases hg with ⟨hrows, hls⟩ | ⟨hrows, -⟩
    · exact Or.inl ⟨hrows, by rw [hls]⟩
    · exact Or.inr ⟨hrows, by simp⟩
  simp only [pushLine] at hline
  split at hline
  · obtain ⟨m, hsend, hclear⟩ := Raising.seq_eq_none hline
    cases hclear
    have hrows := hnext.sent hsend
    exact Or.inr ⟨hrows, by simp⟩
  · cases hline
    exact hnext

theorem isGathered_date {rows : List MoverError} {ls : List LogLine} {cur : Text × Int} {date : Text}
    {g h : Gathered}
    (hg : IsGathered endpoint rows ls g) (hdate : pushDate w endpoint cur date g = (h, none)) :
    IsGathered endpoint rows (ls ++ linesAfter w date (startOff cur date)) h := by
  obtain ⟨m, hlines, hread⟩ := Raising.seq_eq_none hdate
  cases congrArg Prod.fst hread
  refine Raising.forEach_induction (fun xs g => IsGathered endpoint rows (ls ++ xs) g)
    (fun xs l g h hg hline => ?_)
    (by rwa [List.append_nil]) hlines
  rw [← List.append_assoc]
  exact isGathered_line hg hline

/-- **A push that went through** has cleared its failures if it had lines to send. -/
theorem doPush_none {s t : State} (h : doPush w machineId endpoint s = (t, none)) :
    t.moverErrors =
      if pending w (getCursor machineId s.syncState) = [] then s.moverErrors
      else SyncClient.clearError (ascii "sync_push") endpoint s.moverErrors := by
  simp only [doPush] at h
  generalize getCursor machineId s.syncState = cur at *
  split at h
  · rename_i g hgather
    have ht : t.moverErrors = g.state.moverErrors := by
      rw [← (Prod.mk.inj h).1]
      split <;> rfl
    obtain ⟨m, hdates, hrest⟩ := Raising.seq_eq_none hgather
    have hm : IsGathered endpoint s.moverErrors (pending w cur) m := by
      refine Raising.forEach_induction
        (fun dates g => IsGathered endpoint s.moverErrors (dates.flatMap fun d =>
          linesAfter w d (startOff cur d)) g)
        (fun dates d g h hg hdate => ?_) (Or.inl ⟨rfl, rfl⟩) hdates
      rw [List.flatMap_append, List.flatMap_singleton]
      exact isGathered_date hg hdate
    rw [ht]
    split at hrest
    · rename_i hnil
      cases hrest
      rcases hm with ⟨hrows, hls⟩ | ⟨hrows, hne⟩
      · rw [if_pos (hls ▸ hnil), hrows]
      · rw [if_neg hne, hrows]
    · rename_i hne
      rw [hm.sent hrest, if_neg]
      rcases hm with ⟨-, hls⟩ | ⟨-, hls⟩
      · exact fun hnil => hne (hls ▸ hnil)
      · exact hls
  · cases h

/-! ## The pull -/

theorem keeps_pullChunk (rows : List MoverError) (chunk : LogChunk) :
    Keeps (fun s => s.moverErrors = rows) (pullChunk w peerLogsDir chunk) := by
  have hline : ∀ l, Keeps (fun s => s.moverErrors = rows) (pullLine w peerLogsDir chunk.peerMachineId l) := by
    intro l s hs
    unfold pullLine
    split <;> exact hs
  have hcursor : ∀ date offset, Keeps (fun s => s.moverErrors = rows)
      (Raising.update (setCursor w chunk.peerMachineId date offset) : Stmt State Text) := fun _ _ =>
    Raising.keeps_update fun _ hs => hs
  intro s hs
  exact keeps_seq (keeps_forEach hline chunk.lines) (hcursor _ _) s hs

/-- **A pull that went through** has cleared its failures. -/
theorem doPull_none {s t : State} (h : doPull w peerLogsDir endpoint s = (t, none)) :
    t.moverErrors = SyncClient.clearError (ascii "sync_pull") endpoint s.moverErrors := by
  have hstream := Raising.reraise_eq_none h
  obtain ⟨m, hchunks, hclear⟩ := Raising.seq_eq_none hstream
  obtain ⟨n, hloop, hend⟩ := Raising.seq_eq_none hchunks
  have hn : n.moverErrors = s.moverErrors := by
    have hkeeps : ∀ chunks, Keeps (fun u => u.moverErrors = s.moverErrors)
      (forEach (pullChunk w peerLogsDir) chunks) :=
      keeps_forEach (keeps_pullChunk s.moverErrors)
    rw [← show _ = n from congrArg Prod.fst hloop]
    exact hkeeps _ s rfl
  cases hclear
  cases congrArg Prod.fst hend
  rw [← hn]
  rfl

/-! ## A run -/

def syncOperations : List Text := [ascii "sync_push", ascii "sync_pull", ascii "sync_handshake"]

theorem truthy_eq_some {a : Option Text} {b : Text} (h : truthy a = some b) : a = some b :=
  (Option.filter_eq_some_iff.mp h).1

theorem sync_syncOk {insecure : Bool} {s t : State}
    (h : sync w peerLogsDir insecure machineId endpoint s = (t, .syncOk)) :
    t.moverErrors = SyncClient.clearError (ascii "sync_pull") endpoint
      (if pending w (cursorOf machineId s.syncState) = [] then s.moverErrors
        else SyncClient.clearError (ascii "sync_push") endpoint s.moverErrors) := by
  simp only [sync] at h
  split at h
  · cases h
  · split at h
    · rename_i u hsync
      obtain ⟨m, hpush, hpull⟩ := Raising.seq_eq_none hsync
      have ht : t.moverErrors = u.moverErrors := by
        rw [← (Prod.mk.inj h).1]
        rfl
      rw [ht, doPull_none hpull, doPush_none hpush, getCursor_markAttempt]
      rfl
    · cases h

/-- **A run that ends well** clears the pull's failures, and the push's if it had lines to send. -/
theorem main_syncOk {args : Args} {s t : State} (hid : machineIdFromConfig w = .ok (some machineId))
    (hserver : endpointOf w args = .ok (some endpoint)) (h : main w peerLogsDir args s = (t, .syncOk)) :
    t.moverErrors = SyncClient.clearError (ascii "sync_pull") endpoint
      (if pending w (cursorOf machineId s.syncState) = [] then s.moverErrors
        else SyncClient.clearError (ascii "sync_push") endpoint s.moverErrors) := by
  simp only [main, hid, hserver] at h
  split at h
  · cases h
  · rename_i id htruthy
    cases truthy_eq_some htruthy
    split at h
    · cases h
    · rename_i e htruthy
      cases truthy_eq_some htruthy
      split at h
      · cases h
      · cases h
      · cases h
      · split at h
        · cases h
        · cases h
        · exact sync_syncOk h

def NoneLeft (endpoint : Text) (rows : List MoverError) : Prop :=
  ∀ r ∈ rows, r.target = endpoint → r.operation ∉ syncOperations

/-- **After a run that ended well** no failure of the endpoint is left when there were
only failures of the pull, and of the push if it had lines to send. -/
theorem noneLeft_iff {args : Args} {s t : State} (hid : machineIdFromConfig w = .ok (some machineId))
    (hserver : endpointOf w args = .ok (some endpoint)) (h : main w peerLogsDir args s = (t, .syncOk)) :
    NoneLeft endpoint t.moverErrors ↔ ∀ r ∈ s.moverErrors, r.target = endpoint → r.operation ∈ syncOperations →
      r.key = ascii "sync_pull|" ++ endpoint ∨
        r.key = ascii "sync_push|" ++ endpoint ∧ pending w (cursorOf machineId s.syncState) ≠ [] := by
  have hkey : ∀ op : Text, op ++ ascii "|" ++ endpoint = op ++ (ascii "|" ++ endpoint) :=
    fun op => List.append_assoc _ _ _
  rw [NoneLeft, main_syncOk hid hserver h]
  have hpull : ascii "sync_pull|" = ascii "sync_pull" ++ ascii "|" := by decide +kernel
  have hpush : ascii "sync_push|" = ascii "sync_push" ++ ascii "|" := by decide +kernel
  rw [hpull, hpush]
  by_cases hnil : pending w (cursorOf machineId s.syncState) = []
  · rw [if_pos hnil]
    simp only [SyncClient.clearError, List.mem_filter, decide_eq_true_eq, hnil, ne_eq,
      not_true_eq_false, and_false, or_false]
    exact ⟨fun h r hr ht ho => by_contra fun hk => h r ⟨hr, hk⟩ ht ho,
      fun h r hr ht ho => hr.2 (h r hr.1 ht ho)⟩
  · rw [if_neg hnil]
    simp only [SyncClient.clearError, List.mem_filter, decide_eq_true_eq, ne_eq, hnil,
      not_false_eq_true, and_true]
    refine ⟨fun h r hr ht ho => ?_, fun h r hr ht ho => ?_⟩
    · by_contra hk
      rw [not_or] at hk
      exact h r ⟨⟨hr, hk.2⟩, hk.1⟩ ht ho
    · rcases h r hr.1.1 ht ho with hk | hk
      · exact hr.2 hk
      · exact hr.1.2 hk

/-! ## Any run -/

section
variable {k : Text}

def HasKey (k : Text) (s : State) : Prop := k ∈ s.moverErrors.map (·.key)

theorem HasKey.recordError {s : State} (h : HasKey k s) (w : World) (operation target message : Text)
    (immediate : Bool) :
    HasKey k (recordError w operation target message immediate s) := by
  show k ∈ (SyncClient.recordError (w.clock s.ticks) operation target message immediate s.moverErrors).map (·.key)
  simp only [SyncClient.recordError]
  split
  · rw [Table.keys_updateWhere MoverError.key]
    · exact h
    · exact fun _ => rfl
  · rw [List.map_append]
    exact List.mem_append_left _ h

theorem HasKey.clearError {s : State} (h : HasKey k s) {operation target : Text}
    (hk : k ≠ operation ++ ascii "|" ++ target) :
    HasKey k (clearError operation target s) := by
  obtain ⟨r, hr, rfl⟩ := List.mem_map.mp h
  exact List.mem_map.mpr ⟨r, List.mem_filter.mpr ⟨hr, by simpa using hk⟩, rfl⟩

variable (hpush : k ≠ ascii "sync_push" ++ ascii "|" ++ endpoint)
  (hpull : k ≠ ascii "sync_pull" ++ ascii "|" ++ endpoint)

include hpush in
theorem keeps_sendPush (pbLines : List LogLine) : Keeps (HasKey k) (sendPush w endpoint pbLines) := by
  refine keeps_reraise (fun s hs => ?_) fun e s hs => hs.recordError w _ _ _ _
  split
  · exact HasKey.clearError hs hpush
  · exact hs

theorem keeps_onState {a : Stmt State Text} (h : Keeps (HasKey k) a) :
    Keeps (fun g : Gathered => HasKey k g.state) (Gathered.onState a) :=
  fun g hg => h g.state hg

include hpush in
theorem keeps_doPush : Keeps (HasKey k) (doPush w machineId endpoint) := by
  have hreset : Keeps (fun g : Gathered => HasKey k g.state)
    (Raising.update (fun g => { g with pbLines := [] }) : Stmt Gathered Text) :=
    Raising.keeps_update fun _ hg => hg
  have hline : ∀ l, Keeps (fun g : Gathered => HasKey k g.state) (pushLine w endpoint l) := by
    intro l g hg
    unfold pushLine
    dsimp only
    split
    · exact keeps_seq (keeps_onState (keeps_sendPush hpush _)) hreset _ hg
    · exact hg
  have hdate : ∀ cur date, Keeps (fun g : Gathered => HasKey k g.state)
    (pushDate w endpoint cur date) := fun cur date =>
    keeps_seq (P := fun g : Gathered => HasKey k g.state) (keeps_forEach hline _) fun g hg => hg
  have hgather : ∀ cur, Keeps (fun g : Gathered => HasKey k g.state)
    (seq (forEach (pushDate w endpoint cur) (datesFrom w cur)) fun g =>
      if g.pbLines = [] then (g, none) else Gathered.onState (sendPush w endpoint g.pbLines) g) := by
    refine fun cur => keeps_seq (P := fun g : Gathered => HasKey k g.state)
      (keeps_forEach (hdate cur) _) fun g hg => ?_
    split
    · exact hg
    · exact keeps_onState (keeps_sendPush hpush _) g hg
  intro s hs
  have := hgather (getCursor machineId s.syncState) ⟨s, [], getCursor machineId s.syncState⟩ hs
  simp only [doPush]
  split
  · rename_i g heq
    rw [heq] at this
    dsimp only
    split <;> exact this
  · rename_i g e heq
    rw [heq] at this
    exact this

include hpull in
theorem keeps_doPull : Keeps (HasKey k) (doPull w peerLogsDir endpoint) := by
  have hchunk : ∀ chunk, Keeps (HasKey k) (pullChunk w peerLogsDir chunk) := by
    intro chunk s hs
    show k ∈ (pullChunk w peerLogsDir chunk s).1.moverErrors.map (·.key)
    rw [keeps_pullChunk s.moverErrors chunk s rfl]
    exact hs
  intro s hs
  exact keeps_reraise (P := HasKey k)
    (keeps_seq (keeps_seq (keeps_forEach hchunk _) fun s hs => hs) (Raising.keeps_update fun s hs =>
      hs.clearError hpull))
    (fun e s hs => hs.recordError w _ _ _ _) s hs

include hpush hpull in
theorem sync_keeps {s : State} (hs : HasKey k s) (insecure : Bool) :
    HasKey k (sync w peerLogsDir insecure machineId endpoint s).1 := by
  simp only [sync]
  split
  · exact HasKey.recordError (s := markAttempt w machineId _ (markAttempt w machineId none s)) hs w _ _ _ _
  · have hboth : Keeps (HasKey k) (seq (doPush w machineId endpoint) (doPull w peerLogsDir endpoint)) :=
      keeps_seq (keeps_doPush hpush) (keeps_doPull hpull)
    have hkept := hboth (markAttempt w machineId none s) hs
    split
    · rename_i t heq
      rw [heq] at hkept
      exact hkept
    · rename_i t e heq
      rw [heq] at hkept
      exact hkept

end

/-- Only the failures of pushes and pulls are ever taken out. -/
theorem main_keeps {k : Text} (hk : ∀ endpoint, k ≠ ascii "sync_push" ++ ascii "|" ++ endpoint ∧
    k ≠ ascii "sync_pull" ++ ascii "|" ++ endpoint) {s : State} (hs : HasKey k s) (w : World)
      (peerLogsDir : Path) (args : Args) :
    HasKey k (main w peerLogsDir args s).1 := by
  simp only [main]
  split
  · exact hs
  · split
    · exact hs
    · split
      · exact hs
      · split
        · exact hs
        · split
          · exact hs
          · exact hs
          · exact hs
          · split
            · exact hs
            · exact hs
            · exact sync_keeps (hk _).1 (hk _).2 hs _

structure Run where
  world : World
  peerLogsDir : Path
  args : Args

def runs (s : State) (rs : List Run) : State := rs.foldl (fun s r => (main r.world r.peerLogsDir r.args s).1) s

/-- **A failed handshake stays**: no run takes its row out, however it ends. -/
theorem handshake_stays (rs : List Run) {s : State} (h : HasKey (ascii "sync_handshake|" ++ endpoint) s) :
    HasKey (ascii "sync_handshake|" ++ endpoint) (runs s rs) := by
  induction rs generalizing s with
  | nil => exact h
  | cons r rs ih =>
    refine ih (main_keeps (fun e => ⟨fun heq => ?_, fun heq => ?_⟩) h r.world r.peerLogsDir r.args)
    · exact absurd (congrArg (List.take 6) heq) (by simp [ascii])
    · exact absurd (congrArg (List.take 6) heq) (by simp [ascii])

/-! ## A handshake that failed once -/

def quiet : World where
  envMachineId := some (ascii "m1")
  envServer := some (ascii "host:1")
  config := .ok ⟨none, none⟩
  lock := .free
  openDb := none
  clock _ := []
  isRecent _ := .ok false
  buildChannel _ _ := none
  localDates := []
  readLog _ := ([], none)
  pushLogs _ _ := none
  pullLogs _ := ([], none)
  appendFails _ _ _ := none

def failedHandshake : MoverError :=
  ⟨ascii "sync_handshake|host:1", ascii "sync_handshake", ascii "host:1", ascii "no certificate", [],
    [], 1, 0, 1⟩

def afterFailedHandshake : State := ⟨Db.empty [], [], [failedHandshake], Disk.empty, [], 0⟩

def afterFailedPull : State :=
  { afterFailedHandshake with
    moverErrors := [⟨ascii "sync_pull|host:1", ascii "sync_pull", ascii "host:1", ascii "unavailable", [], [], 1, 0, 0⟩] }

/-- A failed pull is taken out by the next run. -/
theorem noneLeft_iff_quiet :
    NoneLeft (ascii "host:1") (main quiet ⟨true, []⟩ ⟨false, false, none⟩ afterFailedPull).1.moverErrors :=
  (@noneLeft_iff quiet ⟨true, []⟩ (ascii "m1") (ascii "host:1") ⟨false, false, none⟩ afterFailedPull _
    rfl rfl rfl).mpr (by
      intro r hr _ _
      obtain rfl := List.mem_singleton.mp hr
      exact Or.inl rfl)

/-- The next run goes through, and the failed handshake is still there. -/
theorem handshake_not_cleared :
    (main quiet ⟨true, []⟩ ⟨false, false, none⟩ afterFailedHandshake).2 = .syncOk ∧
      ¬ NoneLeft (ascii "host:1") (main quiet ⟨true, []⟩ ⟨false, false,
        none⟩ afterFailedHandshake).1.moverErrors := by
  have hrows : (main quiet ⟨true, []⟩ ⟨false, false, none⟩ afterFailedHandshake).1.moverErrors =
    [failedHandshake] := by
    decide +kernel
  refine ⟨by decide +kernel, fun h => ?_⟩
  rw [hrows] at h
  exact h failedHandshake (by simp) rfl (by decide)

end Main

end SyncClient

end VisitLogger
