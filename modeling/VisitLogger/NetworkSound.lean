import VisitLogger.Network
import VisitLogger.PushOrder
import VisitLogger.PullSound
import VisitLogger.Writers

/-!
# What the server and the laptops can hold

No assumption is made on the order of the dates, on which writes of hosts fail, which
pushes and pulls are lost or killed, or on which hosts die. The server's mirrors are prefixes of the laptops' day logs, its
database is what the mirrors replay to, and what a laptop holds comes from its
own invocations and from lines that other laptops have logged
(`nothing_invented`).
-/

namespace VisitLogger

open Framing

/-! ## A laptop's part of the state -/

namespace Network

section
variable {ι : Type*} [DecidableEq ι] {s : State ι} {i j : ι}

@[simp] theorem set_self (s : State ι) (i : ι) (l : Laptop) : (s.set i l).laptop i = l := by simp [State.set]

theorem set_ne (s : State ι) (l : Laptop) (h : j ≠ i) : (s.set i l).laptop j = s.laptop j := by
  simp [State.set, Function.update_of_ne h]

@[simp] theorem server_set (s : State ι) (i : ι) (l : Laptop) : (s.set i l).server = s.server := rfl

@[simp] theorem sync_setSync (s : State ι) (i : ι) (t : SyncClient.Sync) : (s.setSync i t).sync i = t := by
  simp [State.setSync, State.sync, State.set]

theorem sync_setSync_ne (s : State ι) (t : SyncClient.Sync) (h : j ≠ i) :
    (s.setSync i t).sync j = { s.sync j with server := t.server } := by
  simp [State.setSync, State.sync, State.set, Function.update_of_ne h]

@[simp] theorem pulls_setSync (s : State ι) (i j : ι) (t : SyncClient.Sync) :
    (s.setSync i t).pulls j = { s.pulls j with server := t.server.disk } := by
  by_cases h : j = i
  · subst h
    simp [State.setSync, State.pulls, State.set]
  · simp [State.setSync, State.pulls, State.set, Function.update_of_ne h]

@[simp] theorem sync_setPulls (s : State ι) (i j : ι) (t : PullLogs.State) :
    (s.setPulls i t).sync j = s.sync j := by
  by_cases h : j = i
  · subst h
    simp [State.setPulls, State.sync, State.set]
  · simp [State.setPulls, State.sync, State.set, Function.update_of_ne h]

theorem pulls_setPulls (s : State ι) {t : PullLogs.State} (h : t.server = s.server.disk) :
    (s.setPulls i t).pulls i = t := by
  simp [State.setPulls, State.pulls, State.set, ← h]

theorem pulls_setPulls_ne (s : State ι) (t : PullLogs.State) (h : j ≠ i) :
    (s.setPulls i t).pulls j = s.pulls j := by
  simp [State.setPulls, State.pulls, State.set, Function.update_of_ne h]

@[simp] theorem sync_setRunning (s : State ι) (i j : ι) (r : List Running) :
    (s.setRunning i r).sync j = s.sync j := by
  by_cases h : j = i
  · subst h
    simp [State.setRunning, State.sync, State.set]
  · simp [State.setRunning, State.sync, State.set, Function.update_of_ne h]

@[simp] theorem pulls_setRunning (s : State ι) (i j : ι) (r : List Running) :
    (s.setRunning i r).pulls j = s.pulls j := by
  by_cases h : j = i
  · subst h
    simp [State.setRunning, State.pulls, State.set]
  · simp [State.setRunning, State.pulls, State.set, Function.update_of_ne h]

@[simp] theorem home_setRunning (s : State ι) (i j : ι) (r : List Running) :
    ((s.setRunning i r).laptop j).home =
      (s.laptop j).home := congrArg SyncClient.Sync.home (sync_setRunning s i j r)

@[simp] theorem home_setPulls (s : State ι) (i j : ι) (t : PullLogs.State) :
    ((s.setPulls i t).laptop j).home = (s.laptop j).home := congrArg SyncClient.Sync.home
      (sync_setPulls s i j t)

@[simp] theorem home_setSync (s : State ι) (i : ι) (t : SyncClient.Sync) :
    ((s.setSync i t).laptop i).home = t.home := congrArg SyncClient.Sync.home (sync_setSync s i t)

theorem home_setSync_ne (s : State ι) (t : SyncClient.Sync) (h : j ≠ i) :
    ((s.setSync i t).laptop j).home = (s.laptop j).home := congrArg SyncClient.Sync.home (sync_setSync_ne s t h)

@[simp] theorem running_setPulls (s : State ι) (i j : ι) (t : PullLogs.State) :
    ((s.setPulls i t).laptop j).running = (s.laptop j).running := by
  by_cases h : j = i
  · subst h
    simp [State.setPulls]
  · simp [State.setPulls, set_ne _ _ h]

@[simp] theorem running_setSync (s : State ι) (i j : ι) (t : SyncClient.Sync) :
    ((s.setSync i t).laptop j).running = (s.laptop j).running := by
  by_cases h : j = i
  · subst h
    simp [State.setSync, State.set]
  · simp [State.setSync, State.set, Function.update_of_ne h]

@[simp] theorem data_setRunning (s : State ι) (i j : ι) (r : List Running) :
    ((s.setRunning i r).laptop j).data =
      (s.laptop j).data := congrArg PullLogs.State.data (pulls_setRunning s i j r)

@[simp] theorem data_setSync (s : State ι) (i j : ι) (t : SyncClient.Sync) :
    ((s.setSync i t).laptop j).data = (s.laptop j).data := congrArg PullLogs.State.data (pulls_setSync s i j t)

@[simp] theorem data_setPulls (s : State ι) (i : ι) (t : PullLogs.State) :
    ((s.setPulls i t).laptop i).data = t.data := by simp [State.setPulls]

theorem data_setPulls_ne (s : State ι) (t : PullLogs.State) (h : j ≠ i) :
    ((s.setPulls i t).laptop j).data = (s.laptop j).data := congrArg PullLogs.State.data
      (pulls_setPulls_ne s t h)

@[simp] theorem server_setRunning (s : State ι) (i : ι) (r : List Running) :
    (s.setRunning i r).server = s.server := rfl

@[simp] theorem server_setPulls (s : State ι) (i : ι) (t : PullLogs.State) :
    (s.setPulls i t).server = s.server := rfl

@[simp] theorem server_setSync (s : State ι) (i : ι) (t : SyncClient.Sync) :
    (s.setSync i t).server = t.server := rfl

/-! ## What a step does -/

variable {cfg : Config ι} {s' : State ι}

theorem appendLine_spec {date line : Text} (h : appendLine cfg s i date line = some s') :
    IsDate date ∧ (nl ∉ line ∧ cr ∉ line) ∧
      s' = s.setSync i { s.sync i with
        home := SyncClient.appendLocal (cfg.sync i) (s.laptop i).home date line } := by
  obtain ⟨t, ht, rfl⟩ := Option.map_eq_some_iff.mp h
  obtain ⟨hd, hl, rfl⟩ := SyncClient.step_append ht
  exact ⟨hd, hl, rfl⟩

theorem step_log {inv : BVLHost.Invocation} (h : step cfg s (.log i inv) = some s') : inv.Accepted ∧
    ∃ r t, s' = t.setRunning i r ∧ r = (s.laptop i).running ++ [⟨inv, false⟩] ∧
      (inv.faults.action.isSome ∧ t = s ∨ inv.faults.action = none ∧ appendLine cfg s i inv.todayISO
        (VisitLog.actionLine inv.recordId inv.message.request) = some t) := by
  simp only [step] at h
  split at h
  · rename_i ha
    split at h
    · rename_i hf
      exact ⟨ha, _, s, (Option.some.inj h).symm, rfl, Or.inl ⟨hf, rfl⟩⟩
    · rename_i hf
      obtain ⟨t, ht, rfl⟩ := Option.map_eq_some_iff.mp h
      exact ⟨ha, _, t, rfl, rfl, Or.inr ⟨by simpa using hf, ht⟩⟩
  · cases h

theorem step_commit {n : Nat} (h : step cfg s (.commit i n) = some s') : ∃ r t,
    (s.laptop i).running[n]? = some r ∧ r.committed = false ∧ r.inv.faults.db = none ∧
      Runs.run (PullLogs.step (cfg.pulls i)) (s.pulls i) ((hostOps cfg i r.inv).map .host) = some t ∧
      s' = (s.setPulls i t).setRunning i ((s.laptop i).running.set n { r with committed := true }) := by
  simp only [step] at h
  split at h
  · cases h
  · rename_i r hr
    split at h
    · cases h
    · rename_i hc
      obtain ⟨t, ht, rfl⟩ := Option.map_eq_some_iff.mp h
      obtain ⟨hc, hf⟩ := not_or.mp hc
      exact ⟨r, t, hr, by simpa using hc, by simpa using hf, ht, rfl⟩

theorem step_answer {n : Nat} (h : step cfg s (.answer i n) = some s') : ∃ r t,
    (s.laptop i).running[n]? = some r ∧ (r.committed = true ∨ r.inv.faults.db.isSome) ∧
      s' = t.setRunning i ((s.laptop i).running.eraseIdx n) ∧
      (t = s ∨ appendLine cfg s i r.inv.todayISO
        (VisitLog.resultLine r.inv.recordId (BVLHost.resultText r.inv.errors)) = some t) := by
  simp only [step] at h
  split at h
  · cases h
  · rename_i r hr
    split at h
    · rename_i hc
      split at h
      · cases h
        exact ⟨r, s, hr, hc, rfl, Or.inl rfl⟩
      · obtain ⟨t, ht, rfl⟩ := Option.map_eq_some_iff.mp h
        exact ⟨r, t, hr, hc, rfl, Or.inr ht⟩
    · cases h

theorem step_die {n : Nat} (h : step cfg s (.die i n) = some s') :
    s' = s.setRunning i ((s.laptop i).running.eraseIdx n) := by
  obtain ⟨r, -, rfl⟩ := Option.map_eq_some_iff.mp h
  rfl

theorem step_push {a : SyncClient.Act} (h : step cfg s (.push i a) = some s') : a.isAppend = false ∧
    (a = .start → (s.laptop i).pull = none) ∧
    ∃ t, SyncClient.step (cfg.sync i) (s.sync i) a = some t ∧ s' = s.setSync i t := by
  simp only [step] at h
  split at h
  · rename_i hc
    obtain ⟨t, ht, rfl⟩ := Option.map_eq_some_iff.mp h
    refine ⟨?_, fun ha => ?_, t, ht, rfl⟩
    · cases a with
      | append _ _ => cases hc
      | _ => rfl
    · subst ha
      simpa [canSync] using hc
  · cases h

/-- A step of a pull that a laptop or the server takes for it. -/
def IsClient : PullLogs.Act → Prop
  | .append _ _ _ _ => False
  | .host _ => False
  | _ => True

theorem step_pull {a : PullLogs.Act} (h : step cfg s (.pull i a) = some s') : IsClient a ∧
    (a = .start → (s.laptop i).push = none) ∧
    ∃ t, PullLogs.step (cfg.pulls i) (s.pulls i) a = some t ∧ s' = s.setPulls i t := by
  simp only [step] at h
  split at h
  · rename_i hc
    obtain ⟨t, ht, rfl⟩ := Option.map_eq_some_iff.mp h
    refine ⟨?_, fun ha => ?_, t, ht, rfl⟩
    · cases a with
      | append _ _ _ _ => cases hc
      | host _ => cases hc
      | _ => trivial
    · subst ha
      simpa [canSync] using hc
  · cases h

end

end Network

namespace PullLogs

theorem server_step {cfg : Config} {s s' : State} {a : Act} (ha : Network.IsClient a)
    (h : step cfg s a = some s') : s'.server = s.server := by
  cases a with
  | append peer io date group => cases ha
  | host o => cases ha
  | start =>
    simp only [step] at h
    split at h
    · cases h
    · cases h
      rfl
  | list =>
    obtain ⟨p, p', -, -, rfl⟩ := step_pull h
    rfl
  | next =>
    obtain ⟨p, p', -, -, rfl⟩ := step_pull h
    rfl
  | eof =>
    obtain ⟨p, p', -, -, rfl⟩ := step_pull h
    rfl
  | endPeer =>
    obtain ⟨p, p', -, -, rfl⟩ := step_pull h
    rfl
  | receive =>
    obtain ⟨p, p', -, -, rfl⟩ := step_pull h
    rfl
  | mirror =>
    obtain ⟨p, c, l, -, -, -, -, rfl⟩ := step_mirror h
    rfl
  | replay =>
    obtain ⟨p, c, l, -, -, -, -, rfl⟩ := step_replay h
    rfl
  | endChunk =>
    obtain ⟨p, c, cur, -, -, -, -, rfl⟩ := step_endChunk h
    rfl
  | finish =>
    obtain ⟨p, -, -, -, -, rfl⟩ := step_finish h
    rfl
  | fail =>
    obtain ⟨p, -, rfl⟩ := Option.map_eq_some_iff.mp h
    rfl
  | kill =>
    obtain ⟨p, -, rfl⟩ := Option.map_eq_some_iff.mp h
    rfl

theorem run_host {cfg : Config} {s t : State} {ops : List Op}
    (h : Runs.run (step cfg) s (ops.map .host) = some t) :
    t = { s with data := (ops.map Written.host).foldl Data.write s.data } ∧
      (ops ≠ [] → (s.pull.bind Pull.tx).isSome = false) := by
  induction ops generalizing s with
  | nil => exact ⟨(Option.some.inj h).symm, fun hne => absurd rfl hne⟩
  | cons o ops ih =>
    simp only [List.map_cons, Runs.run, step] at h
    split at h
    · cases h
    · rename_i hlock
      obtain ⟨rfl, -⟩ := ih (by simpa using h)
      exact ⟨rfl, fun _ => by simpa using hlock⟩

open Store

section
variable {logRoot : Path} {d₁ d₂ d₃ : Disk}

theorem Grown.refl (disk : Disk) : Grown logRoot disk disk := ⟨fun _ _ _ _ => List.prefix_refl _, fun _ => id⟩

theorem Grown.trans (h : Grown logRoot d₁ d₂) (h' : Grown logRoot d₂ d₃) : Grown logRoot d₁ d₃ :=
  ⟨fun P d hP hd => (h.lines P d hP hd).trans (h'.lines P d hP hd), fun p hp => h'.keys p (h.keys p hp)⟩

def Listed (logRoot : Path) (disk : Disk) : Prop :=
  ∀ P d, Plain P → IsDate d → logPath logRoot P d ∈ disk.files.keys → P ∈ disk.subdirs logRoot

theorem Listed.append {io : Io} {peer date : Text} {disk : Disk} {group : List LogLine}
    (h : Listed logRoot disk)
    (ha : AppendOk peer io date group) : Listed logRoot (appendGroup io logRoot peer disk date group).1 ∧
      ∀ P ∈ disk.subdirs logRoot, P ∈ (appendGroup io logRoot peer disk date group).1.subdirs logRoot := by
  have hfiles : (appendGroup io logRoot peer disk date group).1.files = disk.files ∨
      ∃ w, (∀ l ∈ w, l ∈ group) ∧ (appendGroup io logRoot peer disk date group).1.files =
        disk.files.insert (logPath logRoot peer date) (disk.bytes (logPath logRoot peer date) ++ encode w) :=
    appendGroup_files ha
  have hmkdir : (appendGroup io logRoot peer disk date group).1 = disk ∨
      (appendGroup io logRoot peer disk date group).1.dirs = (disk.mkdirAll (logRoot.join peer)).dirs :=
    appendGroup_mkdir
  rcases hmkdir with he | hdirs
  · rw [he]
    exact ⟨h, fun _ => id⟩
  generalize (appendGroup io logRoot peer disk date group).1 = disk' at *
  have hold : ∀ P ∈ disk.subdirs logRoot, P ∈ disk'.subdirs logRoot := by
    intro P hP
    rw [Disk.mem_subdirs] at hP ⊢
    rw [hdirs, Disk.mem_dirs_mkdirAll]
    exact Or.inr hP
  have hnew : peer ∈ disk'.subdirs logRoot := by
    rw [Disk.mem_subdirs, hdirs, Disk.mem_dirs_mkdirAll, Path.join_plain ha.plain]
    exact Or.inl (List.mem_map.mpr ⟨peer :: logRoot.elems, by simp [Path.child], rfl⟩)
  refine ⟨fun P d hP hd hk => ?_, hold⟩
  rcases hfiles with hf | ⟨w, -, hf⟩
  · rw [hf] at hk
    exact hold P (h P d hP hd hk)
  · rw [hf, ← AList.mem_keys, AList.mem_insert, logPath_inj₂ hP ha.plain hd.noSlash ha.isDate.noSlash] at hk
    rcases hk with ⟨rfl, -⟩ | hk
    · exact hnew
    · exact hold P (h P d hP hd (AList.mem_keys.mp hk))

theorem grown_appends {cfg : Config} {s s' : State} {acts : List Act}
    (ha : ∀ a ∈ acts, ∃ peer io date group, a = .append peer io date group ∧ AppendOk peer io date group)
    (hr : Runs.run (step cfg) s acts = some s') (h : ServerInv cfg.logRoot s.server)
    (hl : Listed cfg.logRoot s.server) :
    ServerInv cfg.logRoot s'.server ∧ Listed cfg.logRoot s'.server ∧ Grown cfg.logRoot s.server s'.server := by
  induction acts generalizing s with
  | nil =>
    cases hr
    exact ⟨h, hl, .refl _⟩
  | cons a acts ih =>
    obtain ⟨peer, io, date, group, rfl, hok⟩ := ha _ List.mem_cons_self
    obtain ⟨t, ht, hr⟩ := Option.bind_eq_some_iff.mp hr
    cases ht
    obtain ⟨hinv, hgrown, -⟩ := append_grown h hok
    obtain ⟨hinv', hl', hgrown'⟩ := ih (fun b hb => ha b (List.mem_cons_of_mem _ hb)) hr hinv (hl.append hok).1
    exact ⟨hinv', hl', hgrown.trans hgrown'⟩

end

end PullLogs

theorem PullLogs.ServerInv.texts_eq {logRoot : Path} {disk : Disk} (h : PullLogs.ServerInv logRoot disk)
    {P d : Text} (hP : Plain P) (hd : IsDate d) :
    PullLogs.texts logRoot disk P d = Framing.closed nl (disk.bytes (Store.logPath logRoot P d)) := by
  rw [PullLogs.texts, Store.fileTexts, h.closed P d hP hd, if_pos rfl, List.append_nil]

/-! ## What a push does to the server -/

namespace Server

/-- The server after a push of machine `m` that it acknowledges. -/
structure Pushed (logRoot : Path) (sort : SliceSort) (m : Text) (lines : List LogLine)
  (s s' : State) : Prop where
  server : PullLogs.ServerInv logRoot s'.disk
  listed : PullLogs.Listed logRoot s'.disk
  grown : PullLogs.Grown logRoot s.disk s'.disk
  other : ∀ P d, Plain P → IsDate d → P ≠ m →
    s'.disk.bytes (Store.logPath logRoot P d) = s.disk.bytes (Store.logPath logRoot P d)
  keys : ∀ P d, Plain P → IsDate d → Store.logPath logRoot P d ∈ s'.disk.files.keys →
    Store.logPath logRoot P d ∈ s.disk.files.keys ∨ P = m ∧ ∃ l ∈ lines, l.date = d
  gained : ∀ d, IsDate d → ∀ raw ∈ closed nl (s'.disk.bytes (Store.logPath logRoot m d)),
    raw ∈ closed nl (s.disk.bytes (Store.logPath logRoot m d)) ∨ ∃ l ∈ lines, l.rawLine = raw
  db : s'.db = Store.replayLines s.db ((sort.run lines).map LogLine.rawLine)

theorem pushed {logRoot : Path} {sort : SliceSort} {m : Text} (hm : Plain m) {lines : List LogLine}
    (hl : ∀ l ∈ lines, l.Proper) {s : State} (hs : PullLogs.ServerInv logRoot s.disk)
    (hlist : PullLogs.Listed logRoot s.disk) {r : Text × Int}
    (hr : (pushLogs sort .noFault noFault logRoot s (some m) ⟨m, lines⟩).2 = .ok r) :
    Pushed logRoot sort m lines s (pushLogs sort .noFault noFault logRoot s (some m) ⟨m, lines⟩).1 := by
  obtain ⟨happ, hstate⟩ := pushLogs_ok hr
  have hgains : ∀ p, ∃ w, Store.Gains s.disk
      (pushLogs sort .noFault noFault logRoot s (some m) ⟨m, lines⟩).1.disk p True w ∧
      ∀ l ∈ w, l ∈ lines ∧ Store.logPath logRoot m l.date = p := by
    intro p
    obtain ⟨w, hw, hmem⟩ := Store.appendLogLines_gains sort .noFault logRoot m s.disk lines p
    rw [hstate]
    refine ⟨w, ⟨?_, hw.none⟩, fun l hlw => ⟨(hmem l hlw).1, (hmem l hlw).2.2⟩⟩
    obtain ⟨t, hpre, hdone, hb⟩ := hw.bytes
    exact ⟨t, hpre, fun _ => hdone ⟨r, happ⟩, hb⟩
  -- lines that are gained at a day log of `P` are lines of `m`
  have hpath : ∀ P d, Plain P → IsDate d →
    ∀ l ∈ lines, Store.logPath logRoot m l.date = Store.logPath logRoot P d →
      m = P ∧ l.date = d :=
    fun P d hP hd l hlm he => (PullLogs.logPath_inj₂ hm hP (hl l hlm).date.noSlash hd.noSlash).mp he
  have hl' : ∀ l ∈ (⟨m, lines⟩ : PushLogsRequest).lines, l.Proper := hl
  obtain ⟨acts, hacts, hrun⟩ := PullLogs.pushLogs_run ⟨logRoot, logRoot, m⟩ sort
    (fun _ _ _ => nofun : Io.noFault.Whole) noFault s (some m) hm hl'
    (s := ⟨s.disk, ⟨.empty [], ∅, []⟩, .empty, none⟩) rfl
  obtain ⟨hserver, hlisted, hgrown⟩ := PullLogs.grown_appends
    (fun a ha => by
      obtain ⟨date, group, rfl, hok⟩ := hacts a ha
      exact ⟨m, .noFault, date, group, rfl, hok⟩) hrun hs hlist
  refine ⟨hserver, hlisted, hgrown, fun P d hP hd hne => ?_, fun P d hP hd hk => ?_,
    fun d hd raw hraw => ?_, ?_⟩
  · obtain ⟨w, hw, hmem⟩ := hgains (Store.logPath logRoot P d)
    have hnil : w = [] := by
      rw [List.eq_nil_iff_forall_not_mem]
      intro l hlw
      exact hne (hpath P d hP hd l (hmem l hlw).1 (hmem l hlw).2).1.symm
    obtain ⟨t, -, hdone, hb⟩ := hw.bytes
    rw [hb, hdone trivial, hnil]
    exact List.append_nil _
  · obtain ⟨w, hw, hmem⟩ := hgains (Store.logPath logRoot P d)
    cases w with
    | nil =>
      left
      rw [← AList.mem_keys, ← AList.lookup_isSome] at hk ⊢
      rwa [hw.none rfl] at hk
    | cons l w =>
      obtain ⟨hlm, hp⟩ := hmem l List.mem_cons_self
      obtain ⟨rfl, hd'⟩ := hpath P d hP hd l hlm hp
      exact Or.inr ⟨rfl, l, hlm, hd'⟩
  · obtain ⟨w, hw, hmem⟩ := hgains (Store.logPath logRoot m d)
    obtain ⟨t, -, hdone, hb⟩ := hw.bytes
    have hnl : ∀ t ∈ w.map LogLine.rawLine, nl ∉ t := by
      intro t ht
      obtain ⟨l, hlw, rfl⟩ := List.mem_map.mp ht
      exact (hl l (hmem l hlw).1).noNl
    rw [hb, hdone trivial, Store.encode, closed_append_unlines nl (hs.closed m d hm hd) hnl,
      List.mem_append] at hraw
    refine hraw.imp_right fun hraw => ?_
    obtain ⟨l, hlw, rfl⟩ := List.mem_map.mp hraw
    exact ⟨l, (hmem l hlw).1, rfl⟩
  · rw [hstate]

end Server

/-! ## Where pulled lines come from -/

namespace PullLogs

def Foreign (cfg : Config) (server : Disk) (P : Text) (l : LogLine) : Prop :=
  Plain P ∧ P ≠ cfg.machineId ∧ l ∈ peerLog cfg.logRoot server P

/-- All that has been pulled into the data is on the server, under another
machine's name, and the rest are operations of the laptop's own hosts. -/
structure Held (cfg : Config) (directory : Text) (own : Set Op) (server : Disk) (d : Data) : Prop where
  db : DbOk directory d
  pulled : ∀ P l, .pulled P l ∈ d.written → Foreign cfg server P l
  host : ∀ o, .host o ∈ d.written → o ∈ own

structure Gathered (cfg : Config) (server : Disk) (p : Pull) : Prop where
  peers : ∀ P ∈ p.peers, Plain P ∧ P ≠ cfg.machineId
  dates : ∀ dates, p.todo = some dates → ∀ d ∈ dates, IsDate d
  queue : ∀ x ∈ p.queue Chunk.replayed, Foreign cfg server x.1 x.2

structure FromServer (cfg : Config) (directory : Text) (own : Set Op) (s : State) : Prop where
  data : Held cfg directory own s.server s.data
  pull : ∀ p, s.pull = some p → Gathered cfg s.server p ∧ Held cfg directory own s.server (p.now s.data)

section
variable {cfg : Config} {directory : Text} {own own' : Set Op} {s s' : State} {server server' : Disk} {d : Data}
  {p p' : Pull}

theorem Foreign.grown {P : Text} {l : LogLine} (h : Foreign cfg server P l)
    (hg : Grown cfg.logRoot server server') : Foreign cfg server' P l :=
  ⟨h.1, h.2.1, hg.mem h.1 h.2.2⟩

theorem Held.grown (h : Held cfg directory own server d) (hg : Grown cfg.logRoot server server') :
    Held cfg directory own server' d :=
  ⟨h.db, fun P l hl => (h.pulled P l hl).grown hg, h.host⟩

theorem FromServer.mono (h : FromServer cfg directory own s) (hown : own ⊆ own') :
    FromServer cfg directory own' s := by
  refine ⟨⟨h.data.db, h.data.pulled, fun o ho => hown (h.data.host o ho)⟩, fun p hp => ?_⟩
  obtain ⟨hgath, hheld⟩ := h.pull p hp
  exact ⟨hgath, hheld.db, hheld.pulled, fun o ho => hown (hheld.host o ho)⟩

theorem FromServer.grown (h : FromServer cfg directory own s) (hg : Grown cfg.logRoot s.server server') :
    FromServer cfg directory own { s with server := server' } := by
  refine ⟨h.data.grown hg, fun p hp => ?_⟩
  obtain ⟨hgath, hheld⟩ := h.pull p hp
  exact ⟨⟨hgath.peers, hgath.dates, fun x hx => (hgath.queue x hx).grown hg⟩, hheld.grown hg⟩

theorem Held.write_host (h : Held cfg directory own server d) {o : Op} (ho : o ∈ own) :
    Held cfg directory own server (d.write (.host o)) := by
  refine ⟨h.db.write _, fun P l hl => ?_, fun o' hm => ?_⟩
  · rcases List.mem_append.mp hl with hl | hl
    · exact h.pulled P l hl
    · cases List.mem_singleton.mp hl
  · rcases List.mem_append.mp hm with hm | hm
    · exact h.host o' hm
    · cases List.mem_singleton.mp hm
      exact ho

theorem Held.replay (h : Held cfg directory own server d) {P : Text} {l : LogLine}
    (hl : Foreign cfg server P l) : Held cfg directory own server (d.write (.pulled P l)) := by
  refine ⟨h.db.write _, fun P' l' hm => ?_, fun o hm => ?_⟩
  · rcases List.mem_append.mp hm with hm | hm
    · exact h.pulled P' l' hm
    · cases List.mem_singleton.mp hm
      exact hl
  · rcases List.mem_append.mp hm with hm | hm
    · exact h.host o hm
    · cases List.mem_singleton.mp hm

theorem FromServer.setPull (h : FromServer cfg directory own s) (hp : s.pull = some p)
    (hg : Gathered cfg s.server p') (htx : p'.tx = p.tx) (peerLogs : Disk) :
    FromServer cfg directory own { s with peerLogs, pull := some p' } := by
  refine ⟨h.data, fun q hq => ?_⟩
  cases hq
  refine ⟨hg, ?_⟩
  rw [Pull.now, htx]
  exact (h.pull p hp).2

theorem FromServer.commit (h : FromServer cfg directory own s) (hp : s.pull = some p) :
    FromServer cfg directory own { s with data := p.now s.data, pull := none } :=
  ⟨(h.pull p hp).2, nofun⟩

theorem Gathered.next (h : Gathered cfg server p) (hf : p.next cfg server = some p') :
    Gathered cfg server p' := by
  obtain ⟨peer, peers, date, rest, raw, hpeers, ht, hraw, hpeers', ht', -, -, -, hqueue⟩ := Pull.next_spec hf
  refine ⟨by rw [hpeers']; exact h.peers, by rw [ht']; exact h.dates, fun x hx => ?_⟩
  rw [hqueue] at hx
  rcases List.mem_append.mp hx with hx | hx
  · exact h.queue x hx
  · split at hx
    · obtain rfl := List.mem_singleton.mp hx
      obtain ⟨hP, hne⟩ := h.peers peer (by simp [hpeers])
      have hd : IsDate date := h.dates _ ht date List.mem_cons_self
      exact ⟨hP, hne, mem_peerLog.mpr ⟨hd, p.index, rfl, hraw⟩⟩
    · cases hx

theorem FromServer.start (h : FromServer cfg directory own s) (hs : ServerInv cfg.logRoot s.server) :
    FromServer cfg directory own { s with pull := some (startPull cfg s) } := by
  refine ⟨h.data, fun p hp => ?_⟩
  cases hp
  refine ⟨⟨fun P hP => ?_, nofun, ?_⟩, h.data⟩
  · obtain ⟨hmem, hne⟩ := List.mem_filter.mp hP
    exact ⟨hs.plain P (mem_sortStrings.mp hmem), by simpa using hne⟩
  · rw [queue_start]
    exact nofun

/-- **Step.** What a pull gathers, and what it replays, is on the server. -/
theorem FromServer.step {a : Act} (h : FromServer cfg directory own s) (hs : ServerInv cfg.logRoot s.server)
    (ha : Network.IsClient a) (hstep : PullLogs.step cfg s a = some s') : FromServer cfg directory own s' := by
  cases a with
  | append peer io date group => cases ha
  | host o => cases ha
  | start =>
    simp only [PullLogs.step] at hstep
    split at hstep
    · cases hstep
    · cases hstep
      exact h.start hs
  | list =>
    obtain ⟨p, p', hp, hf, rfl⟩ := step_pull hstep
    obtain ⟨peer, peers, -, -, rfl⟩ := Pull.list_spec hf
    have hg := (h.pull p hp).1
    -- the dates that are to be read are those of the mirror
    have hg' : Gathered cfg s.server { p with
        todo := some (Store.datesFrom s.server cfg.logRoot peer (Server.since p.request peer).1)
        index := 0 } := by
      refine ⟨hg.peers, fun dates hd d hm => ?_, hg.queue⟩
      cases hd
      exact (Store.mem_datesFrom.mp hm).1
    exact h.setPull hp hg' rfl _
  | next =>
    obtain ⟨p, p', hp, hf, rfl⟩ := step_pull hstep
    obtain ⟨-, -, -, -, -, -, -, -, -, -, -, hsame, -⟩ := Pull.next_spec hf
    exact h.setPull hp ((h.pull p hp).1.next hf) hsame.tx _
  | eof =>
    obtain ⟨p, p', hp, hf, rfl⟩ := step_pull hstep
    obtain ⟨peer, peers, date, rest, -, ht, -, rfl⟩ := Pull.eof_spec hf
    have hg := (h.pull p hp).1
    have hg' : Gathered cfg s.server { p with todo := some rest, index := 0 } := by
      refine ⟨hg.peers, fun dates hd d hm => ?_, hg.queue⟩
      cases hd
      exact hg.dates _ ht d (List.mem_cons_of_mem _ hm)
    exact h.setPull hp hg' rfl _
  | endPeer =>
    obtain ⟨p, p', hp, hf, rfl⟩ := step_pull hstep
    obtain ⟨peer, peers, hpeers, -, hpeers', ht', hsame, -, hqueue⟩ := Pull.endPeer_spec hf
    have hg := (h.pull p hp).1
    refine h.setPull hp ⟨fun P hP => ?_, fun dates hd => ?_, by rw [hqueue]; exact hg.queue⟩ hsame.tx _
    · exact hg.peers P (by rw [hpeers]; exact List.mem_cons_of_mem _ (hpeers' ▸ hP))
    · rw [ht'] at hd
      cases hd
  | receive =>
    obtain ⟨p, p', hp, hf, rfl⟩ := step_pull hstep
    obtain ⟨c, stream, -, -, -, -, hpeers, ht, -, -, htx, -, hqueue⟩ := Pull.receive_spec hf
    have hg := (h.pull p hp).1
    refine h.setPull hp ⟨by rw [hpeers]; exact hg.peers, by rw [ht]; exact hg.dates, ?_⟩ htx _
    rw [hqueue _ fun _ _ => rfl]
    exact hg.queue
  | mirror =>
    obtain ⟨p, c, l, hp, hc, -, -, rfl⟩ := step_mirror hstep
    have hg := (h.pull p hp).1
    have hg' : Gathered cfg s.server { p with
        chunk := some { c with mirrored := c.mirrored + 1 }, appended := true } := by
      refine ⟨hg.peers, hg.dates, ?_⟩
      rw [Pull.queue_congr Chunk.replayed { c with mirrored := c.mirrored + 1 } hc rfl rfl rfl p.tx true]
      exact hg.queue
    exact h.setPull hp hg' rfl _
  | replay =>
    obtain ⟨p, c, l, hp, hc, -, hl, rfl⟩ := step_replay hstep
    obtain ⟨hg, hheld⟩ := h.pull p hp
    -- the line replayed is the head of the queue, so the server had it
    have hqueue := Pull.queue_advance Chunk.replayed { c with replayed := c.replayed + 1 } hc hl rfl rfl rfl
      (some ((p.now s.data).write (.pulled c.peer l))) p.appended
    refine ⟨h.data, fun q hq => ?_⟩
    cases hq
    refine ⟨⟨hg.peers, hg.dates, fun x hx => hg.queue x ?_⟩, hheld.replay (hg.queue (c.peer, l) ?_)⟩
    · rw [hqueue]
      exact List.mem_cons_of_mem _ hx
    · rw [hqueue]
      exact List.mem_cons_self
  | endChunk =>
    obtain ⟨p, c, cur, hp, hc, hlen, -, rfl⟩ := step_endChunk hstep
    obtain ⟨hg, hheld⟩ := h.pull p hp
    refine ⟨h.data, fun q hq => ?_⟩
    cases hq
    refine ⟨⟨hg.peers, hg.dates, ?_⟩, ⟨hheld.db, hheld.pulled, hheld.host⟩⟩
    rw [Pull.queue_endChunk Chunk.replayed hc hlen]
    exact hg.queue
  | finish =>
    obtain ⟨p, hp, -, -, -, rfl⟩ := step_finish hstep
    exact h.commit hp
  | fail =>
    obtain ⟨p, hp, rfl⟩ := Option.map_eq_some_iff.mp hstep
    exact h.commit hp
  | kill =>
    obtain ⟨p, hp, rfl⟩ := Option.map_eq_some_iff.mp hstep
    refine ⟨h.data, fun q hq => ?_⟩
    cases hq

/-- **Step.** The transaction of a host. -/
theorem FromServer.hosts (h : FromServer cfg directory own s) {ops : List Op} (ho : ∀ o ∈ ops, o ∈ own)
    (hr : Runs.run (PullLogs.step cfg) s (ops.map .host) = some s') : FromServer cfg directory own s' := by
  induction ops generalizing s with
  | nil =>
    cases hr
    exact h
  | cons o ops ih =>
    obtain ⟨t, ht, hr⟩ := Option.bind_eq_some_iff.mp hr
    refine ih ?_ (fun o' hm => ho o' (List.mem_cons_of_mem _ hm)) (by simpa using hr)
    simp only [PullLogs.step, Option.ite_none_left_eq_some, Option.some.injEq] at ht
    obtain ⟨hlock, rfl⟩ := ht
    have hown := ho o List.mem_cons_self
    refine ⟨h.data.write_host hown, fun p hp => ?_⟩
    have htx : p.tx = none := by simpa [show s.pull = some p from hp] using hlock
    refine ⟨(h.pull p hp).1, ?_⟩
    rw [Pull.now, htx]
    exact h.data.write_host hown

end

end PullLogs

/-! ## A laptop's push -/

namespace SyncClient

section
variable {cfg : Config} {s s' : Sync} {server' : Server.State}

theorem mirrored_congr {d : Text}
    (h : server'.disk.bytes (Store.logPath cfg.logRoot cfg.machineId d) =
      s.server.disk.bytes (Store.logPath cfg.logRoot cfg.machineId d)) :
    mirrored cfg server' d = mirrored cfg s.server d := by
  rw [mirrored, h, mirrored]

theorem Covered.congr {n n' : Text → Nat} {pb : List LogLine} {d : Text} {k : Int} (h : Covered n pb d k)
    (hn : n' d = n d) : Covered n' pb d k := fun j hj => (h j hj).imp_left fun hlt => hn ▸ hlt

/-- The push of a laptop does not see what happens to the mirrors of the others. -/
theorem Inv.frame (h : Inv cfg s) (hb : ∀ d, IsDate d →
    server'.disk.bytes (Store.logPath cfg.logRoot cfg.machineId d) =
      s.server.disk.bytes (Store.logPath cfg.logRoot cfg.machineId d)) : Inv cfg { s with server := server' } := by
  have hm : ∀ d, IsDate d → mirrored cfg server' d = mirrored cfg s.server d :=
    fun d hd => mirrored_congr (hb d hd)
  refine ⟨h.home, fun d hd => ?_, fun d o hr => ?_, fun p hp => ?_, h.replies⟩
  · rw [hm d hd, hb d hd]
    exact h.mirror d hd
  · refine (h.row d o hr).imp_right fun ⟨hd, ho⟩ => ⟨hd, ?_⟩
    rw [hm d hd]
    exact ho
  · obtain ⟨hcur, htodo, hgath, hgap, hread, hlast⟩ := h.push p hp
    refine ⟨?_, htodo, hgath, fun l hl => (hgap l hl).congr (hm _ (hgath l hl).1),
      fun d rest ht => (hread d rest ht).congr (hm d (htodo d (by simp [ht]))), ?_⟩
    · refine hcur.imp_right fun ⟨hd, ho⟩ => ⟨hd, ?_⟩
      rw [hm _ hd]
      exact ho
    · refine hlast.imp_right fun ⟨hd, ho⟩ => ⟨hd, ?_⟩
      rw [hm _ hd]
      exact ho

theorem home_step {a : Act} (ha : a.isAppend = false) (h : step cfg s a = some s') : s'.home = s.home := by
  cases a with
  | append date line => cases ha
  | start =>
    obtain ⟨-, rfl⟩ := step_start h
    rfl
  | next =>
    obtain ⟨p, date, rest, raw, -, -, -, rfl⟩ := step_next h
    rfl
  | eof =>
    obtain ⟨p, date, rest, -, -, -, rfl⟩ := step_eof h
    rfl
  | send o =>
    obtain ⟨p, -, -, rfl⟩ := step_send h
    rcases sendPush_cases cfg s p o with he | ⟨r, push, -, -, he⟩
    · rw [he]
    · rw [he]
  | finish =>
    obtain ⟨p, -, -, -, rfl⟩ := step_finish h
    rfl
  | kill =>
    obtain rfl := step_kill h
    rfl

/-- **What a laptop's step does to the server**: nothing, or a push that is acknowledged. -/
theorem server_step (hm : Plain cfg.machineId) (h : Inv cfg s)
    (hs : PullLogs.ServerInv cfg.logRoot s.server.disk) (hlist : PullLogs.Listed cfg.logRoot s.server.disk)
    {a : Act} (hstep : step cfg s a = some s') :
    s'.server = s.server ∨ ∃ p, s.push = some p ∧
      Server.Pushed cfg.logRoot cfg.sort cfg.machineId p.pbLines s.server s'.server ∧
      (∀ l ∈ p.pbLines, IsDate l.date ∧ l.rawLine ∈ closed nl (mirror cfg s' l.date) ∧
        l.lineOffset < mirrored cfg s'.server l.date) := by
  cases a with
  | append date line =>
    obtain ⟨-, -, rfl⟩ := step_append hstep
    exact Or.inl rfl
  | start =>
    obtain ⟨-, rfl⟩ := step_start hstep
    exact Or.inl rfl
  | next =>
    obtain ⟨p, date, rest, raw, -, -, -, rfl⟩ := step_next hstep
    exact Or.inl rfl
  | eof =>
    obtain ⟨p, date, rest, -, -, -, rfl⟩ := step_eof hstep
    exact Or.inl rfl
  | send o =>
    obtain ⟨p, hp, hne, rfl⟩ := step_send hstep
    rcases sendPush_cases cfg s p o with he | ⟨r, push, hr, -, he⟩
    · rw [he]
      exact Or.inl rfl
    · right
      have hinv := h.push p hp
      obtain ⟨⟨a, hok⟩, hmir, -, hsent⟩ := push_applied hm.ne_nil h.home h.mirror hinv hne
        (congrArg Prod.fst hr)
      have hproper : ∀ l ∈ p.pbLines, l.Proper := fun l hl => by
        obtain ⟨hd, i, -, hget⟩ := hinv.gathered l hl
        exact ⟨hd, (h.home.clean l.date hd _ (List.mem_of_getElem? hget)).1⟩
      have hpush := Server.pushed hm hproper hs hlist hok
      rw [← hr] at hpush
      refine ⟨p, hp, by rw [he]; exact hpush, fun l hl => ?_⟩
      obtain ⟨hd, i, hi, hget⟩ := hinv.gathered l hl
      have hlt := hsent l hl
      refine ⟨hd, ?_, by rw [he]; exact hlt⟩
      -- the mirror is the start of the day log, and reaches past the line
      have hclosed : closed nl (r.1.disk.bytes (Store.logPath cfg.logRoot cfg.machineId l.date)) =
          (lines cfg s.home l.date).take (mirrored cfg r.1 l.date) := by
        rw [(hmir l.date hd).2, closed_unlines nl fun t ht =>
          (h.home.clean l.date hd t (List.mem_of_mem_take ht)).1]
      rw [mirror, he, hclosed]
      apply List.mem_of_getElem? (i := i)
      rw [List.getElem?_take, if_pos (by omega), hget]
  | finish =>
    obtain ⟨p, -, -, -, rfl⟩ := step_finish hstep
    exact Or.inl rfl
  | kill =>
    obtain rfl := step_kill hstep
    exact Or.inl rfl

end

end SyncClient

/-! ## The lines of a host -/

theorem actionLine_fields (recordId : Text) (a : Action) :
    splitTabs (VisitLog.actionLine recordId a) = (VisitLog.actionFields recordId a).map tsvSanitise := by
  refine splitTabs_join (fun f hf => ?_) (by simp [VisitLog.actionFields])
  obtain ⟨g, -, rfl⟩ := List.mem_map.mp hf
  exact tab_notMem_tsvSanitise g

theorem resultLine_fields (recordId result : Text) :
    splitTabs (VisitLog.resultLine recordId result) = [tsvSanitise recordId, tsvSanitise result] := by
  refine splitTabs_join (fun f hf => ?_) (List.cons_ne_nil _ _)
  simp only [List.mem_cons, List.not_mem_nil, or_false] at hf
  rcases hf with rfl | rfl
  · exact tab_notMem_tsvSanitise _
  · exact tab_notMem_tsvSanitise _

theorem tsvSanitise_tag (t : EventsTable) : tsvSanitise t.tag = t.tag := by cases t <;> decide

theorem hostLine_actionLine (recordId : Text) {a : Action} (h : a.tag = [] ∨ a.tag ∈ validTags) :
    HostLine (VisitLog.actionLine recordId a) := by
  rw [HostLine, actionLine_fields]
  rcases actionFields_cases (i := recordId) h id [] with ⟨hf, -⟩ | ⟨hf, -⟩ | ⟨t, hf, -⟩
  · rw [hf]
    exact .visit _ _ _ _
  · have htag : tsvSanitise (ascii "of_interest") = ascii "of_interest" := by decide
    rw [hf, List.map_cons, List.map_cons, List.map_cons, List.map_cons, List.map_cons, htag]
    exact .ofInterest _ _ _ _
  · rw [hf, List.map_cons, List.map_cons, List.map_cons, List.map_cons, List.map_cons, tsvSanitise_tag]
    exact .event _ _ _ _ t _

theorem hostLine_resultLine (recordId result : Text) : HostLine (VisitLog.resultLine recordId result) := by
  rw [HostLine, resultLine_fields]
  exact .result _ _

def effects (A : Set Text) : View := ⨆ raw ∈ A, lineEffect raw

theorem effects_mono {A B : Set Text} (h : A ⊆ B) : effects A ≤ effects B := biSup_mono h

theorem effects_union (A B : Set Text) : effects (A ∪ B) = effects A ⊔ effects B := iSup_union

theorem le_effects {A : Set Text} {raw : Text} (h : raw ∈ A) : lineEffect raw ≤ effects A :=
  le_biSup lineEffect h

theorem Store.view_replayLines (db : Db) (l : List Text) :
    (Store.replayLines db l).view = db.view ⊔ GrowOnly.total lineEffect l := by
  refine GrowOnly.view_foldl (fun raw _ db => ?_) db
  rw [Store.replayLine_eq, Db.view_applyOpt, lineEffect_eq]

def PullLogs.Written.effect : PullLogs.Written → View
  | .pulled _ l => lineEffect l.rawLine
  | .host o => o.effect

/-! ## Every run -/

namespace Network

section
variable {ι : Type*} {cfg : Config ι} {s s' : State ι} {i j : ι} {acts : List (Act ι)}

def asked (cfg : Config ι) (acts : List (Act ι)) (i : ι) : Set Op :=
  {o | ∃ inv, .log i inv ∈ acts ∧ inv.Accepted ∧ o ∈ hostOps cfg i inv}

structure Inv (cfg : Config ι) (acts : List (Act ι)) (s : State ι) : Prop where
  sync : ∀ i, SyncClient.Inv (cfg.sync i) (s.sync i)
  server : PullLogs.ServerInv cfg.logRoot s.server.disk
  listed : PullLogs.Listed cfg.logRoot s.server.disk
  peers : ∀ P d, Plain P → IsDate d → Store.logPath cfg.logRoot P d ∈ s.server.disk.files.keys →
    ∃ i, cfg.machineId i = P
  db : s.server.db.view = ⨆ i, effects (mirrored cfg s i)
  lines : ∀ i, ∀ raw ∈ logged cfg s i, HostLine raw
  running : ∀ i, ∀ r ∈ (s.laptop i).running, .log i r.inv ∈ acts ∧ r.inv.Accepted
  pull : ∀ i, PullLogs.FromServer (cfg.pulls i) (cfg.directory i) (asked cfg acts i) (s.pulls i)

theorem mirrored_congr (h : s'.server = s.server) (i : ι) : mirrored cfg s' i = mirrored cfg s i := by
  have hm : ∀ d, SyncClient.mirror (cfg.sync i) (s'.sync i) d =
    SyncClient.mirror (cfg.sync i) (s.sync i) d := by
    intro d
    change s'.server.disk.bytes _ = s.server.disk.bytes _
    rw [h]
  simp only [mirrored, hm]

theorem asked_mono (cfg : Config ι) (acts : List (Act ι)) (a : Act ι) (i : ι) :
    asked cfg acts i ⊆ asked cfg (acts ++ [a]) i :=
  fun _ ⟨inv, hm, ha, ho⟩ => ⟨inv, List.mem_append_left _ hm, ha, ho⟩

theorem Inv.more (h : Inv cfg acts s) (a : Act ι) : Inv cfg (acts ++ [a]) s :=
  ⟨h.sync, h.server, h.listed, h.peers, h.db, h.lines,
    fun i r hr => ⟨List.mem_append_left _ (h.running i r hr).1, (h.running i r hr).2⟩,
    fun i => (h.pull i).mono (asked_mono cfg acts a i)⟩

theorem mirrored_pushed (hserver : PullLogs.ServerInv cfg.logRoot s.server.disk) {lines : List LogLine}
    (hp : Server.Pushed cfg.logRoot cfg.sort (cfg.machineId i) lines s.server s'.server)
    (hl : ∀ l ∈ lines, IsDate l.date ∧ l.rawLine ∈ closed nl
      (SyncClient.mirror (cfg.sync i) (s'.sync i) l.date)) :
    mirrored cfg s' i = mirrored cfg s i ∪ {raw | raw ∈ lines.map LogLine.rawLine} ∧
      ∀ j, j ≠ i → mirrored cfg s' j = mirrored cfg s j := by
  constructor
  · ext raw
    constructor
    · rintro ⟨d, hd, hraw⟩
      refine (hp.gained d hd raw hraw).imp (fun h => ⟨d, hd, h⟩) fun ⟨l, hm, he⟩ => ?_
      exact List.mem_map.mpr ⟨l, hm, he⟩
    · rintro (⟨d, hd, hraw⟩ | hraw)
      · refine ⟨d, hd, ?_⟩
        have hpre := hp.grown.lines (cfg.machineId i) d (cfg.plain i) hd
        rw [hserver.texts_eq (cfg.plain i) hd, hp.server.texts_eq (cfg.plain i) hd] at hpre
        exact hpre.subset hraw
      · obtain ⟨l, hm, rfl⟩ := List.mem_map.mp hraw
        exact ⟨l.date, hl l hm⟩
  · intro j hj
    have hm : ∀ d, IsDate d → SyncClient.mirror (cfg.sync j) (s'.sync j) d =
        SyncClient.mirror (cfg.sync j) (s.sync j) d :=
      fun d hd => hp.other (cfg.machineId j) d (cfg.plain j) hd fun he => hj (cfg.distinct he)
    ext raw
    exact exists_congr fun d => and_congr_right fun hd => by rw [hm d hd]

theorem Inv.init (cfg : Config ι) : Inv cfg [] (init cfg) := by
  have hlogged : ∀ i, ∀ raw, raw ∉ logged cfg (Network.init cfg) i := by
    rintro i raw ⟨d, -, hraw⟩
    cases hraw
  have hmirrored : ∀ i, mirrored cfg (Network.init cfg) i = ∅ := by
    intro i
    refine Set.eq_empty_of_forall_notMem ?_
    rintro raw ⟨d, -, hraw⟩
    cases hraw
  refine ⟨fun i => SyncClient.Inv.init fun d _ => rfl, ⟨fun _ _ _ _ => rfl, List.nodup_nil, nofun⟩,
    fun P d _ _ hk => ?_, fun P d _ _ hk => ?_, ?_, fun i raw hraw => absurd hraw (hlogged i raw),
      fun i r hr => ?_, fun i => ?_⟩
  · cases hk
  · cases hk
  · simp only [hmirrored, effects, Set.mem_empty_iff_false, iSup_false, iSup_bot]
    exact Db.view_empty _
  · cases hr
  · refine ⟨⟨rfl, fun P l hl => ?_, fun o ho => ?_⟩, nofun⟩
    · cases hl
    · cases ho

/-! ## The databases -/

theorem Inv.pulled (h : Inv cfg acts s) {P : Text} {l : LogLine}
    (hl : PullLogs.Foreign (cfg.pulls i) s.server.disk P l) : ∃ j, j ≠ i ∧ l.rawLine ∈ mirrored cfg s j := by
  obtain ⟨hP, hne, hmem⟩ := hl
  obtain ⟨hd, k, -, hk⟩ := PullLogs.mem_peerLog.mp hmem
  obtain ⟨j, rfl⟩ := h.peers P l.date hP hd (PullLogs.mem_keys_of_peerLog hmem)
  refine ⟨j, fun he => hne (by rw [he]; rfl), l.date, hd, ?_⟩
  change (PullLogs.texts cfg.logRoot s.server.disk (cfg.machineId j) l.date)[k]? = some l.rawLine at hk
  rw [h.server.texts_eq hP hd] at hk
  exact List.mem_of_getElem? hk

theorem Inv.mirrored_logged (h : Inv cfg acts s) (i : ι) : mirrored cfg s i ⊆ logged cfg s i := by
  rintro raw ⟨d, hd, hraw⟩
  rw [((h.sync i).closed_mirror hd).1] at hraw
  exact ⟨d, hd, List.mem_of_mem_take hraw⟩

theorem Inv.view_data (h : Inv cfg acts s) (i : ι) :
    (s.laptop i).data.db.view = GrowOnly.total PullLogs.Written.effect (s.laptop i).data.written := by
  have hdata := (h.pull i).data
  have hstep : ∀ w ∈ (s.laptop i).data.written, ∀ db : Db,
      (PullLogs.Written.apply db w).view = db.view ⊔ w.effect := by
    intro w hw db
    cases w with
    | host o => exact db.view_apply o
    | pulled P l =>
      obtain ⟨j, -, hraw⟩ := h.pulled (hdata.pulled P l hw)
      have hline := h.lines j l.rawLine (h.mirrored_logged j hraw)
      rw [PullLogs.Written.apply, SyncClient.replayIntoDb_eq, Db.view_applyOpt, hline.lineOp_eq, lineEffect_eq]
      rfl
  have hview := GrowOnly.view_foldl hstep (Db.empty (cfg.directory i))
  rw [Db.view_empty, bot_sup_eq] at hview
  rw [← hview]
  exact congrArg Db.view hdata.db

theorem Inv.view_le (h : Inv cfg acts s) (i : ι) : (s.laptop i).data.db.view ≤
    (⨆ o ∈ asked cfg acts i, o.effect) ⊔ ⨆ j, ⨆ (_ : j ≠ i), effects (mirrored cfg s j) := by
  rw [h.view_data i, GrowOnly.total_le]
  intro w hw
  cases w with
  | host o => exact le_sup_of_le_left (le_biSup Op.effect ((h.pull i).data.host o hw))
  | pulled P l =>
    obtain ⟨j, hj, hraw⟩ := h.pulled ((h.pull i).data.pulled P l hw)
    refine le_sup_of_le_right (le_trans (le_effects hraw) ?_)
    exact le_iSup₂ (f := fun j (_ : j ≠ i) => effects (mirrored cfg s j)) j hj

theorem Inv.laptop_keeps (h : Inv cfg acts s) (i : ι) {P : Db → Prop} (hempty : P (.empty (cfg.directory i)))
    (hops : ∀ db l, P db → P (db.ops l)) : P (s.laptop i).data.db := by
  have hdb := (h.pull i).data.db
  rw [PullLogs.DbOk] at hdb
  change (s.laptop i).data.db = _ at hdb
  rw [hdb]
  generalize ((s.pulls i).data.written) = ws
  induction ws using List.reverseRecOn with
  | nil => exact hempty
  | append_singleton ws w ih =>
    rw [List.foldl_append]
    cases w with
    | host o => exact hops _ [o] ih
    | pulled peer l =>
      change P (SyncClient.replayIntoDb _ l.rawLine)
      rw [SyncClient.replayIntoDb_eq, applyOpt_ops]
      exact hops _ _ ih

theorem Inv.coherent (h : Inv cfg acts s) (i : ι) : (s.laptop i).data.db.Coherent :=
  h.laptop_keeps i (Db.coherent_empty _) fun _ l hdb => hdb.ops l

variable [DecidableEq ι]

theorem Inv.setRunning (h : Inv cfg acts s) {r : List Running}
    (hr : ∀ x ∈ r, .log i x.inv ∈ acts ∧ x.inv.Accepted) :
    Inv cfg acts (s.setRunning i r) := by
  refine ⟨fun j => ?_, h.server, h.listed, h.peers, h.db, fun j => ?_, fun j x hx => ?_, fun j => ?_⟩
  · rw [sync_setRunning]
    exact h.sync j
  · exact fun raw ⟨d, hd, hraw⟩ => h.lines j raw ⟨d, hd, by rwa [home_setRunning] at hraw⟩
  · by_cases hj : j = i
    · subst hj
      rw [State.setRunning, set_self] at hx
      exact hr x hx
    · rw [State.setRunning, set_ne _ _ hj] at hx
      exact h.running j x hx
  · rw [pulls_setRunning]
    exact h.pull j

theorem Inv.setPulls (h : Inv cfg acts s) {t : PullLogs.State} (hserver : t.server = s.server.disk)
    (ht : PullLogs.FromServer (cfg.pulls i) (cfg.directory i) (asked cfg acts i) t) :
    Inv cfg acts (s.setPulls i t) := by
  refine ⟨fun j => ?_, h.server, h.listed, h.peers, h.db, fun j => ?_, fun j x hx => ?_, fun j => ?_⟩
  · rw [sync_setPulls]
    exact h.sync j
  · exact fun raw ⟨d, hd, hraw⟩ => h.lines j raw ⟨d, hd, by rwa [home_setPulls] at hraw⟩
  · rw [running_setPulls] at hx
    exact h.running j x hx
  · by_cases hj : j = i
    · subst hj
      rw [pulls_setPulls s hserver]
      exact ht
    · rw [pulls_setPulls_ne s t hj]
      exact h.pull j

theorem Inv.setSync (h : Inv cfg acts s) {t : SyncClient.Sync} (hserver : t.server = s.server)
    (ht : SyncClient.Inv (cfg.sync i) t)
    (hl : ∀ d, IsDate d → ∀ raw ∈ SyncClient.lines (cfg.sync i) t.home d, HostLine raw) :
    Inv cfg acts (s.setSync i t) := by
  have hsame : (s.setSync i t).server = s.server := hserver
  refine ⟨fun j => ?_, by rw [hsame]; exact h.server, by rw [hsame]; exact h.listed,
    by rw [hsame]; exact h.peers, ?_, fun j => ?_,
    fun j x hx => ?_, fun j => ?_⟩
  · by_cases hj : j = i
    · subst hj
      rw [sync_setSync]
      exact ht
    · rw [sync_setSync_ne s t hj, hserver]
      exact h.sync j
  · rw [hsame, h.db]
    exact iSup_congr fun j => by rw [mirrored_congr hsame]
  · rintro raw ⟨d, hd, hraw⟩
    by_cases hj : j = i
    · subst hj
      rw [home_setSync] at hraw
      exact hl d hd raw hraw
    · rw [home_setSync_ne s t hj] at hraw
      exact h.lines j raw ⟨d, hd, hraw⟩
  · rw [running_setSync] at hx
    exact h.running j x hx
  · rw [pulls_setSync, hserver]
    exact h.pull j

theorem Inv.appendLine (h : Inv cfg acts s) {date line : Text} (hline : HostLine line)
    (hs : appendLine cfg s i date line = some s') : Inv cfg acts s' := by
  obtain ⟨t, ht, rfl⟩ := Option.map_eq_some_iff.mp hs
  have hinv := (h.sync i).step (cfg.plain i).ne_nil ht
  obtain ⟨hd, hl, rfl⟩ := SyncClient.step_append ht
  refine h.setSync rfl hinv fun e he raw hraw => ?_
  rw [SyncClient.lines_appendLocal (h.sync i).home hd hl he] at hraw
  split at hraw
  · rcases List.mem_append.mp hraw with hraw | hraw
    · exact h.lines i raw ⟨e, he, hraw⟩
    · obtain rfl := List.mem_singleton.mp hraw
      exact hline
  · exact h.lines i raw ⟨e, he, hraw⟩

/-- **Step.** A laptop's push. -/
theorem Inv.push (h : Inv cfg acts s) {t : SyncClient.Sync} {a : SyncClient.Act} (ha : a.isAppend = false)
    (ht : SyncClient.step (cfg.sync i) (s.sync i) a = some t) : Inv cfg acts (s.setSync i t) := by
  have hinv := (h.sync i).step (cfg.plain i).ne_nil ht
  have hhome : t.home = (s.laptop i).home := SyncClient.home_step ha ht
  have hlines : ∀ d, IsDate d → ∀ raw ∈ SyncClient.lines (cfg.sync i) t.home d, HostLine raw :=
    fun d hd raw hraw => h.lines i raw ⟨d, hd, by rwa [hhome] at hraw⟩
  rcases SyncClient.server_step (cfg.plain i) (h.sync i) h.server h.listed ht with hsame | ⟨p, -, hp, hl⟩
  · exact h.setSync hsame hinv hlines
  have hp' : Server.Pushed cfg.logRoot cfg.sort (cfg.machineId i) p.pbLines s.server
    (s.setSync i t).server := hp
  obtain ⟨hown, hother⟩ := mirrored_pushed h.server hp' fun l hm => by
    rw [sync_setSync]
    exact ⟨(hl l hm).1, (hl l hm).2.1⟩
  refine ⟨fun j => ?_, hp.server, hp.listed, fun P d hP hd hk => ?_, ?_, fun j => ?_, fun j x hx => ?_,
    fun j => ?_⟩
  · by_cases hj : j = i
    · subst hj
      rw [sync_setSync]
      exact hinv
    · rw [sync_setSync_ne s t hj]
      exact (h.sync j).frame fun d hd => hp.other _ d (cfg.plain j) hd fun he => hj (cfg.distinct he)
  · rcases hp.keys P d hP hd hk with hk | ⟨rfl, -⟩
    · exact h.peers P d hP hd hk
    · exact ⟨i, rfl⟩
  · have hraws : effects {raw | raw ∈ p.pbLines.map LogLine.rawLine} =
        GrowOnly.total lineEffect ((cfg.sort.run p.pbLines).map LogLine.rawLine) := by
      rw [GrowOnly.total_congr fun raw => ((cfg.sort.perm p.pbLines).map LogLine.rawLine).mem_iff]
      rfl
    have hview : t.server.db.view =
        s.server.db.view ⊔ GrowOnly.total lineEffect ((cfg.sort.run p.pbLines).map LogLine.rawLine) := by
      rw [hp.db, Store.view_replayLines]
      rfl
    rw [server_setSync, hview, h.db, ← hraws]
    -- the union over the laptops gains what laptop `i` gains
    apply le_antisymm
    · refine sup_le (iSup_mono fun j => effects_mono ?_) ?_
      · by_cases hj : j = i
        · subst hj
          rw [hown]
          exact Set.subset_union_left
        · rw [hother j hj]
      · refine le_trans (effects_mono ?_) (le_iSup (fun j => effects (mirrored cfg (s.setSync i t) j)) i)
        rw [hown]
        exact Set.subset_union_right
    · refine iSup_le fun j => ?_
      by_cases hj : j = i
      · subst hj
        rw [hown, effects_union]
        exact sup_le_sup_right (le_iSup (fun j => effects (mirrored cfg s j)) j) _
      · rw [hother j hj]
        exact le_sup_of_le_left (le_iSup (fun j => effects (mirrored cfg s j)) j)
  · rintro raw ⟨d, hd, hraw⟩
    by_cases hj : j = i
    · subst hj
      rw [home_setSync] at hraw
      exact hlines d hd raw hraw
    · rw [home_setSync_ne s t hj] at hraw
      exact h.lines j raw ⟨d, hd, hraw⟩
  · rw [running_setSync] at hx
    exact h.running j x hx
  · rw [pulls_setSync]
    exact (h.pull j).grown hp.grown

/-- **Every step keeps the invariant.** -/
theorem Inv.step (h : Inv cfg acts s) {a : Act ι} (hs : step cfg s a = some s') : Inv cfg (acts ++ [a]) s' := by
  cases a with
  | log i inv =>
    obtain ⟨hacc, r, t, rfl, rfl, ht⟩ := step_log hs
    have hinv : Inv cfg acts t := by
      rcases ht with ⟨-, rfl⟩ | ⟨-, ht⟩
      · exact h
      · exact h.appendLine (hostLine_actionLine _ hacc.tag) ht
    refine (hinv.more _).setRunning fun x hx => ?_
    rcases List.mem_append.mp hx with hx | hx
    · obtain ⟨hm, ha⟩ := h.running i x hx
      exact ⟨List.mem_append_left _ hm, ha⟩
    · obtain rfl := List.mem_singleton.mp hx
      exact ⟨List.mem_append_right _ (List.mem_singleton.mpr rfl), hacc⟩
  | commit i n =>
    obtain ⟨r, t, hr, -, -, ht, rfl⟩ := step_commit hs
    have hmem := List.mem_of_getElem? hr
    obtain ⟨hm, hacc⟩ := h.running i r hmem
    have hserver : t.server = s.server.disk := by rw [(PullLogs.run_host ht).1]; rfl
    have hown : ∀ o ∈ hostOps cfg i r.inv, o ∈ asked cfg acts i := fun o ho => ⟨r.inv, hm, hacc, ho⟩
    refine ((h.setPulls hserver ((h.pull i).hosts hown ht)).more _).setRunning fun x hx => ?_
    rcases List.mem_or_eq_of_mem_set hx with hx | rfl
    · obtain ⟨hm, ha⟩ := h.running i x hx
      exact ⟨List.mem_append_left _ hm, ha⟩
    · exact ⟨List.mem_append_left _ hm, hacc⟩
  | answer i n =>
    obtain ⟨r, t, -, -, rfl, ht⟩ := step_answer hs
    have hinv : Inv cfg acts t := by
      rcases ht with rfl | ht
      · exact h
      · exact h.appendLine (hostLine_resultLine _ _) ht
    refine (hinv.more _).setRunning fun x hx => ?_
    obtain ⟨hm, ha⟩ := h.running i x (List.mem_of_mem_eraseIdx hx)
    exact ⟨List.mem_append_left _ hm, ha⟩
  | die i n =>
    obtain rfl := step_die hs
    refine (h.more _).setRunning fun x hx => ?_
    obtain ⟨hm, ha⟩ := h.running i x (List.mem_of_mem_eraseIdx hx)
    exact ⟨List.mem_append_left _ hm, ha⟩
  | push i a =>
    obtain ⟨ha, -, t, ht, rfl⟩ := step_push hs
    exact (h.push ha ht).more _
  | pull i a =>
    obtain ⟨ha, -, t, ht, rfl⟩ := step_pull hs
    exact (h.setPulls (PullLogs.server_step ha ht) ((h.pull i).step h.server ha ht)).more _

theorem inv_run (hr : Runs.run (step cfg) (init cfg) acts = some s) : Inv cfg acts s :=
  Runs.run_history (fun acts s => Inv cfg acts s) (fun _ _ _ _ _ h (_ : True) hs => h.step hs) (Inv.init cfg)
    (Runs.obeys_of_forall (fun _ _ _ => trivial) _) hr

theorem server_keeps (hr : Runs.run (step cfg) (init cfg) acts = some s) {P : Db → Prop}
    (hempty : P (.empty cfg.serverDirectory)) (hops : ∀ db l, P db → P (db.ops l)) : P s.server.db := by
  have happend : ∀ {s t : State ι} {i : ι} {date line : Text}, Network.appendLine cfg s i date line = some t →
      t.server = s.server := by
    intro s t i date line ht
    obtain ⟨-, -, rfl⟩ := appendLine_spec ht
    rfl
  refine (Runs.run_history (fun acts s => Inv cfg acts s ∧ P s.server.db)
    (fun _ s a s' _ h (_ : True) hs => ?_) ⟨Inv.init cfg, hempty⟩
    (Runs.obeys_of_forall (fun _ _ _ => trivial) _) hr).2
  refine ⟨h.1.step hs, ?_⟩
  suffices s'.server = s.server ∨ ∃ lines, s'.server.db = Store.replayLines s.server.db lines by
    rcases this with he | ⟨lines, he⟩
    · rw [he]
      exact h.2
    · rw [he]
      refine List.foldlRecOn lines _ h.2 fun db hdb raw _ => ?_
      rw [Store.replayLine_eq, applyOpt_ops]
      exact hops _ _ hdb
  cases a with
  | log i inv =>
    obtain ⟨-, r, t, rfl, rfl, ⟨-, rfl⟩ | ⟨-, ht⟩⟩ := step_log hs
    · exact Or.inl rfl
    · exact Or.inl (show t.server = s.server from happend ht)
  | commit i n =>
    obtain ⟨r, t, -, -, -, -, rfl⟩ := step_commit hs
    exact Or.inl rfl
  | answer i n =>
    obtain ⟨r, t, -, -, rfl, rfl | ht⟩ := step_answer hs
    · exact Or.inl rfl
    · exact Or.inl (show t.server = s.server from happend ht)
  | die i n =>
    obtain rfl := step_die hs
    exact Or.inl rfl
  | push i a =>
    obtain ⟨-, -, t, ht, rfl⟩ := step_push hs
    rcases SyncClient.server_step (cfg.plain i) (h.1.sync i) h.1.server h.1.listed ht with hsame | ⟨p, -, hp, -⟩
    · exact Or.inl hsame
    · exact Or.inr ⟨_, hp.db⟩
  | pull i a =>
    obtain ⟨-, -, t, -, rfl⟩ := step_pull hs
    exact Or.inl rfl

theorem server_coherent (hr : Runs.run (step cfg) (init cfg) acts = some s) : s.server.db.Coherent :=
  server_keeps hr (Db.coherent_empty _) fun _ l hdb => hdb.ops l

/-- **Nothing is invented.** In every run, whatever hosts and syncs have failed or died,
each mirror on the server is a prefix of the laptop's day log, the server's database shows what the
mirrors replay to, and a laptop's database shows nothing but what its own
invocations have asked for and what the server mirrors of the other laptops. -/
theorem nothing_invented (cfg : Config ι) {acts : List (Act ι)} {s : State ι}
    (hr : Runs.run (Network.step cfg) (init cfg) acts = some s) :
    (∀ i d, IsDate d → closed nl (SyncClient.mirror (cfg.sync i) (s.sync i) d) <+:
      SyncClient.lines (cfg.sync i) (s.laptop i).home d) ∧
    s.server.db.Coherent ∧ s.server.db.view = (⨆ i, effects (mirrored cfg s i)) ∧
    ∀ i, (s.laptop i).data.db.Coherent ∧ (s.laptop i).data.db.view ≤
      (⨆ o ∈ asked cfg acts i, o.effect) ⊔ ⨆ j, ⨆ (_ : j ≠ i), effects (mirrored cfg s j) := by
  have h := inv_run hr
  refine ⟨fun i d hd => ?_, server_coherent hr, h.db, fun i => ⟨h.coherent i, h.view_le i⟩⟩
  rw [((h.sync i).closed_mirror hd).1]
  exact List.take_prefix _ _

end

/-! ## A run -/

def pair : Config Bool where
  logRoot := ⟨true, [ascii "logs"]⟩
  sort := .insertion
  serverDirectory := []
  machineId b := if b then ascii "a" else ascii "b"
  logDir _ := ⟨true, [ascii "home"]⟩
  peerLogsDir _ := ⟨true, [ascii "peers"]⟩
  directory _ := []
  downloads _ := []
  plain b := by cases b <;> exact ⟨by decide, by decide, by decide, by decide⟩
  distinct b c := by revert b c; decide

def visit : BVLHost.Invocation where
  recordId := ascii "1"
  todayISO := ascii "2024-05-01"
  message := ⟨ascii "log", ascii "https://a", ascii "2024-05-01T00:00:00Z", ascii "A", [], [], false⟩
  faults := {}
  moved := none

def visitPulled : List (Act Bool) :=
  [.log true visit, .commit true 0, .answer true 0] ++
  [.start, .next, .next, .eof, .send .ok, .finish].map (.push true) ++
  [.start, .list, .next, .next, .eof, .endPeer, .receive, .mirror, .replay, .mirror, .replay, .endChunk,
    .finish].map (.pull false)

theorem nothing_invented_visitPulled : ∃ s, Runs.run (step pair) (init pair) visitPulled = some s ∧
    (∀ i d, IsDate d → closed nl (SyncClient.mirror (pair.sync i) (s.sync i) d) <+:
      SyncClient.lines (pair.sync i) (s.laptop i).home d) ∧
    s.server.db.Coherent ∧ s.server.db.view = (⨆ i, effects (mirrored pair s i)) ∧
    ∀ i, (s.laptop i).data.db.Coherent ∧ (s.laptop i).data.db.view ≤
      (⨆ o ∈ asked pair visitPulled i, o.effect) ⊔ ⨆ j, ⨆ (_ : j ≠ i), effects (mirrored pair s j) :=
  ⟨_, rfl, nothing_invented pair rfl⟩

end Network

end VisitLogger
