import VisitLogger.NetworkSound

/-!
# The laptops converge

When no host's dates go back, no host fails or dies, and URLs and timestamps have no
tab, line break or NUL, then the laptops and the server come to show the same: it
takes a time without invocations in which every laptop completes a push, and after
that every laptop completes a pull (`converged`). The one difference that stays are
the marks that an event brings with it, which no line of a day log records.
-/

namespace VisitLogger

open Framing

namespace SyncClient

/-! ## Day logs in the order of their dates -/

section
variable {cfg : Config} {s s' : Sync} {server' : Server.State} {home home' : Disk} {p : Push} {date : Text}

def Latest (cfg : Config) (home : Disk) (date : Text) : Prop :=
  ∀ e, IsDate e → date < e → dayLog cfg e ∉ home.files.keys

def HasLog (cfg : Config) (home : Disk) (date : Text) : Prop :=
  date = [] ∨ IsDate date ∧ dayLog cfg date ∈ home.files.keys

/-- What a push under way has come to are dates of day logs. -/
structure Known (cfg : Config) (home : Disk) (p : Push) : Prop where
  last : HasLog cfg home p.lastDate
  todo : ∀ e ∈ p.todo, dayLog cfg e ∈ home.files.keys
  gathered : ∀ l ∈ p.pbLines, dayLog cfg l.date ∈ home.files.keys ∧ l.date ≤ p.lastDate

/-- The server has a day log only once those of earlier dates are mirrored in full. -/
structure Dated (cfg : Config) (s : Sync) : Prop where
  row : HasLog cfg s.home (getCursor s.row).1
  push : ∀ p, s.push = some p → Known cfg s.home p
  server : ∀ e, IsDate e → Store.logPath cfg.logRoot cfg.machineId e ∈ s.server.disk.files.keys →
    dayLog cfg e ∈ s.home.files.keys
  full : ∀ d e, IsDate d → IsDate e → d < e →
    Store.logPath cfg.logRoot cfg.machineId e ∈ s.server.disk.files.keys →
    (lines cfg s.home d).length ≤ mirrored cfg s.server d

theorem HasLog.le (h : HasLog cfg home date) {d : Text} (hd : Latest cfg home d) : date ≤ d := by
  rcases h with rfl | ⟨hdate, hk⟩
  · exact not_lt.mp (List.not_lt_nil d)
  · exact not_lt.mp fun hlt => hd date hdate hlt hk

theorem HasLog.mono (h : HasLog cfg home date) (hk : ∀ q ∈ home.files.keys, q ∈ home'.files.keys) :
    HasLog cfg home' date := h.imp_right fun ⟨hd, hm⟩ => ⟨hd, hk _ hm⟩

theorem Known.mono (h : Known cfg home p) (hk : ∀ q ∈ home.files.keys, q ∈ home'.files.keys) :
    Known cfg home' p :=
  ⟨h.last.mono hk, fun e he => hk _ (h.todo e he), fun l hl => (h.gathered l hl).imp_left (hk _)⟩

/-- **A day log of the latest date is one that every push has still to read.** -/
theorem Dated.inOrder (h : Dated cfg s) (hi : Inv cfg s) (hd : Latest cfg s.home date) (line : Text) :
    InOrder s (.append date line) := by
  refine ⟨h.row.le hd, fun p hp => ⟨(h.push p hp).last.le hd, ?_⟩⟩
  by_cases hm : date ∈ p.todo
  · exact Or.inl hm
  · right
    intro e he
    have hle : e ≤ date := not_lt.mp fun hlt => hd e ((hi.push p hp).todo e he) hlt ((h.push p hp).todo e he)
    exact lt_of_le_of_ne hle fun heq => hm (heq ▸ he)

theorem keys_appendLocal (home : Disk) (date line : Text) :
    ∀ q ∈ home.files.keys, q ∈ (appendLocal cfg home date line).files.keys := by
  intro q hq
  rw [appendLocal, Disk.write, ← AList.mem_keys, AList.mem_insert]
  exact Or.inr (AList.mem_keys.mpr hq)

theorem Latest.append (h : Latest cfg home date) (hd : IsDate date) (line : Text) :
    Latest cfg (appendLocal cfg home date line) date := by
  intro e he hlt hk
  rw [appendLocal, Disk.write, ← AList.mem_keys, AList.mem_insert] at hk
  rcases hk with hk | hk
  · exact hlt.ne' (dayLog_inj he hd hk)
  · exact h e he hlt (AList.mem_keys.mp hk)

theorem Dated.append (h : Dated cfg s) (hi : Inv cfg s) (hd : IsDate date) {line : Text}
    (hl : nl ∉ line ∧ cr ∉ line) (hlast : Latest cfg s.home date) :
    Dated cfg { s with home := appendLocal cfg s.home date line } := by
  have hk : ∀ q ∈ s.home.files.keys, q ∈ (appendLocal cfg s.home date line).files.keys :=
    keys_appendLocal s.home date line
  refine ⟨h.row.mono hk, fun p hp => (h.push p hp).mono hk, fun e he hm => hk _ (h.server e he hm),
    fun d e hd' he hlt hm => ?_⟩
  rw [lines_appendLocal hi.home hd hl hd']
  split
  · rename_i heq
    subst heq
    exact absurd (h.server e he hm) (hlast e he hlt)
  · exact h.full d e hd' he hlt hm

theorem Known.start (hh : HomeInv cfg home) {row : Option (Text × Int)}
    (h : HasLog cfg home (getCursor row).1) :
    Known cfg home (startPush cfg home row) := by
  refine ⟨h, fun e he => ?_, nofun⟩
  rw [mem_todo_start] at he
  exact ((mem_listLocalLogDates hh).mp he.1).2

theorem Known.line (h : Known cfg home p) {n : Text → Nat} (ho : PushOrder (lines cfg home) n p)
    (hd : ∀ e ∈ p.todo, IsDate e)
    {rest : List Text} (ht : p.todo = date :: rest) (raw : Text) : Known cfg home (p.line date raw) := by
  have hm : date ∈ p.todo := by simp [ht]
  rw [line_eq]
  split
  · exact ⟨h.last, h.todo, h.gathered⟩
  · refine ⟨Or.inr ⟨hd date hm, h.todo date hm⟩, h.todo, fun l hl => ?_⟩
    rcases List.mem_append.mp hl with hl | hl
    · obtain ⟨hk, hle⟩ := h.gathered l hl
      exact ⟨hk, hle.trans (ho.ahead date hm)⟩
    · obtain rfl := List.mem_singleton.mp hl
      exact ⟨h.todo _ hm, le_rfl⟩

/-- **Step.** -/
theorem Dated.step (hm : Plain cfg.machineId) (hi : Inv cfg s) (ho : Ordered cfg s) (h : Dated cfg s)
    (hs : PullLogs.ServerInv cfg.logRoot s.server.disk) (hlist : PullLogs.Listed cfg.logRoot s.server.disk)
    {a : Act} (ha : ∀ date line, a = .append date line → Latest cfg s.home date)
    (hstep : SyncClient.step cfg s a = some s') : Dated cfg s' := by
  cases a with
  | append date line =>
    obtain ⟨hd, hl, rfl⟩ := step_append hstep
    exact h.append hi hd hl (ha date line rfl)
  | start =>
    obtain ⟨-, rfl⟩ := step_start hstep
    have hrow : HasLog cfg s.home (getCursor (markAttempt s.row)).1 := by
      rw [getCursor_markAttempt]
      exact h.row
    refine ⟨hrow, fun p hp => ?_, h.server, h.full⟩
    cases hp
    exact Known.start hi.home hrow
  | next =>
    obtain ⟨p, date, rest, raw, hp, ht, -, rfl⟩ := step_next hstep
    refine ⟨h.row, fun q hq => ?_, h.server, h.full⟩
    cases hq
    exact (h.push p hp).line (ho.push p hp) (hi.push p hp).todo ht raw
  | eof =>
    obtain ⟨p, date, rest, hp, ht, -, rfl⟩ := step_eof hstep
    refine ⟨h.row, fun q hq => ?_, h.server, h.full⟩
    cases hq
    have hk := h.push p hp
    exact ⟨hk.last, fun e he => hk.todo e (by rw [ht]; exact List.mem_cons_of_mem _ he), hk.gathered⟩
  | send o =>
    obtain ⟨p, hp, hcases⟩ := hi.send_cases hm.ne_nil hstep
    have hserver := server_step hm hi hs hlist hstep
    rcases hcases with rfl | ⟨server, reply, push, -, -, hmono, hsent, hpush, rfl⟩
    · exact ⟨h.row, nofun, h.server, h.full⟩
    -- a log that is new on the server is of a date that the push has gathered
    have hnew : ∀ e, IsDate e → Store.logPath cfg.logRoot cfg.machineId e ∈ server.disk.files.keys →
        Store.logPath cfg.logRoot cfg.machineId e ∈ s.server.disk.files.keys ∨ ∃ l ∈ p.pbLines, l.date = e := by
      intro e he hk
      rcases hserver with hsame | ⟨q, hq, hpushed, -⟩
      · simp only at hsame
        rw [hsame] at hk
        exact Or.inl hk
      · obtain rfl : p = q := Option.some.inj (hp.symm.trans hq)
        exact (hpushed.keys cfg.machineId e hm he hk).imp_right And.right
    refine ⟨h.row, fun q hq => ?_, fun e he hk => ?_, fun d e hd he hlt hk => ?_⟩
    · rcases hpush with rfl | rfl
      · cases hq
      · cases hq
        exact ⟨(h.push p hp).last, (h.push p hp).todo, nofun⟩
    · rcases hnew e he hk with hk | ⟨l, hl, rfl⟩
      · exact h.server e he hk
      · exact ((h.push p hp).gathered l hl).1
    · rcases hnew e he hk with hk | ⟨l, hl, rfl⟩
      · exact (h.full d e hd he hlt hk).trans (hmono d)
      · -- the push had come to the end of every earlier day log
        have hfull := (ho.push p hp).last d hd (lt_of_lt_of_le hlt ((h.push p hp).gathered l hl).2)
        exact (Covered.sent hfull hmono hsent).le
  | finish =>
    obtain ⟨p, hp, -, -, rfl⟩ := step_finish hstep
    refine ⟨?_, nofun, h.server, h.full⟩
    simp only
    split
    · exact (h.push p hp).last
    · exact h.row
  | kill =>
    obtain rfl := step_kill hstep
    exact ⟨h.row, nofun, h.server, h.full⟩

/-! ### The mirrors of the other laptops -/

structure SameMirrors (cfg : Config) (server server' : Server.State) : Prop where
  bytes : ∀ d, IsDate d → server'.disk.bytes (Store.logPath cfg.logRoot cfg.machineId d) =
    server.disk.bytes (Store.logPath cfg.logRoot cfg.machineId d)
  keys : ∀ d, IsDate d → Store.logPath cfg.logRoot cfg.machineId d ∈ server'.disk.files.keys →
    Store.logPath cfg.logRoot cfg.machineId d ∈ server.disk.files.keys

theorem SameMirrors.mirrored (h : SameMirrors cfg s.server server') {d : Text} (hd : IsDate d) :
    mirrored cfg server' d = mirrored cfg s.server d := mirrored_congr (h.bytes d hd)

theorem Ordered.frame (ho : Ordered cfg s) (h : SameMirrors cfg s.server server') :
    Ordered cfg { s with server := server' } := by
  refine ⟨fun d hd hlt => ?_, fun p hp => ?_⟩
  · rw [h.mirrored hd]
    exact ho.row d hd hlt
  · obtain ⟨hsorted, hahead, hlast, hpassed⟩ := ho.push p hp
    exact ⟨hsorted, hahead, fun d hd hlt => Covered.congr (hlast d hd hlt) (h.mirrored hd),
      fun d hd hn he => Covered.congr (hpassed d hd hn he) (h.mirrored hd)⟩

theorem Dated.frame (hd : Dated cfg s) (h : SameMirrors cfg s.server server') :
    Dated cfg { s with server := server' } := by
  refine ⟨hd.row, hd.push, fun e he hk => hd.server e he (h.keys e he hk), fun d e hd' he hlt hk => ?_⟩
  rw [h.mirrored hd']
  exact hd.full d e hd' he hlt (h.keys e he hk)

theorem NoAppend.frame (hn : NoAppend cfg s) (h : SameMirrors cfg s.server server') :
    NoAppend cfg { s with server := server' } :=
  fun p hp d hd hnot => Covered.congr (hn p hp d hd hnot) (h.mirrored hd)

end

end SyncClient

/-! ## Pulls of a server that grows -/

namespace PullLogs

section
variable {cfg : Config} {directory : Text} {s s' : State} {server' : Disk} {P : Text} {l : LogLine}

theorem Inv.serverGrown (h : Inv cfg directory s) (hs : ServerInv cfg.logRoot server')
    (hg : Grown cfg.logRoot s.server server') (ho : InOrder cfg.logRoot s.server server') :
    Inv cfg directory { s with server := server' } := by
  refine ⟨hs, h.data.grown hg ho, h.db, fun p hp => ?_⟩
  obtain ⟨hinv, hdb⟩ := h.pull p hp
  exact ⟨hinv.grown hg ho, hdb⟩

theorem allowed_client {a : Act} (ha : Network.IsClient a) : Allowed cfg s a := by
  cases a with
  | append peer io date group => cases ha
  | _ => trivial

theorem Inv.client (h : Inv cfg directory s) {a : Act} (ha : Network.IsClient a)
    (hs : PullLogs.step cfg s a = some s') : Inv cfg directory s' := h.step (allowed_client ha) hs

theorem Inv.hosts (h : Inv cfg directory s) {ops : List Op}
    (hr : Runs.run (PullLogs.step cfg) s (ops.map .host) = some s') : Inv cfg directory s' := by
  have hobeys : Runs.Obeys (PullLogs.step cfg) (Allowed cfg) s (ops.map .host) := by
    refine Runs.obeys_of_forall (fun a ha t => ?_) s
    obtain ⟨o, -, rfl⟩ := List.mem_map.mp ha
    trivial
  exact Runs.run_invariant (fun _ _ _ h ha hs => h.step ha hs) h hobeys hr

theorem written_step (h : Inv cfg directory s) {a : Act} (ha : Network.IsClient a)
    (hs : PullLogs.step cfg s a = some s') : ∀ w ∈ s.data.written, w ∈ s'.data.written := by
  have hcommit : ∀ p, s.pull = some p → ∀ w ∈ s.data.written, w ∈ (p.now s.data).written :=
    fun p hp => (h.pull p hp).1.kept
  cases a with
  | append peer io date group => cases ha
  | host o => cases ha
  | start =>
    simp only [PullLogs.step] at hs
    split at hs
    · cases hs
    · cases hs
      exact fun _ => id
  | list =>
    obtain ⟨p, p', -, -, rfl⟩ := step_pull hs
    exact fun _ => id
  | next =>
    obtain ⟨p, p', -, -, rfl⟩ := step_pull hs
    exact fun _ => id
  | eof =>
    obtain ⟨p, p', -, -, rfl⟩ := step_pull hs
    exact fun _ => id
  | endPeer =>
    obtain ⟨p, p', -, -, rfl⟩ := step_pull hs
    exact fun _ => id
  | receive =>
    obtain ⟨p, p', -, -, rfl⟩ := step_pull hs
    exact fun _ => id
  | mirror =>
    obtain ⟨p, c, l, -, -, -, -, rfl⟩ := step_mirror hs
    exact fun _ => id
  | replay =>
    obtain ⟨p, c, l, -, -, -, -, rfl⟩ := step_replay hs
    exact fun _ => id
  | endChunk =>
    obtain ⟨p, c, cur, -, -, -, -, rfl⟩ := step_endChunk hs
    exact fun _ => id
  | finish =>
    obtain ⟨p, hp, -, -, -, rfl⟩ := step_finish hs
    exact hcommit p hp
  | fail =>
    obtain ⟨p, hp, rfl⟩ := Option.map_eq_some_iff.mp hs
    exact hcommit p hp
  | kill =>
    obtain ⟨p, hp, rfl⟩ := Option.map_eq_some_iff.mp hs
    exact fun _ => id

def Unlisted (P : Text) (p : Pull) : Prop :=
  ∃ peer peers, p.peers = peer :: peers ∧ (P ∈ peers ∨ P = peer ∧ p.todo = none)

/-- The server has the line, and the pull under way, if there is one, has it or will come to it. -/
structure Coming (cfg : Config) (P : Text) (l : LogLine) (s : State) : Prop where
  line : l ∈ peerLog cfg.logRoot s.server P
  pull : ∀ p, s.pull = some p → Awaits cfg P l s p ∨ Unlisted P p

theorem Coming.grown (h : Coming cfg P l s) (hP : Plain P) (hg : Grown cfg.logRoot s.server server') :
    Coming cfg P l { s with server := server' } := by
  refine ⟨hg.mem hP h.line, fun p hp => ?_⟩
  refine (h.pull p hp).imp_left fun ha => ?_
  exact ha.imp_right fun hmem => ⟨hg.mem hP hmem.1, hmem.2⟩

theorem Coming.start (hl : l ∈ peerLog cfg.logRoot s.server P) (hP : P ∈ s.server.subdirs cfg.logRoot)
    (hne : P ≠ cfg.machineId) (hs : PullLogs.step cfg s .start = some s') : Coming cfg P l s' := by
  simp only [PullLogs.step] at hs
  split at hs
  · cases hs
  · cases hs
    refine ⟨hl, fun p hp => Or.inr ?_⟩
    cases hp
    have hmem : P ∈ (startPull cfg s).peers :=
      List.mem_filter.mpr ⟨mem_sortStrings.mpr hP, by simpa using hne⟩
    rcases hpeers : (startPull cfg s).peers with _ | ⟨peer, peers⟩
    · rw [hpeers] at hmem
      cases hmem
    · rw [hpeers] at hmem
      refine ⟨peer, peers, hpeers, (List.mem_cons.mp hmem).elim (fun he => Or.inr ⟨he, rfl⟩) Or.inl⟩

theorem Coming.of_pull {p : Pull} (hl : l ∈ peerLog cfg.logRoot s.server P) (hp : s.pull = some p)
    (h : Awaits cfg P l s p ∨ Unlisted P p) : Coming cfg P l s := by
  refine ⟨hl, fun q hq => ?_⟩
  obtain rfl : p = q := Option.some.inj (hp.symm.trans hq)
  exact h

/-- **Step.** -/
theorem Coming.step (h : Inv cfg directory s) (hc : Coming cfg P l s) (hP : Plain P) {a : Act}
    (ha : Network.IsClient a) (hne : a ≠ .start) (hs : PullLogs.step cfg s a = some s') :
      Coming cfg P l s' := by
  have hline : l ∈ peerLog cfg.logRoot s'.server P := by
    rw [server_step ha hs]
    exact hc.line
  -- a line that is awaited stays so
  have hawaited : ∀ p, s.pull = some p → Awaits cfg P l s p → Coming cfg P l s' := by
    intro p hp hw
    have hstill := (StillAwaits.of_pull hp hw).step h hP (allowed_client ha) hne hs
    exact ⟨hline, fun q hq => Or.inl (hstill q hq)⟩
  -- and a step that leaves the peers leaves a peer that is not listed
  have hrest : ∀ p p', s.pull = some p → s'.pull = some p' →
      (Unlisted P p → Awaits cfg P l s' p' ∨ Unlisted P p') → Coming cfg P l s' := by
    intro p p' hp hp' hstep
    rcases hc.pull p hp with hw | hu
    · exact hawaited p hp hw
    · exact .of_pull hline hp' (hstep hu)
  have hends : ∀ p, s.pull = some p → s'.pull = none → Coming cfg P l s' := by
    intro p _ hnone
    exact ⟨hline, fun q hq => by rw [hnone] at hq; cases hq⟩
  cases a with
  | append peer io date group => cases ha
  | host o => cases ha
  | start => exact absurd rfl hne
  | list =>
    obtain ⟨p, p', hp, hf, rfl⟩ := step_pull hs
    refine hrest p p' hp rfl fun ⟨peer, peers, hpeers, hu⟩ => ?_
    by_cases he : P = peer
    · subst he
      exact Or.inl (Awaits.list (h.pull p hp).1 h.data hf hpeers hc.line)
    · obtain ⟨-, -, -, -, rfl⟩ := Pull.list_spec hf
      exact Or.inr ⟨peer, peers, hpeers, Or.inl (hu.resolve_right fun hn => he hn.1)⟩
  | next =>
    obtain ⟨p, p', hp, hf, rfl⟩ := step_pull hs
    obtain ⟨-, -, -, -, -, -, ht, -, hpeers', ht', -, -, -⟩ := Pull.next_spec hf
    refine hrest p p' hp rfl fun ⟨peer, peers, hpeers, hu⟩ => Or.inr ⟨peer, peers, hpeers' ▸ hpeers, ?_⟩
    rw [ht']
    exact hu
  | eof =>
    obtain ⟨p, p', hp, hf, rfl⟩ := step_pull hs
    obtain ⟨q, qs, date, rest, -, ht, -, rfl⟩ := Pull.eof_spec hf
    refine hrest p _ hp rfl fun ⟨peer, peers, hpeers, hu⟩ => Or.inr ⟨peer, peers, hpeers, Or.inl ?_⟩
    refine hu.resolve_right fun hn => ?_
    rw [ht] at hn
    cases hn.2
  | endPeer =>
    obtain ⟨p, p', hp, hf, rfl⟩ := step_pull hs
    obtain ⟨peer, peers, hpeers, ht, hpeers', ht', -, -, -⟩ := Pull.endPeer_spec hf
    refine hrest p p' hp rfl fun ⟨peer', ps, hps, hu⟩ => Or.inr ?_
    rw [hpeers] at hps
    obtain ⟨rfl, rfl⟩ := List.cons.inj hps
    have hmem : P ∈ peers := hu.resolve_right fun hn => by rw [ht] at hn; cases hn.2
    cases peers with
    | nil => cases hmem
    | cons q qs => exact ⟨q, qs, hpeers', (List.mem_cons.mp hmem).elim (fun he => Or.inr ⟨he, ht'⟩) Or.inl⟩
  | receive =>
    obtain ⟨p, p', hp, hf, rfl⟩ := step_pull hs
    obtain ⟨-, -, -, -, -, -, hpeers', ht', -, -, -, -, -⟩ := Pull.receive_spec hf
    refine hrest p p' hp rfl fun ⟨peer, peers, hpeers, hu⟩ => Or.inr ⟨peer, peers, hpeers' ▸ hpeers, ?_⟩
    rw [ht']
    exact hu
  | mirror =>
    obtain ⟨p, c, m, hp, -, -, -, rfl⟩ := step_mirror hs
    exact hrest p _ hp rfl Or.inr
  | replay =>
    obtain ⟨p, c, m, hp, -, -, -, rfl⟩ := step_replay hs
    exact hrest p _ hp rfl Or.inr
  | endChunk =>
    obtain ⟨p, c, cur, hp, -, -, -, rfl⟩ := step_endChunk hs
    exact hrest p _ hp rfl Or.inr
  | finish =>
    obtain ⟨p, hp, -, -, -, rfl⟩ := step_finish hs
    exact hends p hp rfl
  | fail =>
    obtain ⟨p, hp, rfl⟩ := Option.map_eq_some_iff.mp hs
    exact hends p hp rfl
  | kill =>
    obtain ⟨p, hp, rfl⟩ := Option.map_eq_some_iff.mp hs
    exact hends p hp rfl

theorem Coming.finish (hc : Coming cfg P l s) (hs : PullLogs.step cfg s .finish = some s') :
    .pulled P l ∈ s'.data.written := by
  refine StillAwaits.finish (fun p hp => (hc.pull p hp).resolve_right ?_) hs
  rintro ⟨peer, peers, hpeers, -⟩
  obtain ⟨q, hq, hnil, -⟩ := step_finish hs
  obtain rfl : p = q := Option.some.inj (hp.symm.trans hq)
  rw [hnil] at hpeers
  cases hpeers

end

end PullLogs

/-! ## What an invocation logs, and what it writes -/

theorem Action.effect_congr {a b : Action} (hu : a.url = b.url) (ht : a.timestamp = b.timestamp)
    (htag : a.tag = b.tag) : a.effect = b.effect := by
  simp only [effect, op, Op.effect, hu, ht, htag]
  by_cases h : b.tag = ascii "of_interest"
  · simp [h]
  · cases EventsTable.forTag b.tag <;> simp [h]

theorem lineEffect_actionLine (recordId : Text) {a : Action} (h : a.tag = [] ∨ a.tag ∈ validTags) :
    lineEffect (VisitLog.actionLine recordId a) = (VisitLog.sanitised a).effect := by
  rw [lineEffect, Store.lineOp, actionLine_fields]
  rcases actionFields_cases (i := recordId) h id [] with ⟨hf, -, ht⟩ | ⟨hf, -, ht⟩ | ⟨t, hf, -, ht⟩
  · have htag : EventsTable.forTag [] = none := rfl
    have hne : [] ≠ ascii "of_interest" := by decide
    simp [hf, Action.effect, Action.op, VisitLog.sanitised, ht, htag, hne]
  · have htag : tsvSanitise (ascii "of_interest") = ascii "of_interest" := by decide
    simp [hf, Action.effect, Action.op, VisitLog.sanitised, ht, htag]
  · simp [hf, tsvSanitise_tag, Action.effect, Action.op, VisitLog.sanitised, ht, t.tag_ne.2, Op.effect]

theorem lineEffect_resultLine (recordId result : Text) :
    lineEffect (VisitLog.resultLine recordId result) = ⊥ := by
  rw [lineEffect, Store.lineOp, resultLine_fields]
  rfl

namespace BVLHost

/-- The URL and the timestamp go into the log and into the database as they are. -/
structure Invocation.Tidy (inv : Invocation) : Prop where
  url : Clean inv.message.request.url ∧ 0 ∉ inv.message.request.url
  timestamp : Clean inv.message.request.timestamp ∧ 0 ∉ inv.message.request.timestamp

def Invocation.flag (inv : Invocation) : Set Text :=
  {u | inv.message.alsoOfInterest = true ∧ isEventTag inv.message.request.tag = true ∧
    u = inv.message.request.url}

def marks (A : Set Text) : View := (⊥, A, ⊥)

theorem marks_mono {A B : Set Text} (h : A ⊆ B) : marks A ≤ marks B := ⟨le_rfl, h, le_rfl⟩

/-- **An invocation writes what it logs**, and the mark of its event. -/
theorem Invocation.Tidy.ops_effect {inv : Invocation} (h : inv.Tidy) (ha : inv.Accepted) (downloads : Text) :
    ⨆ o ∈ BVLHost.ops downloads inv.message.request inv.message.alsoOfInterest, o.effect =
      lineEffect (VisitLog.actionLine inv.recordId inv.message.request) ⊔ marks inv.flag := by
  have hsame : (bound inv.message.request).effect = (VisitLog.sanitised inv.message.request).effect := by
    refine Action.effect_congr ?_ ?_ rfl
    · exact (cString_of_notMem h.url.2).trans (tsvSanitise_of_clean h.url.1).symm
    · exact (cString_of_notMem h.timestamp.2).trans (tsvSanitise_of_clean h.timestamp.1).symm
  rw [lineEffect_actionLine inv.recordId ha.tag, ← hsame,
    ← Action.op_effect _ (fun f => cString (lastPathComponent f)) downloads]
  change GrowOnly.total Op.effect _ = _
  rw [BVLHost.ops, GrowOnly.total_cons]
  have hurl : cString inv.message.request.url = inv.message.request.url := cString_of_notMem h.url.2
  by_cases hflag : (inv.message.alsoOfInterest && isEventTag inv.message.request.tag) = true
  · rw [if_pos hflag, GrowOnly.total_cons, GrowOnly.total_nil, sup_bot_eq]
    rw [Bool.and_eq_true] at hflag
    refine Prod.ext ?_ (Prod.ext ?_ ?_)
    · simp [Op.effect, Action.op, marks]
    · simp [Op.effect, Action.op, marks, Invocation.flag, hflag, bound, hurl]
    · simp only [Op.effect, Action.op, marks, reduceCtorEq, exists_false, false_and, Set.ofPred_false]
      exact sup_bot_eq _ |>.trans (sup_bot_eq _).symm
  · rw [if_neg hflag, GrowOnly.total_nil, sup_bot_eq]
    have hnone : inv.flag = ⊥ := by
      refine Set.eq_empty_of_forall_notMem ?_
      rintro u ⟨h₁, h₂, -⟩
      exact hflag (by simp [h₁, h₂])
    rw [hnone]
    exact (sup_bot_eq _).symm

end BVLHost

/-! ## Orderly runs -/

namespace Network

section
variable {ι : Type*} {cfg : Config ι} {acts : List (Act ι)} {s s' : State ι} {i j : ι}

/-- A host writes to the log of the latest day, with an invocation that succeeds and whose
URL and timestamp are logged as they are, and does not die. -/
def Orderly (cfg : Config ι) (s : State ι) : Act ι → Prop
  | .log i inv => inv.Succeeds ∧ inv.Tidy ∧ SyncClient.Latest (cfg.sync i) (s.laptop i).home inv.todayISO
  | .answer i n => ∀ r, (s.laptop i).running[n]? = some r →
      SyncClient.Latest (cfg.sync i) (s.laptop i).home r.inv.todayISO
  | .die _ _ => False
  | _ => True

theorem Orderly.of_sync {a : Act ι} (ha : a.isHost = false) : Orderly cfg s a := by
  cases a with
  | push i a => trivial
  | pull i a => trivial
  | _ => cases ha

/-- What the invocations of a run have logged and written so far. -/
structure Hosts (cfg : Config ι) (acts : List (Act ι)) (s : State ι) : Prop where
  asked : ∀ i inv, .log i inv ∈ acts → inv.Succeeds ∧ inv.Tidy ∧
    VisitLog.actionLine inv.recordId inv.message.request ∈ logged cfg s i
  lines : ∀ i, ∀ raw ∈ logged cfg s i, lineEffect raw = ⊥ ∨
    ∃ inv, .log i inv ∈ acts ∧ raw = VisitLog.actionLine inv.recordId inv.message.request
  written : ∀ i inv, .log i inv ∈ acts → (∃ r ∈ (s.laptop i).running, r.inv = inv ∧ r.committed = false) ∨
    ∀ o ∈ hostOps cfg i inv, .host o ∈ (s.laptop i).data.written

structure Good (cfg : Config ι) (acts : List (Act ι)) (s : State ι) : Prop where
  inv : Inv cfg acts s
  ordered : ∀ i, SyncClient.Ordered (cfg.sync i) (s.sync i)
  dated : ∀ i, SyncClient.Dated (cfg.sync i) (s.sync i)
  pull : ∀ i, PullLogs.Inv (cfg.pulls i) (cfg.directory i) (s.pulls i)
  hosts : Hosts cfg acts s

theorem sameMirrors_of_pushed (hne : j ≠ i) {lines : List LogLine} {server server' : Server.State}
    (hp : Server.Pushed cfg.logRoot cfg.sort (cfg.machineId i) lines server server') :
    SyncClient.SameMirrors (cfg.sync j) server server' := by
  have hid : cfg.machineId j ≠ cfg.machineId i := fun he => hne (cfg.distinct he)
  exact ⟨fun d hd => hp.other _ d (cfg.plain j) hd hid,
    fun d hd hk => (hp.keys _ d (cfg.plain j) hd hk).resolve_right fun h => hid h.1⟩

/-- What a step of a laptop's push does to the server, as the others see it. -/
structure ServerStep (cfg : Config ι) (i : ι) (server server' : Server.State) : Prop where
  inv : PullLogs.ServerInv cfg.logRoot server'.disk
  grown : PullLogs.Grown cfg.logRoot server.disk server'.disk
  order : PullLogs.InOrder cfg.logRoot server.disk server'.disk
  other : ∀ j, j ≠ i → SyncClient.SameMirrors (cfg.sync j) server server'

theorem mirrored_mono {server server' : Server.State} (hs : PullLogs.ServerInv cfg.logRoot server.disk)
    (hs' : PullLogs.ServerInv cfg.logRoot server'.disk)
    (hg : PullLogs.Grown cfg.logRoot server.disk server'.disk) (i : ι) {d : Text} (hd : IsDate d) :
    SyncClient.mirrored (cfg.sync i) server d ≤ SyncClient.mirrored (cfg.sync i) server' d := by
  have hpre := (hg.lines (cfg.machineId i) d (cfg.plain i) hd).length_le
  rw [hs.texts_eq (cfg.plain i) hd, hs'.texts_eq (cfg.plain i) hd, length_closed, length_closed] at hpre
  exact hpre

/-- **A push adds nothing before a later day log.** -/
theorem Good.serverStep (h : Good cfg acts s) {t : SyncClient.Sync} {a : SyncClient.Act}
    (ha : a.isAppend = false)
    (ht : SyncClient.step (cfg.sync i) (s.sync i) a = some t) : ServerStep cfg i s.server t.server := by
  rcases SyncClient.server_step (cfg.plain i) (h.inv.sync i) h.inv.server h.inv.listed ht with hsame |
    ⟨p, -, hp, -⟩
  · rw [show t.server = s.server from hsame]
    exact ⟨h.inv.server, .refl _, fun _ _ _ _ _ _ _ _ => rfl, fun j _ => ⟨fun _ _ => rfl, fun _ _ => id⟩⟩
  have hp : Server.Pushed cfg.logRoot cfg.sort (cfg.machineId i) p.pbLines s.server t.server := hp
  have hinv := (h.inv.sync i).step (cfg.plain i).ne_nil ht
  have hhome : t.home = (s.sync i).home := SyncClient.home_step ha ht
  refine ⟨hp.server, hp.grown, fun P d e hP hd he hlt hk => ?_, fun j hne => sameMirrors_of_pushed hne hp⟩
  obtain ⟨j, rfl⟩ := h.inv.peers P e hP he hk
  rw [h.inv.server.texts_eq hP hd, hp.server.texts_eq hP hd]
  by_cases hj : j = i
  · subst hj
    -- the day log was mirrored in full, and its mirror is a prefix of it
    have hold := (h.inv.sync j).closed_mirror hd
    have hnew := hinv.closed_mirror hd
    have hfull := (h.dated j).full d e hd he hlt hk
    have hmono := mirrored_mono h.inv.server hp.server hp.grown j hd
    change Framing.closed nl (SyncClient.mirror (cfg.sync j) t d) =
      Framing.closed nl (SyncClient.mirror (cfg.sync j) (s.sync j) d)
    rw [hnew.1, hold.1, hhome, List.take_of_length_le (hfull.trans hmono), List.take_of_length_le hfull]
  · rw [hp.other (cfg.machineId j) d hP hd fun he => hj (cfg.distinct he)]

theorem logged_congr (h : (s'.laptop j).home = (s.laptop j).home) : logged cfg s' j = logged cfg s j := by
  simp only [logged, h]

theorem Hosts.more (h : Hosts cfg acts s) {a : Act ι} (ha : ∀ i inv, a ≠ .log i inv) :
    Hosts cfg (acts ++ [a]) s := by
  have hmem : ∀ i inv, .log i inv ∈ acts ++ [a] → .log i inv ∈ acts := by
    intro i inv hm
    refine (List.mem_append.mp hm).resolve_right fun hm => ?_
    exact ha i inv (List.mem_singleton.mp hm).symm
  exact ⟨fun i inv hm => h.asked i inv (hmem i inv hm),
    fun i raw hraw => (h.lines i raw hraw).imp_right fun ⟨inv, hm, he⟩ => ⟨inv, List.mem_append_left _ hm, he⟩,
    fun i inv hm => h.written i inv (hmem i inv hm)⟩

theorem Hosts.keep (h : Hosts cfg acts s) (hhome : ∀ i, (s'.laptop i).home = (s.laptop i).home)
    (hrunning : ∀ i, (s'.laptop i).running = (s.laptop i).running)
    (hwritten : ∀ i, ∀ w ∈ (s.laptop i).data.written, w ∈ (s'.laptop i).data.written) : Hosts cfg acts s' := by
  have hlogged : ∀ i, logged cfg s' i = logged cfg s i := fun i => logged_congr (hhome i)
  refine ⟨fun i inv hm => ?_, fun i raw hraw => h.lines i raw (hlogged i ▸ hraw), fun i inv hm => ?_⟩
  · rw [hlogged]
    exact h.asked i inv hm
  · rw [hrunning]
    exact (h.written i inv hm).imp_right fun hw o ho => hwritten i _ (hw o ho)

variable [DecidableEq ι]

theorem logged_appendLine (h : SyncClient.Inv (cfg.sync i) (s.sync i)) {date line : Text}
    (hs : appendLine cfg s i date line = some s') (j : ι) (raw : Text) :
    raw ∈ logged cfg s' j ↔ raw ∈ logged cfg s j ∨ j = i ∧ raw = line := by
  obtain ⟨hd, hl, rfl⟩ := appendLine_spec hs
  by_cases hj : j = i
  · subst hj
    have hlines : ∀ d, IsDate d → SyncClient.lines (cfg.sync j)
        (SyncClient.appendLocal (cfg.sync j) (s.laptop j).home date line) d =
          if d = date then SyncClient.lines (cfg.sync j) (s.laptop j).home d ++ [line]
          else SyncClient.lines (cfg.sync j) (s.laptop j).home d :=
      fun d hd' => SyncClient.lines_appendLocal h.home hd hl hd'
    simp only [logged, home_setSync, Set.mem_ofPred_eq, true_and]
    constructor
    · rintro ⟨d, hd', hraw⟩
      rw [hlines d hd'] at hraw
      split at hraw
      · refine (List.mem_append.mp hraw).imp (fun h => ⟨d, hd', h⟩) List.mem_singleton.mp
      · exact Or.inl ⟨d, hd', hraw⟩
    · rintro (⟨d, hd', hraw⟩ | rfl)
      · refine ⟨d, hd', ?_⟩
        rw [hlines d hd']
        split
        · exact List.mem_append_left _ hraw
        · exact hraw
      · refine ⟨date, hd, ?_⟩
        rw [hlines date hd, if_pos rfl]
        exact List.mem_append_right _ (List.mem_singleton.mpr rfl)
  · rw [logged_congr (home_setSync_ne s _ hj)]
    simp [hj]

theorem Good.appended (h : Good cfg acts s) {date line : Text}
    (hlast : SyncClient.Latest (cfg.sync i) (s.laptop i).home date)
    (hs : appendLine cfg s i date line = some s') :
    (∀ j, SyncClient.Ordered (cfg.sync j) (s'.sync j)) ∧ (∀ j, SyncClient.Dated (cfg.sync j) (s'.sync j)) ∧
      ∀ j, PullLogs.Inv (cfg.pulls j) (cfg.directory j) (s'.pulls j) := by
  obtain ⟨t, ht, rfl⟩ := Option.map_eq_some_iff.mp hs
  have hin := (h.dated i).inOrder (h.inv.sync i) hlast line
  have hordered := (h.ordered i).step (cfg.plain i).ne_nil (h.inv.sync i) hin ht
  have hdated := (h.dated i).step (cfg.plain i) (h.inv.sync i) (h.ordered i) h.inv.server h.inv.listed
    (fun d l he => by cases he; exact hlast) ht
  obtain ⟨-, -, rfl⟩ := SyncClient.step_append ht
  refine ⟨fun j => ?_, fun j => ?_, fun j => ?_⟩
  · by_cases hj : j = i
    · subst hj
      rw [sync_setSync]
      exact hordered
    · rw [sync_setSync_ne s _ hj]
      exact h.ordered j
  · by_cases hj : j = i
    · subst hj
      rw [sync_setSync]
      exact hdated
    · rw [sync_setSync_ne s _ hj]
      exact h.dated j
  · rw [pulls_setSync]
    exact h.pull j

theorem written_foldl (ws : List PullLogs.Written) (d : PullLogs.Data) :
    (ws.foldl PullLogs.Data.write d).written = d.written ++ ws := by
  induction ws generalizing d with
  | nil => exact (List.append_nil _).symm
  | cons w ws ih =>
    rw [List.foldl_cons, ih, PullLogs.Data.write, List.append_assoc]
    rfl

theorem Good.log (h : Good cfg acts s) {inv : BVLHost.Invocation} (ha : Orderly cfg s (.log i inv))
    (hs : step cfg s (.log i inv) = some s') : Good cfg (acts ++ [.log i inv]) s' := by
  have hinv := h.inv.step hs
  obtain ⟨hsucc, htidy, hlast⟩ := ha
  obtain ⟨-, r, t, rfl, rfl, ht⟩ := step_log hs
  have ht : appendLine cfg s i inv.todayISO (VisitLog.actionLine inv.recordId inv.message.request) =
    some t := by
    rcases ht with ⟨hf, -⟩ | ⟨-, ht⟩
    · rw [hsucc.faults] at hf
      cases hf
    · exact ht
  obtain ⟨hordered, hdated, hpull⟩ := h.appended hlast ht
  have hlogged := logged_appendLine (h.inv.sync i) ht
  have hrunning : ∀ j, ∀ r ∈ (s.laptop j).running,
      r ∈ ((t.setRunning i ((s.laptop i).running ++ [⟨inv, false⟩])).laptop j).running := by
    intro j r hr
    by_cases hj : j = i
    · subst hj
      rw [State.setRunning, set_self]
      exact List.mem_append_left _ hr
    · rw [State.setRunning, set_ne _ _ hj]
      obtain ⟨-, -, rfl⟩ := appendLine_spec ht
      rw [running_setSync]
      exact hr
  have hdata : ∀ j, ((t.setRunning i ((s.laptop i).running ++ [⟨inv, false⟩])).laptop j).data =
      (s.laptop j).data := by
    intro j
    obtain ⟨-, -, rfl⟩ := appendLine_spec ht
    rw [data_setRunning, data_setSync]
  refine ⟨hinv, fun j => by rw [sync_setRunning]; exact hordered j,
    fun j => by rw [sync_setRunning]; exact hdated j, fun j => by rw [pulls_setRunning]; exact hpull j,
      fun j inv' hm => ?_, fun j raw hraw => ?_, fun j inv' hm => ?_⟩
  · rw [logged_congr (home_setRunning t i j _), hlogged]
    rcases List.mem_append.mp hm with hm | hm
    · obtain ⟨h₁, h₂, h₃⟩ := h.hosts.asked j inv' hm
      exact ⟨h₁, h₂, Or.inl h₃⟩
    · cases List.mem_singleton.mp hm
      exact ⟨hsucc, htidy, Or.inr ⟨rfl, rfl⟩⟩
  · rw [logged_congr (home_setRunning t i j _), hlogged] at hraw
    rcases hraw with hraw | ⟨rfl, rfl⟩
    · refine (h.hosts.lines j raw hraw).imp_right fun hw => ?_
      obtain ⟨inv', hm, he⟩ := hw
      exact ⟨inv', List.mem_append_left _ hm, he⟩
    · exact Or.inr ⟨inv, List.mem_append_right _ (List.mem_singleton.mpr rfl), rfl⟩
  · rw [hdata]
    rcases List.mem_append.mp hm with hm | hm
    · refine (h.hosts.written j inv' hm).imp_left fun hw => ?_
      obtain ⟨r, hr, he⟩ := hw
      exact ⟨r, hrunning j r hr, he⟩
    · cases List.mem_singleton.mp hm
      refine Or.inl ⟨⟨inv, false⟩, ?_, rfl, rfl⟩
      rw [State.setRunning, set_self]
      exact List.mem_append_right _ (List.mem_singleton.mpr rfl)

theorem Good.commit (h : Good cfg acts s) {n : Nat} (hs : step cfg s (.commit i n) = some s') :
    Good cfg (acts ++ [.commit i n]) s' := by
  have hinv := h.inv.step hs
  obtain ⟨r, t, hr, -, -, ht, rfl⟩ := step_commit hs
  have hpull := (h.pull i).hosts ht
  obtain ⟨rfl, -⟩ := PullLogs.run_host ht
  refine ⟨hinv, fun j => ?_, fun j => ?_, fun j => ?_, ?_⟩
  · rw [sync_setRunning, sync_setPulls]
    exact h.ordered j
  · rw [sync_setRunning, sync_setPulls]
    exact h.dated j
  · rw [pulls_setRunning]
    by_cases hj : j = i
    · subst hj
      rw [pulls_setPulls s rfl]
      exact hpull
    · rw [pulls_setPulls_ne s _ hj]
      exact h.pull j
  · refine Hosts.more ⟨fun j inv hm => ?_, fun j raw hraw => ?_, fun j inv hm => ?_⟩ (by nofun)
    · rw [logged_congr ((home_setRunning _ i j _).trans (home_setPulls s i j _))]
      exact h.hosts.asked j inv hm
    · rw [logged_congr ((home_setRunning _ i j _).trans (home_setPulls s i j _))] at hraw
      exact h.hosts.lines j raw hraw
    · rw [data_setRunning]
      by_cases hj : j = i
      · subst hj
        rw [data_setPulls, State.setRunning, set_self]
        have hwritten : ∀ w, w ∈ ((List.map PullLogs.Written.host
          (hostOps cfg j r.inv)).foldl PullLogs.Data.write
            (s.pulls j).data).written ↔ w ∈ (s.laptop j).data.written ∨
              w ∈ (hostOps cfg j r.inv).map .host := by
          intro w
          rw [written_foldl]
          exact List.mem_append
        rcases h.hosts.written j inv hm with ⟨x, hx, rfl, hc⟩ | hw
        · -- it is the invocation that commits, or another that goes on running
          obtain ⟨m, hm', hx⟩ := List.getElem_of_mem hx
          by_cases hmn : n = m
          · subst hmn
            right
            intro o ho
            rw [List.getElem?_eq_getElem hm', hx] at hr
            cases hr
            exact (hwritten _).mpr (Or.inr (List.mem_map_of_mem ho))
          · left
            refine ⟨x, ?_, rfl, hc⟩
            apply List.mem_of_getElem? (i := m)
            rw [List.getElem?_set_ne hmn, List.getElem?_eq_getElem hm', hx]
        · right
          intro o ho
          exact (hwritten _).mpr (Or.inl (hw o ho))
      · rw [data_setPulls_ne s _ hj, State.setRunning, set_ne _ _ hj, running_setPulls]
        exact h.hosts.written j inv hm

theorem Good.answer (h : Good cfg acts s) {n : Nat} (ha : Orderly cfg s (.answer i n))
    (hs : step cfg s (.answer i n) = some s') : Good cfg (acts ++ [.answer i n]) s' := by
  have hinv := h.inv.step hs
  obtain ⟨r, t, hr, hc, rfl, ht⟩ := step_answer hs
  have hlast := ha r hr
  have hc : r.committed = true := by
    refine hc.resolve_right fun hf => ?_
    have hsucc := (h.hosts.asked i r.inv (h.inv.running i r (List.mem_of_getElem? hr)).1).1
    rw [hsucc.faults] at hf
    cases hf
  obtain ⟨hordered, hdated, hpull⟩ : (∀ j, SyncClient.Ordered (cfg.sync j) (t.sync j)) ∧
      (∀ j, SyncClient.Dated (cfg.sync j) (t.sync j)) ∧
      ∀ j, PullLogs.Inv (cfg.pulls j) (cfg.directory j) (t.pulls j) := by
    rcases ht with rfl | ht
    · exact ⟨h.ordered, h.dated, h.pull⟩
    · exact h.appended hlast ht
  have hlogged : ∀ j, (∀ raw ∈ logged cfg s j, raw ∈ logged cfg t j) ∧
      ∀ raw ∈ logged cfg t j, raw ∈ logged cfg s j ∨ lineEffect raw = ⊥ := by
    intro j
    rcases ht with rfl | ht
    · exact ⟨fun _ => id, fun _ => Or.inl⟩
    · have hlog := logged_appendLine (h.inv.sync i) ht j
      refine ⟨fun raw hraw => (hlog raw).mpr (Or.inl hraw), fun raw hraw => ((hlog raw).mp hraw).imp_right ?_⟩
      rintro ⟨-, rfl⟩
      exact lineEffect_resultLine _ _
  have hsame : ∀ j, (t.laptop j).running = (s.laptop j).running ∧ (t.laptop j).data = (s.laptop j).data := by
    intro j
    rcases ht with rfl | ht
    · exact ⟨rfl, rfl⟩
    · obtain ⟨-, -, rfl⟩ := appendLine_spec ht
      exact ⟨running_setSync s i j _, data_setSync s i j _⟩
  refine ⟨hinv, fun j => by rw [sync_setRunning]; exact hordered j,
    fun j => by rw [sync_setRunning]; exact hdated j, fun j => by rw [pulls_setRunning]; exact hpull j, ?_⟩
  refine Hosts.more ⟨fun j inv hm => ?_, fun j raw hraw => ?_, fun j inv hm => ?_⟩ (by nofun)
  · rw [logged_congr (home_setRunning t i j _)]
    obtain ⟨h₁, h₂, h₃⟩ := h.hosts.asked j inv hm
    exact ⟨h₁, h₂, (hlogged j).1 _ h₃⟩
  · rw [logged_congr (home_setRunning t i j _)] at hraw
    rcases (hlogged j).2 raw hraw with hraw | hnone
    · exact h.hosts.lines j raw hraw
    · exact Or.inl hnone
  · rw [data_setRunning, (hsame j).2]
    refine (h.hosts.written j inv hm).imp_left fun ⟨x, hx, he, hx'⟩ => ⟨x, ?_, he, hx'⟩
    by_cases hj : j = i
    · subst hj
      rw [State.setRunning, set_self]
      obtain ⟨m, hm', hxm⟩ := List.getElem_of_mem hx
      refine List.mem_eraseIdx_iff_getElem.mpr ⟨m, hm', fun hmn => ?_, hxm⟩
      subst hmn
      rw [List.getElem?_eq_getElem hm', hxm] at hr
      cases hr
      rw [hc] at hx'
      cases hx'
    · rw [State.setRunning, set_ne _ _ hj, (hsame j).1]
      exact hx

theorem Good.push (h : Good cfg acts s) {a : SyncClient.Act} (hs : step cfg s (.push i a) = some s') :
    Good cfg (acts ++ [.push i a]) s' := by
  have hinv := h.inv.step hs
  obtain ⟨ha, -, t, ht, rfl⟩ := step_push hs
  have hserver := h.serverStep ha ht
  have hin : SyncClient.InOrder (s.sync i) a := by
    cases a with
    | append _ _ => cases ha
    | _ => trivial
  refine ⟨hinv, fun j => ?_, fun j => ?_, fun j => ?_,
    (h.hosts.keep (fun j => ?_) (fun j => ?_) fun j w hw => ?_).more (by nofun)⟩
  · by_cases hj : j = i
    · subst hj
      rw [sync_setSync]
      exact (h.ordered j).step (cfg.plain j).ne_nil (h.inv.sync j) hin ht
    · rw [sync_setSync_ne s t hj]
      exact (h.ordered j).frame (hserver.other j hj)
  · by_cases hj : j = i
    · subst hj
      rw [sync_setSync]
      exact (h.dated j).step (cfg.plain j) (h.inv.sync j) (h.ordered j) h.inv.server h.inv.listed
        (fun d l he => by subst he; cases ha) ht
    · rw [sync_setSync_ne s t hj]
      exact (h.dated j).frame (hserver.other j hj)
  · rw [pulls_setSync]
    exact (h.pull j).serverGrown hserver.inv hserver.grown hserver.order
  · by_cases hj : j = i
    · subst hj
      rw [home_setSync, SyncClient.home_step ha ht]
      rfl
    · exact home_setSync_ne s t hj
  · exact running_setSync s i j t
  · rw [data_setSync]
    exact hw

theorem Good.pulled (h : Good cfg acts s) {a : PullLogs.Act} (hs : step cfg s (.pull i a) = some s') :
    Good cfg (acts ++ [.pull i a]) s' := by
  have hinv := h.inv.step hs
  obtain ⟨ha, -, t, ht, rfl⟩ := step_pull hs
  have hserver := PullLogs.server_step ha ht
  refine ⟨hinv, fun j => ?_, fun j => ?_, fun j => ?_,
    (h.hosts.keep (fun j => home_setPulls s i j t) (fun j => running_setPulls s i j t) fun j w hw =>
      ?_).more (by nofun)⟩
  · rw [sync_setPulls]
    exact h.ordered j
  · rw [sync_setPulls]
    exact h.dated j
  · by_cases hj : j = i
    · subst hj
      rw [pulls_setPulls s hserver]
      exact (h.pull j).client ha ht
    · rw [pulls_setPulls_ne s t hj]
      exact h.pull j
  · by_cases hj : j = i
    · subst hj
      rw [data_setPulls]
      exact PullLogs.written_step (h.pull j) ha ht w hw
    · rw [data_setPulls_ne s t hj]
      exact hw

/-- **Every orderly step.** -/
theorem Good.step (h : Good cfg acts s) {a : Act ι} (ha : Orderly cfg s a)
    (hs : Network.step cfg s a = some s') :
    Good cfg (acts ++ [a]) s' := by
  cases a with
  | log i inv => exact h.log ha hs
  | commit i n => exact h.commit hs
  | answer i n => exact h.answer ha hs
  | die i n => cases ha
  | push i a => exact h.push hs
  | pull i a => exact h.pulled hs

omit [DecidableEq ι] in
theorem Good.init (cfg : Config ι) : Good cfg [] (Network.init cfg) := by
  refine ⟨Inv.init cfg, fun i => SyncClient.Ordered.init _, fun i => ⟨Or.inl rfl, nofun, fun e _ hk => ?_,
    fun d e _ _ _ hk => ?_⟩, fun i => PullLogs.Inv.init,
      ⟨fun i inv hm => ?_, fun i raw hraw => ?_, fun i inv hm => ?_⟩⟩
  · cases hk
  · cases hk
  · cases hm
  · obtain ⟨d, -, hraw⟩ := hraw
    cases hraw
  · cases hm

/-! ## A time without invocations -/

/-- What a phase keeps: the steps of the syncs keep `Q`, and no host takes a step. -/
theorem phase {Q : State ι → Prop} {done : List (Act ι)} (h : Good cfg done s) (hQ : Q s)
    (hq : ∀ a ∈ acts, a.isHost = false)
    (hstep : ∀ done s a s', a ∈ acts → Good cfg done s → Q s → Network.step cfg s a = some s' → Q s')
    (hr : Runs.run (Network.step cfg) s acts = some s') : Good cfg (done ++ acts) s' ∧ Q s' := by
  induction acts generalizing done s with
  | nil =>
    cases hr
    rw [List.append_nil]
    exact ⟨h, hQ⟩
  | cons a acts ih =>
    obtain ⟨t, ht, hr⟩ := Option.bind_eq_some_iff.mp hr
    have ha : Orderly cfg s a := .of_sync (hq a List.mem_cons_self)
    rw [List.append_cons]
    exact ih (h.step ha ht) (hstep done s a t List.mem_cons_self h hQ ht)
      (fun b hb => hq b (List.mem_cons_of_mem _ hb))
      (fun done s b s' hb => hstep done s b s' (List.mem_cons_of_mem _ hb)) hr

def Mirrored (cfg : Config ι) (i : ι) (s : State ι) : Prop :=
  ∀ d, IsDate d → (SyncClient.lines (cfg.sync i) (s.laptop i).home d).length ≤
    SyncClient.mirrored (cfg.sync i) s.server d

theorem Good.sync_step {done : List (Act ι)} (h : Good cfg done s) {a : Act ι} (ha : a.isHost = false)
    (hs : Network.step cfg s a = some s') : (∀ j, (s'.laptop j).home = (s.laptop j).home) ∧
      PullLogs.ServerInv cfg.logRoot s'.server.disk ∧
      PullLogs.Grown cfg.logRoot s.server.disk s'.server.disk := by
  cases a with
  | push i a =>
    obtain ⟨happ, -, t, ht, rfl⟩ := step_push hs
    have hserver := h.serverStep happ ht
    refine ⟨fun j => ?_, hserver.inv, hserver.grown⟩
    by_cases hj : j = i
    · subst hj
      rw [home_setSync, SyncClient.home_step happ ht]
      rfl
    · exact home_setSync_ne s t hj
  | pull i a =>
    obtain ⟨-, -, t, -, rfl⟩ := step_pull hs
    exact ⟨fun j => home_setPulls s i j t, h.inv.server, .refl _⟩
  | _ => cases ha

theorem Mirrored.step {done : List (Act ι)} (h : Good cfg done s) (hm : Mirrored cfg j s) {a : Act ι}
    (ha : a.isHost = false) (hs : Network.step cfg s a = some s') : Mirrored cfg j s' := by
  obtain ⟨hhome, hinv, hgrown⟩ := h.sync_step ha hs
  intro d hd
  rw [hhome]
  exact (hm d hd).trans (mirrored_mono h.inv.server hinv hgrown j hd)

theorem noAppend_step {done : List (Act ι)} (h : Good cfg done s)
    (hn : SyncClient.NoAppend (cfg.sync j) (s.sync j)) {a : Act ι} (ha : a.isHost = false)
    (hs : Network.step cfg s a = some s') : SyncClient.NoAppend (cfg.sync j) (s'.sync j) := by
  cases a with
  | push i a =>
    obtain ⟨happ, -, t, ht, rfl⟩ := step_push hs
    by_cases hj : j = i
    · subst hj
      rw [sync_setSync]
      exact hn.step (cfg.plain j).ne_nil (h.inv.sync j) (h.ordered j) happ ht
    · rw [sync_setSync_ne s t hj]
      exact hn.frame ((h.serverStep happ ht).other j hj)
  | pull i a =>
    obtain ⟨-, -, t, -, rfl⟩ := step_pull hs
    rw [sync_setPulls]
    exact hn
  | _ => cases ha

/-- **A push that completes** mirrors its day logs in full. -/
theorem mirrored_phase {done pushes : List (Act ι)} (h : Good cfg done s)
    (hq : ∀ a ∈ pushes, a.isHost = false)
    (hi : PushCompletes i pushes)
    (hr : Runs.run (Network.step cfg) s pushes = some s') : Mirrored cfg i s' := by
  obtain ⟨before, during, after, rfl⟩ := hi
  simp only [List.mem_append, List.mem_cons] at hq
  rw [Runs.run_append] at hr
  obtain ⟨s₁, hr₁, hr⟩ := Option.bind_eq_some_iff.mp hr
  obtain ⟨s₂, hs₂, hr⟩ := Option.bind_eq_some_iff.mp hr
  rw [Runs.run_append] at hr
  obtain ⟨s₃, hr₃, hr⟩ := Option.bind_eq_some_iff.mp hr
  obtain ⟨s₄, hs₄, hr⟩ := Option.bind_eq_some_iff.mp hr
  obtain ⟨h₁, -⟩ := phase (Q := fun _ => True) h trivial (fun a ha => hq a (by simp [ha]))
    (fun _ _ _ _ _ _ _ _ => trivial) hr₁
  have h₂ := h₁.push hs₂
  -- the push that starts has moved past nothing that is not mirrored
  have hn₂ : SyncClient.NoAppend (cfg.sync i) (s₂.sync i) := by
    obtain ⟨-, -, t, ht, rfl⟩ := step_push hs₂
    rw [sync_setSync]
    have hnone : SyncClient.NoAppend (cfg.sync i) (s₁.sync i) := fun p hp => by
      rw [(SyncClient.step_start ht).1] at hp
      cases hp
    exact hnone.step (cfg.plain i).ne_nil (h₁.inv.sync i) (h₁.ordered i) rfl ht
  obtain ⟨h₃, hn₃⟩ := phase (Q := fun s => SyncClient.NoAppend (cfg.sync i) (s.sync i)) h₂ hn₂
    (fun a ha => hq a (by simp [ha]))
    (fun _ _ a _ ha hg hn hs => noAppend_step hg hn (hq a (by simp [ha])) hs) hr₃
  have hm₄ : Mirrored cfg i s₄ := by
    obtain ⟨-, -, t, ht, rfl⟩ := step_push hs₄
    obtain ⟨p, hp, htodo, hpb, rfl⟩ := SyncClient.step_finish ht
    intro d hd
    have hfull := hn₃ p hp d hd (by rw [htodo]; simp)
    rw [SyncClient.Full, hpb] at hfull
    rw [home_setSync]
    exact hfull.le
  exact (phase (Q := Mirrored cfg i) (h₃.push hs₄) hm₄ (fun a ha => hq a (by simp [ha]))
    (fun _ _ a _ ha hg hm hs => hm.step hg (hq a (by simp [ha])) hs) hr).2

theorem coming_step {done : List (Act ι)} (h : Good cfg done s) {P : Text} {l : LogLine} (hP : Plain P)
    (hc : PullLogs.Coming (cfg.pulls i) P l (s.pulls i)) {a : Act ι} (ha : a.isHost = false)
    (hne : P ≠ cfg.machineId i) (hs : Network.step cfg s a = some s') :
    PullLogs.Coming (cfg.pulls i) P l (s'.pulls i) := by
  cases a with
  | push j a =>
    obtain ⟨happ, -, t, ht, rfl⟩ := step_push hs
    rw [pulls_setSync]
    exact hc.grown hP (h.serverStep happ ht).grown
  | pull j a =>
    obtain ⟨hcl, -, t, ht, rfl⟩ := step_pull hs
    by_cases hj : i = j
    · subst hj
      rw [pulls_setPulls s (PullLogs.server_step hcl ht)]
      by_cases hstart : a = .start
      · subst hstart
        obtain ⟨hd, -⟩ := PullLogs.mem_peerLog.mp hc.line
        have hlist := h.inv.listed P l.date hP hd (PullLogs.mem_keys_of_peerLog hc.line)
        exact PullLogs.Coming.start hc.line hlist hne ht
      · exact hc.step (h.pull i) hP hcl hstart ht
    · rw [pulls_setPulls_ne s t hj]
      exact hc
  | _ => cases ha

theorem written_step {done : List (Act ι)} (h : Good cfg done s) {w : PullLogs.Written}
    (hw : w ∈ (s.laptop i).data.written) {a : Act ι} (ha : a.isHost = false)
    (hs : Network.step cfg s a = some s') : w ∈ (s'.laptop i).data.written := by
  cases a with
  | push j a =>
    obtain ⟨-, -, t, -, rfl⟩ := step_push hs
    rw [data_setSync]
    exact hw
  | pull j a =>
    obtain ⟨hcl, -, t, ht, rfl⟩ := step_pull hs
    by_cases hj : i = j
    · subst hj
      rw [data_setPulls]
      exact PullLogs.written_step (h.pull i) hcl ht w hw
    · rw [data_setPulls_ne s t hj]
      exact hw
  | _ => cases ha

/-- **A pull that completes** has every line of the other laptops that the server
had when it started. -/
theorem pulled_phase {done pulls : List (Act ι)} (h : Good cfg done s) (hq : ∀ a ∈ pulls, a.isHost = false)
    (hi : PullCompletes i pulls)
    (hr : Runs.run (Network.step cfg) s pulls = some s') {P : Text} {l : LogLine} (hP : Plain P)
    (hne : P ≠ cfg.machineId i) (hl : l ∈ PullLogs.peerLog cfg.logRoot s.server.disk P) :
    .pulled P l ∈ (s'.laptop i).data.written := by
  obtain ⟨before, during, after, rfl⟩ := hi
  simp only [List.mem_append, List.mem_cons] at hq
  rw [Runs.run_append] at hr
  obtain ⟨s₁, hr₁, hr⟩ := Option.bind_eq_some_iff.mp hr
  obtain ⟨s₂, hs₂, hr⟩ := Option.bind_eq_some_iff.mp hr
  rw [Runs.run_append] at hr
  obtain ⟨s₃, hr₃, hr⟩ := Option.bind_eq_some_iff.mp hr
  obtain ⟨s₄, hs₄, hr⟩ := Option.bind_eq_some_iff.mp hr
  obtain ⟨h₁, hl₁⟩ := phase (Q := fun s => l ∈ PullLogs.peerLog cfg.logRoot s.server.disk P) h hl
    (fun a ha => hq a (by simp [ha]))
    (fun _ _ a _ ha hg hm hs => (hg.sync_step (hq a (by simp [ha])) hs).2.2.mem hP hm) hr₁
  have h₂ := h₁.pulled hs₂
  have hc₂ : PullLogs.Coming (cfg.pulls i) P l (s₂.pulls i) := by
    obtain ⟨hcl, -, t, ht, rfl⟩ := step_pull hs₂
    obtain ⟨hd, -⟩ := PullLogs.mem_peerLog.mp hl₁
    have hlist := h₁.inv.listed P l.date hP hd (PullLogs.mem_keys_of_peerLog hl₁)
    rw [pulls_setPulls s₁ (PullLogs.server_step hcl ht)]
    exact PullLogs.Coming.start (s := s₁.pulls i) hl₁ hlist hne ht
  obtain ⟨h₃, hc₃⟩ := phase (Q := fun s => PullLogs.Coming (cfg.pulls i) P l (s.pulls i)) h₂ hc₂
    (fun a ha => hq a (by simp [ha]))
    (fun _ _ a _ ha hg hc hs => coming_step hg hP hc (hq a (by simp [ha])) hne hs) hr₃
  have hw₄ : .pulled P l ∈ (s₄.laptop i).data.written := by
    obtain ⟨-, -, t, ht, rfl⟩ := step_pull hs₄
    rw [data_setPulls]
    exact hc₃.finish ht
  exact (phase (Q := fun s => .pulled P l ∈ (s.laptop i).data.written) (h₃.pulled hs₄) hw₄
    (fun a ha => hq a (by simp [ha]))
    (fun _ _ a _ ha hg hw hs => written_step hg hw (hq a (by simp [ha])) hs) hr).2

/-! ## The views -/

theorem good_run {acts : List (Act ι)} (ho : Runs.Obeys (Network.step cfg) (Orderly cfg) (init cfg) acts)
    (hr : Runs.run (Network.step cfg) (init cfg) acts = some s) : Good cfg acts s :=
  Runs.run_history (fun acts s => Good cfg acts s) (fun _ _ _ _ _ h ha hs => h.step ha hs) (Good.init cfg) ho hr

/-- The marks that the events of a laptop bring with them. -/
def flagged (acts : List (Act ι)) (i : ι) : Set Text := {u | ∃ inv, .log i inv ∈ acts ∧ u ∈ inv.flag}

omit [DecidableEq ι] in
theorem Mirrored.eq (h : Good cfg acts s) (hm : Mirrored cfg i s) : mirrored cfg s i = logged cfg s i := by
  refine Set.Subset.antisymm (h.inv.mirrored_logged i) ?_
  rintro raw ⟨d, hd, hraw⟩
  refine ⟨d, hd, ?_⟩
  rw [((h.inv.sync i).closed_mirror hd).1]
  exact (List.take_of_length_le (hm d hd)).symm ▸ hraw

omit [DecidableEq ι] in
theorem Good.ops_effect (h : Good cfg acts s) {inv : BVLHost.Invocation} (hm : .log i inv ∈ acts) :
    ⨆ o ∈ hostOps cfg i inv, o.effect =
      lineEffect (VisitLog.actionLine inv.recordId inv.message.request) ⊔ BVLHost.marks inv.flag := by
  obtain ⟨hsucc, htidy, -⟩ := h.hosts.asked i inv hm
  exact htidy.ops_effect hsucc.accepted _

omit [DecidableEq ι] in
theorem Good.asked_le (h : Good cfg acts s) (i : ι) :
    (⨆ o ∈ asked cfg acts i, o.effect) ≤ effects (logged cfg s i) ⊔ BVLHost.marks (flagged acts i) := by
  refine iSup₂_le fun o ho => ?_
  obtain ⟨inv, hm, -, ho⟩ := ho
  calc o.effect ≤ ⨆ o ∈ hostOps cfg i inv, o.effect := le_biSup Op.effect ho
    _ = lineEffect (VisitLog.actionLine inv.recordId inv.message.request) ⊔ BVLHost.marks inv.flag :=
      h.ops_effect hm
    _ ≤ effects (logged cfg s i) ⊔ BVLHost.marks (flagged acts i) := by
      refine sup_le_sup (le_effects (h.hosts.asked i inv hm).2.2) ?_
      exact BVLHost.marks_mono fun u hu => ⟨inv, hm, hu⟩

omit [DecidableEq ι] in
theorem Good.le_view (h : Good cfg acts s) (hend : (s.laptop i).running = []) :
    effects (logged cfg s i) ⊔ BVLHost.marks (flagged acts i) ≤ (s.laptop i).data.db.view := by
  have hops : ∀ inv, .log i inv ∈ acts →
      lineEffect (VisitLog.actionLine inv.recordId inv.message.request) ⊔ BVLHost.marks inv.flag ≤
        (s.laptop i).data.db.view := by
    intro inv hm
    rw [← h.ops_effect hm, h.inv.view_data i]
    refine iSup₂_le fun o ho => ?_
    rcases h.hosts.written i inv hm with ⟨r, hr, -⟩ | hw
    · rw [hend] at hr
      cases hr
    · exact le_iSup₂_of_le (PullLogs.Written.host o) (hw o ho) le_rfl
  refine sup_le (iSup₂_le fun raw hraw => ?_) ?_
  · rcases h.hosts.lines i raw hraw with hnone | ⟨inv, hm, rfl⟩
    · rw [hnone]
      exact bot_le
    · exact le_sup_left.trans (hops inv hm)
  · refine ⟨bot_le, fun u ⟨inv, hm, hu⟩ => ?_, bot_le⟩
    exact (le_sup_right.trans (hops inv hm)).2.1 hu

theorem Good.pulled_line {done pulls : List (Act ι)} (h : Good cfg done s) (hj : j ≠ i) {raw : Text}
    (hraw : raw ∈ mirrored cfg s j) (hq : ∀ a ∈ pulls, a.isHost = false)
    (hi : PullCompletes i pulls)
    (hr : Runs.run (Network.step cfg) s pulls = some s') :
    ∃ P l, .pulled P l ∈ (s'.laptop i).data.written ∧ l.rawLine = raw := by
  obtain ⟨d, hd, hraw⟩ := hraw
  change raw ∈ closed nl (s.server.disk.bytes (Store.logPath cfg.logRoot (cfg.machineId j) d)) at hraw
  rw [← h.inv.server.texts_eq (cfg.plain j) hd] at hraw
  obtain ⟨k, hk⟩ := List.mem_iff_getElem?.mp hraw
  have hne : cfg.machineId j ≠ cfg.machineId i := fun he => hj (cfg.distinct he)
  have hl : ⟨d, k, raw⟩ ∈ PullLogs.peerLog cfg.logRoot s.server.disk (cfg.machineId j) :=
    PullLogs.mem_peerLog.mpr ⟨hd, k, rfl, hk⟩
  exact ⟨_, _, pulled_phase h hq hi hr (cfg.plain j) hne hl, rfl⟩

theorem converged_views {before pushes pulls : List (Act ι)} {s : State ι}
    (ho : Runs.Obeys (Network.step cfg) (Orderly cfg) (init cfg) (before ++ (pushes ++ pulls)))
    (hr : Runs.run (Network.step cfg) (init cfg) (before ++ (pushes ++ pulls)) = some s)
    (hend : ∀ i, (s.laptop i).running = []) (hquiet : ∀ a ∈ pushes ++ pulls, a.isHost = false)
    (hpush : ∀ i, PushCompletes i pushes) (hpull : ∀ i, PullCompletes i pulls) :
    s.server.db.view = (⨆ i, effects (logged cfg s i)) ∧
    ∀ i, (s.laptop i).data.db.view =
      s.server.db.view ⊔ BVLHost.marks (flagged (before ++ (pushes ++ pulls)) i) := by
  have h := good_run ho hr
  rw [Runs.run_append] at hr
  obtain ⟨s₁, hr₁, hr⟩ := Option.bind_eq_some_iff.mp hr
  rw [Runs.run_append] at hr
  obtain ⟨s₂, hr₂, hr₃⟩ := Option.bind_eq_some_iff.mp hr
  have hq₂ : ∀ a ∈ pushes, a.isHost = false := fun a ha => hquiet a (List.mem_append_left _ ha)
  have hq₃ : ∀ a ∈ pulls, a.isHost = false := fun a ha => hquiet a (List.mem_append_right _ ha)
  have h₁ := good_run ho.append.1 hr₁
  obtain ⟨h₂, -⟩ := phase (Q := fun _ => True) h₁ trivial hq₂ (fun _ _ _ _ _ _ _ _ => trivial) hr₂
  have hm₂ : ∀ i, Mirrored cfg i s₂ := fun i => mirrored_phase h₁ hq₂ (hpush i) hr₂
  -- the pulls leave the day logs and their mirrors
  obtain ⟨-, hm, hhome⟩ := phase
    (Q := fun t => (∀ i, Mirrored cfg i t) ∧ ∀ i, (t.laptop i).home = (s₂.laptop i).home) h₂
    ⟨hm₂, fun _ => rfl⟩ hq₃
    (fun _ _ a _ ha hg hQ hs => ⟨fun i => (hQ.1 i).step hg (hq₃ a ha) hs,
      fun i => ((hg.sync_step (hq₃ a ha) hs).1 i).trans (hQ.2 i)⟩) hr₃
  have hserver : s.server.db.view = ⨆ i, effects (logged cfg s i) := by
    rw [h.inv.db]
    exact iSup_congr fun i => by rw [(hm i).eq h]
  refine ⟨hserver, fun i => ?_⟩
  rw [hserver]
  apply le_antisymm
  · refine (h.inv.view_le i).trans (sup_le ((h.asked_le i).trans ?_) (iSup₂_le fun j _ => ?_))
    · exact sup_le_sup_right (le_iSup (fun j => effects (logged cfg s j)) i) _
    · rw [(hm j).eq h]
      exact le_sup_of_le_left (le_iSup (fun j => effects (logged cfg s j)) j)
  · refine sup_le (iSup_le fun j => ?_) (le_sup_right.trans (h.le_view (hend i)))
    by_cases hj : j = i
    · subst hj
      exact le_sup_left.trans (h.le_view (hend j))
    · rw [logged_congr (hhome j), ← (hm₂ j).eq h₂]
      refine iSup₂_le fun raw hraw => ?_
      obtain ⟨P, l, hl, rfl⟩ := h₂.pulled_line hj hraw hq₃ (hpull i) hr₃
      rw [h.inv.view_data i]
      exact le_iSup₂_of_le (PullLogs.Written.pulled P l) hl le_rfl

theorem converged_counters {s : State ι} {acts : List (Act ι)}
    (hr : Runs.run (Network.step cfg) (init cfg) acts = some s)
    {i : ι} {A : Set Text} (hview : (s.laptop i).data.db.view = s.server.db.view ⊔ BVLHost.marks A)
    (t : EventsTable) (u : Text) : (s.laptop i).data.db.counter t u = s.server.db.counter t u := by
  refine Db.counter_congr ((inv_run hr).coherent i) (server_coherent hr) ?_ ?_ t u
  · rw [hview]
    exact sup_bot_eq _
  · rw [hview]
    exact sup_bot_eq _

/-- **Convergence.** After an orderly run whose invocations have ended, let every
laptop complete a push, and then every laptop complete a pull, in any order and
with any other steps of the syncs before, between and after. Then the server
shows what the laptops have logged, and each laptop shows that and the marks of
its own events; so the counters are the same everywhere. -/
theorem converged (cfg : Config ι) {before pushes pulls : List (Act ι)} {s : State ι}
    (ho : Runs.Obeys (Network.step cfg) (Orderly cfg) (init cfg) (before ++ (pushes ++ pulls)))
    (hr : Runs.run (Network.step cfg) (init cfg) (before ++ (pushes ++ pulls)) = some s)
    (hend : ∀ i, (s.laptop i).running = []) (hquiet : ∀ a ∈ pushes ++ pulls, a.isHost = false)
    (hpush : ∀ i, PushCompletes i pushes) (hpull : ∀ i, PullCompletes i pulls) :
    s.server.db.view = (⨆ i, effects (logged cfg s i)) ∧
    (∀ i, (s.laptop i).data.db.view =
      s.server.db.view ⊔ BVLHost.marks (flagged (before ++ (pushes ++ pulls)) i)) ∧
    ∀ i t u, (s.laptop i).data.db.counter t u = s.server.db.counter t u := by
  obtain ⟨hserver, hview⟩ := converged_views ho hr hend hquiet hpush hpull
  exact ⟨hserver, hview, fun i t u => converged_counters hr (hview i) t u⟩

end

/-! ## A run -/

def pushesBoth : List (Act Bool) :=
  [.start, .next, .next, .eof, .send .ok, .finish].map (.push true) ++ [.start, .finish].map (.push false)

def pullsBoth : List (Act Bool) :=
  [.start, .list, .next, .next, .eof, .endPeer, .receive, .mirror, .replay, .mirror, .replay, .endChunk,
    .finish].map (.pull false) ++ [.start, .finish].map (.pull true)

/-- A visit on the one laptop, and then a push and a pull of both. -/
def visitShared : List (Act Bool) :=
  [.log true visit, .commit true 0, .answer true 0] ++ (pushesBoth ++ pullsBoth)

theorem orderly_visitShared : Runs.Obeys (step pair) (Orderly pair) (init pair) visitShared := by
  have hlatest : SyncClient.Latest (pair.sync true) .empty visit.todayISO := fun _ _ _ hk => by cases hk
  have hquiet : ∀ a ∈ pushesBoth ++ pullsBoth, a.isHost = false := by decide
  have hsyncs : ∀ s, Runs.Obeys (step pair) (Orderly pair) s (pushesBoth ++ pullsBoth) :=
    Runs.obeys_of_forall fun a ha _ => .of_sync (hquiet a ha)
  refine ⟨⟨⟨by decide, by decide, by decide, by decide, rfl⟩, ⟨by decide, by decide⟩, hlatest⟩,
    fun s₁ h₁ => ⟨trivial, fun s₂ h₂ => ⟨fun r hr => ?_, fun s₃ _ => hsyncs s₃⟩⟩⟩
  -- the day log that the action went to is the latest one
  obtain ⟨-, -, t, rfl, rfl, ⟨hf, -⟩ | ⟨-, ht⟩⟩ := step_log h₁
  · cases hf
  obtain ⟨hd, -, rfl⟩ := appendLine_spec ht
  obtain ⟨q, t, hq, -, -, -, rfl⟩ := step_commit h₂
  cases hq
  cases hr
  exact hlatest.append hd _

theorem converged_visitShared : ∃ s, Runs.run (step pair) (init pair) visitShared = some s ∧
    s.server.db.view = (⨆ i, effects (logged pair s i)) ∧
    (∀ i, (s.laptop i).data.db.view = s.server.db.view ⊔ BVLHost.marks (flagged visitShared i)) ∧
    ∀ i t u, (s.laptop i).data.db.counter t u = s.server.db.counter t u := by
  refine ⟨_, rfl, converged pair
    orderly_visitShared rfl (by decide) (by decide) (fun i => ?_) fun i => ?_⟩
  · cases i with
    | true => exact ⟨[], [.next, .next, .eof, .send .ok].map (.push true), _, rfl⟩
    | false => exact ⟨[.start, .next, .next, .eof, .send .ok, .finish].map (.push true), [], [], rfl⟩
  · cases i with
    | true => exact ⟨pullsBoth.dropLast.dropLast, [], [], rfl⟩
    | false =>
      exact ⟨[], [.list, .next, .next, .eof, .endPeer, .receive, .mirror, .replay, .mirror, .replay,
        .endChunk].map (.pull false), _, rfl⟩

end Network

end VisitLogger
