import Mathlib.Algebra.GroupWithZero.Nat
import VisitLogger.NetworkSound
import VisitLogger.PullAlone

/-!
# Every sync can be completed

Whatever hosts and syncs have failed or died before, a laptop whose sync is not under way can
start a push and bring it to its end, with no step of anyone else, and then a
pull; and a sync that is under way can be killed. So every run can be continued
by pushes and pulls of all laptops (`syncs_complete`).
-/

namespace VisitLogger

/-! ## A push -/

namespace SyncClient

section
variable {cfg : Config} {s s' : Sync} {p : Push}

/-- The steps of a push that does not fail, between its start and its end. -/
def Act.Going : Act → Prop
  | .next | .eof | .send .ok => True
  | _ => False

def Push.rank (lines : Text → List Text) (p : Push) : ℕ :=
  2 * (match p.todo with
    | [] => 0
    | d :: rest => (lines d).length - p.index + 1 + (rest.map fun e => (lines e).length + 1).sum) +
  if p.pbLines = [] then 0 else 1

def Sync.rank (cfg : Config) (s : Sync) : ℕ := (s.push.map (Push.rank (lines cfg s.home))).getD 0

theorem Push.rank_line {lines : Text → List Text} {date : Text} {rest : List Text} (ht : p.todo = date :: rest)
    {raw : Text} (hraw : (lines date)[p.index]? = some raw) : (p.line date raw).rank lines < p.rank lines := by
  have hlt : p.index < (lines date).length := (List.getElem?_eq_some_iff.mp hraw).1
  rw [line_eq]
  split
  · simp only [rank, ht]
    omega
  · simp only [rank, ht]
    split <;> split <;> omega

theorem Push.rank_eof {lines : Text → List Text} {date : Text} {rest : List Text} (ht : p.todo = date :: rest) :
    ({ p with todo := rest, index := 0 } : Push).rank lines < p.rank lines := by
  cases rest with
  | nil =>
    simp only [rank, ht]
    omega
  | cons e rest =>
    simp only [rank, ht, List.map_cons, List.sum_cons, Nat.sub_zero]
    omega

/-- **A push that is under way is at its end, or has a step that brings it there.** -/
theorem Inv.going (hm : cfg.machineId ≠ []) (h : Inv cfg s) (hp : s.push = some p)
    (hend : ¬(p.todo = [] ∧ p.pbLines = [])) :
    ∃ a s', a.Going ∧ SyncClient.step cfg s a = some s' ∧ s'.push.isSome = true ∧ s'.rank cfg < s.rank cfg := by
  have hrank : s.rank cfg = p.rank (lines cfg s.home) := by simp [Sync.rank, hp]
  by_cases hsend : 500 ≤ p.pbLines.length ∨ p.todo = [] ∧ p.pbLines ≠ []
  · -- there is something to send, and the server takes it
    have hne : p.pbLines ≠ [] := by
      rcases hsend with h500 | ⟨-, hne⟩
      · intro hnil
        rw [hnil] at h500
        cases h500
      · exact hne
    obtain ⟨⟨r, hr⟩, -⟩ := push_applied hm h.home h.mirror (h.push p hp) hne rfl
    refine ⟨.send .ok, sendPush cfg s p .ok, trivial, ?_, ?_, ?_⟩
    · simp only [SyncClient.step, hp, if_pos hsend]
    · simp [sendPush, hr]
    · rw [hrank]
      simp [Sync.rank, sendPush, hr, Push.rank, hne]
  · obtain ⟨hfull, hempty⟩ := not_or.mp hsend
    cases ht : p.todo with
    | nil => exact absurd ⟨ht, by_contra fun hne => hempty ⟨ht, hne⟩⟩ hend
    | cons date rest =>
      cases hraw : (lines cfg s.home date)[p.index]? with
      | some raw =>
        refine ⟨.next, { s with push := some (p.line date raw) }, trivial, ?_, rfl, ?_⟩
        · simp only [SyncClient.step, hp, ht, if_neg hfull, hraw, Option.map_some]
        · rw [hrank]
          exact Push.rank_line ht hraw
      | none =>
        have hle : ¬p.index < (lines cfg s.home date).length := not_lt.mpr (List.getElem?_eq_none_iff.mp hraw)
        refine ⟨.eof, { s with push := some { p with todo := rest, index := 0 } }, trivial, ?_, rfl, ?_⟩
        · simp only [SyncClient.step, hp, ht, if_neg (not_or.mpr ⟨hfull, hle⟩)]
        · rw [hrank]
          exact Push.rank_eof ht

/-- **A push that starts can be brought to its end.** -/
theorem push_completes (hm : cfg.machineId ≠ []) (h : Inv cfg s) (hp : s.push = none) :
    ∃ during s', (∀ a ∈ during, a.Going) ∧ Runs.run (step cfg) s (.start :: (during ++ [.finish])) = some s' ∧
      s'.push = none := by
  have hstart : step cfg s .start =
      some { s with row := markAttempt s.row, push := some (startPush cfg s.home (markAttempt s.row)) } := by
    simp only [step, hp]
  have hgoing : ∀ t : Sync, Inv cfg t ∧ t.push.isSome = true → ¬(∃ p, t.push = some p ∧ p.todo = [] ∧ p.pbLines = []) →
      ∃ a t', Act.Going a ∧ step cfg t a = some t' ∧ (Inv cfg t' ∧ t'.push.isSome = true) ∧
        Sync.rank cfg t' < Sync.rank cfg t := by
    intro t ht hgoal
    obtain ⟨hi, hsome⟩ := ht
    obtain ⟨p, hpt⟩ := Option.isSome_iff_exists.mp hsome
    obtain ⟨a, t', ha, hs, hsome', hlt⟩ := hi.going hm hpt fun hend => hgoal ⟨p, hpt, hend⟩
    exact ⟨a, t', ha, hs, ⟨hi.step hm hs, hsome'⟩, hlt⟩
  obtain ⟨t, ⟨during, hgoing, hr⟩, ⟨-, -⟩, p, hpt, hend⟩ :=
    Runs.reaches_of_rank (Sync.rank cfg) hgoing ⟨h.step hm hstart, rfl⟩
  let last : Sync := { t with
    row := if (p.lastDate, p.lastOff) ≠ (p.curDate, p.curOff) then some (p.lastDate, p.lastOff) else t.row
    push := none }
  have hfinish : step cfg t .finish = some last := by simp only [step, hpt, if_pos hend, last]
  refine ⟨during, last, hgoing, ?_, rfl⟩
  rw [Runs.run, hstart, Option.bind_some, Runs.run_append, hr, Option.bind_some, Runs.run, hfinish]
  rfl

end

end SyncClient

/-! ## A pull -/

namespace PullLogs

section
variable {cfg : Config} {s s' : State}

theorem finish_mem {acts : List Act} (hown : ∀ a ∈ acts, a.Own) (hsome : s.pull.isSome = true)
    (hr : Runs.run (step cfg) s acts = some s') (hnone : s'.pull = none) : .finish ∈ acts := by
  induction acts generalizing s with
  | nil =>
    cases hr
    rw [hnone] at hsome
    cases hsome
  | cons a acts ih =>
    obtain ⟨t, ht, hr⟩ := Option.bind_eq_some_iff.mp hr
    by_cases hfinish : a = .finish
    · rw [hfinish]
      exact List.mem_cons_self
    refine List.mem_cons_of_mem _ (ih (fun b hb => hown b (List.mem_cons_of_mem _ hb)) ?_ hr)
    have hown := hown a List.mem_cons_self
    cases a with
    | append peer io date group => cases hown
    | host o => cases hown
    | fail => cases hown
    | kill => cases hown
    | finish => exact absurd rfl hfinish
    | start =>
      obtain ⟨p, hp⟩ := Option.isSome_iff_exists.mp hsome
      simp only [step, hp, reduceCtorEq] at ht
    | mirror =>
      obtain ⟨p, c, l, -, -, -, -, rfl⟩ := step_mirror ht
      rfl
    | replay =>
      obtain ⟨p, c, l, -, -, -, -, rfl⟩ := step_replay ht
      rfl
    | endChunk =>
      obtain ⟨p, c, cur, -, -, -, -, rfl⟩ := step_endChunk ht
      rfl
    | _ =>
      obtain ⟨p, p', -, -, rfl⟩ := step_pull ht
      rfl

/-- **A pull that starts can be brought to its end.** -/
theorem pull_completes (hp : s.pull = none) : ∃ during after s', (∀ a ∈ during ++ .finish :: after, a.Own) ∧
    Runs.run (step cfg) s (.start :: (during ++ .finish :: after)) = some s' ∧ s'.pull = none ∧
      s'.server = s.server := by
  have hquiet : ∀ P, QuietScan ((fun _ : Text => ({} : Store.ReadIo)) P) := fun _ => quietScan
  obtain ⟨s', ⟨acts, hown, hr⟩, hnone, hserver, -⟩ : Pulls cfg { s with pull := some (startPull cfg s) } _ :=
    pull_started hquiet
  obtain ⟨during, after, rfl⟩ := List.append_of_mem (finish_mem hown rfl hr hnone)
  refine ⟨during, after, s', hown, ?_, hnone, hserver⟩
  rw [Runs.run, step_start hp, Option.bind_some]
  exact hr

end

end PullLogs

/-! ## All laptops -/

namespace Network

section
variable {ι : Type*} [DecidableEq ι] {cfg : Config ι} {s s' : State ι} {i j : ι}

theorem setSync_sync (s : State ι) (i : ι) : s.setSync i (s.sync i) = s := by
  simp [State.setSync, State.sync, State.set]

theorem setSync_setSync (s : State ι) (i : ι) (t u : SyncClient.Sync) :
    (s.setSync i t).setSync i u = s.setSync i u := by
  simp [State.setSync, State.set]

theorem setPulls_pulls (s : State ι) (i : ι) : s.setPulls i (s.pulls i) = s := by
  simp [State.setPulls, State.pulls, State.set]

theorem setPulls_setPulls (s : State ι) (i : ι) (t u : PullLogs.State) :
    (s.setPulls i t).setPulls i u = s.setPulls i u := by
  simp [State.setPulls, State.set]

theorem pull_setSync (s : State ι) (i j : ι) (t : SyncClient.Sync) :
    ((s.setSync i t).laptop j).pull = (s.laptop j).pull := congrArg PullLogs.State.pull (pulls_setSync s i j t)

theorem push_setPulls (s : State ι) (i j : ι) (t : PullLogs.State) :
    ((s.setPulls i t).laptop j).push = (s.laptop j).push := congrArg SyncClient.Sync.push (sync_setPulls s i j t)

theorem run_push {acts : List SyncClient.Act} {t : SyncClient.Sync} (ha : ∀ a ∈ acts, a.isAppend = false)
    (hp : .start ∈ acts → (s.laptop i).pull = none) (hr : Runs.run (SyncClient.step (cfg.sync i)) (s.sync i) acts = some t) :
    Runs.run (step cfg) s (acts.map (.push i)) = some (s.setSync i t) := by
  induction acts generalizing s with
  | nil =>
    cases hr
    rw [setSync_sync]
    rfl
  | cons a acts ih =>
    obtain ⟨u, hu, hr⟩ := Option.bind_eq_some_iff.mp hr
    have hcan : canSync (s.laptop i) (.push i a) = true := by
      have happ := ha a List.mem_cons_self
      cases a with
      | append date line => cases happ
      | start => simp [canSync, hp List.mem_cons_self]
      | _ => rfl
    have hstep : step cfg s (.push i a) = some (s.setSync i u) := by
      simp only [step, hcan, if_true, hu, Option.map_some]
    rw [List.map_cons, Runs.run, hstep, Option.bind_some,
      ih (fun b hb => ha b (List.mem_cons_of_mem _ hb))
        (fun hm => by rw [pull_setSync]; exact hp (List.mem_cons_of_mem _ hm)) (by rw [sync_setSync]; exact hr),
      setSync_setSync]

theorem run_pull {acts : List PullLogs.Act} {t : PullLogs.State} (ha : ∀ a ∈ acts, IsClient a)
    (hp : .start ∈ acts → (s.laptop i).push = none) (hr : Runs.run (PullLogs.step (cfg.pulls i)) (s.pulls i) acts = some t) :
    Runs.run (step cfg) s (acts.map (.pull i)) = some (s.setPulls i t) := by
  induction acts generalizing s with
  | nil =>
    cases hr
    rw [setPulls_pulls]
    rfl
  | cons a acts ih =>
    obtain ⟨u, hu, hr⟩ := Option.bind_eq_some_iff.mp hr
    have hclient := ha a List.mem_cons_self
    have hcan : canSync (s.laptop i) (.pull i a) = true := by
      cases a with
      | append peer io date group => cases hclient
      | host o => cases hclient
      | start => simp [canSync, hp List.mem_cons_self]
      | _ => rfl
    have hstep : step cfg s (.pull i a) = some (s.setPulls i u) := by
      simp only [step, hcan, if_true, hu, Option.map_some]
    have hserver : u.server = s.server.disk := PullLogs.server_step hclient hu
    rw [List.map_cons, Runs.run, hstep, Option.bind_some,
      ih (fun b hb => ha b (List.mem_cons_of_mem _ hb))
        (fun hm => by rw [push_setPulls]; exact hp (List.mem_cons_of_mem _ hm))
        (by rw [pulls_setPulls s hserver]; exact hr),
      setPulls_setPulls]

def Idle (s : State ι) (i : ι) : Prop := (s.laptop i).push = none ∧ (s.laptop i).pull = none

/-- A continuation in which only syncs take steps. -/
def Continues (cfg : Config ι) (s : State ι) (acts : List (Act ι)) (s' : State ι) : Prop :=
  (∀ a ∈ acts, a.isHost = false) ∧ Runs.run (step cfg) s acts = some s'

theorem Continues.trans {as bs : List (Act ι)} {u : State ι} (h : Continues cfg s as s')
    (h' : Continues cfg s' bs u) : Continues cfg s (as ++ bs) u := by
  refine ⟨fun a ha => (List.mem_append.mp ha).elim (h.1 a) (h'.1 a), ?_⟩
  rw [Runs.run_append, h.2]
  exact h'.2

theorem push_killed (cfg : Config ι) (s : State ι) (i : ι) :
    ∃ acts s', Continues cfg s acts s' ∧ (s'.laptop i).push = none := by
  cases hpush : (s.laptop i).push with
  | none => exact ⟨[], s, ⟨nofun, rfl⟩, hpush⟩
  | some p =>
    have hkill : Runs.run (SyncClient.step (cfg.sync i)) (s.sync i) [.kill] =
        some { s.sync i with push := none } := by
      simp [Runs.run, SyncClient.step, State.sync, hpush]
    refine ⟨_, _, ⟨by simp [Act.isHost], run_push (by simp [SyncClient.Act.isAppend]) (by simp) hkill⟩, ?_⟩
    exact congrArg SyncClient.Sync.push (sync_setSync s i _)

theorem pull_killed (cfg : Config ι) (s : State ι) (i : ι) : ∃ acts s', Continues cfg s acts s' ∧
    (s'.laptop i).pull = none ∧ (s'.laptop i).push = (s.laptop i).push := by
  cases hpull : (s.laptop i).pull with
  | none => exact ⟨[], s, ⟨nofun, rfl⟩, hpull, rfl⟩
  | some p =>
    have hkill : Runs.run (PullLogs.step (cfg.pulls i)) (s.pulls i) [.kill] =
        some { s.pulls i with pull := none } := by
      simp [Runs.run, PullLogs.step, State.pulls, hpull]
    refine ⟨_, _, ⟨by simp [Act.isHost], run_pull (by simp [IsClient]) (by simp) hkill⟩, ?_,
      push_setPulls s i i _⟩
    exact congrArg PullLogs.State.pull (pulls_setPulls s rfl)

theorem idle_of_kill (cfg : Config ι) (s : State ι) (i : ι) : ∃ acts s', Continues cfg s acts s' ∧ Idle s' i := by
  obtain ⟨as, t, has, hpush⟩ := push_killed cfg s i
  obtain ⟨bs, s', hbs, hpull, hsame⟩ := pull_killed cfg t i
  exact ⟨as ++ bs, s', has.trans hbs, hsame.trans hpush, hpull⟩

theorem push_one {acts : List (Act ι)} (h : Runs.run (step cfg) (init cfg) acts = some s) (i : ι) :
    ∃ more s', Continues cfg s more s' ∧ PushCompletes i more := by
  obtain ⟨kills, t, hkills, hidle⟩ := idle_of_kill cfg s i
  have hrun : Runs.run (step cfg) (init cfg) (acts ++ kills) = some t := by
    rw [Runs.run_append, h]
    exact hkills.2
  obtain ⟨during, u, hgoing, hr, -⟩ := SyncClient.push_completes (cfg.plain i).ne_nil ((inv_run hrun).sync i) hidle.1
  have happ : ∀ a ∈ .start :: (during ++ [.finish]), a.isAppend = false := by
    intro a ha
    cases a with
    | append date line =>
      have hmem : .append date line ∈ during := by simpa using ha
      cases hgoing _ hmem
    | _ => rfl
  refine ⟨_, _, hkills.trans ⟨fun a ha => ?_, run_push happ (fun _ => hidle.2) hr⟩, kills, during.map (.push i), [], ?_⟩
  · obtain ⟨b, -, rfl⟩ := List.mem_map.mp ha
    rfl
  · simp

theorem pull_one (cfg : Config ι) (s : State ι) (i : ι) :
    ∃ more s', Continues cfg s more s' ∧ PullCompletes i more := by
  obtain ⟨kills, t, hkills, hidle⟩ := idle_of_kill cfg s i
  have hpulls : (t.pulls i).pull = none := hidle.2
  obtain ⟨during, after, u, hown, hr, -⟩ :
      ∃ during after s', (∀ a ∈ during ++ .finish :: after, PullLogs.Act.Own a) ∧
        Runs.run (PullLogs.step (cfg.pulls i)) (t.pulls i) (.start :: (during ++ .finish :: after)) = some s' ∧ _ :=
    PullLogs.pull_completes hpulls
  have hclient : ∀ a ∈ .start :: (during ++ .finish :: after), IsClient a := by
    intro a ha
    rcases List.mem_cons.mp ha with rfl | ha
    · trivial
    have hown := hown a ha
    cases a with
    | append peer io date group => cases hown
    | host o => cases hown
    | _ => trivial
  refine ⟨_, _, hkills.trans ⟨fun a ha => ?_, run_pull hclient (fun _ => hidle.1) hr⟩, kills, during.map (.pull i),
    after.map (.pull i), ?_⟩
  · obtain ⟨b, -, rfl⟩ := List.mem_map.mp ha
    rfl
  · simp

theorem forEach {F : ι → List (Act ι) → Prop} (hmono : ∀ i as bs cs, F i bs → F i (as ++ bs ++ cs))
    (hone : ∀ acts s, Runs.run (step cfg) (init cfg) acts = some s → ∀ i, ∃ more s', Continues cfg s more s' ∧ F i more)
    {acts : List (Act ι)} (h : Runs.run (step cfg) (init cfg) acts = some s) (l : List ι) :
    ∃ more s', Continues cfg s more s' ∧ ∀ i ∈ l, F i more := by
  induction l generalizing acts s with
  | nil => exact ⟨[], s, ⟨nofun, rfl⟩, nofun⟩
  | cons i l ih =>
    obtain ⟨as, t, has, hi⟩ := hone acts s h i
    have hrun : Runs.run (step cfg) (init cfg) (acts ++ as) = some t := by
      rw [Runs.run_append, h]
      exact has.2
    obtain ⟨bs, s', hbs, hl⟩ := ih hrun
    refine ⟨as ++ bs, s', has.trans hbs, fun j hj => ?_⟩
    rcases List.mem_cons.mp hj with rfl | hj
    · exact hmono j [] as bs hi
    · have hj := hmono j as bs [] (hl j hj)
      rwa [List.append_nil] at hj

/-- **Every run can be continued** by syncs alone, whatever hosts and syncs have failed
or died in it, so that every laptop completes a push and then every laptop completes a pull. -/
theorem syncs_complete [Finite ι] (cfg : Config ι) {acts : List (Act ι)} {s : State ι}
    (hr : Runs.run (Network.step cfg) (init cfg) acts = some s) :
    ∃ pushes pulls s', (∀ a ∈ pushes ++ pulls, a.isHost = false) ∧
      Runs.run (Network.step cfg) s (pushes ++ pulls) = some s' ∧
      ∀ i, PushCompletes i pushes ∧ PullCompletes i pulls := by
  cases nonempty_fintype ι
  obtain ⟨pushes, t, hpushes, hpush⟩ := forEach (F := PushCompletes)
    (fun i as bs cs ⟨a, d, c, he⟩ => ⟨as ++ a, d, c ++ cs, by simp [he]⟩)
    (fun _ _ h i => push_one h i) hr Finset.univ.toList
  have hrun : Runs.run (step cfg) (init cfg) (acts ++ pushes) = some t := by
    rw [Runs.run_append, hr]
    exact hpushes.2
  obtain ⟨pulls, s', hpulls, hpull⟩ := forEach (F := PullCompletes)
    (fun i as bs cs ⟨a, d, c, he⟩ => ⟨as ++ a, d, c ++ cs, by simp [he]⟩)
    (fun _ s _ i => pull_one cfg s i) hrun Finset.univ.toList
  have h := hpushes.trans hpulls
  exact ⟨pushes, pulls, s', h.1, h.2, fun i => ⟨hpush i (by simp), hpull i (by simp)⟩⟩

end

/-- An invocation dies before its action is pushed, and both laptops are in a sync. -/
def interrupted : List (Act Bool) :=
  [.log true visit, .push true .start, .push true .next, .die true 0, .pull false .start]

theorem syncs_complete_interrupted : ∃ s, Runs.run (step pair) (init pair) interrupted = some s ∧
    ∃ pushes pulls s', (∀ a ∈ pushes ++ pulls, a.isHost = false) ∧
      Runs.run (step pair) s (pushes ++ pulls) = some s' ∧
      ∀ i, PushCompletes i pushes ∧ PullCompletes i pulls :=
  ⟨_, rfl, syncs_complete pair (show Runs.run (step pair) (init pair) interrupted = _ from rfl)⟩

end Network

end VisitLogger
