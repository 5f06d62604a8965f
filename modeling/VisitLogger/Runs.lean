import Mathlib.Data.List.Induction
import Mathlib.Tactic.Common

/-!
# Runs of a step function

`step s a` is the state after action `a`, or `none` if it cannot be taken. A
run takes a list of actions; an invariant that each allowed action keeps holds
wherever a run of allowed actions gets to.
-/

namespace Runs

variable {σ α : Type*} (step : σ → α → Option σ) (allowed : σ → α → Prop)

def run : σ → List α → Option σ
  | s, [] => some s
  | s, a :: as => (step s a).bind fun s => run s as

/-- Every action of the run is allowed in the state that it meets. -/
def Obeys : σ → List α → Prop
  | _, [] => True
  | s, a :: as => allowed s a ∧ ∀ s' ∈ step s a, Obeys s' as

instance decidableObeys [∀ s a, Decidable (allowed s a)] :
    ∀ (s : σ) (as : List α), Decidable (Obeys step allowed s as)
  | _, [] => inferInstanceAs (Decidable True)
  | s, a :: as =>
    have := fun s' => decidableObeys s' as
    inferInstanceAs (Decidable (allowed s a ∧ ∀ s' ∈ step s a, Obeys step allowed s' as))

theorem run_append (s : σ) (as bs : List α) :
    run step s (as ++ bs) = (run step s as).bind fun s => run step s bs := by
  induction as generalizing s with
  | nil => rfl
  | cons a as ih =>
    simp only [List.cons_append, run]
    cases step s a with
    | none => rfl
    | some s' => exact ih s'

variable {step allowed}

theorem obeys_of_forall {as : List α} (h : ∀ a ∈ as, ∀ s, allowed s a) (s : σ) : Obeys step allowed s as := by
  induction as generalizing s with
  | nil => trivial
  | cons a as ih => exact ⟨h a (by simp) s, fun s' _ => ih (fun b hb => h b (List.mem_cons_of_mem _ hb)) s'⟩

theorem Obeys.append {s : σ} {as bs : List α} (h : Obeys step allowed s (as ++ bs)) :
    Obeys step allowed s as ∧ ∀ s' ∈ run step s as, Obeys step allowed s' bs := by
  induction as generalizing s with
  | nil => exact ⟨trivial, fun s' hs => by cases hs; exact h⟩
  | cons a as ih =>
    refine ⟨⟨h.1, fun s' hs => (ih (h.2 s' hs)).1⟩, fun s' hs => ?_⟩
    obtain ⟨t, ht, hs⟩ := Option.bind_eq_some_iff.mp hs
    exact (ih (h.2 t ht)).2 s' hs

theorem obeys_append {s : σ} {as bs : List α} (h : Obeys step allowed s as)
    (h' : ∀ s' ∈ run step s as, Obeys step allowed s' bs) : Obeys step allowed s (as ++ bs) := by
  induction as generalizing s with
  | nil => exact h' s rfl
  | cons a as ih =>
    exact ⟨h.1, fun t ht => ih (h.2 t ht) fun s' hs => h' s' (Option.bind_eq_some_iff.mpr ⟨t, ht, hs⟩)⟩

theorem Obeys.and {P : α → Prop} {s : σ} {as : List α} (h : Obeys step allowed s as) (hP : ∀ a ∈ as, P a) :
    Obeys step (fun s a => allowed s a ∧ P a) s as := by
  induction as generalizing s with
  | nil => trivial
  | cons a as ih =>
    exact ⟨⟨h.1, hP a (by simp)⟩, fun s' hs => ih (h.2 s' hs) fun b hb => hP b (List.mem_cons_of_mem _ hb)⟩

/-- **Invariants of runs.** -/
theorem run_invariant {Inv : σ → Prop} (hstep : ∀ s a s', Inv s → allowed s a → s' ∈ step s a → Inv s')
    {s s' : σ}
    {as : List α} (hs : Inv s) (ho : Obeys step allowed s as) (hr : s' ∈ run step s as) : Inv s' := by
  induction as generalizing s with
  | nil => cases hr; exact hs
  | cons a as ih =>
    obtain ⟨t, ht, hr⟩ := Option.bind_eq_some_iff.mp hr
    exact ih (hstep s a t hs ho.1 ht) (ho.2 t ht) hr

/-- **Invariants that speak of the actions taken so far.** -/
theorem run_history (Inv : List α → σ → Prop) {s₀ : σ}
    (hstep : ∀ as s a s', s ∈ run step s₀ as → Inv as s → allowed s a → s' ∈ step s a → Inv (as ++ [a]) s')
    (h₀ : Inv [] s₀) {as : List α} {s : σ} (ho : Obeys step allowed s₀ as) (hr : s ∈ run step s₀ as) :
      Inv as s := by
  induction as using List.reverseRecOn generalizing s with
  | nil => cases hr; exact h₀
  | append_singleton as a ih =>
    rw [run_append] at hr
    obtain ⟨t, ht, hr⟩ := Option.bind_eq_some_iff.mp hr
    obtain ⟨s', hs, hr⟩ := Option.bind_eq_some_iff.mp hr
    cases hr
    exact hstep as t a s ht (ih ho.append.1 ht) (ho.append.2 t ht).1 hs

/-! ## Reaching a state -/

/-- A run of actions that all satisfy `P` leads from the one state to the other. -/
def Reaches (step : σ → α → Option σ) (P : α → Prop) (s s' : σ) : Prop :=
  ∃ acts, (∀ a ∈ acts, P a) ∧ run step s acts = some s'

variable {P : α → Prop} {s t u : σ}

theorem Reaches.refl (s : σ) : Reaches step P s s := ⟨[], nofun, rfl⟩

theorem Reaches.next {a : α} (hs : step s a = some t) (ha : P a) (h : Reaches step P t u) :
    Reaches step P s u := by
  obtain ⟨acts, hacts, hr⟩ := h
  refine ⟨a :: acts, fun b hb => ?_, ?_⟩
  · rcases List.mem_cons.mp hb with rfl | hb
    · exact ha
    · exact hacts b hb
  · rw [run, hs]
    exact hr

theorem Reaches.trans (h : Reaches step P s t) (h' : Reaches step P t u) : Reaches step P s u := by
  obtain ⟨as, has, hr⟩ := h
  obtain ⟨bs, hbs, hr'⟩ := h'
  refine ⟨as ++ bs, fun a ha => (List.mem_append.mp ha).elim (has a) (hbs a), ?_⟩
  rw [run_append, hr]
  exact hr'

/-- Where some step lowers the rank until the goal is there, the goal can be reached. -/
theorem reaches_of_rank {Inv goal : σ → Prop} (rank : σ → ℕ)
    (hstep : ∀ s, Inv s → ¬goal s → ∃ a s', P a ∧ step s a = some s' ∧ Inv s' ∧ rank s' < rank s) (h : Inv s) :
    ∃ s', Reaches step P s s' ∧ Inv s' ∧ goal s' := by
  induction hn : rank s using Nat.strongRecOn generalizing s with
  | ind n ih =>
    subst hn
    by_cases hg : goal s
    · exact ⟨s, .refl s, h, hg⟩
    · obtain ⟨a, t, ha, hs, ht, hlt⟩ := hstep s h hg
      obtain ⟨s', hr, hs', hgoal⟩ := ih (rank t) hlt ht rfl
      exact ⟨s', .next hs ha hr, hs', hgoal⟩

end Runs
