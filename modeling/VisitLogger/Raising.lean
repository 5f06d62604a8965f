import Mathlib.Tactic.Common

/-!
# Statements that raise

A statement changes a state and may raise. `forEach` is a loop that the first
exception ends: what its body keeps is kept by the loop (`keeps_forEach`), and what
its body makes of the elements so far holds of all of them when nothing is raised
(`forEach_induction`).
-/

namespace Raising

variable {σ ε α : Type*}

abbrev Stmt (σ ε : Type*) := σ → σ × Option ε

def skip : Stmt σ ε := fun s => (s, none)

def update (f : σ → σ) : Stmt σ ε := fun s => (f s, none)

def raise (e : ε) : Stmt σ ε := fun s => (s, some e)

def seq (a b : Stmt σ ε) : Stmt σ ε := fun s =>
  match a s with
  | (s', none) => b s'
  | r => r

/-- `try: a; except: handler; raise`. -/
def reraise (a : Stmt σ ε) (handler : ε → σ → σ) : Stmt σ ε := fun s =>
  match a s with
  | (s', none) => (s', none)
  | (s', some e) => (handler e s', some e)

def forEach (body : α → Stmt σ ε) : List α → Stmt σ ε
  | [] => skip
  | x :: xs => seq (body x) (forEach body xs)

/-! ## What all runs keep -/

/-- Whether it raises or not, the statement keeps `P`. -/
def Keeps (P : σ → Prop) (a : Stmt σ ε) : Prop := ∀ s, P s → P (a s).1

variable {P : σ → Prop}

theorem keeps_skip : Keeps P (skip : Stmt σ ε) := fun _ h => h

theorem keeps_update {f : σ → σ} (h : ∀ s, P s → P (f s)) : Keeps P (update f : Stmt σ ε) := h

theorem keeps_seq {a b : Stmt σ ε} (ha : Keeps P a) (hb : Keeps P b) : Keeps P (seq a b) := by
  intro s hs
  have := ha s hs
  unfold seq
  split
  · rename_i s' heq
    rw [heq] at this
    exact hb s' this
  · exact this

theorem keeps_reraise {a : Stmt σ ε} {handler : ε → σ → σ} (ha : Keeps P a)
    (hh : ∀ e s, P s → P (handler e s)) :
    Keeps P (reraise a handler) := by
  intro s hs
  have := ha s hs
  unfold reraise
  split
  · rename_i s' heq
    rw [heq] at this
    exact this
  · rename_i s' e heq
    rw [heq] at this
    exact hh e s' this

theorem keeps_forEach {body : α → Stmt σ ε} (h : ∀ x, Keeps P (body x)) (xs : List α) :
    Keeps P (forEach body xs) := by
  induction xs with
  | nil => exact keeps_skip
  | cons x xs ih => exact keeps_seq (h x) ih

/-! ## Runs that raise nothing -/

theorem seq_eq_none {a b : Stmt σ ε} {s t : σ} (h : seq a b s = (t, none)) :
    ∃ m, a s = (m, none) ∧ b m = (t, none) := by
  unfold seq at h
  split at h
  · rename_i m heq
    exact ⟨m, heq, h⟩
  · rename_i r hr
    exact absurd h (hr t)

theorem reraise_eq_none {a : Stmt σ ε} {handler : ε → σ → σ} {s t : σ} (h : reraise a handler s = (t, none)) :
    a s = (t, none) := by
  unfold reraise at h
  split at h
  · rename_i m heq
    rw [heq, h]
  · cases h

/-- **The loop as a whole** has done what its body does of one element more. -/
theorem forEach_induction {body : α → Stmt σ ε} (Inv : List α → σ → Prop)
    (hbody : ∀ xs x s t, Inv xs s → body x s = (t, none) →
      Inv (xs ++ [x]) t) {xs : List α} {s t : σ} (hs : Inv [] s)
    (h : forEach body xs s = (t, none)) : Inv xs t := by
  have hgen : ∀ (xs done : List α) (s : σ), Inv done s → forEach body xs s = (t, none) →
    Inv (done ++ xs) t := by
    intro xs
    induction xs with
    | nil =>
      intro done s hs h
      cases h
      rwa [List.append_nil]
    | cons x xs ih =>
      intro done s hs h
      obtain ⟨m, hm, hrest⟩ := seq_eq_none h
      have := ih (done ++ [x]) m (hbody done x s m hs hm) hrest
      rwa [List.append_assoc, List.singleton_append] at this
  have := hgen xs [] s hs h
  rwa [List.nil_append] at this

end Raising
