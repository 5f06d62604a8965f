import Mathlib.Data.List.Induction
import Mathlib.Tactic.Common

/-!
# Streaks of failures

A list of outcomes, `false` for a failure. A streak is a maximal run of failures.
Failures are reported in between; a report that is noted is not made again in
its streak.
-/

namespace Streaks

/-- How often a failure comes after what is not a failure. -/
def countFrom : Bool → List Bool → Nat
  | _, [] => 0
  | before, b :: l => (if before && !b then 1 else 0) + countFrom b l

def count (l : List Bool) : Nat := countFrom true l

def fails (l : List Bool) : Bool := !l.getLast?.getD true

theorem countFrom_snoc (before : Bool) (l : List Bool) (b : Bool) :
    countFrom before (l ++ [b]) = countFrom before l + if l.getLast?.getD before && !b then 1 else 0 := by
  induction l generalizing before with
  | nil => simp [countFrom]
  | cons a l ih =>
    rw [List.cons_append, countFrom, ih, countFrom, List.getLast?_cons]
    cases l.getLast? <;> simp [Nat.add_assoc]

@[simp] theorem fails_nil : fails [] = false := rfl

@[simp] theorem fails_snoc (l : List Bool) (b : Bool) : fails (l ++ [b]) = !b := by
  simp [fails]

theorem count_snoc (l : List Bool) (b : Bool) :
    count (l ++ [b]) = count l + if !b && !fails l then 1 else 0 := by
  rw [count, countFrom_snoc, fails, Bool.not_not, Bool.and_comm]
  rfl

theorem append_false {l m : List Bool} (hm : ∀ b ∈ m, b = false) :
    fails (l ++ m) = (fails l || !m.isEmpty) ∧
      count (l ++ m) = count l + if !m.isEmpty && !fails l then 1 else 0 := by
  induction m using List.reverseRecOn with
  | nil => simp
  | append_singleton m b ih =>
    obtain ⟨hf, hc⟩ := ih fun b hb => hm b (List.mem_append_left _ hb)
    obtain rfl := hm b (by simp)
    rw [← List.append_assoc, fails_snoc, count_snoc, hc, hf]
    cases fails l <;> cases m <;> simp

theorem append_true {l m : List Bool} (hm : ∀ b ∈ m, b = true) :
    fails (l ++ m) = (fails l && m.isEmpty) ∧ count (l ++ m) = count l := by
  induction m using List.reverseRecOn with
  | nil => simp
  | append_singleton m b ih =>
    obtain ⟨hf, hc⟩ := ih fun b hb => hm b (List.mem_append_left _ hb)
    obtain rfl := hm b (by simp)
    rw [← List.append_assoc, fails_snoc, count_snoc, hc]
    simp

/-! ## Reports -/

inductive Event where
  | found (ok : Bool)
  /-- The failure, if there is one, is reported unless it is noted; then it is noted or not. -/
  | reported (noted : Bool)
  deriving DecidableEq, Repr

/-- There is no failure, or one that is noted or not. -/
def Event.next (o : Option Bool) : Event → Option Bool
  | .found ok => if ok then none else some (o.getD false)
  | .reported noted => o.map (· || noted)

def Event.reports (o : Option Bool) : Event → Nat
  | .found _ => 0
  | .reported _ => if o = some false then 1 else 0

def after (es : List Event) : Option Bool := es.foldl Event.next none

def reportsFrom : Option Bool → List Event → Nat
  | _, [] => 0
  | o, e :: es => e.reports o + reportsFrom (e.next o) es

def reports (es : List Event) : Nat := reportsFrom none es

def Event.outcome : Event → Option Bool
  | .found ok => some ok
  | .reported _ => none

def outcomes (es : List Event) : List Bool := es.filterMap Event.outcome

theorem after_snoc (es : List Event) (e : Event) : after (es ++ [e]) = e.next (after es) := by
  simp only [after, List.foldl_append, List.foldl_cons, List.foldl_nil]

theorem reportsFrom_append (o : Option Bool) (es es' : List Event) :
    reportsFrom o (es ++ es') = reportsFrom o es + reportsFrom (es.foldl Event.next o) es' := by
  induction es generalizing o with
  | nil => exact (Nat.zero_add _).symm
  | cons e es ih =>
    rw [List.cons_append, reportsFrom, ih, reportsFrom, List.foldl_cons]
    omega

theorem reports_snoc (es : List Event) (e : Event) : reports (es ++ [e]) = reports es + e.reports (after es) :=
  reportsFrom_append none es [e]

@[simp] theorem outcomes_append (es es' : List Event) : outcomes (es ++ es') = outcomes es ++ outcomes es' :=
  List.filterMap_append

theorem outcomes_found (l : List Bool) : outcomes (l.map .found) = l := by
  rw [outcomes, List.filterMap_map]
  exact List.filterMap_some

theorem after_isSome (es : List Event) : (after es).isSome = fails (outcomes es) := by
  induction es using List.reverseRecOn with
  | nil => rfl
  | append_singleton es e ih =>
    rw [after_snoc, outcomes_append]
    cases e with
    | found ok =>
      rw [show outcomes [.found ok] = [ok] from rfl, fails_snoc]
      cases ok <;> rfl
    | reported noted =>
      rw [show outcomes [.reported noted] = [] from rfl, List.append_nil, ← ih]
      exact Option.isSome_map

theorem reportsFrom_found (o : Option Bool) (l : List Bool) : reportsFrom o (l.map .found) = 0 := by
  induction l generalizing o with
  | nil => rfl
  | cons b l ih => exact (Nat.zero_add _).trans (ih _)

theorem reports_found (es : List Event) (l : List Bool) : reports (es ++ l.map .found) = reports es := by
  rw [reports, reportsFrom_append, reportsFrom_found]
  rfl

theorem after_failed (es : List Event) {l : List Bool} (hl : ∀ b ∈ l, b = false) :
    after (es ++ l.map .found) = if l = [] then after es else some ((after es).getD false) := by
  induction l using List.reverseRecOn with
  | nil => simp
  | append_singleton l b ih =>
    obtain rfl := hl b (by simp)
    rw [List.map_append, ← List.append_assoc, List.map_singleton, after_snoc,
      ih fun b hb => hl b (List.mem_append_left _ hb)]
    cases l <;> simp [Event.next]

/-- A failure is noted before anything else is found, and so each streak is reported once. -/
structure Noted (es : List Event) : Prop where
  noted : after es ≠ some false
  reports : reports es = count (outcomes es)

namespace Noted

variable {es : List Event}

theorem empty : Noted [] := ⟨nofun, rfl⟩

theorem resolved (h : Noted es) {l : List Bool} (hl : ∀ b ∈ l, b = true) : Noted (es ++ l.map .found) := by
  obtain ⟨-, hcount⟩ := append_true (l := outcomes es) hl
  refine ⟨?_, ?_⟩
  · induction l using List.reverseRecOn with
    | nil =>
      rw [List.map_nil, List.append_nil]
      exact h.noted
    | append_singleton l b ih =>
      obtain rfl := hl b (by simp)
      rw [List.map_append, ← List.append_assoc, List.map_singleton, after_snoc]
      nofun
  · rw [reports_found, outcomes_append, outcomes_found, hcount, h.reports]

theorem found (h : Noted es) {l : List Bool} {b : Bool} (hl : ∀ x ∈ l, x = b) :
    Noted (es ++ (l.map .found ++ [.reported true])) := by
  rw [← List.append_assoc]
  have hout : outcomes (es ++ l.map .found ++ [.reported true]) = outcomes es ++ l := by
    rw [outcomes_append, outcomes_append, outcomes_found, show outcomes [.reported true] = [] from rfl,
      List.append_nil]
  refine ⟨?_, ?_⟩
  · rw [after_snoc]
    cases after (es ++ l.map .found) <;> simp [Event.next]
  · rw [reports_snoc, reports_found, hout, h.reports]
    cases b with
    | true =>
      have hr := (h.resolved hl).noted
      rw [(append_true hl).2, Event.reports, if_neg hr, Nat.add_zero]
    | false =>
      rw [(append_false hl).2, Event.reports, after_failed es hl, ← after_isSome]
      congr 1
      have hnoted := h.noted
      cases l with
      | nil => simp [hnoted]
      | cons c l => cases ho : after es <;> simp_all

end Noted

end Streaks
