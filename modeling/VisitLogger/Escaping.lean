import Mathlib.Data.List.Basic
import Mathlib.Tactic.Common

/-!
# Escaped characters

In a text with an escape character, a character is escaped if an odd number of
escapes comes right before it. `unescaped` counts the others; `escape` puts an
escape before each special character.
-/

namespace Escaping

variable {α : Type*} [DecidableEq α] (esc c : α)

/-- The text ends in an odd number of escapes; `odd` is for what comes before it. -/
def endsOdd (odd : Bool) (s : List α) : Bool := s.foldl (fun odd b => b = esc && !odd) odd

def unescaped : Bool → List α → Nat
  | _, [] => 0
  | odd, b :: s => (if b = c && !odd then 1 else 0) + unescaped (b = esc && !odd) s

/-- Each such character comes after an odd number of escapes, or each after an even one. -/
def Each (parity odd : Bool) (s : List α) : Prop :=
  ∀ before after, s = before ++ c :: after → endsOdd esc odd before = parity

theorem endsOdd_cons (odd : Bool) (b : α) (s : List α) :
    endsOdd esc odd (b :: s) = endsOdd esc (b = esc && !odd) s := rfl

theorem endsOdd_append (odd : Bool) (s t : List α) :
    endsOdd esc odd (s ++ t) = endsOdd esc (endsOdd esc odd s) t :=
  List.foldl_append

theorem unescaped_append (odd : Bool) (s t : List α) :
    unescaped esc c odd (s ++ t) = unescaped esc c odd s + unescaped esc c (endsOdd esc odd s) t := by
  induction s generalizing odd with
  | nil => simp [unescaped, endsOdd]
  | cons b s ih => rw [List.cons_append, unescaped, unescaped, ih, endsOdd_cons, Nat.add_assoc]

variable {esc c}

theorem each_cons {parity odd : Bool} {b : α} {s : List α} :
    Each esc c parity odd (b :: s) ↔ (b = c → odd = parity) ∧ Each esc c parity (b = esc && !odd) s := by
  constructor
  · intro h
    refine ⟨fun hb => h [] s (by rw [hb]; rfl), fun before after hs => ?_⟩
    exact h (b :: before) after (by rw [hs]; rfl)
  · rintro ⟨hb, hs⟩ before after h
    cases before with
    | nil =>
      obtain ⟨rfl, -⟩ := List.cons.inj h
      exact hb rfl
    | cons a before =>
      obtain ⟨rfl, ht⟩ := List.cons.inj h
      exact hs before after ht

theorem each_nil {parity odd : Bool} : Each esc c parity odd [] := by
  intro before after h
  simp at h

/-- No character is left unescaped when each comes after an odd number of escapes. -/
theorem unescaped_eq_zero_iff {odd : Bool} {s : List α} :
    unescaped esc c odd s = 0 ↔ Each esc c true odd s := by
  induction s generalizing odd with
  | nil => exact iff_of_true rfl each_nil
  | cons b s ih =>
    rw [unescaped, each_cons, Nat.add_eq_zero_iff, ih]
    refine and_congr_left fun _ => ?_
    by_cases hb : b = c <;> cases odd <;> simp [hb]

/-! ## Escaping -/

def escape (esc : α) (special : α → Bool) (s : List α) : List α :=
  s.flatMap fun b => if special b then [esc, b] else [b]

variable {special : α → Bool}

theorem escape_cons {α : Type*} {esc : α} {special : α → Bool} (b : α) (s : List α) :
    escape esc special (b :: s) = (if special b then [esc, b] else [b]) ++ escape esc special s := rfl

theorem endsOdd_escape (he : special esc = false) (odd : Bool) (s : List α) :
    endsOdd esc odd (escape esc special s) = endsOdd esc odd s := by
  induction s generalizing odd with
  | nil => rfl
  | cons b s ih =>
    rw [escape_cons, endsOdd_append, ih, endsOdd_cons]
    by_cases hb : special b = true
    · have hne : b ≠ esc := by
        rintro rfl
        rw [he] at hb
        cases hb
      simp [hb, hne, endsOdd]
    · simp [hb, endsOdd]

/-- A special character stays escaped, unless it was escaped before: then the
escape that is put in is escaped itself. -/
theorem unescaped_escape_eq_zero_iff (he : special esc = false) (hc : special c = true) {odd : Bool}
    {s : List α} :
    unescaped esc c odd (escape esc special s) = 0 ↔ Each esc c false odd s := by
  have hce : esc ≠ c := by
    rintro rfl
    rw [hc] at he
    cases he
  induction s generalizing odd with
  | nil => exact iff_of_true rfl each_nil
  | cons b s ih =>
    rw [escape_cons, unescaped_append, Nat.add_eq_zero_iff, each_cons]
    by_cases hb : special b = true
    · have hne : b ≠ esc := by
        rintro rfl
        rw [he] at hb
        cases hb
      have hodd : endsOdd esc odd [esc, b] = (decide (b = esc) && !odd) := by simp [endsOdd, hne]
      rw [if_pos hb, hodd]
      refine and_congr ?_ ih
      by_cases hbc : b = c <;> cases odd <;> simp [unescaped, hbc, hce]
    · have hbc : b ≠ c := by
        rintro rfl
        exact hb hc
      rw [if_neg hb, endsOdd_cons]
      refine and_congr ?_ ih
      simp [unescaped, hbc]

/-! ## Replacing other characters -/

theorem endsOdd_of_notMem {odd : Bool} {s : List α} (hne : s ≠ []) (h : esc ∉ s) :
    endsOdd esc odd s = false := by
  obtain ⟨init, b, rfl⟩ := List.eq_nil_or_concat s |>.resolve_left hne
  rw [List.concat_eq_append, List.mem_append, List.mem_singleton, not_or] at h
  rw [List.concat_eq_append, endsOdd_append, endsOdd_cons]
  simp [endsOdd, Ne.symm h.2]

theorem unescaped_of_notMem {odd : Bool} {s : List α} (h : c ∉ s) : unescaped esc c odd s = 0 := by
  induction s generalizing odd with
  | nil => rfl
  | cons b s ih =>
    rw [List.mem_cons, not_or] at h
    rw [unescaped, ih h.2]
    simp [Ne.symm h.1]

/-- The character is replaced by a text without `d`, and is not `d` itself. -/
def Spares (f : α → List α) (d : α) : Prop := ∀ b, f b = [b] ∨ b ≠ d ∧ f b ≠ [] ∧ d ∉ f b

theorem endsOdd_flatMap {f : α → List α} (hf : Spares f esc) (odd : Bool) (s : List α) :
    endsOdd esc odd (s.flatMap f) = endsOdd esc odd s := by
  induction s generalizing odd with
  | nil => rfl
  | cons b s ih =>
    rw [List.flatMap_cons, endsOdd_append, ih, endsOdd_cons]
    rcases hf b with hb | ⟨hb, hne, hno⟩
    · rw [hb]
      rfl
    · rw [endsOdd_of_notMem hne hno, decide_eq_false hb, Bool.false_and]

theorem unescaped_flatMap {f : α → List α} (hf : Spares f esc) (hc : Spares f c) (odd : Bool) (s : List α) :
    unescaped esc c odd (s.flatMap f) = unescaped esc c odd s := by
  induction s generalizing odd with
  | nil => rfl
  | cons b s ih =>
    have hodd : endsOdd esc odd (f b) = (decide (b = esc) && !odd) := by
      have := endsOdd_flatMap hf odd [b]
      rwa [List.flatMap_cons, List.flatMap_nil, List.append_nil, endsOdd_cons] at this
    rw [List.flatMap_cons, unescaped_append, ih, hodd, unescaped]
    congr 1
    rcases hc b with hb | ⟨hb, -, hno⟩
    · rw [hb, unescaped, unescaped, Nat.add_zero]
    · rw [unescaped_of_notMem hno]
      simp [hb]

end Escaping
