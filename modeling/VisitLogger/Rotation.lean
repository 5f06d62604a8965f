import Mathlib.Algebra.GroupWithZero.Nat
import Mathlib.Data.List.Infix
import Mathlib.Tactic.Common

/-!
# Rotation

Entries go into blocks, the newest block first. An entry for which the newest block
has no room starts a block of its own, and the blocks beyond a number are dropped.
-/

namespace Rotation

variable {α : Type*} (size : α → Nat) (maxSize : Int) (backups : Nat)

def total (b : List α) : Nat := (b.map size).sum

def push : List (List α) → α → List (List α)
  | [], a => [[a]]
  | b :: bs, a =>
    if (total size b : Int) + size a ≤ maxSize then (b ++ [a]) :: bs else ([a] :: b :: bs).take (backups + 1)

variable {size maxSize backups} {entries : List α} {blocks : List (List α)}

/-- The blocks hold the last entries in their order, and more than one only if they fit. -/
structure Holds (size : α → Nat) (maxSize : Int) (backups : Nat) (entries : List α)
  (blocks : List (List α)) : Prop where
  kept : blocks.reverse.flatten <:+ entries
  last : entries ≠ [] → blocks.reverse.flatten ≠ []
  fits : ∀ b ∈ blocks, (total size b : Int) ≤ maxSize ∨ ∃ a, b = [a]
  count : blocks.length ≤ backups + 1

theorem Holds.nil : Holds size maxSize backups ([] : List α) [] :=
  ⟨List.suffix_refl [], fun h => absurd rfl h, fun _ h => (by cases h), Nat.zero_le _⟩

theorem total_append (b : List α) (a : α) : total size (b ++ [a]) = total size b + size a := by
  simp [total]

theorem suffix_concat {s t : List α} (h : s <:+ t) (a : α) : s ++ [a] <:+ t ++ [a] := by
  obtain ⟨d, rfl⟩ := h
  exact ⟨d, by rw [List.append_assoc]⟩

theorem flatten_take_suffix (n : Nat) (ls : List (List α)) :
    (ls.take n).reverse.flatten <:+ ls.reverse.flatten := by
  conv => rhs; rw [← List.take_append_drop n ls]
  rw [List.reverse_append, List.flatten_append]
  exact List.suffix_append _ _

theorem Holds.step (h : Holds size maxSize backups entries blocks) (a : α) :
    Holds size maxSize backups (entries ++ [a]) (push size maxSize backups blocks a) := by
  cases blocks with
  | nil =>
    refine ⟨List.suffix_append entries [a], fun _ => by simp [push], fun b hb => ?_, Nat.le_add_left 1 _⟩
    exact .inr ⟨a, List.mem_singleton.mp hb⟩
  | cons b bs =>
    have hkept := suffix_concat h.kept a
    rw [push]
    split
    · rename_i hroom
      have hflat : ((b ++ [a]) :: bs).reverse.flatten = (b :: bs).reverse.flatten ++ [a] := by simp
      refine ⟨hflat ▸ hkept, fun _ => by simp, List.forall_mem_cons.mpr ⟨.inl ?_, fun c hc => ?_⟩, h.count⟩
      · rw [total_append, Int.natCast_add]
        exact hroom
      · exact h.fits c (List.mem_cons_of_mem _ hc)
    · have hflat : ([a] :: b :: bs).reverse.flatten = (b :: bs).reverse.flatten ++ [a] := by simp
      refine ⟨(flatten_take_suffix _ _).trans (hflat ▸ hkept), fun _ => by simp, fun c hc => ?_,
        List.length_take_le _ _⟩
      rcases List.mem_cons.mp (List.mem_of_mem_take hc) with rfl | hc
      · exact .inr ⟨a, rfl⟩
      · exact h.fits c hc

theorem Holds.run (h : Holds size maxSize backups entries blocks) (added : List α) :
    Holds size maxSize backups (entries ++ added) (added.foldl (push size maxSize backups) blocks) := by
  induction added generalizing entries blocks with
  | nil => simpa using h
  | cons a added ih =>
    rw [List.append_cons]
    exact ih (h.step a)

end Rotation
