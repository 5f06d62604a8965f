import Mathlib.Data.Set.Lattice
import Mathlib.Order.ConditionallyCompleteLattice.Basic
import Mathlib.Order.CompletePartialOrder

/-!
# Grow-only states

A step that only adds to what a state shows: `view (step s a) = view s ⊔ eff a`.
What a run shows is then what its start showed together with the effects of its
inputs. Neither their order nor repetitions matter.
-/

namespace GrowOnly

variable {σ α L : Type*} [CompleteLattice L]

def total (eff : α → L) (l : List α) : L := ⨆ a ∈ l, eff a

@[simp] theorem total_nil (eff : α → L) : total eff [] = ⊥ := by simp [total]

@[simp] theorem total_cons (eff : α → L) (a : α) (l : List α) : total eff (a :: l) = eff a ⊔ total eff l := by
  simp [total, iSup_or, iSup_sup_eq]

theorem total_append (eff : α → L) (l m : List α) : total eff (l ++ m) = total eff l ⊔ total eff m := by
  induction l with
  | nil => simp
  | cons a l ih => simp [ih, sup_assoc]

theorem total_mono {eff : α → L} {l m : List α} (h : ∀ a ∈ l, a ∈ m) : total eff l ≤ total eff m :=
  iSup₂_le fun a ha => le_iSup₂_of_le a (h a ha) le_rfl

/-- **Same inputs, same effect.** -/
theorem total_congr {eff : α → L} {l m : List α} (h : ∀ a, a ∈ l ↔ a ∈ m) : total eff l = total eff m :=
  le_antisymm (total_mono fun a => (h a).mp) (total_mono fun a => (h a).mpr)

theorem total_le {eff : α → L} {l : List α} {x : L} : total eff l ≤ x ↔ ∀ a ∈ l, eff a ≤ x := iSup₂_le_iff

theorem map_total {M : Type*} [CompleteLattice M] {f : L → M} (h₀ : f ⊥ = ⊥) (h : ∀ x y, f (x ⊔ y) = f x ⊔ f y)
    (eff : α → L) (l : List α) : f (total eff l) = total (fun a => f (eff a)) l := by
  induction l with
  | nil => simpa using h₀
  | cons a l ih => rw [total_cons, total_cons, h, ih]

theorem mem_total {β : Type*} {eff : α → Set β} {l : List α} {x : β} :
    x ∈ total eff l ↔ ∃ a ∈ l, x ∈ eff a := by
  simp [total]

/-- **Run.** A run shows its start and the effects of its inputs. -/
theorem view_foldl {view : σ → L} {step : σ → α → σ} {eff : α → L} {l : List α}
    (h : ∀ a ∈ l, ∀ s, view (step s a) = view s ⊔ eff a) (s : σ) :
    view (l.foldl step s) = view s ⊔ total eff l := by
  induction l generalizing s with
  | nil => simp
  | cons a l ih =>
    rw [List.foldl_cons, ih fun b hb => h b (List.mem_cons_of_mem _ hb), h a (by simp), total_cons, sup_assoc]

end GrowOnly
