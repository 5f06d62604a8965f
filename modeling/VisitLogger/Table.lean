import Mathlib.Data.List.Basic
import Mathlib.Data.List.Nodup
import Mathlib.Data.List.Perm.Basic
import Mathlib.Tactic.Common

/-!
# Keyed tables

A table is the list of its rows in rowid order. `insertOrIgnore` is SQL's
`INSERT OR IGNORE` on a primary key, `updateWhere` its `UPDATE ... WHERE`; both
report the number of rows they changed.
-/

namespace Table

variable {ρ κ : Type*} [DecidableEq κ] (key : ρ → κ)

def has (k : κ) (rows : List ρ) : Bool := rows.any fun r => key r = k

def insertOrIgnore (r : ρ) (rows : List ρ) : List ρ × Nat :=
  if has key (key r) rows then (rows, 0) else (rows ++ [r], 1)

def updateWhere (p : ρ → Bool) (f : ρ → ρ) (rows : List ρ) : List ρ × Nat :=
  (rows.map fun r => if p r then f r else r, rows.countP p)

theorem has_iff {k : κ} {rows : List ρ} : has key k rows = true ↔ k ∈ rows.map key := by
  simp [has]

theorem mem_insertOrIgnore {r x : ρ} {rows : List ρ} :
    x ∈ (insertOrIgnore key r rows).1 ↔ x ∈ rows ∨ x = r ∧ key r ∉ rows.map key := by
  unfold insertOrIgnore
  by_cases h : key r ∈ rows.map key
  · rw [if_pos ((has_iff key).mpr h)]; simp [h]
  · rw [if_neg fun c => h ((has_iff key).mp c)]; simp [h]

theorem keys_insertOrIgnore (r : ρ) (rows : List ρ) :
    ((insertOrIgnore key r rows).1.map key) =
      if key r ∈ rows.map key then rows.map key else rows.map key ++ [key r] := by
  unfold insertOrIgnore
  by_cases h : key r ∈ rows.map key
  · rw [if_pos (has_iff key |>.mpr h), if_pos h]
  · rw [if_neg (fun c => h ((has_iff key).mp c)), if_neg h]; simp

theorem mem_keys_insertOrIgnore {r : ρ} {rows : List ρ} {k : κ} :
    k ∈ (insertOrIgnore key r rows).1.map key ↔ k ∈ rows.map key ∨ k = key r := by
  rw [keys_insertOrIgnore]
  split
  · rename_i h; exact ⟨Or.inl, fun e => e.elim id fun e => e ▸ h⟩
  · simp

theorem nodup_insertOrIgnore {r : ρ} {rows : List ρ} (h : (rows.map key).Nodup) :
    ((insertOrIgnore key r rows).1.map key).Nodup := by
  rw [keys_insertOrIgnore]
  split
  · exact h
  · rename_i hk
    refine List.nodup_append.mpr ⟨h, List.nodup_singleton _, ?_⟩
    intro a ha b hb e
    rw [List.mem_singleton.mp hb] at e
    exact hk (e ▸ ha)

theorem has_map {f : ρ → ρ} (hf : ∀ r, key (f r) = key r) (k : κ) (rows : List ρ) :
    has key k (rows.map f) = has key k rows := by
  simp [has, List.any_map, Function.comp_def, hf]

theorem map_insertOrIgnore {f : ρ → ρ} (hf : ∀ r, key (f r) = key r) (r : ρ) (rows : List ρ) :
    insertOrIgnore key (f r) (rows.map f) =
      ((insertOrIgnore key r rows).1.map f, (insertOrIgnore key r rows).2) := by
  unfold insertOrIgnore
  rw [hf, has_map key hf]
  split
  · rfl
  · rw [List.map_append]; rfl

/-- **The first row of a key stays.** -/
theorem find_insertOrIgnore (r : ρ) (rows : List ρ) (k : κ) :
    (insertOrIgnore key r rows).1.find? (fun x => key x = k) =
      (rows.find? fun x => key x = k).or (if key r = k then some r else none) := by
  unfold insertOrIgnore
  by_cases h : key r ∈ rows.map key
  · rw [if_pos ((has_iff key).mpr h)]
    by_cases hk : key r = k
    · have hsome : (rows.find? fun x => key x = k).isSome := by
        obtain ⟨x, hx, hxr⟩ := List.mem_map.mp h
        exact List.find?_isSome.mpr ⟨x, hx, by simp [hxr, hk]⟩
      rw [Option.or_of_isSome hsome]
    · rw [if_neg hk, Option.or_none]
  · rw [if_neg fun c => h ((has_iff key).mp c)]
    rw [List.find?_append, List.find?_singleton]
    simp only [decide_eq_true_eq]

theorem filter_key {rows : List ρ} (h : (rows.map key).Nodup) {r : ρ} (hr : r ∈ rows) :
    rows.filter (fun x => key x = key r) = [r] := by
  induction rows with
  | nil => cases hr
  | cons x rows ih =>
    rw [List.map_cons, List.nodup_cons] at h
    rcases List.mem_cons.mp hr with rfl | hr
    · have : rows.filter (fun x => key x = key r) = [] := by
        rw [List.filter_eq_nil_iff]
        intro y hy hk
        exact h.1 (List.mem_map.mpr ⟨y, hy, by simpa using hk⟩)
      simp [this]
    · have hne : key x ≠ key r := fun e => h.1 (e ▸ List.mem_map_of_mem hr)
      simp [hne, ih h.2 hr]

theorem find_updateWhere (p : ρ → Bool) (f : ρ → ρ) (rows : List ρ) (h : ∀ r, key (f r) = key r) (k : κ) :
    (updateWhere p f rows).1.find? (fun x => key x = k) =
      (rows.find? fun x => key x = k).map fun r => if p r then f r else r := by
  simp only [updateWhere, List.find?_map]
  congr 2
  funext r
  simp only [Function.comp]
  split <;> simp [h]

omit [DecidableEq κ] in
theorem keys_updateWhere (p : ρ → Bool) (f : ρ → ρ) (rows : List ρ) (h : ∀ r, key (f r) = key r) :
    (updateWhere p f rows).1.map key = rows.map key := by
  simp only [updateWhere, List.map_map]
  refine List.map_congr_left fun r _ => ?_
  simp only [Function.comp]
  split <;> simp [h]

end Table
