import Mathlib.Data.Finset.Card
import Mathlib.Data.Finset.Dedup
import Mathlib.Data.List.Perm.Basic
import Mathlib.Data.List.Count
import Mathlib.Tactic.Common

/-!
# Bags of rows

SQL's `AND` and `OR` over three truth values, `EXCEPT`, and the inner join of two
bags of rows, whose keys occur once each (`nodup_innerJoin`).
-/

namespace Queries

/-! ## Three truth values -/

def and : Option Bool → Option Bool → Option Bool
  | some false, _ => some false
  | _, some false => some false
  | some true, some true => some true
  | _, _ => none

def or : Option Bool → Option Bool → Option Bool
  | some true, _ => some true
  | _, some true => some true
  | some false, some false => some false
  | _, _ => none

def all (ps : List (Option Bool)) : Option Bool := ps.foldr and (some true)

def any (ps : List (Option Bool)) : Option Bool := ps.foldr or (some false)

theorem and_eq_true {p q : Option Bool} : and p q = some true ↔ p = some true ∧ q = some true := by
  rcases p with _ | _ | _ <;> rcases q with _ | _ | _ <;> simp [and]

theorem or_eq_true {p q : Option Bool} : or p q = some true ↔ p = some true ∨ q = some true := by
  rcases p with _ | _ | _ <;> rcases q with _ | _ | _ <;> simp [or]

theorem all_eq_true {ps : List (Option Bool)} : all ps = some true ↔ ∀ p ∈ ps, p = some true := by
  induction ps with
  | nil => simp [all]
  | cons p ps ih => rw [all, List.foldr_cons, and_eq_true, ← all, ih, List.forall_mem_cons]

theorem any_eq_true {ps : List (Option Bool)} : any ps = some true ↔ ∃ p ∈ ps, p = some true := by
  induction ps with
  | nil => simp [any]
  | cons p ps ih => rw [any, List.foldr_cons, or_eq_true, ← any, ih]; simp [eq_comm]

/-! ## EXCEPT -/

variable {ρ σ κ β : Type*} [DecidableEq κ]

def except (ks ls : List κ) : List κ := (ks.filter (· ∉ ls)).dedup

theorem length_except (ks ls : List κ) : (except ks ls).length = (ks.toFinset \ ls.toFinset).card := by
  rw [except, ← List.card_toFinset]
  congr 1
  ext k
  simp

/-! ## The rows of a key -/

def rowsAt (key : ρ → κ) (k : κ) (rows : List ρ) : List ρ := rows.filter fun r => key r = k

def Unique (key : ρ → κ) (real : κ → Prop) (rows : List ρ) : Prop :=
  rows.Pairwise fun r s => key r = key s → ¬ real (key r)

theorem rowsAt_eq_singleton {key : ρ → κ} {real : κ → Prop} {rows : List ρ} {r : ρ} (h : Unique key real rows)
    (hr : r ∈ rows) (hreal : real (key r)) : rowsAt key (key r) rows = [r] := by
  obtain ⟨xs, ys, rfl⟩ := List.append_of_mem hr
  obtain ⟨-, hys, hxs⟩ := List.pairwise_append.mp h
  have hnil : ∀ zs : List ρ, (∀ z ∈ zs, key z ≠ key r) → rowsAt key (key r) zs = [] := fun zs hz =>
    List.filter_eq_nil_iff.mpr fun z hm => by simpa using hz z hm
  have hl : ∀ z ∈ xs, key z ≠ key r := fun z hz he => hxs z hz r (by simp) he (he ▸ hreal)
  have hrt : ∀ z ∈ ys, key z ≠ key r := fun z hz he => (List.pairwise_cons.mp hys).1 z hz he.symm hreal
  rw [rowsAt, List.filter_append, List.filter_cons_of_pos (by simp), ← rowsAt, ← rowsAt, hnil xs hl,
    hnil ys hrt, List.nil_append]

theorem Unique.eq {key : ρ → κ} {real : κ → Prop} {rows : List ρ} {r s : ρ} (h : Unique key real rows)
    (hr : r ∈ rows)
    (hs : s ∈ rows) (hkey : key s = key r) (hreal : real (key r)) : s = r := by
  have hmem : s ∈ rowsAt key (key r) rows := List.mem_filter.mpr ⟨hs, by simpa using hkey⟩
  rw [rowsAt_eq_singleton h hr hreal] at hmem
  exact List.mem_singleton.mp hmem

/-- Two tables have the same rows when they have the same rows of each key. -/
theorem perm_iff_rowsAt [DecidableEq β] {key : ρ → κ} {f : ρ → β}
    (hf : ∀ r s, f r = f s → key r = key s) {xs ys : List ρ} :
    (xs.map f).Perm (ys.map f) ↔ ∀ k, ((rowsAt key k xs).map f).Perm ((rowsAt key k ys).map f) := by
  have hcount : ∀ (r : ρ) (zs : List ρ), ((rowsAt key (key r) zs).map f).count (f r) =
    (zs.map f).count (f r) := by
    intro r zs
    rw [rowsAt, List.count_eq_countP, List.count_eq_countP, List.countP_map, List.countP_map,
      List.countP_filter]
    refine List.countP_congr fun s _ => ?_
    simp only [Function.comp_apply, Bool.and_eq_true, beq_iff_eq, decide_eq_true_eq]
    exact ⟨fun h => h.1, fun h => ⟨h, hf _ _ h⟩⟩
  have hzero : ∀ (k : κ) (b : β) (zs : List ρ), (¬ ∃ r, f r = b ∧ key r = k) →
    ((rowsAt key k zs).map f).count b = 0 := by
    intro k b zs hno
    refine List.count_eq_zero.mpr fun hm => hno ?_
    obtain ⟨r, hr, hb⟩ := List.mem_map.mp hm
    exact ⟨r, hb, by simpa using (List.mem_filter.mp hr).2⟩
  simp only [List.perm_iff_count]
  constructor
  · intro h k b
    by_cases hb : ∃ r, f r = b ∧ key r = k
    · obtain ⟨r, rfl, rfl⟩ := hb
      rw [hcount, hcount, h]
    · rw [hzero k b xs hb, hzero k b ys hb]
  · intro h b
    by_cases hb : ∃ r, f r = b
    · obtain ⟨r, rfl⟩ := hb
      rw [← hcount r xs, ← hcount r ys, h]
    · have hnone : ∀ zs : List ρ, (zs.map f).count b = 0 := fun zs => List.count_eq_zero.mpr fun hm => by
        obtain ⟨r, -, hr⟩ := List.mem_map.mp hm
        exact hb ⟨r, hr⟩
      rw [hnone, hnone]

/-! ## The inner join -/

def innerJoin (on : ρ → σ → Bool) (xs : List ρ) (ys : List σ) : List (ρ × σ) :=
  xs.flatMap fun x => (ys.filter (on x)).map fun y => (x, y)

omit [DecidableEq κ] in
theorem mem_innerJoin {on : ρ → σ → Bool} {xs : List ρ} {ys : List σ} {p : ρ × σ} :
    p ∈ innerJoin on xs ys ↔ p.1 ∈ xs ∧ p.2 ∈ ys ∧ on p.1 p.2 = true := by
  obtain ⟨x, y⟩ := p
  simp [innerJoin]

omit [DecidableEq κ] in
/-- **Each key is joined once.** -/
theorem nodup_innerJoin {on : ρ → σ → Bool} {key : ρ → κ} {key' : σ → κ} {real : κ → Prop} {xs : List ρ}
    {ys : List σ}
    (hon : ∀ x y, on x y = true → key x = key' y ∧ real (key x)) (hx : Unique key real xs)
    (hy : Unique key' real ys) :
    ((innerJoin on xs ys).map fun p => key p.1).Nodup := by
  induction xs with
  | nil => exact List.nodup_nil
  | cons x xs ih =>
    obtain ⟨hhead, htail⟩ := List.pairwise_cons.mp hx
    rw [innerJoin, List.flatMap_cons, ← innerJoin, List.map_append, List.map_map]
    refine List.nodup_append.mpr ⟨?_, ih htail, ?_⟩
    · -- the rows that `x` is joined with have its key, so that there is one at most
      refine List.pairwise_map.mpr (List.pairwise_filter.mpr (hy.imp_of_mem ?_))
      intro y z _ _ hyz hoy hoz _
      obtain ⟨hxy, hreal⟩ := hon x y hoy
      exact hyz (hxy.symm.trans (hon x z hoz).1) (hxy ▸ hreal)
    · intro k hk l hl heq
      obtain ⟨y, hy', rfl⟩ := List.mem_map.mp hk
      obtain ⟨p, hp, rfl⟩ := List.mem_map.mp hl
      have hreal := (hon x y (List.mem_filter.mp hy').2).2
      exact hhead p.1 (mem_innerJoin.mp hp).1 heq hreal

theorem length_innerJoin {on : ρ → σ → Bool} {key : ρ → κ} {key' : σ → κ} {real : κ → Prop}
    {xs : List ρ} {ys : List σ}
    (hon : ∀ x y, on x y = true → key x = key' y ∧
      real (key x)) (hx : Unique key real xs) (hy : Unique key' real ys)
    (p : ρ × σ → Bool) :
    ((innerJoin on xs ys).filter p).length =
      (((innerJoin on xs ys).filter p).map fun q => key q.1).toFinset.card := by
  have hnodup : (((innerJoin on xs ys).filter p).map fun q => key q.1).Nodup :=
    (nodup_innerJoin hon hx hy).sublist (List.filter_sublist.map _)
  rw [List.toFinset_card_of_nodup hnodup, List.length_map]

end Queries
