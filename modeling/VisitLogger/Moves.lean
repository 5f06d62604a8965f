import Mathlib.Algebra.Order.Group.Nat
import Mathlib.Data.List.Induction
import Mathlib.Data.List.Nodup
import Mathlib.Tactic.Common

/-!
# Moves by way of other places

A move takes what is at its source to its destination, if nothing is there. On the way it goes through a place
of its own, which is empty afterwards, whatever was there before. `keeps_iff` says when nothing is lost, and
`arrives_iff` when what has been moved stays where it is.
-/

namespace Moves

structure Move (P : Type*) where
  src : P
  tmp : P
  dst : P
  deriving DecidableEq, Repr

/-! ## Lists with one element picked -/

theorem concat_eq_split {α : Type*} {l before after : List α} {a b : α} :
    l ++ [a] = before ++ b :: after ↔
      (before = l ∧ b = a ∧ after = []) ∨ ∃ rest, l = before ++ b :: rest ∧ after = rest ++ [a] := by
  constructor
  · intro h
    rcases List.eq_nil_or_concat after with rfl | ⟨rest, c, rfl⟩
    · obtain ⟨rfl, hb⟩ := List.append_inj' h rfl
      exact Or.inl ⟨rfl, (List.singleton_inj.mp hb).symm, rfl⟩
    · rw [List.concat_eq_append, ← List.cons_append, ← List.append_assoc] at h
      obtain ⟨rfl, hc⟩ := List.append_inj' h rfl
      exact Or.inr ⟨rest, rfl, by rw [List.concat_eq_append, List.singleton_inj.mp hc]⟩
  · rintro (⟨rfl, rfl, rfl⟩ | ⟨rest, rfl, rfl⟩)
    · rfl
    · simp

variable {P V : Type*} {s : P → Option V} {ms base mid before after before' after' : List (Move P)}
  {m k k' : Move P} {q : P} {v : V}

theorem nodup_initial (h : (ms.map Move.dst).Nodup) (hpre : before <+: ms) : (before.map Move.dst).Nodup :=
  h.sublist (hpre.sublist.map Move.dst)

theorem dst_ne (h : ((before ++ m :: after).map Move.dst).Nodup) :
    (∀ k ∈ before, k.dst ≠ m.dst) ∧ ∀ k ∈ after, k.dst ≠ m.dst := by
  rw [List.map_append, List.map_cons, List.nodup_append, List.nodup_cons] at h
  obtain ⟨-, ⟨hafter, -⟩, hbefore⟩ := h
  exact ⟨fun k hk => hbefore _ (List.mem_map_of_mem hk) _ List.mem_cons_self,
    fun k hk heq => hafter (heq ▸ List.mem_map_of_mem hk)⟩

/-- Only one move has a destination. -/
theorem split_unique (hnodup : ((before ++ k :: after).map Move.dst).Nodup)
    (h : before ++ k :: after = before' ++ k' :: after') (hdst : k'.dst = k.dst) :
    before = before' ∧ k = k' ∧ after = after' := by
  obtain ⟨hbefore, hafter⟩ := dst_ne hnodup
  exact (List.append_cons_inj_of_notMem (fun hmem => hbefore k' hmem hdst) fun hmem => hafter k' hmem hdst).mp h

/-! ## Which moves are made, and what they bring -/

/-- The move finds its destination free, after some others: it was free, or one of these goes through it. -/
inductive IsMade (s : P → Option V) : List (Move P) → Move P → Prop
  | free (before : List (Move P)) (m : Move P) : s m.dst = none → IsMade s before m
  | cleared (before : List (Move P)) (u : Move P) (after : List (Move P)) (m : Move P) :
    IsMade s before u → u.tmp = m.dst → IsMade s (before ++ u :: after) m

/-- One of the moves in the middle is made and goes through a place. -/
def Clears (s : P → Option V) (base mid : List (Move P)) (q : P) : Prop :=
  ∃ before u after, mid = before ++ u :: after ∧ IsMade s (base ++ before) u ∧ u.tmp = q

/-- The move brings what was at its source, or, if nothing was, what an earlier move brings there. -/
inductive Brings (s : P → Option V) : List (Move P) → Move P → V → Prop
  | old (before : List (Move P)) (m : Move P) (v : V) : s m.src = some v → Brings s before m v
  | new (before : List (Move P)) (u : Move P) (after : List (Move P)) (m : Move P) (v : V) :
    s m.src = none → Brings s before u v → u.dst = m.src → Brings s (before ++ u :: after) m v

/-- In the end the place has `v`: it had it, and no move goes through it; or a move brings it there
from a place that has it by then, and no later one goes through. -/
inductive Arrives (s : P → Option V) : List (Move P) → P → V → Prop
  | stays (ms : List (Move P)) (q : P) (v : V) : s q = some v → ¬ Clears s [] ms q → Arrives s ms q v
  | brought (before : List (Move P)) (k : Move P) (after : List (Move P)) (v : V) :
    IsMade s before k → Arrives s before k.src v → ¬ Clears s (before ++ [k]) after k.dst →
      Arrives s (before ++ k :: after) k.dst v

/-- What a move takes from its way is brought there again. -/
def Restores (s : P → Option V) (ms : List (Move P)) : Prop :=
  ∀ before u after, ms = before ++ u :: after → IsMade s before u → ∀ v, s u.tmp = some v →
    ∃ mid k rest, after = mid ++ k :: rest ∧ k.dst = u.tmp ∧ Brings s (before ++ u :: mid) k v

theorem isMade_iff : IsMade s ms m ↔ s m.dst = none ∨ Clears s [] ms m.dst := by
  constructor
  · intro h
    cases h with
    | free _ _ hfree => exact Or.inl hfree
    | cleared before u after _ hmade htmp => exact Or.inr ⟨before, u, after, rfl, hmade, htmp⟩
  · rintro (hfree | ⟨before, u, after, rfl, hmade, htmp⟩)
    · exact .free ms m hfree
    · exact .cleared before u after m hmade htmp

theorem not_clears_nil : ¬ Clears s base [] q := by
  rintro ⟨before, u, after, h, -⟩
  exact List.append_ne_nil_of_right_ne_nil before (List.cons_ne_nil u after) h.symm

theorem clears_concat : Clears s base (mid ++ [k]) q ↔ Clears s base mid q ∨ IsMade s (base ++ mid) k ∧
    k.tmp = q := by
  constructor
  · rintro ⟨before, u, after, hsplit, hmade, htmp⟩
    obtain ⟨rfl, rfl, rfl⟩ | ⟨rest, rfl, rfl⟩ := concat_eq_split.mp hsplit
    · exact Or.inr ⟨hmade, htmp⟩
    · exact Or.inl ⟨before, u, rest, rfl, hmade, htmp⟩
  · rintro (⟨before, u, after, rfl, hmade, htmp⟩ | ⟨hmade, htmp⟩)
    · exact ⟨before, u, after ++ [k], by simp, hmade, htmp⟩
    · exact ⟨mid, k, [], rfl, hmade, htmp⟩

theorem clears_append {mid' : List (Move P)} :
    Clears s base (mid ++ mid') q ↔ Clears s base mid q ∨ Clears s (base ++ mid) mid' q := by
  induction mid' using List.reverseRecOn with
  | nil => rw [List.append_nil, or_iff_left not_clears_nil]
  | append_singleton mid' k ih => rw [← List.append_assoc, clears_concat, clears_concat, ih, or_assoc,
      List.append_assoc]

theorem arrives_made_iff (hnodup : ((before ++ k :: after).map Move.dst).Nodup) (hmade : IsMade s before k) :
    Arrives s (before ++ k :: after) k.dst v ↔
      Arrives s before k.src v ∧ ¬ Clears s (before ++ [k]) after k.dst := by
  constructor
  · intro h
    generalize hl : before ++ k :: after = l at h
    generalize hd : k.dst = d at h
    cases h with
    | stays _ _ _ hq hc =>
      subst hl hd
      obtain ⟨b, u, a, hb, hu⟩ := (isMade_iff.mp hmade).resolve_left (by rw [hq]; exact Option.some_ne_none v)
      exact absurd ⟨b, u, a ++ k :: after, by rw [hb]; simp, hu⟩ hc
    | brought before' k' after' _ _ hsrc hspared =>
      obtain ⟨rfl, rfl, rfl⟩ := split_unique hnodup hl hd.symm
      exact ⟨hsrc, hspared⟩
  · rintro ⟨hsrc, hspared⟩
    exact .brought before k after v hmade hsrc hspared

theorem arrives_taken_iff (hnodup : ((before ++ k :: after).map Move.dst).Nodup) (hmade : ¬ IsMade s before k) :
    Arrives s (before ++ k :: after) k.dst v ↔ s k.dst = some v ∧ ¬ Clears s (before ++ [k]) after k.dst := by
  have hcleared : Clears s [] (before ++ k :: after) k.dst ↔ Clears s (before ++ [k]) after k.dst := by
    rw [List.append_cons, clears_append, clears_concat, List.nil_append, List.nil_append, or_iff_right]
    rintro (hc | hc)
    · exact hmade (isMade_iff.mpr (Or.inr hc))
    · exact hmade hc.1
  rw [← hcleared]
  constructor
  · intro h
    generalize hl : before ++ k :: after = l at h
    generalize hd : k.dst = d at h
    cases h with
    | stays _ _ _ hq hc =>
      subst hl hd
      exact ⟨hq, hc⟩
    | brought before' k' after' _ hmade' _ _ =>
      obtain ⟨rfl, rfl, rfl⟩ := split_unique hnodup hl hd.symm
      exact absurd hmade' hmade
  · rintro ⟨hq, hc⟩
    exact .stays _ _ _ hq hc

theorem arrives_of_not_dst (hq : ∀ m ∈ ms, m.dst ≠ q) : Arrives s ms q v ↔ s q = some v ∧ ¬ Clears s [] ms q := by
  constructor
  · intro h
    cases h with
    | stays _ _ _ hs hc => exact ⟨hs, hc⟩
    | brought before k after _ _ _ _ => exact absurd rfl (hq k (by simp))
  · rintro ⟨hs, hc⟩
    exact .stays ms q v hs hc

/-! ## Runs -/

variable [DecidableEq P]

def Move.apply (s : P → Option V) (m : Move P) : P → Option V :=
  if (s m.dst).isSome then s else fun q => if q = m.dst then s m.src else if q = m.tmp then none else s q

def run (s : P → Option V) (ms : List (Move P)) : P → Option V := ms.foldl Move.apply s

theorem run_concat (s : P → Option V) (ms : List (Move P)) (m : Move P) :
    run s (ms ++ [m]) = m.apply (run s ms) := by
  rw [run, List.foldl_append]
  rfl

theorem run_taken (h : run s ms m.dst ≠ none) : run s (ms ++ [m]) = run s ms := by
  rw [run_concat, Move.apply, if_pos (Option.isSome_iff_ne_none.mpr h)]

theorem run_free (h : run s ms m.dst = none) (q : P) :
    run s (ms ++ [m]) q = if q = m.dst then run s ms m.src else if q = m.tmp then none else run s ms q := by
  rw [run_concat, Move.apply, h, Option.isSome_none, if_neg Bool.false_ne_true]

/-- A place that is the destination of none of the moves in the middle keeps what it has, or is cleared. -/
theorem run_frame_of_made (hmade : ∀ before u after, mid = before ++ u :: after →
      (IsMade s (base ++ before) u ↔ run s (base ++ before) u.dst = none)) (hq : ∀ m ∈ mid, m.dst ≠ q) :
    (Clears s base mid q → run s (base ++ mid) q = none) ∧
      (¬ Clears s base mid q → run s (base ++ mid) q = run s base q) := by
  induction mid using List.reverseRecOn with
  | nil =>
    rw [List.append_nil]
    exact ⟨fun h => absurd h not_clears_nil, fun _ => rfl⟩
  | append_singleton mid k ih =>
    have hlast := hmade mid k [] rfl
    have hk : q ≠ k.dst := (hq k (by simp)).symm
    have ih := ih (fun before u after h => hmade before u (after ++ [k]) (by rw [h]; simp)) fun m hm =>
      hq m (by simp [hm])
    rw [clears_concat, ← List.append_assoc]
    by_cases hfree : run s (base ++ mid) k.dst = none
    · rw [run_free hfree, if_neg hk]
      by_cases htmp : q = k.tmp
      · rw [if_pos htmp]
        exact ⟨fun _ => rfl, fun h => absurd (Or.inr ⟨hlast.mpr hfree, htmp.symm⟩) h⟩
      · rw [if_neg htmp]
        exact ⟨fun h => ih.1 (h.resolve_right fun hk => htmp hk.2.symm),
          fun h => ih.2 fun hmid => h (Or.inl hmid)⟩
    · rw [run_taken hfree]
      exact ⟨fun h => ih.1 (h.resolve_right fun hk => hfree (hlast.mp hk.1)),
        fun h => ih.2 fun hmid => h (Or.inl hmid)⟩

/-- **The moves that are made** are those that find nothing at their destination. -/
theorem isMade_iff_run (h : ((ms ++ [m]).map Move.dst).Nodup) : IsMade s ms m ↔ run s ms m.dst = none := by
  induction hn : ms.length using Nat.strong_induction_on generalizing ms m with
  | _ n ih =>
    have hearlier : ∀ before u after, ms = before ++ u :: after →
        (IsMade s ([] ++ before) u ↔ run s ([] ++ before) u.dst = none) := by
      rintro before u after rfl
      refine ih before.length ?_ (nodup_initial h ⟨after ++ [m], by simp⟩) rfl
      rw [← hn, List.length_append, List.length_cons]
      omega
    have hframe := run_frame_of_made hearlier (dst_ne h).1
    rw [List.nil_append] at hframe
    rw [isMade_iff]
    by_cases hclears : Clears s [] ms m.dst
    · simp [hclears, hframe.1]
    · rw [hframe.2 hclears]
      simp [hclears, run]

theorem run_frame (base mid : List (Move P)) (hnodup : ((base ++ mid).map Move.dst).Nodup)
    (hq : ∀ m ∈ mid, m.dst ≠ q) :
    (Clears s base mid q → run s (base ++ mid) q = none) ∧
      (¬ Clears s base mid q → run s (base ++ mid) q = run s base q) :=
  run_frame_of_made (fun before u after h => isMade_iff_run (nodup_initial hnodup ⟨after, by rw [h]; simp⟩)) hq

theorem run_eq_or (base mid : List (Move P)) (hnodup : ((base ++ mid).map Move.dst).Nodup)
    (hq : ∀ m ∈ mid, m.dst ≠ q) :
    run s (base ++ mid) q = run s base q ∨ run s (base ++ mid) q = none := by
  by_cases h : Clears s base mid q
  · exact Or.inr ((run_frame base mid hnodup hq).1 h)
  · exact Or.inl ((run_frame base mid hnodup hq).2 h)

theorem run_not_dst (hnodup : (ms.map Move.dst).Nodup) (hq : ∀ m ∈ ms, m.dst ≠ q) :
    run s ms q = s q ∨ run s ms q = none :=
  run_eq_or [] ms hnodup hq

theorem run_after (hnodup : ((before ++ k :: after).map Move.dst).Nodup) (hq : ∀ m ∈ after, m.dst ≠ q) :
    run s (before ++ k :: after) q = run s (before ++ [k]) q ∨ run s (before ++ k :: after) q = none := by
  rw [List.append_cons] at hnodup ⊢
  exact run_eq_or (before ++ [k]) after hnodup hq

theorem run_untouched (h : ∀ m ∈ ms, q ≠ m.dst ∧ q ≠ m.tmp) : run s ms q = s q := by
  induction ms using List.reverseRecOn with
  | nil => rfl
  | append_singleton ms k ih =>
    obtain ⟨hdst, htmp⟩ := h k (by simp)
    have ih := ih fun m hm => h m (List.mem_append_left [k] hm)
    by_cases hfree : run s ms k.dst = none
    · rw [run_free hfree, if_neg hdst, if_neg htmp, ih]
    · rw [run_taken hfree, ih]

theorem run_frame_iff (base mid : List (Move P)) (hnodup : ((base ++ mid).map Move.dst).Nodup)
    (hq : ∀ m ∈ mid, m.dst ≠ q) :
    run s (base ++ mid) q = some v ↔ run s base q = some v ∧ ¬ Clears s base mid q := by
  obtain ⟨hcleared, hspared⟩ := run_frame (s := s) base mid hnodup hq
  by_cases hc : Clears s base mid q
  · simp [hcleared hc, hc]
  · simp [hspared hc, hc]

/-- **What is at a place** after the moves. -/
theorem run_eq_some_iff (hnodup : (ms.map Move.dst).Nodup) : run s ms q = some v ↔ Arrives s ms q v := by
  induction hn : ms.length using Nat.strong_induction_on generalizing ms q v with
  | _ n ih =>
    by_cases hmem : ∃ k ∈ ms, k.dst = q
    · obtain ⟨k, hk, rfl⟩ := hmem
      obtain ⟨before, after, rfl⟩ := List.append_of_mem hk
      have hnodup' : (before.map Move.dst).Nodup := nodup_initial hnodup (List.prefix_append _ _)
      have hmade : IsMade s before k ↔ run s before k.dst = none :=
        isMade_iff_run (nodup_initial hnodup ⟨after, by simp⟩)
      have hafter := run_frame_iff (s := s) (v := v) (before ++ [k]) after (by simpa using hnodup) (dst_ne hnodup).2
      rw [List.append_assoc, List.singleton_append] at hafter
      rw [hafter]
      by_cases hm : IsMade s before k
      · rw [arrives_made_iff hnodup hm, run_free (hmade.mp hm), if_pos rfl,
          ih before.length (by rw [← hn]; simp) hnodup' rfl]
      · -- its destination has what was there at first
        have hc : ¬ Clears s [] before k.dst := fun hc => hm (isMade_iff.mpr (Or.inr hc))
        have htaken : run s (before ++ [k]) k.dst = s k.dst := by
          rw [run_taken fun h => hm (hmade.mpr h)]
          exact (run_frame (s := s) [] before hnodup' (dst_ne hnodup).1).2 hc
        rw [arrives_taken_iff hnodup hm, htaken]
    · have hq : ∀ m ∈ ms, m.dst ≠ q := fun m hm hd => hmem ⟨m, hm, hd⟩
      rw [arrives_of_not_dst hq]
      exact run_frame_iff [] ms hnodup hq

def Finds (s : P → Option V) (ms : List (Move P)) : Prop :=
  ∀ before m after, ms = before ++ m :: after → run s before m.dst = none → run s before m.src ≠ none

theorem Finds.initial (h : Finds s ms) (hpre : before <+: ms) : Finds s before := by
  obtain ⟨rest, rfl⟩ := hpre
  rintro pre m post rfl
  exact h pre m (post ++ rest) (by simp)

def Kept (s : P → Option V) (ms : List (Move P)) : Prop :=
  ∀ q v, s q = some v → run s ms q = some v ∨ run s ms q = none

theorem brings_iff (hnodup : ((ms ++ [k]).map Move.dst).Nodup) (hfinds : Finds s (ms ++ [k]))
    (hkept : ∀ before, before <+: ms → Kept s before) (hmade : IsMade s ms k) :
    Brings s ms k v ↔ run s ms k.src = some v := by
  induction hn : ms.length using Nat.strong_induction_on generalizing ms k v with
  | _ n ih =>
    have hfound := hfinds ms k [] rfl ((isMade_iff_run hnodup).mp hmade)
    cases hs : s k.src with
    | some w =>
      have hrun : run s ms k.src = some w := (hkept ms List.prefix_rfl k.src w hs).resolve_right hfound
      rw [hrun]
      constructor
      · intro h
        cases h with
        | old _ _ _ hold => rw [← hold, hs]
        | new before u after _ _ hnone => rw [hs] at hnone; cases hnone
      · intro h
        exact .old ms k v (hs.trans h)
    | none =>
      have hnodup' := nodup_initial hnodup (List.prefix_append ms [k])
      by_cases hcreated : ∃ u ∈ ms, u.dst = k.src
      · obtain ⟨u, hu, hdst⟩ := hcreated
        obtain ⟨before, after, rfl⟩ := List.append_of_mem hu
        have hpre : before ++ [u] <+: before ++ u :: after := ⟨after, by simp⟩
        have hu : IsMade s before u := .free before u (by rw [hdst, hs])
        have ih := fun w => ih before.length (by rw [← hn]; simp) (nodup_initial hnodup' hpre)
          (hfinds.initial (hpre.trans (List.prefix_append _ [k]))) (fun b hb =>
            hkept b (hb.trans (List.prefix_append _ _)))
          hu rfl (v := w)
        have hafter := run_after (s := s) hnodup' (dst_ne hnodup').2
        rw [hdst] at hafter
        rw [hafter.resolve_right hfound, run_free ((isMade_iff_run (nodup_initial hnodup' hpre)).mp hu),
          if_pos hdst.symm, ← ih]
        constructor
        · intro h
          generalize hsplit : before ++ u :: after = l at h
          cases h with
          | old _ _ _ hold => rw [hs] at hold; cases hold
          | new before' u' after' _ _ _ hbrings hdst' =>
            obtain ⟨rfl, rfl, rfl⟩ := split_unique hnodup' hsplit (hdst'.trans hdst.symm)
            exact hbrings
        · intro h
          exact .new before u after k v hs h hdst
      · have hnone := run_not_dst (s := s) hnodup' fun m hm hdst => hcreated ⟨m, hm, hdst⟩
        exact absurd (hnone.elim (fun h => h.trans hs) id) hfound

/-! ## What is kept -/

theorem kept_of_restores (hnodup : (ms.map Move.dst).Nodup) (hfinds : Finds s ms) (h : Restores s ms)
    (hms : before <+: ms) : ∀ pre, pre <+: before → Kept s pre := by
  induction before using List.reverseRecOn with
  | nil =>
    intro pre hpre q v hq
    rw [List.prefix_nil.mp hpre]
    exact Or.inl hq
  | append_singleton before k ih =>
    have hearlier := ih ((List.prefix_append before [k]).trans hms)
    intro pre hpre
    rcases List.prefix_concat_iff.mp hpre with rfl | hpre
    · intro q v hq
      have hbefore := hearlier before List.prefix_rfl q v hq
      by_cases hfree : run s before k.dst = none
      · rw [run_free hfree]
        by_cases hdst : q = k.dst
        · -- nothing is at the place any more, so a move went through it, and this one brings back what it took
          subst hdst
          rw [if_pos rfl]
          have hmade := (isMade_iff_run (nodup_initial hnodup hms)).mpr hfree
          have hcleared := (isMade_iff.mp hmade).resolve_left (by rw [hq]; exact Option.some_ne_none v)
          obtain ⟨b, u, a, rfl, hu, htmp⟩ := hcleared
          obtain ⟨post, rfl⟩ := hms
          obtain ⟨mid, k', rest, ha, hdst, hbrings⟩ := h b u (a ++ k :: post) (by simp) hu v (htmp ▸ hq)
          have hsplit : (b ++ u :: a) ++ k :: post = (b ++ u :: mid) ++ k' :: rest := by
            rw [List.append_assoc, List.cons_append, ha, List.append_assoc, List.cons_append]
          obtain ⟨hsame, rfl, -⟩ := split_unique (by simpa using hnodup) hsplit (hdst.trans htmp)
          rw [← hsame] at hbrings
          exact Or.inl ((brings_iff (nodup_initial hnodup (List.prefix_append _ post))
            (hfinds.initial (List.prefix_append _ post)) hearlier hmade).mp hbrings)
        · rw [if_neg hdst]
          split
          · exact Or.inr rfl
          · exact hbefore
      · rwa [run_taken hfree]
    · exact hearlier pre hpre

/-- An empty place is one that was empty, or the last move to do with it went through it. -/
theorem exists_cleared (hfinds : Finds s ms) (hq : s q ≠ none) (h : run s ms q = none) :
    ∃ before u after, ms = before ++ u :: after ∧ run s before u.dst = none ∧ u.tmp = q ∧
      ∀ m ∈ after, m.dst ≠ q := by
  induction ms using List.reverseRecOn with
  | nil => exact absurd h hq
  | append_singleton ms k ih =>
    have ih := ih (hfinds.initial (List.prefix_append ms [k]))
    have hlater : k.dst ≠ q → run s ms q = none → ∃ before u after, ms ++ [k] = before ++ u :: after ∧
        run s before u.dst = none ∧ u.tmp = q ∧ ∀ m ∈ after, m.dst ≠ q := by
      intro hk hnone
      obtain ⟨before, u, after, rfl, hfree, htmp, hafter⟩ := ih hnone
      refine ⟨before, u, after ++ [k], by simp, hfree, htmp, fun m hm => ?_⟩
      rcases List.mem_append.mp hm with hm | hm
      · exact hafter m hm
      · rwa [List.mem_singleton.mp hm]
    by_cases hfree : run s ms k.dst = none
    · rw [run_free hfree] at h
      split at h
      · exact absurd h (hfinds ms k [] rfl hfree)
      · rename_i hdst
        split at h
        · rename_i htmp
          exact ⟨ms, k, [], rfl, hfree, htmp.symm, fun _ hm => by cases hm⟩
        · exact hlater (Ne.symm hdst) h
    · rw [run_taken hfree] at h
      refine hlater (fun hdst => ?_) h
      rw [hdst] at hfree
      exact hfree h

theorem kept_of_keeps (hnodup : (ms.map Move.dst).Nodup) (h : ∀ q v, s q = some v → run s ms q = some v)
    (hpre : before <+: ms) : Kept s before := by
  intro q v hq
  have hnodup' := nodup_initial hnodup hpre
  by_cases hmem : ∃ k ∈ before, k.dst = q
  · obtain ⟨k, hk, rfl⟩ := hmem
    obtain ⟨b, a, rfl⟩ := List.append_of_mem hk
    obtain ⟨post, rfl⟩ := hpre
    have hall : b ++ k :: a ++ post = b ++ k :: (a ++ post) := by simp
    have hend := run_after (s := s) (hall ▸ hnodup) (dst_ne (hall ▸ hnodup)).2
    have hthen := run_after (s := s) hnodup' (dst_ne hnodup').2
    rw [← hall, h _ v hq] at hend
    rw [hend.resolve_right (Option.some_ne_none v)]
    exact hthen
  · rw [← hq]
    exact run_not_dst hnodup' fun k hk hdst => hmem ⟨k, hk, hdst⟩

theorem restores_of_keeps (hnodup : (ms.map Move.dst).Nodup) (htmp : ∀ m ∈ ms, m.tmp ≠ m.dst)
    (hfinds : Finds s ms)
    (h : ∀ q v, s q = some v → run s ms q = some v) : Restores s ms := by
  rintro before u after rfl hmade v hv
  have hpre : before ++ [u] <+: before ++ u :: after := ⟨after, by simp⟩
  have hcleared : run s (before ++ [u]) u.tmp = none := by
    rw [run_free ((isMade_iff_run (nodup_initial hnodup hpre)).mp hmade), if_neg (htmp u (by simp)),
      if_pos rfl]
  by_cases hmem : ∃ k ∈ after, k.dst = u.tmp
  · obtain ⟨k, hk, hdst⟩ := hmem
    obtain ⟨mid, rest, rfl⟩ := List.append_of_mem hk
    have hall : before ++ u :: (mid ++ k :: rest) = before ++ u :: mid ++ k :: rest := by simp
    have hnodup' := hall ▸ hnodup
    have hk : before ++ u :: mid ++ [k] <+: before ++ u :: (mid ++ k :: rest) := ⟨rest, by simp⟩
    have hfree : run s (before ++ u :: mid) k.dst = none := by
      have hmid := run_after (s := s) (nodup_initial hnodup' (List.prefix_append _ (k :: rest)))
        fun m hm => (dst_ne hnodup').1 m (by simp [hm])
      rw [hdst, hcleared, or_self] at hmid
      rwa [hdst]
    have hend := run_after (s := s) hnodup' (dst_ne hnodup').2
    rw [← hall, hdst, h _ v hv, ← hdst, run_free hfree, if_pos rfl] at hend
    have hkept : ∀ pre, pre <+: before ++ u :: mid → Kept s pre := fun pre hp =>
      kept_of_keeps hnodup h (hp.trans ⟨k :: rest, hall.symm⟩)
    have hmade := (isMade_iff_run (nodup_initial hnodup hk)).mpr hfree
    have hbrings := brings_iff (v := v) (nodup_initial hnodup hk) (hfinds.initial hk) hkept hmade
    exact ⟨mid, k, rest, rfl, hdst, hbrings.mpr (hend.resolve_right (Option.some_ne_none v)).symm⟩
  · have hend := run_after (s := s) hnodup fun k hk hdst => hmem ⟨k, hk, hdst⟩
    rw [hcleared, h _ v hv, or_self] at hend
    cases hend

theorem keeps_of_restores (hnodup : (ms.map Move.dst).Nodup) (hfinds : Finds s ms) (h : Restores s ms)
    (q : P) (v : V) (hq : s q = some v) : run s ms q = some v := by
  refine (kept_of_restores hnodup hfinds h List.prefix_rfl ms List.prefix_rfl q v hq).resolve_right fun hnone => ?_
  have hthere : s q ≠ none := by
    rw [hq]
    exact Option.some_ne_none v
  obtain ⟨before, u, after, rfl, hfree, rfl, hafter⟩ := exists_cleared hfinds hthere hnone
  have hpre : before ++ [u] <+: before ++ u :: after := ⟨after, by simp⟩
  obtain ⟨mid, k, rest, rfl, hdst, -⟩ := h before u after rfl
    ((isMade_iff_run (nodup_initial hnodup hpre)).mpr hfree) v hq
  exact hafter k (by simp) hdst

/-- **Nothing is lost** iff what the moves take from their ways is brought there again. -/
theorem keeps_iff (hnodup : (ms.map Move.dst).Nodup) (htmp : ∀ m ∈ ms, m.tmp ≠ m.dst) (hfinds : Finds s ms) :
    (∀ q v, s q = some v → run s ms q = some v) ↔ Restores s ms :=
  ⟨restores_of_keeps hnodup htmp hfinds, keeps_of_restores hnodup hfinds⟩

/-- **What a move brings stays** iff no later one goes through its destination. -/
theorem arrives_iff (hnodup : (ms.map Move.dst).Nodup) (hfinds : Finds s ms)
    (h : ∀ q v, s q = some v → run s ms q = some v)
    (hk : k ∈ ms) (hsrc : s k.src = some v) (hdst : s k.dst = none) :
    run s ms k.dst = some v ↔
      ∀ before u after, ms = before ++ u :: after → IsMade s before u → k ∈ before → u.tmp ≠ k.dst := by
  obtain ⟨b, a, rfl⟩ := List.append_of_mem hk
  have hpre : b ++ [k] <+: b ++ k :: a := ⟨a, by simp⟩
  have hfree := (isMade_iff_run (nodup_initial hnodup hpre)).mp (IsMade.free (s := s) b k hdst)
  have hbrought : run s (b ++ [k]) k.dst = some v := by
    rw [run_free hfree, if_pos rfl]
    exact (kept_of_keeps hnodup h ⟨k :: a, rfl⟩ k.src v hsrc).resolve_right (hfinds b k a rfl hfree)
  have hafter := run_frame (s := s) (b ++ [k]) a (by simpa using hnodup) (dst_ne hnodup).2
  rw [List.append_assoc, List.singleton_append, hbrought] at hafter
  constructor
  · intro hend before u after hsplit hu hmem htmp
    obtain ⟨b', mid, rfl⟩ := List.append_of_mem hmem
    rw [List.append_assoc, List.cons_append] at hsplit
    obtain ⟨rfl, -, rfl⟩ := split_unique hnodup hsplit rfl
    rw [hafter.1 ⟨mid, u, after, rfl, by simpa using hu, htmp⟩] at hend
    cases hend
  · intro hspared
    refine hafter.2 ?_
    rintro ⟨mid, u, after, rfl, hu, htmp⟩
    exact hspared (b ++ k :: mid) u after (by simp) (by simpa using hu) (by simp) htmp

end Moves
