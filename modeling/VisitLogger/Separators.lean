import Mathlib.Data.List.DropRight
import Mathlib.Data.List.Infix
import Mathlib.Tactic.Common

/-!
# Runs of a separator

`trim` takes the separators off both ends of a text, `squeeze` leaves one of each
run, and `pairs` is one pass that replaces each pair by one, which leaves half of
each run.
-/

namespace Separators

variable {α : Type*} [DecidableEq α] (sep : α)

def trim (s : List α) : List α := (s.dropWhile (· = sep)).rdropWhile (· = sep)

def pairs : List α → List α
  | a :: b :: s => if a = sep ∧ b = sep then sep :: pairs s else a :: pairs (b :: s)
  | s => s

def squeeze : List α → List α
  | a :: b :: s => if a = sep ∧ b = sep then squeeze (b :: s) else a :: squeeze (b :: s)
  | s => s

structure Tidy (s : List α) : Prop where
  head : ∀ b ∈ s.head?, b ≠ sep
  last : ∀ b ∈ s.getLast?, b ≠ sep

variable {sep} {s t : List α} {a b : α}

/-! ## Trimming -/

theorem dropWhile_seps {d : List α} (hd : ∀ a ∈ d, a = sep) (s : List α) :
    (d ++ s).dropWhile (· = sep) = s.dropWhile (· = sep) :=
  List.dropWhile_append_of_pos fun a ha => by simpa using hd a ha

theorem dropWhile_tidy (h : ∀ b ∈ s.head?, b ≠ sep) : s.dropWhile (· = sep) = s := by
  cases s with
  | nil => rfl
  | cons a s => exact List.dropWhile_cons_of_neg (by simpa using h a rfl)

theorem rdropWhile_seps {e : List α} (he : ∀ a ∈ e, a = sep) (s : List α) :
    (s ++ e).rdropWhile (· = sep) = s.rdropWhile (· = sep) := by
  unfold List.rdropWhile
  rw [List.reverse_append, dropWhile_seps fun a ha => he a (List.mem_reverse.mp ha)]

theorem rdropWhile_tidy (h : ∀ b ∈ s.getLast?, b ≠ sep) : s.rdropWhile (· = sep) = s := by
  unfold List.rdropWhile
  rw [dropWhile_tidy, List.reverse_reverse]
  rwa [List.head?_reverse]

theorem trim_seps {d e : List α} (hd : ∀ a ∈ d, a = sep) (he : ∀ a ∈ e, a = sep) (s : List α) :
    trim sep (d ++ s ++ e) = trim sep s := by
  unfold trim
  rw [List.append_assoc, dropWhile_seps hd]
  by_cases hs : ∀ a ∈ s, a = sep
  · have hnil : ∀ l : List α, (∀ a ∈ l, a = sep) → l.dropWhile (· = sep) = [] :=
      fun l hl => List.dropWhile_eq_nil_iff.mpr fun a ha => by simpa using hl a ha
    rw [hnil s hs, hnil _ fun a ha => (List.mem_append.mp ha).elim (hs a) (he a)]
  · have hne : s.dropWhile (· = sep) ≠ [] := fun h =>
      hs fun a ha => by simpa using List.dropWhile_eq_nil_iff.mp h a ha
    rw [List.dropWhile_append, if_neg (by simpa using hne), rdropWhile_seps he]

theorem trim_tidy (h : Tidy sep s) : trim sep s = s := by
  rw [trim, dropWhile_tidy h.head, rdropWhile_tidy h.last]

theorem exists_trim (sep : α) (s : List α) : Tidy sep (trim sep s) ∧
    ∃ d e, (∀ a ∈ d, a = sep) ∧ (∀ a ∈ e, a = sep) ∧ s = d ++ trim sep s ++ e := by
  have hfront : ∀ s : List α, ∃ d, (∀ a ∈ d, a = sep) ∧ s = d ++ s.dropWhile (· = sep) ∧
      ∀ b ∈ (s.dropWhile (· = sep)).head?, b ≠ sep := by
    intro s
    refine ⟨s.takeWhile (· = sep), fun a ha => by simpa using List.mem_takeWhile_imp ha, ?_, fun b hb => ?_⟩
    · rw [List.takeWhile_append_dropWhile]
    · have := List.head?_dropWhile_not (· = sep) s
      rw [hb] at this
      simpa using this
  obtain ⟨d, hd, hs, hhead⟩ := hfront s
  obtain ⟨e, he, hr, hlast⟩ := hfront (s.dropWhile (· = sep)).reverse
  have hmid : s.dropWhile (· = sep) = trim sep s ++ e.reverse := by
    have := congrArg List.reverse hr
    rwa [List.reverse_reverse, List.reverse_append] at this
  refine ⟨⟨fun b hb => ?_, fun b hb => ?_⟩, d, e.reverse, hd, fun a ha => he a (List.mem_reverse.mp ha), ?_⟩
  · refine hhead b ?_
    rw [hmid, List.head?_append, Option.mem_def.mp hb]
    rfl
  · refine hlast b ?_
    rwa [← List.getLast?_reverse, ← List.rdropWhile]
  · rw [List.append_assoc, ← hmid, ← hs]

/-! ## Collapsing -/

/-- Runs are worked on one by one. -/
structure Collapses (sep : α) (f : List α → List α) : Prop where
  nil : f [] = []
  split : ∀ s b t, b ≠ sep → f (s ++ b :: t) = f s ++ b :: f t
  seps : ∀ s, (∀ a ∈ s, a = sep) → ∀ a ∈ f s, a = sep

theorem pairs_cons_ne (h : a ≠ sep) (s : List α) : pairs sep (a :: s) = a :: pairs sep s := by
  cases s with
  | nil => rfl
  | cons b s => rw [pairs, if_neg fun h' => h h'.1]

theorem squeeze_cons_ne (h : a ≠ sep) (s : List α) : squeeze sep (a :: s) = a :: squeeze sep s := by
  cases s with
  | nil => rfl
  | cons b s => rw [squeeze, if_neg fun h' => h h'.1]

theorem pairs_subset (sep : α) (s : List α) : pairs sep s ⊆ s := by
  induction s using pairs.induct sep with
  | case1 a b s hab ih =>
    rw [pairs, if_pos hab, hab.1]
    exact List.cons_subset_cons _ (List.subset_cons_of_subset _ ih)
  | case2 a b s hab ih =>
    rw [pairs, if_neg hab]
    exact List.cons_subset_cons _ ih
  | case3 s hs => cases s with
    | nil => exact List.nil_subset _
    | cons a s => cases s with
      | nil => exact List.Subset.refl _
      | cons b s => exact absurd rfl (hs a b s)

theorem squeeze_subset (sep : α) (s : List α) : squeeze sep s ⊆ s := by
  induction s using squeeze.induct sep with
  | case1 a b s hab ih =>
    rw [squeeze, if_pos hab]
    exact List.subset_cons_of_subset _ ih
  | case2 a b s hab ih =>
    rw [squeeze, if_neg hab]
    exact List.cons_subset_cons _ ih
  | case3 s hs => cases s with
    | nil => exact List.nil_subset _
    | cons a s => cases s with
      | nil => exact List.Subset.refl _
      | cons b s => exact absurd rfl (hs a b s)

theorem pairs_split (s : List α) (hb : b ≠ sep) (t : List α) :
    pairs sep (s ++ b :: t) = pairs sep s ++ b :: pairs sep t := by
  induction s using pairs.induct sep with
  | case1 a c s hac ih =>
    rw [List.cons_append, List.cons_append, pairs, if_pos hac, ih, pairs, if_pos hac]
    rfl
  | case2 a c s hac ih =>
    rw [List.cons_append, List.cons_append, pairs, if_neg hac, ← List.cons_append, ih, pairs, if_neg hac]
    rfl
  | case3 s hs => cases s with
    | nil => exact pairs_cons_ne hb t
    | cons a s => cases s with
      | nil =>
        rw [List.singleton_append, pairs, if_neg fun h => hb h.2, pairs_cons_ne hb]
        rfl
      | cons c s => exact absurd rfl (hs a c s)

theorem squeeze_split (s : List α) (hb : b ≠ sep) (t : List α) :
    squeeze sep (s ++ b :: t) = squeeze sep s ++ b :: squeeze sep t := by
  induction s using squeeze.induct sep with
  | case1 a c s hac ih =>
    rw [List.cons_append, List.cons_append, squeeze, if_pos hac, ← List.cons_append, ih, squeeze, if_pos hac]
  | case2 a c s hac ih =>
    rw [List.cons_append, List.cons_append, squeeze, if_neg hac, ← List.cons_append, ih, squeeze, if_neg hac]
    rfl
  | case3 s hs => cases s with
    | nil => exact squeeze_cons_ne hb t
    | cons a s => cases s with
      | nil =>
        rw [List.singleton_append, squeeze, if_neg fun h => hb h.2, squeeze_cons_ne hb]
        rfl
      | cons c s => exact absurd rfl (hs a c s)

theorem collapses_pairs (sep : α) : Collapses sep (pairs sep) :=
  ⟨rfl, fun s _ t hb => pairs_split s hb t, fun s hs a ha => hs a (pairs_subset sep s ha)⟩

theorem collapses_squeeze (sep : α) : Collapses sep (squeeze sep) :=
  ⟨rfl, fun s _ t hb => squeeze_split s hb t, fun s hs a ha => hs a (squeeze_subset sep s ha)⟩

/-- **Trimming and collapsing commute.** -/
theorem Collapses.trim {f : List α → List α} (h : Collapses sep f) (s : List α) :
    Tidy sep (f (trim sep s)) ∧ Separators.trim sep (f s) = f (Separators.trim sep s) := by
  obtain ⟨htidy, d, e, hd, he, hs⟩ := exists_trim sep s
  generalize Separators.trim sep s = m at *
  rw [hs]
  cases m with
  | nil =>
    rw [h.nil, List.append_nil]
    refine ⟨⟨fun b hb => (Option.not_mem_none b hb).elim, fun b hb => (Option.not_mem_none b hb).elim⟩, ?_⟩
    have hall := h.seps (d ++ e) fun a ha => (List.mem_append.mp ha).elim (hd a) (he a)
    have := trim_seps hall (e := []) (fun a ha => by cases ha) []
    rw [List.append_nil, List.append_nil] at this
    rw [this]
    rfl
  | cons b r =>
    have hb : b ≠ sep := htidy.head b rfl
    obtain ⟨i, c, hic⟩ := List.eq_nil_or_concat (b :: r) |>.resolve_left (List.cons_ne_nil b r)
    rw [List.concat_eq_append] at hic
    have hc : c ≠ sep := htidy.last c (by rw [hic, List.getLast?_concat]; rfl)
    -- the middle starts and ends with characters that split the text
    have hfront : ∀ t, f (b :: r ++ t) = b :: f (r ++ t) := fun t => by
      have := h.split [] b (r ++ t) hb
      rwa [h.nil] at this
    have hback : ∀ t, f (b :: r ++ t) = f i ++ c :: f t := fun t => by
      rw [hic, List.append_assoc, List.singleton_append, h.split i c t hc]
    have hmid : f (b :: r) = f i ++ [c] := by
      have := hback []
      rwa [List.append_nil, h.nil] at this
    have hm : Tidy sep (f (b :: r)) := by
      refine ⟨fun x hx => ?_, fun x hx => ?_⟩
      · have := hfront []
        rw [List.append_nil] at this
        rw [this] at hx
        cases hx
        exact hb
      · rw [hmid, List.getLast?_concat] at hx
        cases hx
        exact hc
    refine ⟨hm, ?_⟩
    have hall : f (d ++ (b :: r) ++ e) = f d ++ f (b :: r) ++ f e := by
      rw [List.append_assoc, List.cons_append, h.split d b (r ++ e) hb, ← hfront e, hback e, hmid]
      simp
    rw [hall, trim_seps (h.seps d hd) (h.seps e he), trim_tidy hm]

omit [DecidableEq α] in
theorem Collapses.mem {f : List α → List α} (h : Collapses sep f) (hb : b ≠ sep) (hs : b ∈ s) : b ∈ f s := by
  obtain ⟨x, y, rfl⟩ := List.append_of_mem hs
  rw [h.split x b y hb]
  simp

theorem mem_trim (hb : b ≠ sep) (hs : b ∈ s) : b ∈ trim sep s := by
  obtain ⟨-, d, e, hd, he, heq⟩ := exists_trim sep s
  rw [heq] at hs
  rcases List.mem_append.mp hs with hs | hs
  · rcases List.mem_append.mp hs with hs | hs
    · exact absurd (hd b hs) hb
    · exact hs
  · exact absurd (he b hs) hb

/-! ## Adjacent separators -/

theorem head?_pairs (sep : α) (s : List α) : (pairs sep s).head? = s.head? := by
  cases s with
  | nil => rfl
  | cons a s => cases s with
    | nil => rfl
    | cons b s =>
      rw [pairs]
      split
      · rename_i hab
        rw [hab.1]
        rfl
      · rfl

theorem head?_squeeze (sep : α) (s : List α) : (squeeze sep s).head? = s.head? := by
  induction s using squeeze.induct sep with
  | case1 a b s hab ih =>
    rw [squeeze, if_pos hab, ih, hab.1, hab.2]
    rfl
  | case2 a b s hab ih =>
    rw [squeeze, if_neg hab]
    rfl
  | case3 s hs => cases s with
    | nil => rfl
    | cons a s => cases s with
      | nil => rfl
      | cons b s => exact absurd rfl (hs a b s)

theorem two_infix_cons {α : Type*} {c a : α} {s : List α} :
    [c, c] <:+: a :: s ↔ (a = c ∧ s.head? = some c) ∨ [c, c] <:+: s := by
  rw [List.infix_cons_iff, List.cons_prefix_cons, List.singleton_prefix_iff_head?_eq_some, eq_comm]

theorem three_infix_cons {α : Type*} {c a : α} {s : List α} :
    [c, c, c] <:+: a :: s ↔ (a = c ∧ [c, c] <+: s) ∨ [c, c, c] <:+: s := by
  rw [List.infix_cons_iff, List.cons_prefix_cons, eq_comm]

theorem two_prefix_cons {α : Type*} {c a : α} {s : List α} : [c, c] <+: a :: s ↔ a = c ∧ s.head? = some c := by
  rw [List.cons_prefix_cons, List.singleton_prefix_iff_head?_eq_some, eq_comm]

/-- Two separators come out side by side where three were. -/
theorem pairs_infix_iff (sep : α) (s : List α) : [sep, sep] <:+: pairs sep s ↔ [sep, sep, sep] <:+: s := by
  induction s using pairs.induct sep with
  | case1 a b s hab ih =>
    obtain ⟨rfl, rfl⟩ := hab
    have hprefix : [b, b] <+: s → s.head? = some b := fun h => by
      obtain ⟨t, rfl⟩ := h
      rfl
    rw [pairs, if_pos ⟨rfl, rfl⟩, two_infix_cons, ih, head?_pairs, three_infix_cons, three_infix_cons,
      two_prefix_cons]
    tauto
  | case2 a b s hab ih =>
    have hno : ¬ (a = sep ∧ (b :: s).head? = some sep) := fun h => hab ⟨h.1, Option.some.inj h.2⟩
    have hno' : ¬ (a = sep ∧ [sep, sep] <+: b :: s) := fun h => hab ⟨h.1, (two_prefix_cons.mp h.2).1⟩
    rw [pairs, if_neg hab, two_infix_cons, ih, head?_pairs, or_iff_right hno, three_infix_cons (a := a),
      or_iff_right hno']
  | case3 s hs => cases s with
    | nil => exact iff_of_false (fun h => by cases List.infix_nil.mp h) fun h => by cases List.infix_nil.mp h
    | cons a s => cases s with
      | nil =>
        refine iff_of_false (fun h => ?_) fun h => ?_
        · have : 2 ≤ 1 := h.length_le
          omega
        · have : 3 ≤ 1 := h.length_le
          omega
      | cons b s => exact absurd rfl (hs a b s)

/-- A text without adjacent separators, and no other, stays as it is. -/
theorem pairs_eq_self_iff (sep : α) (s : List α) : pairs sep s = s ↔ ¬ [sep, sep] <:+: s := by
  constructor
  · intro h hin
    have hlen : ∀ s : List α, (pairs sep s).length ≤ s.length := by
      intro s
      induction s using pairs.induct sep with
      | case1 a b s hab ih =>
        rw [pairs, if_pos hab, List.length_cons, List.length_cons, List.length_cons]
        omega
      | case2 a b s hab ih =>
        rw [pairs, if_neg hab, List.length_cons, List.length_cons]
        omega
      | case3 s hs => cases s with
        | nil => exact Nat.le_refl _
        | cons a s => cases s with
          | nil => exact Nat.le_refl _
          | cons b s => exact absurd rfl (hs a b s)
    induction s using pairs.induct sep with
    | case1 a b s hab ih =>
      rw [pairs, if_pos hab] at h
      have := congrArg List.length h
      have := hlen s
      simp only [List.length_cons] at *
      omega
    | case2 a b s hab ih =>
      rw [pairs, if_neg hab] at h
      rcases two_infix_cons.mp hin with ⟨ha, hb⟩ | hin
      · exact hab ⟨ha, Option.some.inj hb⟩
      · exact ih (List.cons.inj h).2 hin
    | case3 s hs => cases s with
      | nil => cases List.infix_nil.mp hin
      | cons a s => cases s with
        | nil =>
          have : 2 ≤ 1 := hin.length_le
          omega
        | cons b s => exact absurd rfl (hs a b s)
  · intro h
    induction s using pairs.induct sep with
    | case1 a b s hab ih =>
      exact absurd (two_infix_cons (s := b :: s).mpr (Or.inl ⟨hab.1, congrArg some hab.2⟩)) h
    | case2 a b s hab ih =>
      rw [pairs, if_neg hab, ih fun hin => h (two_infix_cons.mpr (Or.inr hin))]
    | case3 s hs => cases s with
      | nil => rfl
      | cons a s => cases s with
        | nil => rfl
        | cons b s => exact absurd rfl (hs a b s)

/-- Without three adjacent separators, one pass over the pairs leaves one of each run. -/
theorem pairs_eq_squeeze {s : List α} (h : ¬ [sep, sep, sep] <:+: s) : pairs sep s = squeeze sep s := by
  induction s using pairs.induct sep with
  | case1 a b s hab ih =>
    obtain ⟨rfl, rfl⟩ := hab
    have hs : ∀ c ∈ s.head?, c ≠ b := by
      rintro c hc rfl
      exact h (three_infix_cons.mpr (Or.inl ⟨rfl, two_prefix_cons.mpr ⟨rfl, hc⟩⟩))
    have hsq : squeeze b (b :: s) = b :: squeeze b s := by
      cases s with
      | nil => rfl
      | cons c s => rw [squeeze, if_neg fun h' => hs c rfl h'.2]
    rw [pairs, if_pos ⟨rfl, rfl⟩, squeeze, if_pos ⟨rfl, rfl⟩, hsq, ih fun hin => h ?_]
    exact three_infix_cons.mpr (Or.inr (three_infix_cons.mpr (Or.inr hin)))
  | case2 a b s hab ih =>
    rw [pairs, if_neg hab, squeeze, if_neg hab, ih fun hin => h (three_infix_cons.mpr (Or.inr hin))]
  | case3 s hs => cases s with
    | nil => rfl
    | cons a s => cases s with
      | nil => rfl
      | cons b s => exact absurd rfl (hs a b s)

theorem squeeze_noAdjacent (sep : α) (s : List α) : ¬ [sep, sep] <:+: squeeze sep s := by
  induction s using squeeze.induct sep with
  | case1 a b s hab ih =>
    rw [squeeze, if_pos hab]
    exact ih
  | case2 a b s hab ih =>
    rw [squeeze, if_neg hab, two_infix_cons, head?_squeeze]
    exact fun h => h.elim (fun h' => hab ⟨h'.1, Option.some.inj h'.2⟩) ih
  | case3 s hs => cases s with
    | nil => exact fun h => by cases List.infix_nil.mp h
    | cons a s => cases s with
      | nil =>
        intro h
        have : 2 ≤ 1 := h.length_le
        omega
      | cons b s => exact absurd rfl (hs a b s)

/-! ## Lines -/

theorem rdropWhile_append_mem (hb : b ≠ sep) (ht : b ∈ t) (s : List α) :
    (s ++ t).rdropWhile (· = sep) = s ++ t.rdropWhile (· = sep) := by
  obtain ⟨x, y, rfl⟩ := List.append_of_mem ht
  induction y using List.reverseRecOn with
  | nil => rw [← List.append_assoc, List.rdropWhile_concat_neg _ _ _ (by simpa using hb),
      List.rdropWhile_concat_neg _ _ _ (by simpa using hb), List.append_assoc]
  | append_singleton y c ih =>
    have hassoc : x ++ b :: (y ++ [c]) = x ++ b :: y ++ [c] := by simp
    rw [hassoc, ← List.append_assoc]
    by_cases hc : c = sep
    · rw [List.rdropWhile_concat_pos _ _ _ (by simpa using hc),
        List.rdropWhile_concat_pos _ _ _ (by simpa using hc), ih (by simp)]
    · rw [List.rdropWhile_concat_neg _ _ _ (by simpa using hc),
        List.rdropWhile_concat_neg _ _ _ (by simpa using hc)]
      simp

omit [DecidableEq α] in
theorem intercalate_append {ls ms : List (List α)} (hl : ls ≠ []) (hm : ms ≠ []) :
    [sep].intercalate (ls ++ ms) = [sep].intercalate ls ++ sep :: [sep].intercalate ms := by
  induction ls with
  | nil => exact absurd rfl hl
  | cons l ls ih =>
    by_cases hls : ls = []
    · rw [hls, List.intercalate_singleton, List.singleton_append, List.intercalate_cons_of_ne_nil hm]
      simp
    · rw [List.cons_append, List.intercalate_cons_of_ne_nil (by simp [hls]),
        List.intercalate_cons_of_ne_nil hls, ih hls]
      simp

omit [DecidableEq α] in
theorem mem_intercalate (hb : b ≠ sep) {ls : List (List α)} : b ∈ [sep].intercalate ls ↔ ∃ l ∈ ls, b ∈ l := by
  induction ls with
  | nil => simp
  | cons l ls ih =>
    by_cases hls : ls = []
    · rw [hls, List.intercalate_singleton]
      simp
    · rw [List.intercalate_cons_of_ne_nil hls, List.append_assoc, List.singleton_append,
        List.mem_append, List.mem_cons, ih, or_iff_right hb]
      simp

theorem sep_notMem_splitOn {l : List α} (hl : l ∈ s.splitOn sep) : sep ∉ l := by
  induction hn : s.length using Nat.strong_induction_on generalizing s with
  | _ n ih =>
    by_cases hs : sep ∈ s
    · obtain ⟨before, after, rfl, hbefore⟩ := List.eq_append_cons_of_mem hs
      rw [List.splitOn_append_cons_self_of_not_mem hbefore] at hl
      rcases List.mem_cons.mp hl with rfl | hl
      · exact hbefore
      · exact ih after.length (by rw [← hn]; simp; omega) hl rfl
    · rw [List.splitOn_eq_singleton hs, List.mem_singleton] at hl
      rwa [hl]

theorem mem_splitOn_iff (hb : b ≠ sep) : (∃ l ∈ s.splitOn sep, b ∈ l) ↔ b ∈ s := by
  rw [← mem_intercalate hb, List.intercalate_splitOn]

/-! ## Texts of words -/

def Word (sep : α) (u : List α) : Prop := u = [sep] ∨ u ≠ [] ∧ sep ∉ u

theorem pairs_word {u : List α} (h : sep ∉ u) (s : List α) : pairs sep (u ++ s) = u ++ pairs sep s := by
  induction u with
  | nil => rfl
  | cons a u ih =>
    rw [List.mem_cons, not_or] at h
    rw [List.cons_append, pairs_cons_ne (Ne.symm h.1), ih h.2, List.cons_append]

theorem pairs_flatten {us : List (List α)} (h : ∀ u ∈ us, Word sep u) :
    pairs sep us.flatten = (pairs [sep] us).flatten := by
  induction us using pairs.induct [sep] with
  | case1 u v us huv ih =>
    obtain ⟨rfl, rfl⟩ := huv
    rw [pairs, if_pos ⟨rfl, rfl⟩, List.flatten_cons, List.flatten_cons, List.flatten_cons,
      ← ih fun w hw => h w (List.mem_cons_of_mem _ (List.mem_cons_of_mem _ hw))]
    exact if_pos ⟨rfl, rfl⟩
  | case2 u v us huv ih =>
    have ih := ih fun w hw => h w (List.mem_cons_of_mem _ hw)
    have hright : (pairs [sep] (u :: v :: us)).flatten = u ++ pairs sep (v :: us).flatten := by
      rw [pairs, if_neg huv, List.flatten_cons, ih]
    rw [hright, List.flatten_cons]
    rcases h u (by simp) with rfl | ⟨-, hu⟩
    · obtain ⟨hne, hv⟩ := (h v (by simp)).resolve_left fun hv => huv ⟨rfl, hv⟩
      obtain ⟨b, v, rfl⟩ := List.exists_cons_of_ne_nil hne
      have hb : b ≠ sep := fun hb => hv (hb ▸ List.mem_cons_self)
      exact if_neg fun h' => hb h'.2
    · exact pairs_word hu _
  | case3 us hus => cases us with
    | nil => rfl
    | cons u us => cases us with
      | nil =>
        rcases h u (by simp) with rfl | ⟨-, hu⟩
        · rfl
        · have := pairs_word hu []
          rw [List.append_nil] at this
          simpa [pairs] using this
      | cons v us => exact absurd rfl (hus u v us)

theorem dropWhile_flatMap {α β : Type*} {p : β → Bool} {q : α → Bool} {f : α → List β} {l : List α}
    (hdrop : ∀ r ∈ l, q r = true → ∀ x ∈ f r, p x = true)
    (hstop : ∀ r ∈ l, q r = false → ∃ x xs, f r = x :: xs ∧ p x = false) :
    (l.flatMap f).dropWhile p = (l.dropWhile q).flatMap f := by
  induction l with
  | nil => rfl
  | cons r l ih =>
    rw [List.forall_mem_cons] at hdrop hstop
    cases hr : q r with
    | true =>
      rw [List.flatMap_cons, List.dropWhile_append_of_pos (hdrop.1 hr), ih hdrop.2 hstop.2,
        List.dropWhile_cons_of_pos hr]
    | false =>
      obtain ⟨x, xs, hf, hx⟩ := hstop.1 hr
      rw [List.dropWhile_cons_of_neg (by simp [hr]), List.flatMap_cons, hf, List.cons_append,
        List.dropWhile_cons_of_neg (by simp [hx])]

theorem dropWhile_flatten {us : List (List α)} (h : ∀ u ∈ us, Word sep u) :
    us.flatten.dropWhile (· = sep) = (us.dropWhile (· = [sep])).flatten := by
  rw [← List.flatMap_id, ← List.flatMap_id]
  refine dropWhile_flatMap (fun u _ hu b hb => ?_) fun u hmem hu => ?_
  · rw [of_decide_eq_true hu] at hb
    exact decide_eq_true (List.mem_singleton.mp hb)
  · obtain ⟨hne, hsep⟩ := (h u hmem).resolve_left (of_decide_eq_false hu)
    obtain ⟨b, u, rfl⟩ := List.exists_cons_of_ne_nil hne
    exact ⟨b, u, rfl, decide_eq_false fun hb => hsep (hb ▸ List.mem_cons_self)⟩

theorem rdropWhile_flatten {us : List (List α)} (h : ∀ u ∈ us, Word sep u) :
    us.flatten.rdropWhile (· = sep) = (us.rdropWhile (· = [sep])).flatten := by
  induction us using List.reverseRecOn with
  | nil => rfl
  | append_singleton us u ih =>
    rw [List.flatten_append, List.flatten_singleton]
    by_cases hu : u = [sep]
    · rw [hu, rdropWhile_seps (by simp), ih fun v hv => h v (List.mem_append_left _ hv),
        List.rdropWhile_concat_pos _ _ _ (by simp)]
    · obtain ⟨hne, hsep⟩ := (h u (by simp)).resolve_left hu
      rw [List.rdropWhile_concat_neg _ _ _ (by simpa using hu), List.flatten_append, List.flatten_singleton]
      refine rdropWhile_tidy fun b hb hbs => hsep ?_
      rw [List.getLast?_append_of_ne_nil _ hne] at hb
      exact hbs ▸ List.mem_of_getLast? hb

theorem trim_flatten {us : List (List α)} (h : ∀ u ∈ us, Word sep u) :
    trim sep us.flatten = (trim [sep] us).flatten := by
  unfold trim
  rw [dropWhile_flatten h, rdropWhile_flatten fun u hu => h u ((List.dropWhile_sublist _).subset hu)]

end Separators
