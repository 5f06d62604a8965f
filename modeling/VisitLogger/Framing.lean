import Mathlib.Data.List.Basic
import Mathlib.Data.List.Infix
import Mathlib.Tactic.Common

/-!
# Terminated lines in a stream

A stream holds lines, each closed by a terminator `nl`, and possibly an open
tail after the last terminator. `unlines` writes closed lines, `closed` and
`tail` read them back. Reading is local: the lines of a stream that grows, or
that arrives in chunks of any size, are the lines already closed followed by
those the tail and the new bytes close.
-/

namespace Framing

variable {α : Type*} (nl : α)

def unlines (ls : List (List α)) : List α := ls.flatMap (· ++ [nl])

@[simp] theorem unlines_nil : unlines nl [] = [] := rfl

@[simp] theorem unlines_cons (l : List α) (ls : List (List α)) :
    unlines nl (l :: ls) = l ++ nl :: unlines nl ls := by simp [unlines]

@[simp] theorem unlines_append (ls ms : List (List α)) :
    unlines nl (ls ++ ms) = unlines nl ls ++ unlines nl ms := by simp [unlines]

def consHead (b : α) : List (List α) × List α → List (List α) × List α
  | ([], t) => ([], b :: t)
  | (l :: ls, t) => ((b :: l) :: ls, t)

variable [DecidableEq α]

/-- The closed lines of a stream and its open tail. -/
def cut : List α → List (List α) × List α
  | [] => ([], [])
  | b :: s => if b = nl then ([] :: (cut s).1, (cut s).2) else consHead b (cut s)

def closed (s : List α) : List (List α) := (cut nl s).1

def tail (s : List α) : List α := (cut nl s).2

@[simp] theorem closed_nil : closed nl [] = [] := rfl

@[simp] theorem tail_nil : tail nl [] = [] := rfl

/-! ## A stream is its closed lines and its tail -/

theorem unlines_closed_tail (s : List α) : unlines nl (closed nl s) ++ tail nl s = s := by
  induction s with
  | nil => rfl
  | cons b s ih =>
    unfold closed tail at *
    by_cases hb : b = nl
    · simp [cut, hb, ih]
    · simp only [cut, hb, if_false]
      generalize cut nl s = r at *
      obtain ⟨_ | ⟨l, ls⟩, t⟩ := r <;> simpa [consHead] using ih

theorem nl_notMem_cut (s : List α) : (∀ l ∈ closed nl s, nl ∉ l) ∧ nl ∉ tail nl s := by
  induction s with
  | nil => simp
  | cons b s ih =>
    unfold closed tail at *
    by_cases hb : b = nl
    · simpa [cut, hb] using ih
    · simp only [cut, hb, if_false]
      generalize cut nl s = r at *
      obtain ⟨_ | ⟨l, ls⟩, t⟩ := r
      · simpa [consHead, Ne.symm hb] using ih
      · simpa [consHead, Ne.symm hb] using ih

theorem nl_notMem_closed {s l : List α} (h : l ∈ closed nl s) : nl ∉ l := (nl_notMem_cut nl s).1 l h

theorem nl_notMem_tail (s : List α) : nl ∉ tail nl s := (nl_notMem_cut nl s).2

theorem mem_of_closed {s l : List α} (h : l ∈ closed nl s) {b : α} (hb : b ∈ l) : b ∈ s := by
  rw [← unlines_closed_tail nl s]
  exact List.mem_append_left _ (List.mem_flatMap.mpr ⟨l, h, List.mem_append_left _ hb⟩)

theorem mem_of_tail {s : List α} {b : α} (hb : b ∈ tail nl s) : b ∈ s := by
  rw [← unlines_closed_tail nl s]
  exact List.mem_append_right _ hb

/-! ## Streams that grow -/

theorem cut_open {t : List α} (ht : nl ∉ t) (s : List α) :
    cut nl (t ++ s) = match cut nl s with
      | ([], u) => ([], t ++ u)
      | (l :: ls, u) => ((t ++ l) :: ls, u) := by
  induction t with
  | nil => rcases h : cut nl s with ⟨_ | ⟨l, ls⟩, u⟩ <;> simp [h]
  | cons b t ih =>
    have hb : b ≠ nl := fun h => ht (by simp [h])
    rw [List.cons_append, cut, if_neg hb, ih fun h => ht (List.mem_cons_of_mem _ h)]
    generalize cut nl s = r
    obtain ⟨_ | ⟨l, ls⟩, u⟩ := r <;> simp [consHead]

theorem closed_of_open {t : List α} (ht : nl ∉ t) : closed nl t = [] := by
  have := cut_open nl ht []
  simp only [List.append_nil, cut] at this
  simp [closed, this]

theorem tail_of_open {t : List α} (ht : nl ∉ t) : tail nl t = t := by
  have := cut_open nl ht []
  simp only [List.append_nil, cut] at this
  simp [tail, this]

theorem closed_line {l : List α} (hl : nl ∉ l) (s : List α) : closed nl (l ++ nl :: s) = l :: closed nl s := by
  simp [closed, cut_open nl hl, cut]

theorem tail_line {l : List α} (hl : nl ∉ l) (s : List α) : tail nl (l ++ nl :: s) = tail nl s := by
  simp [tail, cut_open nl hl, cut]

theorem closed_unlines_append {ls : List (List α)} (h : ∀ l ∈ ls, nl ∉ l) (s : List α) :
    closed nl (unlines nl ls ++ s) = ls ++ closed nl s := by
  induction ls with
  | nil => rfl
  | cons l ls ih =>
    rw [unlines_cons, List.append_assoc, List.cons_append, closed_line nl (h l (by simp)),
      ih fun m hm => h m (List.mem_cons_of_mem _ hm), List.cons_append]

theorem tail_unlines_append {ls : List (List α)} (h : ∀ l ∈ ls, nl ∉ l) (s : List α) :
    tail nl (unlines nl ls ++ s) = tail nl s := by
  induction ls with
  | nil => rfl
  | cons l ls ih =>
    rw [unlines_cons, List.append_assoc, List.cons_append, tail_line nl (h l (by simp)),
      ih fun m hm => h m (List.mem_cons_of_mem _ hm)]

theorem closed_unlines {ls : List (List α)} (h : ∀ l ∈ ls, nl ∉ l) : closed nl (unlines nl ls) = ls := by
  simpa using closed_unlines_append nl h []

theorem tail_unlines {ls : List (List α)} (h : ∀ l ∈ ls, nl ∉ l) : tail nl (unlines nl ls) = [] := by
  simpa using tail_unlines_append nl h []

/-- **Growing a stream.** Bytes already closed stay as they are. -/
theorem closed_append (s t : List α) : closed nl (s ++ t) = closed nl s ++ closed nl (tail nl s ++ t) := by
  conv_lhs => rw [← unlines_closed_tail nl s, List.append_assoc]
  exact closed_unlines_append nl (fun l hl => nl_notMem_closed nl hl) _

theorem tail_append (s t : List α) : tail nl (s ++ t) = tail nl (tail nl s ++ t) := by
  conv_lhs => rw [← unlines_closed_tail nl s, List.append_assoc]
  exact tail_unlines_append nl (fun l hl => nl_notMem_closed nl hl) _

theorem closed_prefix {s t : List α} (h : s <+: t) : closed nl s <+: closed nl t := by
  obtain ⟨u, rfl⟩ := h
  rw [closed_append]; exact List.prefix_append _ _

theorem length_closed (s : List α) : (closed nl s).length = s.count nl := by
  induction s with
  | nil => rfl
  | cons b s ih =>
    unfold closed at *
    by_cases hb : b = nl
    · simp [cut, hb, ih]
    · rw [cut, if_neg hb, List.count_cons_of_ne (by simpa using hb), ← ih]
      generalize cut nl s = r
      obtain ⟨_ | ⟨l, ls⟩, t⟩ := r <;> simp [consHead]

theorem unlines_of_tail_nil {s : List α} (h : tail nl s = []) : unlines nl (closed nl s) = s := by
  simpa [h] using unlines_closed_tail nl s

theorem closed_append_unlines {s : List α} (hs : tail nl s = []) {ls : List (List α)} (h : ∀ l ∈ ls, nl ∉ l) :
    closed nl (s ++ unlines nl ls) = closed nl s ++ ls := by
  rw [closed_append, hs, List.nil_append, closed_unlines nl h]

theorem count_unlines_ge (ls : List (List α)) : ls.length ≤ (unlines nl ls).count nl := by
  induction ls with
  | nil => simp
  | cons l ls ih => simp only [unlines_cons, List.count_append, List.count_cons_self, List.length_cons]; omega

theorem count_unlines_eq_iff (ls : List (List α)) :
    (unlines nl ls).count nl = ls.length ↔ ∀ l ∈ ls, nl ∉ l := by
  induction ls with
  | nil => simp
  | cons l ls ih =>
    have hge := count_unlines_ge nl ls
    rw [unlines_cons, List.count_append, List.count_cons_self, List.length_cons, List.forall_mem_cons, ← ih,
      ← List.count_eq_zero]
    omega

theorem tail_prefix_line {s : List α} {ls : List (List α)} (h : ∀ l ∈ ls, nl ∉ l) (hs : s <+: unlines nl ls)
    (ht : tail nl s ≠ []) : ∃ l, ls[(closed nl s).length]? = some l ∧ tail nl s <+: l := by
  obtain ⟨ms, rfl⟩ : closed nl s <+: ls := closed_unlines nl h ▸ closed_prefix nl hs
  rw [unlines_append] at hs
  nth_rewrite 1 [← unlines_closed_tail nl s] at hs
  replace hs := (List.prefix_append_right_inj _).mp hs
  cases ms with
  | nil => exact absurd (List.prefix_nil.mp hs) ht
  | cons m ms =>
    refine ⟨m, by simp, ?_⟩
    rw [unlines_cons] at hs
    rcases Nat.lt_or_ge m.length (tail nl s).length with hlt | hge
    · -- a longer tail would hold the terminator of `m`
      have hm : m ++ [nl] <+: tail nl s :=
        List.prefix_of_prefix_length_le ⟨unlines nl ms, by simp⟩ hs (by simp; omega)
      exact absurd (hm.subset (by simp)) (nl_notMem_tail nl s)
    · exact List.prefix_of_prefix_length_le hs ⟨nl :: unlines nl ms, rfl⟩ hge

/-! ## All the lines of a text -/

def pieces (s : List α) : List (List α) := closed nl s ++ if tail nl s = [] then [] else [tail nl s]

theorem tail_eq_nil_iff (s : List α) : tail nl s = [] ↔ ∀ b ∈ s.getLast?, b = nl := by
  rcases List.eq_nil_or_concat s with rfl | ⟨a, b, rfl⟩
  · exact iff_of_true rfl nofun
  · rw [List.concat_eq_append, List.getLast?_concat, tail_append]
    by_cases hb : b = nl
    · subst hb
      exact iff_of_true (tail_line b (nl_notMem_tail b a) []) fun c hc => (Option.some.inj hc).symm
    · have hopen : nl ∉ tail nl a ++ [b] := by
        rw [List.mem_append, not_or, List.mem_singleton]
        exact ⟨nl_notMem_tail nl a, fun h => hb h.symm⟩
      rw [tail_of_open nl hopen]
      exact iff_of_false (by simp) fun h => hb (h b rfl)

theorem pieces_append {s : List α} (h : tail nl s = []) (t : List α) :
    pieces nl (s ++ t) = pieces nl s ++ pieces nl t := by
  rw [pieces, closed_append, tail_append, h]
  simp [pieces, h]

theorem length_pieces (s : List α) : (pieces nl s).length = s.count nl + if tail nl s = [] then 0 else 1 := by
  rw [pieces, List.length_append, length_closed]
  split <;> rfl

/-- An open tail runs into what is appended to it. -/
theorem length_pieces_open {s t : List α} (hs : tail nl s ≠ []) (ht : t ≠ []) :
    (pieces nl (s ++ t)).length + 1 = (pieces nl s).length + (pieces nl t).length := by
  have htail : tail nl (s ++ t) = [] ↔ tail nl t = [] := by
    rw [tail_eq_nil_iff, tail_eq_nil_iff, List.getLast?_append_of_ne_nil s ht]
  simp only [length_pieces, List.count_append, htail, if_neg hs]
  omega

end Framing
