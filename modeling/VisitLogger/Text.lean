import Mathlib.Data.List.Lex
import Mathlib.Data.List.Sort
import Mathlib.Order.Basic
import Mathlib.Tactic.Common
import VisitLogger.Framing

/-!
# Text

Every component stores, sends and compares strings as UTF-8, so a text is a
list of bytes. Go's and SQLite's strings are byte strings already; the Python and
JavaScript code modelled here looks only at ASCII characters, and at decimal
digits through `\d`, which `unicodeDigit` decodes. Swift's `==`, `hasPrefix` and
`Set` go by canonical equivalence, which is equality where the texts are ASCII;
where others come to them the module takes the relation as a parameter or says
that it compares bytes. Byte order is code point order, so `<` on texts is the
order of `sort.Strings`, of `sorted` and of SQLite's BINARY collation.
-/

namespace VisitLogger

open Framing

abbrev Byte := UInt8

abbrev Text := List Byte

instance instLinearOrderUInt8 : LinearOrder UInt8 where
  le_refl := UInt8.le_refl
  le_trans _ _ _ := UInt8.le_trans
  lt_iff_le_not_ge a b := by simp only [UInt8.lt_iff_toNat_lt, UInt8.le_iff_toNat_le]; omega
  le_antisymm _ _ := UInt8.le_antisymm
  le_total := UInt8.le_total
  toDecidableLE := inferInstance
  toDecidableLT := inferInstance

/-- The instance under one name, for `∈` on texts. -/
instance instLawfulBEqText : LawfulBEq Text := inferInstance

def ascii (s : String) : Text := s.toList.map fun c => UInt8.ofNat c.toNat

def emDash : Text := [0xE2, 0x80, 0x94]

abbrev nl : Byte := 10
abbrev tab : Byte := 9
abbrev cr : Byte := 13
abbrev space : Byte := 32
abbrev slash : Byte := 47

/-! ## Splitting and sorting -/

def splitTabs (s : Text) : List Text := s.splitOn tab

def joinTabs (fields : List Text) : Text := [tab].intercalate fields

def tsvText {α : Type} (header : List Text) (fields : α → List Text) (rows : List α) : Text :=
  Framing.unlines nl (joinTabs header :: rows.map fun r => joinTabs (fields r))

/-- `sort.Strings`, and `sorted` on strings. -/
def sortStrings (l : List Text) : List Text := l.insertionSort (· ≤ ·)

theorem splitTabs_join {fields : List Text} (h : ∀ f ∈ fields, tab ∉ f) (hne : fields ≠ []) :
    splitTabs (joinTabs fields) = fields :=
  List.splitOn_intercalate tab h hne

theorem mem_joinTabs {b : Byte} : ∀ {fields : List Text}, b ∈ joinTabs fields → b = tab ∨ ∃ f ∈ fields, b ∈ f
  | [], h => by simp [joinTabs] at h
  | [f], h => Or.inr ⟨f, by simp, by simpa [joinTabs] using h⟩
  | f :: g :: fs, h => by
    rw [joinTabs, List.intercalate_cons_cons, ← joinTabs] at h
    simp only [List.mem_append, List.mem_singleton] at h
    rcases h with (h | h) | h
    · exact Or.inr ⟨f, by simp, h⟩
    · exact Or.inl h
    · rcases mem_joinTabs h with h | ⟨k, hk, hb⟩
      · exact Or.inl h
      · exact Or.inr ⟨k, List.mem_cons_of_mem _ hk, hb⟩

theorem mem_joinTabs_of_mem {b : Byte} {f : Text} (hb : b ∈ f) :
    ∀ {fields : List Text}, f ∈ fields → b ∈ joinTabs fields
  | [g], h => by
    rw [joinTabs, List.intercalate_singleton, ← List.mem_singleton.mp h]
    exact hb
  | g :: k :: fs, h => by
    rw [joinTabs, List.intercalate_cons_cons, ← joinTabs]
    rcases List.mem_cons.mp h with rfl | h
    · simp [hb]
    · exact List.mem_append_right _ (mem_joinTabs_of_mem hb h)

theorem sortStrings_perm (l : List Text) : (sortStrings l).Perm l := List.perm_insertionSort _ l

theorem sortStrings_sorted (l : List Text) : (sortStrings l).Pairwise (· ≤ ·) :=
  List.pairwise_insertionSort _ l

theorem mem_sortStrings {l : List Text} {t : Text} : t ∈ sortStrings l ↔ t ∈ l :=
  (sortStrings_perm l).mem_iff

theorem sortStrings_strict {l : List Text} (h : l.Nodup) : (sortStrings l).Pairwise (· < ·) :=
  ((sortStrings_sorted l).and ((sortStrings_perm l).nodup_iff.mpr h)).imp fun ⟨h₁, h₂⟩ => lt_of_le_of_ne h₁ h₂

/-! ## Fields and lines of a log -/

def Clean (t : Text) : Prop := tab ∉ t ∧ nl ∉ t ∧ cr ∉ t

instance (t : Text) : Decidable (Clean t) := inferInstanceAs (Decidable (_ ∧ _ ∧ _))

theorem joinTabs_line {fields : List Text} (h : ∀ f ∈ fields, Clean f) :
    nl ∉ joinTabs fields ∧ cr ∉ joinTabs fields := by
  constructor
  · intro hb
    rcases mem_joinTabs hb with hb | ⟨f, hf, hb⟩
    · exact absurd hb (by decide)
    · exact (h f hf).2.1 hb
  · intro hb
    rcases mem_joinTabs hb with hb | ⟨f, hf, hb⟩
    · exact absurd hb (by decide)
    · exact (h f hf).2.2 hb

/-- Universal newlines: Python's text mode reads `\r\n` and `\r` as `\n`. -/
def universalNewlines : Text → Text
  | [] => []
  | [b] => [if b = cr then nl else b]
  | b :: c :: t =>
    if b = cr then nl :: (if c = nl then universalNewlines t else universalNewlines (c :: t))
    else b :: universalNewlines (c :: t)

/-- `for raw in f`, each `raw` without its newline: the closed lines of a text
file, and the open tail if there is one. -/
def fileLines (content : Text) : List Text :=
  let s := universalNewlines content
  closed nl s ++ if tail nl s = [] then [] else [tail nl s]

theorem universalNewlines_of_noCr {s : Text} (h : cr ∉ s) : universalNewlines s = s := by
  fun_induction universalNewlines s with
  | case1 => rfl
  | case2 b => simp only [List.mem_singleton] at h; simp [Ne.symm h]
  | case3 => simp at h
  | case4 b c t hb ih => rw [ih fun hc => h (List.mem_cons_of_mem _ hc)]

theorem universalNewlines_prefix {a : Text} (h : cr ∉ a) (b : Text) :
    universalNewlines (a ++ b) = a ++ universalNewlines b := by
  induction a with
  | nil => rfl
  | cons x a ih =>
    rw [List.mem_cons, not_or] at h
    rw [List.cons_append, List.cons_append, ← ih h.2]
    cases a ++ b with
    | nil => simp [universalNewlines, Ne.symm h.1]
    | cons c t => simp [universalNewlines, Ne.symm h.1]

theorem mem_universalNewlines {a : Text} {b : Byte} (h : b ∈ universalNewlines a) : b = nl ∨ b ∈ a := by
  fun_induction universalNewlines a with
  | case1 => exact Or.inr h
  | case2 x =>
    rw [List.mem_singleton] at h
    split at h
    · exact Or.inl h
    · simp [h]
  | case3 c t ih₁ ih₂ =>
    rcases List.mem_cons.mp h with h | h
    · exact Or.inl h
    · split at h
      · rcases ih₁ h with h | h
        · exact Or.inl h
        · simp [h]
      · rcases ih₂ h with h | h
        · exact Or.inl h
        · exact Or.inr (List.mem_cons_of_mem _ h)
  | case4 x c t hx ih =>
    rcases List.mem_cons.mp h with h | h
    · simp [h]
    · rcases ih h with h | h
      · exact Or.inl h
      · exact Or.inr (List.mem_cons_of_mem _ h)

/-- A newline ends what is read before it. -/
theorem universalNewlines_append (a b : Text) :
    (∃ w, universalNewlines (a ++ [nl]) = w ++ [nl]) ∧
      universalNewlines (a ++ nl :: b) = universalNewlines (a ++ [nl]) ++ universalNewlines b := by
  have hcons : ∀ b : Text, universalNewlines (nl :: b) = nl :: universalNewlines b := by
    intro b
    cases b with
    | nil => rfl
    | cons c t => rw [universalNewlines, if_neg (by decide)]
  fun_induction universalNewlines a with
  | case1 => exact ⟨⟨[], rfl⟩, hcons b⟩
  | case2 x =>
    by_cases hx : x = cr
    · subst hx
      refine ⟨⟨[], rfl⟩, ?_⟩
      simp [universalNewlines]
    · refine ⟨⟨[x], by simp [universalNewlines, hx]⟩, ?_⟩
      simp [universalNewlines, hx, hcons]
  | case3 c t ih₁ ih₂ =>
    by_cases hc : c = nl
    · subst hc
      obtain ⟨⟨w, hw⟩, h⟩ := ih₁
      refine ⟨⟨nl :: w, by simp [universalNewlines, hw]⟩, ?_⟩
      simp [universalNewlines, h]
    · obtain ⟨⟨w, hw⟩, h⟩ := ih₂
      simp only [List.cons_append] at hw h
      refine ⟨⟨nl :: w, by simp [universalNewlines, hc, hw]⟩, ?_⟩
      simp [universalNewlines, hc, h]
  | case4 x c t hx ih =>
    obtain ⟨⟨w, hw⟩, h⟩ := ih
    simp only [List.cons_append] at hw h
    refine ⟨⟨x :: w, by simp [universalNewlines, hx, hw]⟩, ?_⟩
    simp [universalNewlines, hx, h]

theorem fileLines_append (a b : Text) : fileLines (a ++ nl :: b) = fileLines (a ++ [nl]) ++ fileLines b := by
  obtain ⟨⟨w, hw⟩, h⟩ := universalNewlines_append a b
  have ht : tail nl (w ++ [nl]) = [] := by
    rw [tail_append, tail_line nl (nl_notMem_tail nl w), tail_nil]
  unfold fileLines
  rw [h, hw]
  generalize w ++ [nl] = v at ht
  dsimp only
  rw [closed_append, tail_append, ht]
  simp

theorem fileLines_unlines {ls : List Text} (h : ∀ l ∈ ls, nl ∉ l ∧ cr ∉ l) :
    fileLines (unlines nl ls) = ls := by
  have hcr : cr ∉ unlines nl ls := by
    simp only [unlines, List.mem_flatMap, List.mem_append, List.mem_singleton, not_exists, not_and, not_or]
    exact fun l hl => ⟨(h l hl).2, by decide⟩
  have hnl : ∀ l ∈ ls, nl ∉ l := fun l hl => (h l hl).1
  rw [fileLines, universalNewlines_of_noCr hcr, closed_unlines nl hnl, tail_unlines nl hnl]
  simp

theorem fileLines_line {l : Text} (h : nl ∉ l ∧ cr ∉ l) : fileLines (l ++ [nl]) = [l] := by
  have hl : ∀ m ∈ [l], nl ∉ m ∧ cr ∉ m := by simpa using h
  simpa using fileLines_unlines hl

/-! ## Appending to a text that has been read -/

theorem cr_notMem_universalNewlines (s : Text) : cr ∉ universalNewlines s := by
  have hb : ∀ b : Byte, cr ≠ if b = cr then nl else b := by
    intro b
    split
    · decide
    · exact fun h => ‹¬b = cr› h.symm
  fun_induction universalNewlines s with
  | case1 => exact List.not_mem_nil
  | case2 b => exact fun h => hb b (List.mem_singleton.mp h)
  | case3 c t ih₁ ih₂ =>
    rw [List.mem_cons, not_or]
    refine ⟨by decide, ?_⟩
    split
    · exact ih₁
    · exact ih₂
  | case4 b c t hne ih =>
    rw [List.mem_cons, not_or]
    exact ⟨fun h => hne h.symm, ih⟩

theorem head_universalNewlines (s : Text) :
    (universalNewlines s).head? = s.head?.map fun b => if b = cr then nl else b := by
  fun_cases universalNewlines s with
  | case1 => rfl
  | case2 b => rfl
  | case3 c t => rfl
  | case4 b c t hne =>
    simp only [List.head?_cons, Option.map_some, if_neg hne]

theorem getLast_universalNewlines (s : Text) :
    (universalNewlines s).getLast? = s.getLast?.map fun b => if b = cr then nl else b := by
  fun_induction universalNewlines s with
  | case1 => rfl
  | case2 b => rfl
  | case3 c t ih₁ ih₂ =>
    simp only [List.getLast?_cons] at ih₂ ⊢
    by_cases hc : c = nl
    · rw [if_pos hc, ih₁, hc]
      cases t.getLast? <;> rfl
    · rw [if_neg hc, ih₂]
      rfl
  | case4 b c t hne ih =>
    simp only [List.getLast?_cons] at ih ⊢
    rw [ih]
    rfl

/-- Two texts are read apart, unless they make a CR LF. -/
theorem universalNewlines_apart {s t : Text} (h : s.getLast? ≠ some cr ∨ t.head? ≠ some nl) :
    universalNewlines (s ++ t) = universalNewlines s ++ universalNewlines t := by
  fun_induction universalNewlines s with
  | case1 => rfl
  | case2 b =>
    cases t with
    | nil => rfl
    | cons c t =>
      by_cases hb : b = cr
      · subst hb
        have hc : c ≠ nl := fun hc => h.elim (fun h => h rfl) fun h => h (by rw [hc]; rfl)
        simp [universalNewlines, hc]
      · simp [universalNewlines, hb]
  | case3 c u ih₁ ih₂ =>
    simp only [List.getLast?_cons] at h ih₂
    by_cases hc : c = nl
    · have hu : u.getLast? ≠ some cr ∨ t.head? ≠ some nl := h.imp_left fun h hu => h (by rw [hu]; rfl)
      simp [universalNewlines, hc, ih₁ hu]
    · have hih := ih₂ h
      rw [List.cons_append] at hih
      simp [universalNewlines, hc, hih]
  | case4 b c u hne ih =>
    simp only [List.getLast?_cons] at h ih
    have hih := ih h
    rw [List.cons_append] at hih
    simp [universalNewlines, hne, hih]

theorem universalNewlines_append_crlf {t : Text} (ht : cr ∉ t) (s : Text) (h : s.getLast? = some cr) :
    universalNewlines (s ++ nl :: t) = universalNewlines s ++ t := by
  have hread := universalNewlines_of_noCr ht
  fun_induction universalNewlines s with
  | case1 => cases h
  | case2 b =>
    obtain rfl : b = cr := Option.some.inj h
    simp [universalNewlines, hread]
  | case3 c u ih₁ ih₂ =>
    simp only [List.getLast?_cons] at h ih₂
    by_cases hc : c = nl
    · have hu : u.getLast? = some cr := by
        cases hl : u.getLast? with
        | none =>
          rw [hl, hc] at h
          exact absurd h (by decide)
        | some b =>
          rw [hl] at h
          exact h
      simp [universalNewlines, hc, ih₁ hu]
    · have hih := ih₂ h
      rw [List.cons_append] at hih
      simp [universalNewlines, hc, hih]
  | case4 b c u hne ih =>
    simp only [List.getLast?_cons] at h ih
    have hih := ih h
    rw [List.cons_append] at hih
    simp [universalNewlines, hne, hih]

/-! ## The lines of a text, and its end -/

theorem fileLines_eq (s : Text) : fileLines s = pieces nl (universalNewlines s) := rfl

theorem fileLines_universalNewlines (s : Text) : fileLines (universalNewlines s) = fileLines s := by
  rw [fileLines_eq, universalNewlines_of_noCr (cr_notMem_universalNewlines s), fileLines_eq]

theorem universalNewlines_eq_nil {s : Text} : universalNewlines s = [] ↔ s = [] := by
  rw [← List.head?_eq_none_iff, head_universalNewlines, Option.map_eq_none_iff, List.head?_eq_none_iff]

theorem fileLines_eq_nil {s : Text} : fileLines s = [] ↔ s = [] := by
  constructor
  · intro h
    rw [← universalNewlines_eq_nil, ← unlines_closed_tail nl (universalNewlines s)]
    obtain ⟨hc, ht⟩ := List.append_eq_nil_iff.mp h
    rw [hc, unlines_nil, List.nil_append]
    by_contra hne
    rw [if_neg hne] at ht
    cases ht
  · rintro rfl
    rfl

/-- The text has ended its last line. -/
theorem tail_universalNewlines (s : Text) :
    tail nl (universalNewlines s) = [] ↔ ∀ b ∈ s.getLast?, b = nl ∨ b = cr := by
  rw [tail_eq_nil_iff, getLast_universalNewlines]
  cases s.getLast? with
  | none => exact iff_of_true nofun nofun
  | some b =>
    simp only [Option.map_some, Option.mem_some_iff, forall_eq']
    by_cases hb : b = cr <;> simp [hb]

/-- Another text after one that has ended its last line. -/
theorem fileLines_append_closed {s : Text} (h : tail nl s = []) (t : Text) :
    fileLines (s ++ t) = fileLines s ++ fileLines t := by
  rcases List.eq_nil_or_concat s with rfl | ⟨a, b, rfl⟩
  · rfl
  · have hb : b = nl := (tail_eq_nil_iff nl _).mp h b (by simp)
    have hlines := fileLines_append a t
    rw [← hb] at hlines
    simpa using hlines

end VisitLogger
