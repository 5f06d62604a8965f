import Mathlib.Data.List.Nodup
import VisitLogger.ReadonlySql
import VisitLogger.Separators

/-!
# What the read-only check sees

The passes once more, on characters that carry their place in the text. What they
leave is what the check sees. It counts two statements where it sees a semicolon and
something on either side of it (`two_le_statementCount`).
-/

namespace VisitLogger

namespace McpServer

open SqliteReading (Piece quote semi statements)

/-! ## The passes with places -/

/-- A character and its place. The spaces that the passes put in have none. -/
abbrev Mark := Char × Option Nat

def blank : Mark := (' ', none)

def markLineComment : Bool → List Mark → List Mark
  | _, [] => []
  | true, c :: s => if c.1 = '\n' then c :: markLineComment false s else markLineComment true s
  | false, c :: s =>
    if c.1 = '-' ∧ (s.map Prod.fst).head? = some '-' then markLineComment true s else c :: markLineComment false s

def markBlockComment : Bool → List Mark → List Mark
  | _, [] => []
  | false, ('/', i) :: ('*', j) :: s =>
    if ['*', '/'] <:+: s.map Prod.fst then blank :: markBlockComment true s else ('/', i) :: ('*', j) :: s
  | false, c :: s => c :: markBlockComment false s
  | true, ('*', _) :: ('/', _) :: s => markBlockComment false s
  | true, _ :: s => markBlockComment true s

def markMask : Nat → List Mark → List Mark
  | _, [] => []
  | n + 1, _ :: s => blank :: markMask n s
  | 0, c :: s => if c.1 = quote then
      match literalEnd (s.map Prod.fst) with
      | some n => blank :: markMask n s
      | none => c :: markMask 0 s
    else c :: markMask 0 s

def marks (sql : List Char) : List Mark := sql.zipIdx.map fun c => (c.1, some c.2)

def shown (sql : List Char) : List Mark :=
  markMask 0 (markBlockComment false (markLineComment false (marks sql)))

/-! ## They are the passes of the check -/

theorem map_markLineComment (b : Bool) (s : List Mark) :
    (markLineComment b s).map Prod.fst = subLineComment b (s.map Prod.fst) := by
  induction s generalizing b with
  | nil => rfl
  | cons c s ih =>
    cases b with
    | true =>
      rw [markLineComment, List.map_cons, subLineComment]
      split
      · rw [List.map_cons, ih]
      · exact ih true
    | false =>
      rw [markLineComment, List.map_cons, subLineComment]
      split
      · exact ih true
      · rw [List.map_cons, ih]

theorem map_markBlockComment (b : Bool) (s : List Mark) :
    (markBlockComment b s).map Prod.fst = subBlockComment b (s.map Prod.fst) := by
  induction b, s using markBlockComment.induct with
  | case1 b => cases b <;> rfl
  | case2 i j s hclose ih => simp [markBlockComment, subBlockComment, hclose, ih, blank]
  | case3 i j s hopen => simp [markBlockComment, subBlockComment, hopen]
  | case4 c s hno ih =>
    obtain ⟨c, i⟩ := c
    rw [markBlockComment, List.map_cons, List.map_cons, subBlockComment, ih]
    · rintro t rfl ht
      cases s with
      | nil => cases ht
      | cons d s =>
        obtain ⟨d, j⟩ := d
        cases ht
        exact hno i j s rfl rfl
    · exact hno
  | case5 i j s ih => simpa [markBlockComment, subBlockComment] using ih
  | case6 c s hno ih =>
    obtain ⟨c, i⟩ := c
    rw [markBlockComment, List.map_cons, subBlockComment, ih]
    · rintro t rfl ht
      cases s with
      | nil => cases ht
      | cons d s =>
        obtain ⟨d, j⟩ := d
        cases ht
        exact hno i j s rfl rfl
    · exact hno

theorem map_markMask (n : Nat) (s : List Mark) : (markMask n s).map Prod.fst = mask n (s.map Prod.fst) := by
  induction s generalizing n with
  | nil => cases n <;> rfl
  | cons c s ih =>
    cases n with
    | succ n => rw [markMask, List.map_cons, List.map_cons, mask, ih, blank]
    | zero =>
      rw [markMask, List.map_cons, mask]
      split
      · cases literalEnd (s.map Prod.fst) with
        | some n => simp only [List.map_cons, ih, blank]
        | none => simp only [List.map_cons, ih]
      · rw [List.map_cons, ih]

theorem map_shown (sql : List Char) : (shown sql).map Prod.fst = mask 0 (stripComments sql) := by
  have hmarks : (marks sql).map Prod.fst = sql := by simp [marks, Function.comp_def]
  rw [shown, map_markMask, map_markBlockComment, map_markLineComment, hmarks, stripComments]

/-! ## Counting -/

def nonblankParts (s : List Char) : Nat := ((s.splitOn ';').filter fun p => !isBlank p).length

theorem statementCount_eq (sql : List Char) : statementCount sql = nonblankParts (mask 0 sql) := by
  rw [statementCount, nonblankParts]
  split
  · rename_i h
    obtain ⟨l, p, hparts⟩ := List.eq_nil_or_concat ((mask 0 sql).splitOn ';') |>.resolve_left
      (List.splitOn_ne_nil _ _)
    rw [List.concat_eq_append] at hparts
    rw [hparts, List.getLast?_concat, Option.map_some, Option.getD_some] at h
    rw [hparts, List.dropLast_concat, List.filter_append, List.filter_singleton, h]
    simp
  · rfl

theorem nonblankParts_append (s t : List Char) :
    nonblankParts (s ++ ';' :: t) = nonblankParts s + nonblankParts t := by
  rw [nonblankParts, List.splitOn_append_cons_self, List.filter_append, List.length_append]
  rfl

theorem nonblankParts_pos {s : List Char} {c : Char} (hc : c ∈ s) (hspace : isSpace c = false)
    (hne : c ≠ ';') : 0 < nonblankParts s := by
  obtain ⟨l, hl, hcl⟩ := (Separators.mem_splitOn_iff hne).mpr hc
  refine List.length_pos_of_mem (List.mem_filter.mpr ⟨hl, ?_⟩)
  rw [Bool.not_eq_true', isBlank, List.all_eq_false]
  exact ⟨c, hcl, by simp [hspace]⟩

/-! ## Places -/

def placed (c : Mark) : Bool := c.2.isSome

theorem markLineComment_sublist (b : Bool) (s : List Mark) : (markLineComment b s).Sublist s := by
  induction s generalizing b with
  | nil => cases b <;> exact List.Sublist.refl _
  | cons c s ih =>
    cases b with
    | true =>
      rw [markLineComment]
      split
      · exact (ih false).cons_cons c
      · exact (ih true).cons c
    | false =>
      rw [markLineComment]
      split
      · exact (ih true).cons c
      · exact (ih false).cons_cons c

theorem placed_markBlockComment (b : Bool) (s : List Mark) :
    ((markBlockComment b s).filter placed).Sublist (s.filter placed) := by
  induction b, s using markBlockComment.induct with
  | case1 b => cases b <;> exact List.Sublist.refl _
  | case2 i j s hclose ih =>
    rw [markBlockComment, if_pos hclose, List.filter_cons_of_neg (by simp [blank, placed])]
    exact ih.trans (((List.sublist_cons_self _ s).trans (List.sublist_cons_self _ _)).filter placed)
  | case3 i j s hopen =>
    rw [markBlockComment, if_neg hopen]
  | case4 c s hno ih =>
    rw [markBlockComment]
    · by_cases hc : placed c
      · rw [List.filter_cons_of_pos hc, List.filter_cons_of_pos hc]
        exact ih.cons_cons c
      · rw [List.filter_cons_of_neg hc, List.filter_cons_of_neg hc]
        exact ih
    · exact hno
  | case5 i j s ih =>
    rw [markBlockComment]
    exact ih.trans (((List.sublist_cons_self _ s).trans (List.sublist_cons_self _ _)).filter placed)
  | case6 c s hno ih =>
    rw [markBlockComment]
    · exact ih.trans ((List.sublist_cons_self c s).filter placed)
    · exact hno

theorem placed_markMask (n : Nat) (s : List Mark) : ((markMask n s).filter placed).Sublist (s.filter placed) := by
  have hblank : ∀ t : List Mark, (blank :: t).filter placed = t.filter placed := fun t =>
    List.filter_cons_of_neg (by simp [blank, placed])
  induction s generalizing n with
  | nil => cases n <;> exact List.Sublist.refl _
  | cons c s ih =>
    have hskip : (s.filter placed).Sublist ((c :: s).filter placed) := (List.sublist_cons_self c s).filter placed
    have hkeep : ((c :: markMask 0 s).filter placed).Sublist ((c :: s).filter placed) := by
      by_cases hc : placed c
      · rw [List.filter_cons_of_pos hc, List.filter_cons_of_pos hc]
        exact (ih 0).cons_cons c
      · rw [List.filter_cons_of_neg hc, List.filter_cons_of_neg hc]
        exact ih 0
    cases n with
    | succ n =>
      rw [markMask, hblank]
      exact (ih n).trans hskip
    | zero =>
      rw [markMask]
      split
      · cases literalEnd (s.map Prod.fst) with
        | some n =>
          simp only [hblank]
          exact (ih n).trans hskip
        | none => exact hkeep
      · exact hkeep

theorem shown_pairwise (sql : List Char) :
    ((shown sql).filter placed).Pairwise fun c d => ∀ i ∈ c.2, ∀ j ∈ d.2, i < j := by
  have hmarks : (marks sql).Pairwise fun c d => ∀ i ∈ c.2, ∀ j ∈ d.2, i < j := by
    rw [marks, List.pairwise_map]
    refine (List.pairwise_iff_getElem.mpr fun i j hi hj hij => ?_ :
      sql.zipIdx.Pairwise fun c d => c.2 < d.2).imp fun hlt i hi j hj => ?_
    · simpa using hij
    · cases hi
      cases hj
      exact hlt
  have hsub : ((shown sql).filter placed).Sublist (marks sql) :=
    ((placed_markMask _ _).trans (placed_markBlockComment _ _)).trans
      (List.filter_sublist.trans (markLineComment_sublist _ _))
  exact hmarks.sublist hsub

def ShownAt (sql : List Char) (i : Nat) : Prop := ∃ c, (c, some i) ∈ shown sql ∧ isSpace c = false ∧ c ≠ ';'

/-- The check sees the semicolon at the place, and something on either side of it. -/
structure Shows (sql : List Char) (n : Nat) : Prop where
  semicolon : (';', some n) ∈ shown sql
  before : ∃ i < n, ShownAt sql i
  after : ∃ i > n, ShownAt sql i

theorem mem_after {l₁ l₂ : List Mark} {c d : Mark} {i j : Nat}
    (hp : ((l₁ ++ d :: l₂).filter placed).Pairwise fun c d => ∀ i ∈ c.2, ∀ j ∈ d.2, i < j)
    (hd : d.2 = some j) (hc : c.2 = some i) (hmem : c ∈ l₁ ++ d :: l₂) :
    (i < j → c ∈ l₁) ∧ (j < i → c ∈ l₂) := by
  have hplaced : ∀ {e : Mark} {k : Nat}, e.2 = some k → placed e := fun he => by simp [placed, he]
  rw [List.filter_append, List.filter_cons_of_pos (hplaced hd), List.pairwise_append, List.pairwise_cons] at hp
  obtain ⟨-, ⟨hright, -⟩, hleft⟩ := hp
  rcases List.mem_append.mp hmem with hc₁ | hc₂
  · have := hleft c (List.mem_filter.mpr ⟨hc₁, hplaced hc⟩) d List.mem_cons_self i hc j hd
    exact ⟨fun _ => hc₁, fun h => absurd this (by omega)⟩
  · rcases List.mem_cons.mp hc₂ with rfl | hc₂
    · obtain rfl : i = j := Option.some.inj (hc.symm.trans hd)
      exact ⟨fun h => absurd h (lt_irrefl _), fun h => absurd h (lt_irrefl _)⟩
    · have := hright c (List.mem_filter.mpr ⟨hc₂, hplaced hc⟩) j hd i hc
      exact ⟨fun h => absurd this (by omega), fun _ => hc₂⟩

/-- **What the check sees on either side of a semicolon counts** as two statements. -/
theorem two_le_statementCount {sql : List Char} {n : Nat} (h : Shows sql n) :
    2 ≤ statementCount (stripComments sql) := by
  obtain ⟨hsemi, ⟨i, hi, c, hc, hcs, hcne⟩, ⟨k, hk, d, hd, hds, hdne⟩⟩ := h
  obtain ⟨l₁, l₂, hshown⟩ := List.append_of_mem hsemi
  have hp := shown_pairwise sql
  rw [hshown] at hp hc hd
  have hc₁ := (mem_after hp rfl rfl hc).1 hi
  have hd₂ := (mem_after hp rfl rfl hd).2 hk
  have h₁ := nonblankParts_pos (List.mem_map_of_mem (f := Prod.fst) hc₁) hcs hcne
  have h₂ := nonblankParts_pos (List.mem_map_of_mem (f := Prod.fst) hd₂) hds hdne
  rw [statementCount_eq, ← map_shown, hshown, List.map_append, List.map_cons, nonblankParts_append]
  omega

/-! ## Where SQLite separates statements -/

def inStatement (p : Piece) : Bool := p.isToken && p != semi

def statementsOf (ps : List Piece) : List (List Piece) :=
  ((ps.filter Piece.isToken).splitOn semi).filter (· ≠ [])

theorem statementsOf_append (ps qs : List Piece) :
    statementsOf (ps ++ semi :: qs) = statementsOf ps ++ statementsOf qs := by
  rw [statementsOf, List.filter_append, List.filter_cons_of_pos (a := semi) rfl, List.splitOn_append_cons_self,
    List.filter_append]
  rfl

theorem statementsOf_ne_nil {ps : List Piece} : statementsOf ps ≠ [] ↔ ps.any inStatement := by
  rw [List.any_eq_true]
  constructor
  · intro h
    obtain ⟨st, hst⟩ := List.exists_mem_of_ne_nil _ h
    obtain ⟨hst, hne⟩ := List.mem_filter.mp hst
    obtain ⟨p, hp⟩ := List.exists_mem_of_ne_nil st (by simpa using hne)
    have hsemi : p ≠ semi := by
      rintro rfl
      exact Separators.sep_notMem_splitOn hst hp
    obtain ⟨hmem, htoken⟩ := List.mem_filter.mp ((Separators.mem_splitOn_iff hsemi).mp ⟨st, hst, hp⟩)
    exact ⟨p, hmem, by simp [inStatement, htoken, hsemi]⟩
  · rintro ⟨p, hp, hin⟩
    rw [inStatement, Bool.and_eq_true, bne_iff_ne] at hin
    obtain ⟨st, hst, hmem⟩ := (Separators.mem_splitOn_iff hin.2).mpr (List.mem_filter.mpr ⟨hp, hin.1⟩)
    exact List.ne_nil_of_mem (List.mem_filter.mpr ⟨hst, by simpa using List.ne_nil_of_mem hmem⟩)

/-- Where there are two statements, a semicolon stands between them. -/
theorem two_le_statementsOf {ps : List Piece} : 2 ≤ (statementsOf ps).length ↔
    ∃ before after, ps = before ++ semi :: after ∧ before.any inStatement ∧ after.any inStatement := by
  constructor
  · induction hn : ps.length using Nat.strong_induction_on generalizing ps with
    | _ n ih =>
      intro h
      -- what has no semicolon is one statement at most
      have hone : ∀ {qs : List Piece}, semi ∉ qs → (statementsOf qs).length ≤ 1 := by
        intro qs hqs
        rw [statementsOf, List.splitOn_eq_singleton fun hmem => hqs (List.mem_of_mem_filter hmem)]
        exact List.length_filter_le _ _
      by_cases hsemi : semi ∈ ps
      · obtain ⟨before, after, rfl, hbefore⟩ := List.eq_append_cons_of_mem hsemi
        have hle := hone hbefore
        rw [statementsOf_append, List.length_append] at h
        by_cases hfirst : statementsOf before = []
        · rw [hfirst, List.length_nil, Nat.zero_add] at h
          obtain ⟨b, a, rfl, hb, ha⟩ := ih after.length (by rw [← hn]; simp; omega) rfl h
          refine ⟨before ++ semi :: b, a, by simp, ?_, ha⟩
          rw [List.any_append, List.any_cons, hb, Bool.or_true, Bool.or_true]
        · have hlast : statementsOf after ≠ [] := by
            intro hnil
            rw [hnil, List.length_nil] at h
            omega
          exact ⟨before, after, rfl, statementsOf_ne_nil.mp hfirst, statementsOf_ne_nil.mp hlast⟩
      · have := hone hsemi
        omega
  · rintro ⟨before, after, rfl, hb, ha⟩
    have h₁ := List.length_pos_iff.mpr (statementsOf_ne_nil.mpr hb)
    have h₂ := List.length_pos_iff.mpr (statementsOf_ne_nil.mpr ha)
    rw [statementsOf_append, List.length_append]
    omega

end McpServer

end VisitLogger
