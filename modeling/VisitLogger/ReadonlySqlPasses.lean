import VisitLogger.ReadonlySql

/-!
# What the passes of the read-only check leave

Where quotes and comments do not hide one another (`IsPlain`), the passes act on
SQLite's pieces one by one.
-/

namespace VisitLogger

namespace McpServer

open SqliteReading (Piece Cut Fits EndsWell Quoted quote bom semi)

/-! ## The pieces as the check sees them -/

def withoutLineComment : Piece → List Char
  | .lineComment _ => []
  | p => p.text

def stripped : Piece → List Char
  | .lineComment _ => []
  | .blockComment _ => [' ']
  | p => p.text

def masked : Piece → List Char
  | .string t => List.replicate t.length ' '
  | .openString t | .openComment t => mask 0 t
  | p => stripped p

/-- Nothing in the piece is taken for a comment, or for a quote. -/
def IsPlainPiece : Piece → Prop
  | .space _ | .lineComment _ => True
  | .blockComment t | .openComment t => ¬ ['-', '-'] <:+: t
  | .string t | .openString t => ¬ ['-', '-'] <:+: t ∧ ¬ ['/', '*'] <:+: t
  | .token t => ¬ ['-', '-'] <:+: t ∧ ¬ ['/', '*'] <:+: t ∧ quote ∉ t

instance : DecidablePred IsPlainPiece
  | .space _ | .lineComment _ => isTrue trivial
  | .blockComment t | .openComment t => inferInstanceAs (Decidable (¬ ['-', '-'] <:+: t))
  | .string t | .openString t => inferInstanceAs (Decidable (¬ ['-', '-'] <:+: t ∧ ¬ ['/', '*'] <:+: t))
  | .token t => inferInstanceAs (Decidable (¬ ['-', '-'] <:+: t ∧ ¬ ['/', '*'] <:+: t ∧ quote ∉ t))

structure IsPlain (sql : List Char) : Prop where
  noNul : ∀ c ∈ sql, c.toNat ≠ 0
  pieces : ∀ p ∈ SqliteReading.read sql, IsPlainPiece p

theorem IsPlain.cut {sql : List Char} (h : IsPlain sql) : Cut sql (SqliteReading.read sql) := by
  have hall : sql.takeWhile (fun c => c.toNat ≠ 0) = sql :=
    List.takeWhile_eq_self_iff.mpr fun c hc => by simpa using h.noNul c hc
  have hcut := SqliteReading.cut_pieces (Nat.le_refl (sql.takeWhile fun c => c.toNat ≠ 0).length)
  rw [hall] at hcut
  rw [SqliteReading.read, hall]
  exact hcut

variable {t r : List Char} {ps : List Piece}

/-! ## Line comments -/

theorem subLineComment_text (h : ¬ ['-', '-'] <:+: t) (hr : t.getLast? = some '-' → r.head? ≠ some '-') :
    subLineComment false (t ++ r) = t ++ subLineComment false r := by
  induction t with
  | nil => rfl
  | cons c t ih =>
    have hno : ¬ (c = '-' ∧ (t ++ r).head? = some '-') := by
      rintro ⟨rfl, hhead⟩
      cases t with
      | nil => exact hr rfl hhead
      | cons d t =>
        cases hhead
        exact h ⟨[], t, rfl⟩
    rw [List.cons_append, subLineComment, if_neg hno,
      ih (fun hin => h (List.infix_cons hin)) fun hlast => hr ?_]
    · rfl
    · rw [List.getLast?_cons, hlast]
      rfl

theorem subLineComment_comment {b : List Char} (hb : '\n' ∉ b) (hr : r = [] ∨ r.head? = some '\n') :
    subLineComment false ('-' :: '-' :: b ++ r) = subLineComment false r := by
  have hin : subLineComment true (b ++ r) = subLineComment false r := by
    induction b with
    | nil =>
      cases r with
      | nil => rfl
      | cons c r =>
        obtain rfl : c = '\n' := by simpa using hr
        simp [subLineComment]
    | cons c b ih =>
      rw [List.mem_cons, not_or] at hb
      rw [List.cons_append, subLineComment, if_neg (Ne.symm hb.1), ih hb.2]
  simp [subLineComment, hin]

/-! ## What comes first in the rest -/

/-- A line comment ends at a line break, so that no sign of the text after it comes first. -/
theorem head_flatMap {f : Piece → List Char}
    (hf : ∀ p, f p = p.text ∨ f p = [' '] ∨ f p = [] ∧ ∃ t, p = .lineComment t)
    {s : List Char} (h : Cut s ps) {c : Char} (hc : (ps.flatMap f).head? = some c) :
      c = '\n' ∨ c = ' ' ∨ s.head? = some c := by
  induction h with
  | nil => cases hc
  | @cons p r ps hfits hcut ih =>
    rw [List.flatMap_cons, List.head?_append] at hc
    rcases hf p with hp | hp | ⟨hp, t, rfl⟩
    · rw [hp] at hc
      rw [List.head?_append]
      cases ht : p.text with
      | nil => exact absurd ht hfits.text_ne_nil
      | cons d t =>
        rw [ht] at hc
        exact .inr (.inr hc)
    · rw [hp] at hc
      exact .inr (.inl (Option.some.inj hc).symm)
    · rw [hp] at hc
      obtain ⟨b, -, -, hr⟩ := hfits
      rcases ih hc with hc | hc | hc
      · exact .inl hc
      · exact .inr (.inl hc)
      · rcases hr with rfl | hr
        · cases hc
        · exact .inl (Option.some.inj (hc.symm.trans hr))

theorem withoutLineComment_cases (p : Piece) :
    withoutLineComment p = p.text ∨ withoutLineComment p = [' '] ∨ withoutLineComment p = [] ∧
      ∃ t, p = .lineComment t := by
  cases p with
  | lineComment t => exact .inr (.inr ⟨rfl, t, rfl⟩)
  | space t | blockComment t | openComment t | string t | openString t | token t => exact .inl rfl

theorem stripped_cases (p : Piece) : stripped p = p.text ∨ stripped p = [' '] ∨ stripped p = [] ∧
    ∃ t, p = .lineComment t := by
  cases p with
  | lineComment t => exact .inr (.inr ⟨rfl, t, rfl⟩)
  | blockComment t => exact .inr (.inl rfl)
  | space t | openComment t | string t | openString t | token t => exact .inl rfl

theorem length_withoutLineComment {s : List Char} (h : Cut s ps) :
    (ps.flatMap withoutLineComment).length ≤ s.length := by
  induction h with
  | nil => exact Nat.le_refl _
  | @cons p r ps hfits hcut ih =>
    rw [List.flatMap_cons, List.length_append, List.length_append]
    have hp : (withoutLineComment p).length ≤ p.text.length := by
      cases p with
      | lineComment t => exact Nat.zero_le _
      | space t | blockComment t | openComment t | string t | openString t | token t => exact Nat.le_refl _
    omega

/-! ## The passes over a text -/

theorem space_ne {t : List Char} (h : Fits r (.space t)) : ∀ c ∈ t, c ≠ '-' ∧ c ≠ '/' ∧ c ≠ quote := by
  intro c hc
  rcases h.2 c hc with hspace | rfl
  · refine ⟨(SqliteReading.isSpace_ne hspace).1, (SqliteReading.isSpace_ne hspace).2.1, ?_⟩
    rintro rfl
    exact absurd hspace (by decide)
  · exact ⟨by decide, by decide, by decide⟩

theorem not_pair_of_ne {a b : Char} (h : ∀ c ∈ t, c ≠ a) : ¬ [a, b] <:+: t := fun hin =>
  h a (hin.subset (by simp)) rfl

theorem subLineComment_cut {s : List Char} (h : Cut s ps) (hplain : ∀ p ∈ ps, IsPlainPiece p) :
    subLineComment false s = ps.flatMap withoutLineComment := by
  induction h with
  | nil => rfl
  | @cons p r ps hfits hcut ih =>
    rw [List.flatMap_cons, ← ih fun q hq => hplain q (List.mem_cons_of_mem _ hq)]
    have hp := hplain p (by simp)
    have hends := hfits.endsWell
    cases p with
    | lineComment t =>
      obtain ⟨b, rfl, hb, hr⟩ := hfits
      exact subLineComment_comment hb hr
    | blockComment t =>
      obtain ⟨i, rfl, -⟩ := hfits
      refine subLineComment_text hp fun hlast => ?_
      have hend : '/' :: '*' :: (i ++ ['*', '/']) = '/' :: '*' :: (i ++ ['*']) ++ ['/'] := by simp
      rw [Piece.text, hend, List.getLast?_concat] at hlast
      cases hlast
    | space t =>
      exact subLineComment_text (not_pair_of_ne fun c hc => (space_ne hfits c hc).1) fun hlast =>
        (hends (by simp) _ hlast).1 rfl
    | openComment t => exact subLineComment_text hp fun hlast => (hends (by simp) _ hlast).1 rfl
    | string t | openString t | token t =>
      exact subLineComment_text hp.1 fun hlast => (hends (by simp) _ hlast).1 rfl

theorem subBlockComment_cons {c : Char} {s : List Char} (h : c = '/' → s.head? = some '*' → s = ['*']) :
    subBlockComment false (c :: s) = c :: subBlockComment false s := by
  by_cases hc : c = '/' ∧ s.head? = some '*'
  · obtain ⟨rfl, hhead⟩ := hc
    rw [h rfl hhead]
    decide
  · rw [subBlockComment]
    rintro d rfl rfl
    exact hc ⟨rfl, rfl⟩

theorem subBlockComment_text (h : ¬ ['/', '*'] <:+: t)
    (hr : t.getLast? = some '/' → r.head? = some '*' → r = ['*']) :
    subBlockComment false (t ++ r) = t ++ subBlockComment false r := by
  induction t with
  | nil => rfl
  | cons c t ih =>
    rw [List.cons_append, subBlockComment_cons, ih (fun hin => h (List.infix_cons hin)) fun hlast => hr ?_]
    · rfl
    · rw [List.getLast?_cons, hlast]
      rfl
    · rintro rfl hhead
      cases t with
      | nil => exact hr rfl hhead
      | cons d t =>
        cases hhead
        exact absurd ⟨[], t, rfl⟩ h

theorem subBlockComment_inside {i : List Char} (hi : ¬ ['*', '/'] <:+: i ++ ['*']) :
    subBlockComment true (i ++ ['*', '/'] ++ r) = subBlockComment false r := by
  induction i with
  | nil => simp [subBlockComment]
  | cons c i ih =>
    rw [List.cons_append, List.cons_append, subBlockComment, ih fun hin => hi (List.infix_cons hin)]
    rintro s rfl hs
    refine hi ?_
    cases i with
    | nil => cases hs
    | cons d i =>
      cases hs
      exact ⟨[], i ++ ['*'], rfl⟩

/-- What ends with a slash does so in the text without the line comments. -/
theorem ends_slash (hends : EndsWell t r) (hcut : Cut r ps) (hlast : t.getLast? = some '/')
    (hhead : (ps.flatMap withoutLineComment).head? = some '*') : ps.flatMap withoutLineComment = ['*'] := by
  rcases head_flatMap withoutLineComment_cases hcut hhead with h | h | h
  · cases h
  · cases h
  · have hr := (hends _ hlast).2 rfl h
    have hlen := length_withoutLineComment hcut
    rw [hr] at hlen
    cases hrest : ps.flatMap withoutLineComment with
    | nil =>
      rw [hrest] at hhead
      cases hhead
    | cons d u =>
      rw [hrest] at hhead hlen
      cases hhead
      rw [List.length_eq_zero_iff.mp (Nat.le_zero.mp (Nat.le_of_succ_le_succ hlen))]

theorem subBlockComment_cut {s : List Char} (h : Cut s ps) (hplain : ∀ p ∈ ps, IsPlainPiece p) :
    subBlockComment false (ps.flatMap withoutLineComment) = ps.flatMap stripped := by
  induction h with
  | nil => rfl
  | @cons p r ps hfits hcut ih =>
    rw [List.flatMap_cons, List.flatMap_cons, ← ih fun q hq => hplain q (List.mem_cons_of_mem _ hq)]
    have hp := hplain p (by simp)
    have hends := hfits.endsWell
    cases p with
    | lineComment t => rfl
    | blockComment t =>
      obtain ⟨i, rfl, hi⟩ := hfits
      have hin : ['*', '/'] <:+: i ++ ['*', '/'] ++ ps.flatMap withoutLineComment := ⟨i, _, rfl⟩
      simp only [withoutLineComment, Piece.text, List.cons_append, subBlockComment, if_pos hin,
        subBlockComment_inside hi]
      rfl
    | openComment t =>
      obtain ⟨b, rfl, hb, rfl⟩ := hfits
      rw [hcut.eq_nil]
      simp [withoutLineComment, stripped, Piece.text, subBlockComment, hb]
    | space t =>
      exact subBlockComment_text (not_pair_of_ne fun c hc => (space_ne hfits c hc).2.1)
        (ends_slash (hends (by simp)) hcut)
    | string t | openString t => exact subBlockComment_text hp.2 (ends_slash (hends (by simp)) hcut)
    | token t => exact subBlockComment_text hp.2.1 (ends_slash (hends (by simp)) hcut)

/-! ## String literals -/

theorem literalEnd_quoted {i : List Char} (h : Quoted quote i) (hr : r.head? ≠ some quote) :
    literalEnd (i ++ quote :: r) = some (i.length + 1) := by
  induction h with
  | nil =>
    cases r with
    | nil => rfl
    | cons d r => simp [literalEnd, show d ≠ quote from fun he => hr (he ▸ rfl)]
  | @plain c s hc hs ih =>
    cases hsr : s ++ quote :: r with
    | nil => simp at hsr
    | cons d u =>
      rw [List.cons_append, hsr, literalEnd, if_pos hc, ← hsr, ih]
      rfl
  | @double s hs ih =>
    rw [List.cons_append, List.cons_append, literalEnd, if_neg (not_not.mpr rfl), if_pos rfl, ih]
    rfl

theorem mask_text (h : quote ∉ t) : mask 0 (t ++ r) = t ++ mask 0 r := by
  induction t with
  | nil => rfl
  | cons c t ih =>
    rw [List.mem_cons, not_or] at h
    rw [List.cons_append, mask, if_neg (Ne.symm h.1), ih h.2]
    rfl

theorem mask_length (t r : List Char) : mask t.length (t ++ r) = List.replicate t.length ' ' ++ mask 0 r := by
  induction t with
  | nil => rfl
  | cons c t ih => rw [List.cons_append, List.length_cons, mask, ih, List.replicate_succ, List.cons_append]

theorem mask_literal {i : List Char} (h : Quoted quote i) (hr : r.head? ≠ some quote) :
    mask 0 (quote :: (i ++ [quote]) ++ r) = List.replicate (quote :: (i ++ [quote])).length ' ' ++
      mask 0 r := by
  rw [List.cons_append, mask, if_pos rfl, List.append_assoc, List.singleton_append,
    literalEnd_quoted h hr, List.append_cons, List.length_cons, List.replicate_succ, List.cons_append,
      ← mask_length, List.length_append, List.length_singleton]

theorem mask_cut {s : List Char} (h : Cut s ps) (hplain : ∀ p ∈ ps, IsPlainPiece p) :
    mask 0 (ps.flatMap stripped) = ps.flatMap masked := by
  induction h with
  | nil => rfl
  | @cons p r ps hfits hcut ih =>
    have hp := hplain p (by simp)
    replace ih := ih fun q hq => hplain q (List.mem_cons_of_mem _ hq)
    rw [List.flatMap_cons, List.flatMap_cons, ← ih]
    cases p with
    | lineComment t => rfl
    | blockComment t => rfl
    | openComment t | openString t =>
      obtain ⟨b, -, -, rfl⟩ := hfits
      rw [hcut.eq_nil]
      simp [stripped, masked, Piece.text, mask]
    | space t => exact mask_text fun hc => (space_ne hfits _ hc).2.2 rfl
    | string t =>
      obtain ⟨i, rfl, hi, hr⟩ := hfits
      refine mask_literal hi fun hc => ?_
      rcases head_flatMap stripped_cases hcut hc with h | h | h
      · exact absurd h (by decide)
      · exact absurd h (by decide)
      · exact hr h
    | token t => exact mask_text hp.2.2

theorem IsPlain.stripComments {sql : List Char} (h : IsPlain sql) :
    stripComments sql = (SqliteReading.read sql).flatMap stripped := by
  rw [McpServer.stripComments, subLineComment_cut h.cut h.pieces, subBlockComment_cut h.cut h.pieces]

theorem IsPlain.mask {sql : List Char} (h : IsPlain sql) :
    mask 0 (McpServer.stripComments sql) = (SqliteReading.read sql).flatMap masked := by
  rw [h.stripComments, mask_cut h.cut h.pieces]

end McpServer

end VisitLogger
