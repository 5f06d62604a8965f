import Mathlib
import VisitLogger.ReadonlySqlPasses
import VisitLogger.ReadonlySqlShown

/-!
# What the read-only check lets through

An accepted text is one statement that only reads when the check has seen what SQLite
sees of its start and of its separators (`readOnly_iff`). In a plain text it has, but
for a first word that is cut off and for statements of string literals alone
(`readOnly_iff_of_plain`).
-/

namespace VisitLogger

namespace McpServer

open SqliteReading (Piece Cut Fits quote bom semi isWord isQuery withVerb afterDot nameOf pragmaName isOneOf isReadOnly tokens statements)

variable {ps : List Piece}

/-! ## Counting -/

def seen (p : Piece) : Bool := (masked p).any fun c => !isSpace c && c != ';'

theorem nonblankParts_seen {ps : List Piece} (h : ps.any seen) : 0 < nonblankParts (ps.flatMap masked) := by
  obtain ⟨p, hp, hseen⟩ := List.any_eq_true.mp h
  obtain ⟨c, hc, hcond⟩ := List.any_eq_true.mp hseen
  rw [Bool.and_eq_true, Bool.not_eq_true', bne_iff_ne] at hcond
  exact nonblankParts_pos (List.mem_flatMap.mpr ⟨p, hp, hc⟩) hcond.1 hcond.2

/-- Every statement that the check sees something of counts. -/
theorem seen_le_nonblankParts (ps : List Piece) :
    (((ps.filter Piece.isToken).splitOn semi).filter (·.any seen)).length ≤
      nonblankParts (ps.flatMap masked) := by
  have hone : ∀ qs : List Piece, ([qs.filter Piece.isToken].filter (·.any seen)).length ≤
    nonblankParts (qs.flatMap masked) := by
    intro qs
    by_cases h : (qs.filter Piece.isToken).any seen
    · simp only [List.filter_singleton, h, cond_true, List.length_singleton]
      obtain ⟨p, hp, hseen⟩ := List.any_eq_true.mp h
      exact nonblankParts_seen (List.any_eq_true.mpr ⟨p, List.mem_of_mem_filter hp, hseen⟩)
    · simp [h]
  induction hn : ps.length using Nat.strong_induction_on generalizing ps with
  | _ n ih =>
    by_cases hsemi : semi ∈ ps
    · obtain ⟨before, after, rfl, hbefore⟩ := List.eq_append_cons_of_mem hsemi
      have hafter := ih after.length (by rw [← hn]; simp; omega) after rfl
      have hmasked : (before ++ semi :: after).flatMap masked = before.flatMap masked ++
        ';' :: after.flatMap masked := by
        rw [List.flatMap_append, List.flatMap_cons]
        rfl
      have htokens : (before ++ semi :: after).filter Piece.isToken = before.filter Piece.isToken ++
        semi :: after.filter Piece.isToken := by
        rw [List.filter_append, List.filter_cons_of_pos rfl]
      have hno : semi ∉ before.filter Piece.isToken := fun hmem => hbefore (List.mem_of_mem_filter hmem)
      rw [hmasked, nonblankParts_append, htokens, List.splitOn_append_cons_self_of_not_mem hno,
        ← List.singleton_append, List.filter_append, List.length_append]
      exact Nat.add_le_add (hone before) hafter
    · have hno : semi ∉ ps.filter Piece.isToken := fun hmem => hsemi (List.mem_of_mem_filter hmem)
      rw [List.splitOn_eq_singleton hno]
      exact hone ps

/-! ## The first word -/

theorem isSpace_of_startsSpace {c : Char} (h : SqliteReading.isSpace c) : isSpace c := by
  simp only [SqliteReading.isSpace, SqliteReading.startsSpace, decide_eq_true_eq] at h
  rcases h with (rfl | rfl | rfl | rfl | rfl) | rfl <;> decide

theorem dropWhile_spaces {s t : List Char} (h : ∀ c ∈ s, isSpace c) :
    (s ++ t).dropWhile isSpace = t.dropWhile isSpace := by
  rw [List.dropWhile_append, List.dropWhile_eq_nil_iff.mpr h]
  rfl

/-- Up to a letter, what the check skips is no token to SQLite; the token that the
letter is in may begin with a character that only the check takes for white space. -/
theorem skip_to_token {s : List Char} (h : Cut s ps) {c : Char}
    (hhead : ((ps.flatMap stripped).dropWhile isSpace).head? = some c)
    (hc : isLetterIgnoreCase c) :
    ∃ t r after, ps.filter Piece.isToken = .token t :: after.filter Piece.isToken ∧ Fits r (.token t) ∧
      Cut r after ∧
      (∃ d ∈ t.head?, isSpace d ∨ d = c) ∧
      (ps.flatMap stripped).dropWhile isSpace = (t ++ after.flatMap stripped).dropWhile isSpace := by
  induction h with
  | nil => cases hhead
  | @cons p r ps hfits hcut ih =>
    -- a sign that no letter is stops the check
    have hstop : ∀ d u, stripped p = d :: u → isSpace d = false → d = c := by
      intro d u hp hd
      rw [List.flatMap_cons, hp, List.cons_append, List.dropWhile_cons_of_neg (by simp [hd])] at hhead
      exact Option.some.inj hhead
    -- white space is skipped
    have hskip : (∀ d ∈ stripped p, isSpace d) → p.isToken = false →
        ∃ t r' after, (p :: ps).filter Piece.isToken = .token t :: after.filter Piece.isToken ∧
          Fits r' (.token t) ∧ Cut r' after ∧
          (∃ d ∈ t.head?, isSpace d ∨ d = c) ∧
          ((p :: ps).flatMap stripped).dropWhile isSpace = (t ++ after.flatMap stripped).dropWhile isSpace := by
      intro hspaces htoken
      rw [List.flatMap_cons, dropWhile_spaces hspaces] at hhead ⊢
      rw [List.filter_cons_of_neg (by simp [htoken])]
      exact ih hhead
    cases p with
    | space t =>
      cases hd : t.dropWhile isSpace with
      | nil => exact hskip (List.dropWhile_eq_nil_iff.mp hd) rfl
      | cons d u =>
        have hdrop : (t ++ ps.flatMap stripped).dropWhile isSpace = d :: u ++ ps.flatMap stripped := by
          rw [List.dropWhile_append, hd]
          rfl
        rw [List.flatMap_cons, show stripped (.space t) = t from rfl, hdrop] at hhead
        obtain rfl : d = c := Option.some.inj hhead
        have hno : isSpace d = false := SqliteReading.head_dropWhile d (by rw [hd]; rfl)
        have hmem : d ∈ t := List.dropWhile_subset isSpace (hd ▸ List.mem_cons_self)
        rcases hfits.2 d hmem with hspace | rfl
        · rw [isSpace_of_startsSpace hspace] at hno
          cases hno
        · exact absurd hc (by decide)
    | lineComment t => exact hskip (by simp [stripped]) rfl
    | blockComment t => exact hskip (by simp [stripped, isSpace]) rfl
    | openComment t =>
      obtain ⟨b, rfl, -⟩ := hfits
      obtain rfl := hstop '/' _ rfl (by decide)
      exact absurd hc (by decide)
    | string t | openString t =>
      obtain ⟨b, rfl, -⟩ := hfits
      obtain rfl := hstop quote _ rfl (by decide)
      exact absurd hc (by decide)
    | token t =>
      refine ⟨t, r, ps, rfl, hfits, hcut, ?_, rfl⟩
      cases t with
      | nil => exact absurd rfl hfits.1
      | cons d t =>
        refine ⟨d, rfl, ?_⟩
        cases hd : isSpace d with
        | true => exact .inl rfl
        | false => exact .inr (hstop d t rfl hd)

theorem isIdChar_of_letter {c : Char} (h : isLetterIgnoreCase c) : SqliteReading.isIdChar c := by
  simp only [isLetterIgnoreCase, isLetter, decide_eq_true_eq] at h
  rw [SqliteReading.isIdChar, decide_eq_true_eq]
  rcases h with (h | h) | h
  · exact .inl (by simp [Char.isAlphanum, h])
  · exact .inr (.inl h)
  · refine .inr (.inr (.inr ?_))
    simp only [List.mem_cons, List.not_mem_nil, or_false] at h
    omega

theorem isLetterIgnoreCase_of_letter {c : Char} (h : isLetter c) : isLetterIgnoreCase c := by
  simp [isLetterIgnoreCase, h]

theorem not_isSpace_of_letter {c : Char} (h : isLetter c) : isSpace c = false := by
  have hn : (65 ≤ c.toNat ∧ c.toNat ≤ 90) ∨ (97 ≤ c.toNat ∧ c.toNat ≤ 122) ∨ c.toNat = 95 := by
    rw [isLetter, decide_eq_true_eq] at h
    rcases h with h | rfl
    · simpa [Char.isAlpha, Char.isUpper, Char.isLower, UInt32.le_iff_toNat_le,
        or_assoc] using Or.inl (b := c.toNat = 95) h
    · decide
  rw [isSpace, decide_eq_false_iff_not]
  omega

theorem dropWhile_letters {t : List Char} (ht : t.all isLetter) (hne : t ≠ []) (s : List Char) :
    (t ++ s).dropWhile isSpace = t ++ s := by
  cases t with
  | nil => exact absurd rfl hne
  | cons c t =>
    rw [List.all_cons, Bool.and_eq_true] at ht
    exact List.dropWhile_cons_of_neg (by simp [not_isSpace_of_letter ht.1])

/-- Where SQLite's token is made of letters, the check reads all of it. -/
theorem takeWhile_token {t r : List Char} (hfits : Fits r (.token t)) (hcut : Cut r ps)
    (ht : t.all isLetter) {p : Char → Bool}
    (hp : ∀ c, isLetter c → p c) (hid : ∀ c, p c → isLetterIgnoreCase c) :
    ((t ++ ps.flatMap stripped).dropWhile isSpace).takeWhile p = t := by
  rw [dropWhile_letters ht hfits.1]
  rw [List.all_eq_true] at ht
  rw [List.takeWhile_append_of_pos fun d hd => hp d (ht d hd)]
  cases t with
  | nil => exact absurd rfl hfits.1
  | cons c t =>
    have hc := ht c List.mem_cons_self
    have hend : ∀ d ∈ r.head?, ¬ SqliteReading.isIdChar d :=
      (hfits.2.2 c rfl (isIdChar_of_letter (isLetterIgnoreCase_of_letter hc))
        (by rintro rfl; exact absurd hc (by decide))).2
    cases hrest : ps.flatMap stripped with
    | nil => simp
    | cons d u =>
      have hd : ¬ p d := by
        intro hd
        rcases head_flatMap stripped_cases hcut (by rw [hrest]; rfl) with rfl | rfl | h
        · exact absurd (hid _ hd) (by decide)
        · exact absurd (hid _ hd) (by decide)
        · exact hend d h (isIdChar_of_letter (hid d hd))
      rw [List.takeWhile_cons_of_neg hd, List.append_nil]

/-! ## Case -/

theorem isLetter_of_toUpper {c : Char} (h : isLetter c.toUpper) : isLetter c := by
  rw [Char.toUpper] at h
  split at h
  · rename_i hbounds
    have hlower : c.isLower := by simpa [Char.isLower] using hbounds
    simp [isLetter, Char.isAlpha, hlower]
  · exact h

theorem isLetter_of_toLower {c : Char} (h : isLetter c.toLower) : isLetter c := by
  rw [Char.toLower] at h
  split at h
  · rename_i hbounds
    have hupper : c.isUpper := decide_eq_true hbounds
    simp [isLetter, Char.isAlpha, hupper]
  · exact h

theorem all_letters_of_map {f : Char → Char} (hf : ∀ c, isLetter (f c) → isLetter c) {w t : List Char}
    (h : w.map f = t)
    (ht : t.all isLetter) : w.all isLetter := by
  rw [← h, List.all_map, List.all_eq_true] at ht
  exact List.all_eq_true.mpr fun c hc => hf c (ht c hc)

theorem lower_of_letters {w : List Char} (h : w.all isLetter) : lower w = w.map Char.toLower := by
  induction w with
  | nil => rfl
  | cons c w ih =>
    rw [List.all_cons, Bool.and_eq_true] at h
    have hk : c.toNat ≠ 0x212A := fun he => absurd h.1 (by rw [← Char.ofNat_toNat c, he]; decide)
    have hi : c.toNat ≠ 0x130 := fun he => absurd h.1 (by rw [← Char.ofNat_toNat c, he]; decide)
    have ih := ih h.2
    rw [lower] at ih ⊢
    rw [List.flatMap_cons, ih, if_neg hk, if_neg hi]
    rfl

/-! ## What the check asks of a text -/

theorem firstToken_eq_some {sql k : List Char} (h : firstToken sql = some k) :
    k = (sql.dropWhile isSpace).takeWhile isLetter ∧ k ≠ [] := by
  rw [firstToken] at h
  split at h
  · cases h
  · rename_i hk
    cases h
    exact ⟨rfl, hk⟩

theorem pragmaTarget_eq_some {sql p : List Char} (h : pragmaTarget sql = some p) :
    p = (((sql.dropWhile isSpace).drop 6).dropWhile isSpace).takeWhile isLetterIgnoreCase ∧ p ≠ [] := by
  rw [pragmaTarget] at h
  simp only at h
  split at h
  · split at h
    · rename_i hp
      cases h
      exact ⟨rfl, hp.2⟩
    · cases h
  · cases h

theorem head_of_takeWhile {p : Char → Bool} {s k : List Char} (h : k = s.takeWhile p) (hk : k ≠ []) :
    ∃ c, s.head? = some c ∧ p c := by
  cases s with
  | nil => exact absurd h hk
  | cons c s =>
    refine ⟨c, rfl, ?_⟩
    by_contra hc
    rw [List.takeWhile_cons_of_neg hc] at h
    exact hk h

theorem validate_ok {sql : List Char} (h : validateReadonlySql sql = .ok ()) :
    statementCount (stripComments sql) ≤ 1 ∧ ∃ k, firstToken (stripComments sql) = some k ∧
      k.map Char.toUpper ∈ leadingKeywords.map String.toList ∧
      (k.map Char.toUpper = "PRAGMA".toList →
        ∃ p, pragmaTarget (stripComments sql) = some p ∧ lower p ∈ pragmaSafelist.map String.toList) := by
  rw [validateReadonlySql] at h
  simp only at h
  split at h
  · cases h
  split at h
  · cases h
  split at h
  · cases h
  rename_i hcount
  refine ⟨Nat.le_of_not_lt hcount, ?_⟩
  cases hk : firstToken (stripComments sql) with
  | none => simp [hk] at h
  | some k =>
    simp only [hk] at h
    split at h
    · cases h
    rename_i hkeyword
    refine ⟨k, rfl, not_not.mp hkeyword, fun hpragma => ?_⟩
    rw [if_pos hpragma] at h
    cases hp : pragmaTarget (stripComments sql) with
    | none => simp [hp] at h
    | some p =>
      simp only [hp] at h
      split at h
      · rename_i hlist
        exact ⟨p, rfl, hlist⟩
      · cases h

/-! ## The statements behind an accepted text -/

def isLetters : Piece → Bool
  | .token w => w.all isLetter
  | _ => false

/-- The name of a pragma is not cut off, and what is taken for it is no schema. -/
def hasWholeName : List Piece → Bool
  | [] => false
  | p :: ps =>
    match afterDot ps with
    | some q => isOneOf pragmaSafelist (nameOf q)
    | none => isLetters p

/-- The first word is not cut off, WITH goes on to a query, and PRAGMA to a whole name. -/
def HasWholeHead : List Piece → Prop
  | [] => False
  | p :: ps => isLetters p ∧ (isWord "WITH" p → (withVerb 0 false ps).any isQuery) ∧
      (isWord "PRAGMA" p → hasWholeName ps)

structure Starts (sql : List Char) (t k : List Char) (ps : List Piece) : Prop where
  tokens : tokens sql = .token t :: ps.filter Piece.isToken
  ne_semi : Piece.token t ≠ semi
  ne_nil : t ≠ []
  word : t.all isLetter → k = t
  keyword : k.map Char.toUpper ∈ leadingKeywords.map String.toList
  -- what is after PRAGMA, where SQLite reads it as well
  pragma : t.all isLetter → t.map Char.toUpper = "PRAGMA".toList →
    ∃ u rest, ps.filter Piece.isToken = .token u :: rest ∧ Piece.token u ≠ semi ∧ nameOf (.token u) = u ∧
      (u.all isLetter → lower u ∈ pragmaSafelist.map String.toList)

theorem ne_semi_of_head {t : List Char} {c d : Char} (hd : d ∈ t.head?) (hspace : isSpace d ∨ d = c)
    (hc : isLetterIgnoreCase c) :
    Piece.token t ≠ semi := by
  intro he
  cases he
  cases hd
  rcases hspace with h | rfl
  · exact absurd h (by decide)
  · exact absurd hc (by decide)

theorem nameOf_of_head {t : List Char} {c d : Char} (hd : d ∈ t.head?) (hspace : isSpace d ∨ d = c)
    (hc : isLetterIgnoreCase c) :
    nameOf (.token t) = t := by
  have hne : ∀ e : Char, isSpace e = false → isLetterIgnoreCase e = false → d ≠ e := by
    rintro e hs hl rfl
    rcases hspace with h | rfl
    · rw [h] at hs
      cases hs
    · rw [hc] at hl
      cases hl
  cases t with
  | nil => cases hd
  | cons e t =>
    cases hd
    rw [nameOf, if_neg (not_or.mpr ⟨hne _ (by decide) (by decide), hne _ (by decide) (by decide)⟩),
      if_neg (hne _ (by decide) (by decide))]

theorem exists_starts {sql : List Char} (haccepted : validateReadonlySql sql = .ok ()) (hplain : IsPlain sql) :
    ∃ t k ps, Starts sql t k ps := by
  obtain ⟨-, k, hk, hkeyword, hpragma⟩ := validate_ok haccepted
  obtain ⟨hkeq, hkne⟩ := firstToken_eq_some hk
  obtain ⟨c, hhead, hc⟩ := head_of_takeWhile hkeq hkne
  rw [hplain.stripComments] at hhead hkeq hpragma
  obtain ⟨t, r, after, htokens, hfits, hcut, ⟨d, hd, hspace⟩, hdrop⟩ :=
    skip_to_token hplain.cut hhead (isLetterIgnoreCase_of_letter hc)
  have hword : t.all isLetter → k = t := fun ht => by
    rw [hkeq, hdrop, takeWhile_token hfits hcut ht (fun _ h => h) fun _ => isLetterIgnoreCase_of_letter]
  refine ⟨t, k, after, ⟨htokens, ne_semi_of_head hd hspace (isLetterIgnoreCase_of_letter hc), hfits.1,
    hword, hkeyword, fun ht hup => ?_⟩⟩
  rw [← hword ht] at hup
  obtain ⟨p, hp, hlist⟩ := hpragma hup
  obtain ⟨hpeq, hpne⟩ := pragmaTarget_eq_some hp
  have hlen : t.length = 6 := by
    rw [← hword ht, ← List.length_map (f := Char.toUpper), hup]
    rfl
  rw [hdrop, dropWhile_letters ht hfits.1, List.drop_left' hlen] at hpeq
  obtain ⟨c', hhead', hc'⟩ := head_of_takeWhile hpeq hpne
  obtain ⟨u, r', after', htokens', hfits', hcut', ⟨e, he, hspace'⟩, hdrop'⟩ := skip_to_token hcut hhead' hc'
  refine ⟨u, _, htokens', ne_semi_of_head he hspace' hc', nameOf_of_head he hspace' hc', fun hu => ?_⟩
  rw [hdrop', takeWhile_token hfits' hcut' hu (fun _ => isLetterIgnoreCase_of_letter) fun _ h => h] at hpeq
  rwa [← hpeq]

theorem isWord_token {keyword : String} {t : List Char} :
    isWord keyword (.token t) ↔ t.map Char.toUpper = keyword.toList := by
  simp [isWord]

theorem isWord_unique {j k : String} {p : Piece} (hj : isWord j p) (hk : isWord k p) : j.toList = k.toList := by
  cases p with
  | token t => rw [← isWord_token.mp hj, isWord_token.mp hk]
  | space t | lineComment t | blockComment t | openComment t | string t | openString t => cases hj

/-- The pieces that a statement may begin with are words. -/
theorem isLetters_of_isReadOnly {t : List Char} {ps : List Piece}
    (h : isReadOnly pragmaSafelist (.token t :: ps)) : t.all isLetter := by
  have hword : ∀ keyword : String, keyword.toList.all isLetter → isWord keyword (.token t) → t.all isLetter :=
    fun keyword hk h => all_letters_of_map (fun _ => isLetter_of_toUpper) (isWord_token.mp h) hk
  simp only [isReadOnly, isQuery, Bool.or_eq_true, Bool.and_eq_true] at h
  rcases h with (((h | h) | h) | h) | h
  · exact hword "SELECT" (by decide) h
  · exact hword "VALUES" (by decide) h
  · exact hword "EXPLAIN" (by decide) h
  · exact hword "WITH" (by decide) h.1
  · exact hword "PRAGMA" (by decide) h.1

theorem isReadOnly_with {p : Piece} {ps : List Piece} (hp : isWord "WITH" p) :
    isReadOnly pragmaSafelist (p :: ps) ↔ (withVerb 0 false ps).any isQuery := by
  have hother : ∀ k : String, k.toList ≠ "WITH".toList → isWord k p = false := fun k hk =>
    Bool.eq_false_iff.mpr fun h => hk (isWord_unique h hp)
  simp [isReadOnly, isQuery, hp, hother "SELECT" (by decide), hother "VALUES" (by decide),
    hother "EXPLAIN" (by decide), hother "PRAGMA" (by decide)]

theorem isReadOnly_pragma {p : Piece} {ps : List Piece} (hp : isWord "PRAGMA" p) :
    isReadOnly pragmaSafelist (p :: ps) ↔ (pragmaName ps).any (isOneOf pragmaSafelist) := by
  have hother : ∀ k : String, k.toList ≠ "PRAGMA".toList → isWord k p = false := fun k hk =>
    Bool.eq_false_iff.mpr fun h => hk (isWord_unique h hp)
  simp [isReadOnly, isQuery, hp, hother "SELECT" (by decide), hother "VALUES" (by decide),
    hother "EXPLAIN" (by decide), hother "WITH" (by decide)]

theorem isReadOnly_cons {p : Piece} {ps : List Piece} : isReadOnly pragmaSafelist (p :: ps) ↔
    (isWord "VALUES" p ∨ leadingKeywords.any (isWord · p)) ∧
      (isWord "WITH" p → (withVerb 0 false ps).any isQuery) ∧
      (isWord "PRAGMA" p → (pragmaName ps).any (isOneOf pragmaSafelist)) := by
  constructor
  · intro h
    refine ⟨?_, fun hp => (isReadOnly_with hp).mp h, fun hp => (isReadOnly_pragma hp).mp h⟩
    simp only [isReadOnly, isQuery, Bool.or_eq_true, Bool.and_eq_true] at h
    rcases h with (((h | h) | h) | h) | h
    · exact .inr (by simp [leadingKeywords, h])
    · exact .inl h
    · exact .inr (by simp [leadingKeywords, h])
    · exact .inr (by simp [leadingKeywords, h.1])
    · exact .inr (by simp [leadingKeywords, h.1])
  · rintro ⟨hword, hwith, hpragma⟩
    simp only [leadingKeywords, List.any_cons, List.any_nil, Bool.or_eq_true] at hword
    rcases hword with hp | hp | hp | hp | hp | hp
    · simp [isReadOnly, isQuery, hp]
    · simp [isReadOnly, isQuery, hp]
    · exact (isReadOnly_with hp).mpr (hwith hp)
    · simp [isReadOnly, hp]
    · exact (isReadOnly_pragma hp).mpr (hpragma hp)
    · cases hp

theorem isOneOf_iff {names : List String} {name : List Char} :
    isOneOf names name ↔ name.map Char.toLower ∈ names.map String.toList := by
  simp [isOneOf]

/-- A name that SQLite reads and the check has read is on the list when it is whole. -/
theorem pragmaName_iff {u : List Char} {ps : List Piece} (hname : nameOf (.token u) = u)
    (hlist : u.all isLetter → lower u ∈ pragmaSafelist.map String.toList) :
    (pragmaName (.token u :: ps)).any (isOneOf pragmaSafelist) ↔ hasWholeName (.token u :: ps) := by
  rw [pragmaName, hasWholeName, Option.any_some]
  cases afterDot ps with
  | some q => rfl
  | none =>
    rw [Option.getD_none, hname]
    constructor
    · intro h
      obtain ⟨n, hn, heq⟩ := List.mem_map.mp (isOneOf_iff.mp h)
      have hall : ∀ m ∈ pragmaSafelist, m.toList.all isLetter := by decide
      exact all_letters_of_map (fun _ => isLetter_of_toLower) heq.symm (hall n hn)
    · intro h
      rw [isOneOf_iff, ← lower_of_letters h]
      exact hlist h

theorem Starts.isReadOnly_iff {sql t k : List Char} (h : Starts sql t k ps) :
    isReadOnly pragmaSafelist (.token t :: (ps.filter Piece.isToken).takeWhile (· ≠ semi)) ↔
      HasWholeHead (.token t :: (ps.filter Piece.isToken).takeWhile (· ≠ semi)) := by
  -- what is after PRAGMA in the statement
  have hpragma : t.all isLetter → isWord "PRAGMA" (.token t) →
      ((pragmaName ((ps.filter Piece.isToken).takeWhile (· ≠ semi))).any (isOneOf pragmaSafelist) ↔
        hasWholeName ((ps.filter Piece.isToken).takeWhile (· ≠ semi))) := by
    intro ht hp
    obtain ⟨u, rest, hrest, hne, hname, hlist⟩ := h.pragma ht (isWord_token.mp hp)
    rw [hrest, List.takeWhile_cons_of_pos (by simpa using hne)]
    exact pragmaName_iff hname hlist
  constructor
  · intro hread
    have ht := isLetters_of_isReadOnly hread
    exact ⟨ht, fun hp => (isReadOnly_with hp).mp hread,
      fun hp => (hpragma ht hp).mp ((isReadOnly_pragma hp).mp hread)⟩
  · rintro ⟨ht, hwith, hname⟩
    have hkeyword := h.keyword
    rw [h.word ht] at hkeyword
    simp only [leadingKeywords, List.map_cons, List.map_nil, List.mem_cons, List.not_mem_nil, or_false,
      ← isWord_token] at hkeyword
    rcases hkeyword with hp | hp | hp | hp
    · simp [isReadOnly, isQuery, hp]
    · exact (isReadOnly_with hp).mpr (hwith hp)
    · simp [isReadOnly, hp]
    · exact (isReadOnly_pragma hp).mpr ((hpragma ht hp).mpr (hname hp))

theorem seen_of_letters {t : List Char} (ht : t.all isLetter) (hne : t ≠ []) : seen (.token t) := by
  cases t with
  | nil => exact absurd rfl hne
  | cons c t =>
    rw [List.all_cons, Bool.and_eq_true] at ht
    have hsemi : c ≠ ';' := by
      rintro rfl
      exact absurd ht.1 (by decide)
    simp [seen, masked, stripped, Piece.text, not_isSpace_of_letter ht.1, hsemi]

/-- A text of which the check sees every statement has at most one. -/
theorem length_statements {sql : List Char} (haccepted : validateReadonlySql sql = .ok ())
    (hplain : IsPlain sql)
    (hseen : ∀ st ∈ statements sql, st.any seen) : (statements sql).length ≤ 1 := by
  have hcount := (validate_ok haccepted).1
  rw [statementCount_eq, hplain.mask] at hcount
  refine Nat.le_trans ?_ (Nat.le_trans (seen_le_nonblankParts (SqliteReading.read sql)) hcount)
  rw [← List.filter_eq_self.mpr hseen]
  exact (List.filter_sublist.filter _).length_le

/-- In a plain text the statement only reads exactly when its first word is whole and the
check sees something of every later statement. -/
theorem readOnly_iff_of_plain {sql : List Char} (haccepted : validateReadonlySql sql = .ok ())
    (hplain : IsPlain sql) :
    (∃ st, statements sql = [st] ∧ isReadOnly pragmaSafelist st) ↔
      (∃ st ∈ (statements sql).head?, HasWholeHead st) ∧ ∀ st ∈ (statements sql).tail, st.any seen := by
  obtain ⟨t, k, ps, hstarts⟩ := exists_starts haccepted hplain
  obtain ⟨later, hstatements⟩ := SqliteReading.statements_of_tokens hstarts.tokens hstarts.ne_semi
  have hlen := length_statements haccepted hplain
  rw [hstatements] at hlen ⊢
  constructor
  · rintro ⟨st, hst, hread⟩
    cases hst
    exact ⟨⟨_, rfl, hstarts.isReadOnly_iff.mp hread⟩, fun st hst => by cases hst⟩
  · rintro ⟨⟨st, hst, hhead⟩, hlater⟩
    cases hst
    have hfirst : (Piece.token t :: (ps.filter Piece.isToken).takeWhile (· ≠ semi)).any seen := by
      rw [List.any_cons, seen_of_letters hhead.1 hstarts.ne_nil, Bool.true_or]
    have hlen := hlen (List.forall_mem_cons.mpr ⟨hfirst, hlater⟩)
    obtain rfl : later = [] := List.length_eq_zero_iff.mp (by simpa using hlen)
    exact ⟨_, rfl, hstarts.isReadOnly_iff.mpr hhead⟩

/-! ## All accepted texts -/

/-- After PRAGMA comes the target that the check has read, whole and with no dot after it, or
a name of the safelist all the same. -/
def hasTarget (target : Option (List Char)) : List Piece → Bool
  | [] => false
  | p :: ps =>
    match afterDot ps with
    | some q => isOneOf pragmaSafelist (nameOf q)
    | none => isLetters p && target.map .token = some p || isOneOf pragmaSafelist (nameOf p)

/-- What the check takes for the start of the statement is SQLite's start of it, or one as
good, and what separates two statements is not hidden from it. -/
structure Meets (sql : List Char) (p : Piece) (ps : List Piece) : Prop where
  word : (firstToken (stripComments sql)).map .token = some p ∨ isWord "VALUES" p ∨
    leadingKeywords.any (isWord · p)
  verb : isWord "WITH" p → (withVerb 0 false ps).any isQuery
  pragma : isWord "PRAGMA" p → hasTarget (pragmaTarget (stripComments sql)) ps
  apart : ∀ before after, SqliteReading.read sql = before ++ semi :: after → before.any inStatement →
    after.any inStatement → Shows sql (before.flatMap Piece.text).length

theorem firstToken_of_pragmaTarget {s t : List Char} (h : pragmaTarget s = some t) :
    ∃ k, firstToken s = some k ∧ k.map Char.toUpper = "PRAGMA".toList := by
  rw [pragmaTarget] at h
  simp only at h
  split at h
  · rename_i hup
    split at h
    · rename_i hr
      have hletters := all_letters_of_map (fun _ => isLetter_of_toUpper) hup (by decide)
      have hk : (s.dropWhile isSpace).takeWhile isLetter = (s.dropWhile isSpace).take 6 := by
        conv_lhs => rw [← List.take_append_drop 6 (s.dropWhile isSpace)]
        rw [List.takeWhile_append_of_pos fun c hc => List.all_eq_true.mp hletters c hc]
        cases hd : (s.dropWhile isSpace).drop 6 with
        | nil => simp
        | cons c u =>
          rw [hd] at hr
          have hspace : isSpace c := by simpa using hr.1
          have hc : ¬ isLetter c := fun hl => by
            rw [not_isSpace_of_letter hl] at hspace
            cases hspace
          rw [List.takeWhile_cons_of_neg hc, List.append_nil]
      refine ⟨_, ?_, hup⟩
      rw [firstToken]
      simp only [hk]
      rw [if_neg]
      intro hnil
      rw [hnil] at hup
      cases hup
    · cases h
  · cases h

theorem nameOf_of_letters {u : List Char} (h : u.all isLetter) : nameOf (.token u) = u := by
  cases u with
  | nil => rfl
  | cons c u =>
    rw [List.all_cons, Bool.and_eq_true] at h
    have hne : ∀ e : Char, isLetter e = false → c ≠ e := by
      rintro e he rfl
      rw [h.1] at he
      cases he
    rw [nameOf, if_neg (not_or.mpr ⟨hne _ (by decide), hne _ (by decide)⟩), if_neg (hne _ (by decide))]

theorem hasTarget_iff {sql : List Char} (haccepted : validateReadonlySql sql = .ok ()) {ps : List Piece} :
    hasTarget (pragmaTarget (stripComments sql)) ps ↔ (pragmaName ps).any (isOneOf pragmaSafelist) := by
  cases ps with
  | nil => exact Iff.rfl
  | cons p ps =>
    rw [hasTarget, pragmaName, Option.any_some]
    cases afterDot ps with
    | some q => rfl
    | none =>
      rw [Option.getD_none, Bool.or_eq_true, Bool.and_eq_true, decide_eq_true_iff]
      refine or_iff_right_of_imp ?_
      rintro ⟨hletters, htarget⟩
      obtain ⟨u, hu, rfl⟩ := Option.map_eq_some_iff.mp htarget
      obtain ⟨k, hk, hup⟩ := firstToken_of_pragmaTarget hu
      obtain ⟨-, k', hk', -, hpragma⟩ := validate_ok haccepted
      rw [hk] at hk'
      cases hk'
      obtain ⟨u', hu', hlist⟩ := hpragma hup
      rw [hu] at hu'
      cases hu'
      rw [nameOf_of_letters hletters, isOneOf_iff, ← lower_of_letters hletters]
      exact hlist

/-- **An accepted text is, for SQLite, one statement that only reads** exactly when the
check has seen what SQLite sees of its start and of its separators. -/
theorem readOnly_iff {sql : List Char} (haccepted : validateReadonlySql sql = .ok ()) :
    (∃ st, statements sql = [st] ∧ isReadOnly pragmaSafelist st) ↔
      ∃ p ps, (statements sql).head? = some (p :: ps) ∧ Meets sql p ps := by
  have hsplit : statements sql = statementsOf (SqliteReading.read sql) := rfl
  obtain ⟨hcount, k, hk, hkeyword, -⟩ := validate_ok haccepted
  constructor
  · rintro ⟨st, hst, hread⟩
    cases st with
    | nil => cases hread
    | cons p ps =>
      obtain ⟨hword, hverb, hpragma⟩ := isReadOnly_cons.mp hread
      refine ⟨p, ps, by rw [hst]; rfl, .inr hword, hverb, fun hp => (hasTarget_iff haccepted).mpr (hpragma hp),
        fun before after hpieces hb ha => ?_⟩
      have htwo := two_le_statementsOf.mpr ⟨before, after, hpieces, hb, ha⟩
      rw [← hsplit, hst, List.length_singleton] at htwo
      omega
  · rintro ⟨p, ps, hhead, hmeets⟩
    have hlen : (statements sql).length ≤ 1 := by
      by_contra hlen
      obtain ⟨before, after, hpieces, hb, ha⟩ := two_le_statementsOf.mp (by rw [← hsplit]; omega)
      have := two_le_statementCount (hmeets.apart before after hpieces hb ha)
      omega
    obtain ⟨later, hst⟩ := List.head?_eq_some_iff.mp hhead
    rw [hst, List.length_cons] at hlen
    obtain rfl : later = [] := List.length_eq_zero_iff.mp (by omega)
    refine ⟨_, hst, isReadOnly_cons.mpr ⟨?_, hmeets.verb, fun hp => (hasTarget_iff haccepted).mp (hmeets.pragma hp)⟩⟩
    -- the word that the check reads is on its list
    rcases hmeets.word with hp | hp
    · rw [hk] at hp
      cases hp
      obtain ⟨keyword, hmem, heq⟩ := List.mem_map.mp hkeyword
      exact .inr (List.any_eq_true.mpr ⟨keyword, hmem, isWord_token.mpr heq.symm⟩)
    · exact hp

def searchTitle : List Char := "SELECT * FROM visits WHERE title = 'a/*b'".toList

theorem readOnly_iff_searchTitle : ∃ st, statements searchTitle = [st] ∧ isReadOnly pragmaSafelist st := by
  refine (readOnly_iff (show validateReadonlySql searchTitle = .ok () by decide +kernel)).mpr
    ⟨.token "SELECT".toList, ((statements searchTitle).head?.getD []).tail, by decide +kernel,
      .inl (by decide +kernel), fun hp => absurd hp (by decide +kernel), fun hp => absurd hp (by decide +kernel),
      fun before after hpieces => ?_⟩
  have hno : semi ∉ SqliteReading.read searchTitle := by decide +kernel
  rw [hpieces] at hno
  exact absurd (by simp) hno

theorem with_delete_accepted :
    validateReadonlySql "WITH x AS (SELECT 1) DELETE FROM visits".toList = .ok () ∧
      ¬ ∃ st, statements "WITH x AS (SELECT 1) DELETE FROM visits".toList = [st] ∧
        isReadOnly pragmaSafelist st := by
  refine ⟨by decide +kernel, ?_⟩
  rintro ⟨st, hst, hread⟩
  have hall : (statements "WITH x AS (SELECT 1) DELETE FROM visits".toList).all
    (isReadOnly pragmaSafelist) := by
    rw [hst, List.all_cons, hread]
    rfl
  exact absurd hall (by decide +kernel)

end McpServer

end VisitLogger
