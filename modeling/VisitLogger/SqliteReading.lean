import Mathlib.Data.List.TakeWhile
import Mathlib.Tactic.Common

/-!
# How SQLite reads a text

`read` cuts a text into SQLite's tokens, comments and white space, `statements` are
the tokens between the semicolons. A number is read as a word, and a blob as the word
`x` and a string: neither ends a statement or starts one.
-/

namespace SqliteReading

abbrev quote : Char := Char.ofNat 39
abbrev doubleQuote : Char := Char.ofNat 34
abbrev backtick : Char := Char.ofNat 96
abbrev bom : Char := Char.ofNat 0xFEFF

inductive Piece where
  | space (text : List Char)
  | lineComment (text : List Char)
  | blockComment (text : List Char)
  /-- A comment that the text ends in. -/
  | openComment (text : List Char)
  | string (text : List Char)
  /-- A string that the text ends in, which is an error. -/
  | openString (text : List Char)
  | token (text : List Char)
  deriving DecidableEq, Repr

def Piece.text : Piece → List Char
  | space t | lineComment t | blockComment t | openComment t | string t | openString t | token t => t

/-! ## One piece -/

def startsSpace (c : Char) : Bool := c = ' ' ∨ c = '\t' ∨ c = '\n' ∨ c = '\r' ∨ c = Char.ofNat 12

/-- `sqlite3Isspace`: in a run of white space there may be vertical tabs. -/
def isSpace (c : Char) : Bool := startsSpace c ∨ c = Char.ofNat 11

/-- `IdChar`. -/
def isIdChar (c : Char) : Bool := c.isAlphanum ∨ c = '_' ∨ c = '$' ∨ 128 ≤ c.toNat

/-- Up to the first `*/`. -/
def splitClose : List Char → Option (List Char × List Char)
  | [] => none
  | c :: s =>
    if c = '*' ∧ s.head? = some '/' then some ([c, '/'], s.tail)
    else (splitClose s).map fun r => (c :: r.1, r.2)

/-- Up to the quote that ends the text; a doubled one stands for itself. -/
def splitQuote (q : Char) : List Char → Option (List Char × List Char)
  | [] => none
  | [c] => if c = q then some ([c], []) else none
  | c :: d :: s =>
    if c ≠ q then (splitQuote q (d :: s)).map fun r => (c :: r.1, r.2)
    else if d = q then (splitQuote q s).map fun r => (c :: d :: r.1, r.2)
    else some ([c], d :: s)

/-- A variable: its name, with `::` in it, and a suffix in parentheses. `n` is the
number of characters of the name so far; the flag is set at the second colon. -/
def splitVariable : Bool → Nat → List Char → List Char × List Char
  | _, _, [] => ([], [])
  | true, n, c :: s =>
    let r := splitVariable false n s
    (c :: r.1, r.2)
  | false, n, c :: s =>
    if isIdChar c then
      let r := splitVariable false (n + 1) s
      (c :: r.1, r.2)
    else if c = '(' ∧ 0 < n then
      let r := s.dropWhile fun d => !isSpace d && d != ')'
      let t := c :: s.takeWhile fun d => !isSpace d && d != ')'
      if r.head? = some ')' then (t ++ [')'], r.tail) else (t, r)
    else if c = ':' ∧ s.head? = some ':' then
      let r := splitVariable true n s
      (c :: r.1, r.2)
    else ([], c :: s)

def next : List Char → Option (Piece × List Char)
  | [] => none
  | c :: s =>
    if startsSpace c then some (.space (c :: s.takeWhile isSpace), s.dropWhile isSpace)
    else if c = bom then some (.space [c], s)
    else if c = '-' ∧ s.head? = some '-' then some (.lineComment (c :: s.takeWhile (· ≠ '\n')),
      s.dropWhile (· ≠ '\n'))
    else if c = '/' ∧ s.head? = some '*' ∧ s.tail ≠ [] then
      match splitClose s.tail with
      | some r => some (.blockComment (c :: '*' :: r.1), r.2)
      | none => some (.openComment (c :: s), [])
    else if c = quote then
      match splitQuote c s with
      | some r => some (.string (c :: r.1), r.2)
      | none => some (.openString (c :: s), [])
    else if c = doubleQuote ∨ c = backtick then
      match splitQuote c s with
      | some r => some (.token (c :: r.1), r.2)
      | none => some (.token (c :: s), [])
    else if c = '[' then
      let t := s.takeWhile (· ≠ ']')
      let r := s.dropWhile (· ≠ ']')
      some (.token (c :: t ++ r.take 1), r.tail)
    else if c = '$' ∨ c = '@' ∨ c = ':' ∨ c = '#' then
      let r := splitVariable false 0 s
      some (.token (c :: r.1), r.2)
    else if isIdChar c then some (.token (c :: s.takeWhile isIdChar), s.dropWhile isIdChar)
    else some (.token [c], s)

/-! ## All pieces -/

def pieces : Nat → List Char → List Piece
  | 0, _ => []
  | n + 1, s =>
    match next s with
    | none => []
    | some (p, r) => p :: pieces n r

/-- SQLite stops at a NUL. -/
def read (s : List Char) : List Piece :=
  let s := s.takeWhile fun c => c.toNat ≠ 0
  pieces s.length s

def Piece.isToken : Piece → Bool
  | string _ | openString _ | token _ => true
  | _ => false

def tokens (s : List Char) : List Piece := (read s).filter Piece.isToken

abbrev semi : Piece := .token [';']

def statements (s : List Char) : List (List Piece) := ((tokens s).splitOn semi).filter (· ≠ [])

/-! ## What a statement is -/

def isWord (keyword : String) : Piece → Bool
  | .token t => t.map Char.toUpper = keyword.toList
  | _ => false

/-- The name in quotes. -/
def unquote (q : Char) : List Char → List Char
  | [] => []
  | [c] => if c = q then [] else [c]
  | c :: d :: s => if c = q ∧ d = q then c :: unquote q s else c :: unquote q (d :: s)

def nameOf : Piece → List Char
  | .token (c :: t) =>
    if c = doubleQuote ∨ c = backtick then unquote c t
    else if c = '[' then t.takeWhile (· ≠ ']')
    else c :: t
  | .string (c :: t) => unquote c t
  | _ => []

/-- The token after the common table expressions: the first one after a closing
parenthesis that goes on neither with `AS` nor with a comma. -/
def withVerb : Nat → Bool → List Piece → Option Piece
  | _, _, [] => none
  | depth, closed, p :: ps =>
    if closed ∧ p ≠ .token [','] ∧ ¬ isWord "AS" p then some p
    else if p = .token ['('] then withVerb (depth + 1) false ps
    else if p = .token [')'] then withVerb (depth - 1) (depth = 1) ps
    else withVerb depth false ps

/-- What follows a schema and a dot. -/
def afterDot : List Piece → Option Piece
  | .token ['.'] :: q :: _ => some q
  | _ => none

def pragmaName : List Piece → Option (List Char)
  | [] => none
  | p :: ps => some (nameOf ((afterDot ps).getD p))

/-- The name, with case ignored. -/
def isOneOf (names : List String) (name : List Char) : Bool :=
  names.any fun n => n.toList = name.map Char.toLower

def isQuery (p : Piece) : Bool := isWord "SELECT" p || isWord "VALUES" p

/-- A query, an EXPLAIN, or a pragma of the list. -/
def isReadOnly (pragmas : List String) : List Piece → Bool
  | [] => false
  | p :: ps =>
    isQuery p || isWord "EXPLAIN" p || isWord "WITH" p && (withVerb 0 false ps).any isQuery ||
      isWord "PRAGMA" p && (pragmaName ps).any (isOneOf pragmas)

/-! ## The pieces of a text -/

/-- No quote ends the text within it; doubled ones stand for themselves. -/
inductive Quoted (q : Char) : List Char → Prop where
  | nil : Quoted q []
  | plain {c s} : c ≠ q → Quoted q s → Quoted q (c :: s)
  | double {s} : Quoted q s → Quoted q (q :: q :: s)

theorem splitClose_eq_some {s b r : List Char} (h : splitClose s = some (b, r)) :
    s = b ++ r ∧ ∃ i, b = i ++ ['*', '/'] ∧ ¬ ['*', '/'] <:+: i ++ ['*'] := by
  induction s generalizing b with
  | nil => cases h
  | cons c s ih =>
    rw [splitClose] at h
    split at h
    · rename_i hclose
      obtain ⟨rfl, hhead⟩ := hclose
      cases h
      cases s with
      | nil => cases hhead
      | cons d s =>
        cases hhead
        exact ⟨rfl, [], rfl, by decide⟩
    · rename_i hno
      obtain ⟨⟨b', r'⟩, hsplit, heq⟩ := Option.map_eq_some_iff.mp h
      cases heq
      obtain ⟨rfl, i, rfl, hi⟩ := ih hsplit
      refine ⟨rfl, c :: i, rfl, fun hin => ?_⟩
      rcases List.infix_cons_iff.mp hin with hpre | hin
      · obtain ⟨rfl, hhead⟩ := List.cons_prefix_cons.mp hpre
        refine hno ⟨rfl, ?_⟩
        rw [List.singleton_prefix_iff_head?_eq_some] at hhead
        cases i with
        | nil => cases hhead
        | cons d i => exact hhead
      · exact hi hin

theorem splitClose_eq_none {s : List Char} (h : splitClose s = none) : ¬ ['*', '/'] <:+: s := by
  induction s with
  | nil => decide
  | cons c s ih =>
    rw [splitClose] at h
    split at h
    · cases h
    · rename_i hno
      intro hin
      rcases List.infix_cons_iff.mp hin with hpre | hin
      · obtain ⟨rfl, hhead⟩ := List.cons_prefix_cons.mp hpre
        exact hno ⟨rfl, List.singleton_prefix_iff_head?_eq_some.mp hhead⟩
      · exact ih (Option.map_eq_none_iff.mp h) hin

theorem splitQuote_eq_some {q : Char} {s b r : List Char} (h : splitQuote q s = some (b, r)) :
    s = b ++ r ∧ (∃ i, b = i ++ [q] ∧ Quoted q i) ∧ r.head? ≠ some q := by
  induction s using splitQuote.induct q generalizing b with
  | case1 => cases h
  | case2 => 
    simp only [splitQuote, if_true] at h
    cases h
    exact ⟨rfl, ⟨[], rfl, .nil⟩, by simp⟩
  | case3 c hc =>
    simp only [splitQuote, if_neg hc] at h
    cases h
  | case4 c d s hc ih =>
    rw [splitQuote, if_pos hc] at h
    obtain ⟨⟨b', r'⟩, hsplit, heq⟩ := Option.map_eq_some_iff.mp h
    cases heq
    obtain ⟨hs, ⟨i, rfl, hi⟩, hr⟩ := ih hsplit
    exact ⟨by rw [hs]; rfl, ⟨c :: i, rfl, .plain hc hi⟩, hr⟩
  | case5 c s hc ih =>
    rw [not_not] at hc
    subst hc
    rw [splitQuote, if_neg (not_not.mpr rfl), if_pos rfl] at h
    obtain ⟨⟨b', r'⟩, hsplit, heq⟩ := Option.map_eq_some_iff.mp h
    cases heq
    obtain ⟨hs, ⟨i, rfl, hi⟩, hr⟩ := ih hsplit
    exact ⟨by rw [hs]; rfl, ⟨_ :: _ :: i, rfl, .double hi⟩, hr⟩
  | case6 c d s hc hd =>
    rw [splitQuote, if_neg hc, if_neg hd] at h
    cases h
    rw [not_not] at hc
    exact ⟨rfl, ⟨[], by rw [hc]; rfl, .nil⟩, by simpa using hd⟩

/-- A text that no quote ends: the last one is open. -/
theorem splitQuote_eq_none {q : Char} {s : List Char} (h : splitQuote q s = none) : Quoted q s := by
  induction s using splitQuote.induct q with
  | case1 => exact .nil
  | case2 => simp [splitQuote] at h
  | case3 c hc => exact .plain hc .nil
  | case4 c d s hc ih =>
    rw [splitQuote, if_pos hc] at h
    exact .plain hc (ih (Option.map_eq_none_iff.mp h))
  | case5 c s hc ih =>
    rw [not_not] at hc
    subst hc
    rw [splitQuote, if_neg (not_not.mpr rfl), if_pos rfl] at h
    exact .double (ih (Option.map_eq_none_iff.mp h))
  | case6 c d s hc hd =>
    rw [splitQuote, if_neg hc, if_neg hd] at h
    cases h

/-- What follows does not go on with the sign that the text ends in. -/
def EndsWell (t r : List Char) : Prop :=
  ∀ c ∈ t.getLast?, (c = '-' → r.head? ≠ some '-') ∧ (c = '/' → r.head? = some '*' → r = ['*'])

theorem EndsWell.of_ne {t r : List Char} (h : ∀ c ∈ t.getLast?, c ≠ '-' ∧ c ≠ '/') : EndsWell t r :=
  fun c hc => ⟨fun he => absurd he (h c hc).1, fun he => absurd he (h c hc).2⟩

theorem EndsWell.nil (t : List Char) : EndsWell t [] := fun c _ => ⟨fun _ => by simp, fun _ h => by cases h⟩

theorem EndsWell.cons {c : Char} {t r : List Char} (hc : c ≠ '-' ∧ c ≠ '/') (h : EndsWell t r) :
    EndsWell (c :: t) r := by
  intro d hd
  rw [List.getLast?_cons] at hd
  cases ht : t.getLast? with
  | none =>
    rw [ht] at hd
    cases hd
    exact ⟨fun he => absurd he hc.1, fun he => absurd he hc.2⟩
  | some e =>
    rw [ht] at hd
    cases hd
    exact h e ht

theorem EndsWell.concat {c : Char} (hc : c ≠ '-' ∧ c ≠ '/') (t r : List Char) : EndsWell (t ++ [c]) r :=
  .of_ne fun d hd => by
    rw [List.getLast?_concat] at hd
    cases hd
    exact hc

theorem head_dropWhile {p : Char → Bool} {s : List Char} : ∀ c ∈ (s.dropWhile p).head?, p c = false := by
  intro c hc
  have := List.head?_dropWhile_not p s
  rw [Option.mem_def.mp hc] at this
  simpa using this

theorem isIdChar_ne {c : Char} (h : isIdChar c = true) : c ≠ '-' ∧ c ≠ '/' := by
  constructor
  · rintro rfl
    exact absurd h (by decide)
  · rintro rfl
    exact absurd h (by decide)

theorem takeWhile_head {p : Char → Bool} {c : Char} {s : List Char} (h : (s.dropWhile p).head? = some c) :
    s = s.takeWhile p ++ [c] ++ (s.dropWhile p).tail := by
  have hs := List.takeWhile_append_dropWhile (p := p) (l := s)
  cases hr : s.dropWhile p with
  | nil =>
    rw [hr] at h
    cases h
  | cons d r =>
    rw [hr] at h hs
    cases h
    rw [List.append_assoc]
    exact hs.symm

theorem isSpace_ne {c : Char} (h : isSpace c = true) : c ≠ '-' ∧ c ≠ '/' ∧ c ≠ '*' := by
  refine ⟨?_, ?_, ?_⟩ <;> rintro rfl <;> exact absurd h (by decide)

theorem splitVariable_spec (colon : Bool) (n : Nat) (s : List Char) (h : colon = true → s.head? = some ':') :
    s = (splitVariable colon n s).1 ++ (splitVariable colon n s).2 ∧
      EndsWell (splitVariable colon n s).1 (splitVariable colon n s).2 := by
  induction colon, n, s using splitVariable.induct with
  | case1 => exact ⟨by simp [splitVariable], by simp only [splitVariable]; exact .nil _⟩
  | case2 n c s ih =>
    obtain ⟨htext, hends⟩ := ih fun h => by cases h
    rw [splitVariable]
    refine ⟨congrArg (c :: ·) htext, hends.cons ?_⟩
    obtain rfl : c = ':' := Option.some.inj (h rfl)
    exact ⟨by decide, by decide⟩
  | case3 n c s hid ih =>
    obtain ⟨htext, hends⟩ := ih fun h => by cases h
    rw [splitVariable, if_pos hid]
    exact ⟨congrArg (c :: ·) htext, hends.cons (isIdChar_ne hid)⟩
  | case4 n c s hid hopen r hclose =>
    rw [splitVariable, if_neg hid, if_pos hopen]
    simp only
    rw [if_pos hclose]
    refine ⟨?_, EndsWell.concat ⟨by decide, by decide⟩ _ _⟩
    exact congrArg (c :: ·) (takeWhile_head hclose)
  | case5 n c s hid hopen r hclose =>
    rw [splitVariable, if_neg hid, if_pos hopen]
    simp only
    rw [if_neg hclose]
    refine ⟨by simp, fun d hd => ?_⟩
    -- what follows is white space, or nothing
    have hspace : ∀ e ∈ (s.dropWhile fun d => !isSpace d && d != ')').head?, isSpace e := by
      intro e he
      have hstop := head_dropWhile e he
      have hne : e ≠ ')' := fun h => hclose (h ▸ he)
      simpa [hne] using hstop
    refine ⟨fun _ he => (isSpace_ne (hspace _ he)).1 rfl, fun _ he => absurd rfl (isSpace_ne (hspace _ he)).2.2⟩
  | case6 n c s hid hopen hcolon ih =>
    obtain ⟨htext, hends⟩ := ih fun _ => hcolon.2
    rw [splitVariable, if_neg hid, if_neg hopen, if_pos hcolon]
    refine ⟨congrArg (c :: ·) htext, hends.cons ?_⟩
    rw [hcolon.1]
    exact ⟨by decide, by decide⟩
  | case7 n c s hid hopen hcolon =>
    rw [splitVariable, if_neg hid, if_neg hopen, if_neg hcolon]
    exact ⟨rfl, fun d hd => by cases hd⟩

def Fits (r : List Char) : Piece → Prop
  | .space t => t ≠ [] ∧ ∀ c ∈ t, isSpace c ∨ c = bom
  | .lineComment t => ∃ b, t = '-' :: '-' :: b ∧ '\n' ∉ b ∧ (r = [] ∨ r.head? = some '\n')
  | .blockComment t => ∃ i, t = '/' :: '*' :: (i ++ ['*', '/']) ∧ ¬ ['*', '/'] <:+: i ++ ['*']
  | .openComment t => ∃ b, t = '/' :: '*' :: b ∧ ¬ ['*', '/'] <:+: b ∧ r = []
  | .string t => ∃ i, t = quote :: (i ++ [quote]) ∧ Quoted quote i ∧ r.head? ≠ some quote
  | .openString t => ∃ b, t = quote :: b ∧ Quoted quote b ∧ r = []
  | .token t => t ≠ [] ∧ EndsWell t r ∧
      (∀ c ∈ t.head?, isIdChar c → c ≠ '$' → (∀ d ∈ t, isIdChar d) ∧ ∀ d ∈ r.head?, ¬ isIdChar d)

theorem fits_space {c : Char} (hc : startsSpace c) (s : List Char) :
    Fits (s.dropWhile isSpace) (.space (c :: s.takeWhile isSpace)) := by
  refine ⟨by simp, fun d hd => ?_⟩
  rcases List.mem_cons.mp hd with rfl | hd
  · exact .inl (by simp only [isSpace, hc, true_or, decide_true])
  · exact .inl (by simpa using List.mem_takeWhile_imp hd)

theorem fits_lineComment {s : List Char} (hs : s.head? = some '-') :
    Fits (s.dropWhile (· ≠ '\n')) (.lineComment ('-' :: s.takeWhile (· ≠ '\n'))) := by
  cases s with
  | nil => cases hs
  | cons d s =>
    cases hs
    refine ⟨s.takeWhile (· ≠ '\n'), rfl, fun hmem => by simpa using List.mem_takeWhile_imp hmem, ?_⟩
    cases hr : ('-' :: s).dropWhile (· ≠ '\n') with
    | nil => exact .inl rfl
    | cons e r =>
      have := head_dropWhile (p := (· ≠ '\n')) (s := '-' :: s) e (by rw [hr]; rfl)
      exact .inr (by simpa using this)

theorem fits_token {c : Char} {t r : List Char} (hends : EndsWell (c :: t) r) (hc : isIdChar c → c = '$') :
    Fits r (.token (c :: t)) := by
  refine ⟨by simp, hends, fun d hd hid hne => ?_⟩
  cases hd
  exact absurd (hc hid) hne

theorem fits_quotedToken {q : Char} (hq : q ≠ '-' ∧ q ≠ '/') (hid : ¬ isIdChar q) {s b r : List Char}
    (h : splitQuote q s = some (b, r)) : Fits r (.token (q :: b)) := by
  obtain ⟨-, ⟨i, hi, -⟩, -⟩ := splitQuote_eq_some h
  refine fits_token ?_ fun h => absurd h hid
  rw [hi]
  exact EndsWell.cons hq (EndsWell.concat hq i _)

theorem fits_bracket (s : List Char) :
    s = s.takeWhile (· ≠ ']') ++ (s.dropWhile (· ≠ ']')).take 1 ++ (s.dropWhile (· ≠ ']')).tail ∧
      Fits (s.dropWhile (· ≠ ']')).tail
        (.token ('[' :: s.takeWhile (· ≠ ']') ++ (s.dropWhile (· ≠ ']')).take 1)) := by
  have hid : isIdChar '[' → '[' = '$' := fun h => absurd h (by decide)
  have hs := List.takeWhile_append_dropWhile (p := (· ≠ ']')) (l := s)
  cases hr : s.dropWhile (· ≠ ']') with
  | nil =>
    rw [hr] at hs
    exact ⟨by simpa using hs.symm, fits_token (.nil _) hid⟩
  | cons d r =>
    have hd : d = ']' := by
      have := head_dropWhile (p := (· ≠ ']')) (s := s) d (by rw [hr]; rfl)
      simpa using this
    rw [hr, hd] at hs
    refine ⟨by simpa [hd] using hs.symm, fits_token ?_ hid⟩
    rw [hd]
    exact EndsWell.concat ⟨by decide, by decide⟩ ('[' :: s.takeWhile (· ≠ ']')) _

theorem fits_variable {c : Char} (hc : c = '$' ∨ c = '@' ∨ c = ':' ∨ c = '#') (s : List Char) :
    s = (splitVariable false 0 s).1 ++ (splitVariable false 0 s).2 ∧
      Fits (splitVariable false 0 s).2 (.token (c :: (splitVariable false 0 s).1)) := by
  obtain ⟨htext, hends⟩ := splitVariable_spec false 0 s (fun h => by cases h)
  refine ⟨htext, fits_token (hends.cons ?_) ?_⟩
  · rcases hc with rfl | rfl | rfl | rfl <;> exact ⟨by decide, by decide⟩
  · rcases hc with rfl | rfl | rfl | rfl
    · exact fun _ => rfl
    · exact fun h => absurd h (by decide)
    · exact fun h => absurd h (by decide)
    · exact fun h => absurd h (by decide)

theorem fits_word {c : Char} (hc : isIdChar c) (s : List Char) :
    Fits (s.dropWhile isIdChar) (.token (c :: s.takeWhile isIdChar)) := by
  have hall : ∀ d ∈ c :: s.takeWhile isIdChar, isIdChar d := fun d hd =>
    (List.mem_cons.mp hd).elim (fun h => h ▸ hc) fun h => List.mem_takeWhile_imp h
  refine ⟨by simp, .of_ne fun d hd => isIdChar_ne (hall d (List.mem_of_getLast? hd)),
    fun d _ _ _ => ⟨hall, fun e he => ?_⟩⟩
  simpa using head_dropWhile e he

/-- A sign that starts no comment with what follows. -/
theorem fits_sign {c : Char} {s : List Char} (hline : ¬ (c = '-' ∧ s.head? = some '-'))
    (hblock : ¬ (c = '/' ∧ s.head? = some '*' ∧ s.tail ≠ [])) (hid : ¬ isIdChar c) : Fits s (.token [c]) := by
  refine fits_token (fun d hd => ?_) fun h => absurd h hid
  cases hd
  refine ⟨fun he hhead => hline ⟨he, hhead⟩, fun he hhead => ?_⟩
  cases s with
  | nil => cases hhead
  | cons e s =>
    cases hhead
    by_contra hne
    exact hblock ⟨he, rfl, fun htail => hne (by rw [List.tail_cons] at htail; rw [htail])⟩

theorem exists_next (c : Char) (s : List Char) :
    ∃ p r, next (c :: s) = some (p, r) ∧ c :: s = p.text ++ r ∧ Fits r p := by
  -- in the order in which SQLite tries the first character
  by_cases hspace : startsSpace c
  · exact ⟨_, _, by rw [next, if_pos hspace], by simp [Piece.text], fits_space hspace s⟩
  rw [next, if_neg hspace]
  by_cases hbom : c = bom
  · exact ⟨.space [c], s, by rw [if_pos hbom], rfl, by simp, by simp [hbom]⟩
  rw [if_neg hbom]
  by_cases hline : c = '-' ∧ s.head? = some '-'
  · rw [if_pos hline, hline.1]
    exact ⟨_, _, rfl, by simp [Piece.text], fits_lineComment hline.2⟩
  rw [if_neg hline]
  by_cases hblock : c = '/' ∧ s.head? = some '*' ∧ s.tail ≠ []
  · rw [if_pos hblock]
    obtain ⟨rfl, hhead, -⟩ := hblock
    cases s with
    | nil => cases hhead
    | cons d s =>
      cases hhead
      cases hsplit : splitClose s with
      | none =>
        exact ⟨.openComment ('/' :: '*' :: s), [], by simp [hsplit], by simp [Piece.text], s, rfl,
          splitClose_eq_none hsplit, rfl⟩
      | some br =>
        obtain ⟨rfl, i, hi, hno⟩ := splitClose_eq_some hsplit
        exact ⟨.blockComment ('/' :: '*' :: br.1), br.2, by simp [hsplit], rfl, i, by rw [hi], hno⟩
  rw [if_neg hblock]
  by_cases hquote : c = quote
  · rw [if_pos hquote, hquote]
    cases hsplit : splitQuote quote s with
    | none =>
      exact ⟨.openString (quote :: s), [], rfl, by simp [Piece.text], s, rfl,
        splitQuote_eq_none hsplit, rfl⟩
    | some br =>
      obtain ⟨rfl, ⟨i, hi, hq⟩, hr⟩ := splitQuote_eq_some hsplit
      exact ⟨.string (quote :: br.1), br.2, rfl, rfl, i, by rw [hi], hq, hr⟩
  rw [if_neg hquote]
  by_cases hdouble : c = doubleQuote ∨ c = backtick
  · rw [if_pos hdouble]
    have hne : c ≠ '-' ∧ c ≠ '/' := by rcases hdouble with rfl | rfl <;> exact ⟨by decide, by decide⟩
    have hid : ¬ isIdChar c := by rcases hdouble with rfl | rfl <;> decide
    cases hsplit : splitQuote c s with
    | none => exact ⟨_, _, rfl, by simp [Piece.text], fits_token (.nil _) fun h => absurd h hid⟩
    | some br =>
      exact ⟨_, _, rfl, congrArg (c :: ·) (splitQuote_eq_some hsplit).1, fits_quotedToken hne hid hsplit⟩
  rw [if_neg hdouble]
  by_cases hbracket : c = '['
  · rw [if_pos hbracket, hbracket]
    obtain ⟨htext, hfits⟩ := fits_bracket s
    exact ⟨_, _, rfl, congrArg ('[' :: ·) htext, hfits⟩
  rw [if_neg hbracket]
  by_cases hvar : c = '$' ∨ c = '@' ∨ c = ':' ∨ c = '#'
  · rw [if_pos hvar]
    obtain ⟨htext, hfits⟩ := fits_variable hvar s
    exact ⟨_, _, rfl, congrArg (c :: ·) htext, hfits⟩
  rw [if_neg hvar]
  by_cases hid : isIdChar c
  · rw [if_pos hid]
    exact ⟨_, _, rfl, by simp [Piece.text], fits_word hid s⟩
  · rw [if_neg hid]
    exact ⟨.token [c], s, rfl, rfl, fits_sign hline hblock hid⟩

inductive Cut : List Char → List Piece → Prop where
  | nil : Cut [] []
  | cons {p : Piece} {r : List Char} {ps : List Piece} : Fits r p → Cut r ps → Cut (p.text ++ r) (p :: ps)

theorem Fits.text_ne_nil {r : List Char} {p : Piece} (h : Fits r p) : p.text ≠ [] := by
  cases p with
  | space t => exact h.1
  | token t => exact h.1
  | lineComment t | blockComment t | openComment t | string t | openString t =>
    obtain ⟨b, rfl, -⟩ := h
    simp [Piece.text]

theorem Cut.eq_nil {ps : List Piece} (h : Cut [] ps) : ps = [] := by
  generalize hs : ([] : List Char) = s at h
  cases h with
  | nil => rfl
  | cons hfits hcut => exact absurd (List.append_eq_nil_iff.mp hs.symm).1 hfits.text_ne_nil

/-- Only the end of a block comment may go on with a sign of its own. -/
theorem Fits.endsWell {r : List Char} {p : Piece} (h : Fits r p) (hp : ∀ t, p ≠ .blockComment t) :
    EndsWell p.text r := by
  cases p with
  | space t =>
    refine .of_ne fun c hc => ?_
    rcases h.2 c (List.mem_of_getLast? hc) with hspace | rfl
    · exact ⟨(isSpace_ne hspace).1, (isSpace_ne hspace).2.1⟩
    · exact ⟨by decide, by decide⟩
  | lineComment t =>
    obtain ⟨b, -, -, rfl | hr⟩ := h
    · exact .nil _
    · exact fun c _ => ⟨fun _ => by simp [hr], fun _ => by simp [hr]⟩
  | blockComment t => exact absurd rfl (hp t)
  | string t =>
    obtain ⟨i, rfl, -⟩ := h
    exact EndsWell.concat ⟨by decide, by decide⟩ (quote :: i) r
  | openComment t | openString t =>
    obtain ⟨b, -, -, rfl⟩ := h
    exact .nil _
  | token t => exact h.2.1

theorem cut_pieces {n : Nat} {s : List Char} (h : s.length ≤ n) : Cut s (pieces n s) := by
  induction n generalizing s with
  | zero =>
    rw [List.length_eq_zero_iff.mp (Nat.le_zero.mp h)]
    exact .nil
  | succ n ih =>
    cases s with
    | nil => exact .nil
    | cons c s =>
      obtain ⟨p, r, hnext, htext, hfits⟩ := exists_next c s
      have hpos := List.length_pos_iff.mpr hfits.text_ne_nil
      rw [htext, List.length_append] at h
      rw [pieces, hnext]
      simp only
      rw [htext]
      exact .cons hfits (ih (by omega))

/-! ## The first statement -/

theorem splitOn_eq_takeWhile_cons {α : Type} [DecidableEq α] (a : α) (l : List α) :
    ∃ ls, l.splitOn a = l.takeWhile (· ≠ a) :: ls := by
  by_cases ha : a ∈ l
  · obtain ⟨before, after, rfl, hbefore⟩ := List.eq_append_cons_of_mem ha
    refine ⟨after.splitOn a, ?_⟩
    rw [List.splitOn_append_cons_self_of_not_mem hbefore, List.takeWhile_append_of_pos,
      List.takeWhile_cons_of_neg, List.append_nil]
    · simp
    · intro b hb
      simpa using ne_of_mem_of_not_mem hb hbefore
  · refine ⟨[], ?_⟩
    rw [List.splitOn_eq_singleton ha, List.takeWhile_eq_self_iff.mpr]
    intro b hb
    simpa using ne_of_mem_of_not_mem hb ha

theorem statements_of_tokens {s : List Char} {p : Piece} {ps : List Piece} (h : tokens s = p :: ps)
    (hp : p ≠ semi) :
    ∃ later, statements s = (p :: ps.takeWhile (· ≠ semi)) :: later := by
  obtain ⟨ls, hls⟩ := splitOn_eq_takeWhile_cons semi (tokens s)
  refine ⟨ls.filter (· ≠ []), ?_⟩
  rw [statements, hls, h, List.takeWhile_cons_of_pos (by simpa using hp), List.filter_cons_of_pos (by simp)]

end SqliteReading
