import VisitLogger.ReadingList
import VisitLogger.Separators

/-!
# The rows of the reading list

The escapes that a label gets leave its own backslashes as they are, so that a `|`
after a backslash comes out unescaped, and a backslash at the end escapes the
bracket that closes the label.
-/

namespace VisitLogger

namespace ReadingList

open Escaping

/-! ## Stripping -/

def isSpecial (b : Byte) : Bool := b = pipe || b = 91 || b = 93

theorem escapeCell_eq (text : Text) : escapeCell text = strip (escape backslash isSpecial (oneLine text)) := by
  unfold escapeCell replace escape
  rw [List.flatMap_assoc, List.flatMap_assoc]
  congr 2
  funext b
  by_cases hp : b = pipe
  · rw [hp]
    rfl
  · by_cases ho : b = 91
    · rw [ho]
      rfl
    · by_cases hc : b = 93
      · rw [hc]
        rfl
      · simp [isSpecial, hp, ho, hc]

/-- The rune after its escape, if it has one. -/
def escapeRune (r : Text) : List Text :=
  match r with
  | [] => [[]]
  | b :: bs => if isSpecial b then [[backslash], b :: bs] else [b :: bs]

def isContinuation (b : Byte) : Bool := 0x80 ≤ b ∧ b < 0xC0

theorem isSpecial_of_continuation {b : Byte} (h : isContinuation b = true) : isSpecial b = false := by
  rw [Bool.eq_false_iff]
  intro hs
  simp only [isSpecial, Bool.or_eq_true, decide_eq_true_eq] at hs
  rcases hs with (rfl | rfl) | rfl <;> exact absurd h (by decide)

/-- The loop of `runes`: the continuation bytes at the start, and the runes after them. -/
def runesFrom (s : Text) : Text × List Text :=
  s.foldr (fun b r => if 0x80 ≤ b ∧ b < 0xC0 then (b :: r.1, r.2) else ([], (b :: r.1) :: r.2)) ([], [])

theorem runesFrom_cons (b : Byte) (s : Text) :
    runesFrom (b :: s) =
      if isContinuation b then (b :: (runesFrom s).1, (runesFrom s).2)
      else ([], (b :: (runesFrom s).1) :: (runesFrom s).2) := by
  unfold runesFrom isContinuation
  rw [List.foldr_cons]
  simp only [decide_eq_true_eq]

theorem runes_eq (s : Text) :
    BVLHost.runes s = if (runesFrom s).1 =
      [] then (runesFrom s).2 else (runesFrom s).1 :: (runesFrom s).2 := rfl

theorem continuation_runesFrom (s : Text) : ∀ b ∈ (runesFrom s).1, isContinuation b = true := by
  induction s with
  | nil => exact fun b hb => by cases hb
  | cons a s ih =>
    rw [runesFrom_cons]
    split
    · rename_i ha
      exact List.forall_mem_cons.mpr ⟨ha, ih⟩
    · exact fun b hb => by cases hb

theorem runesFrom_escape (s : Text) :
    runesFrom (escape backslash isSpecial s) = ((runesFrom s).1, (runesFrom s).2.flatMap escapeRune) := by
  induction s with
  | nil => rfl
  | cons b s ih =>
    rw [escape_cons, runesFrom_cons]
    by_cases hb : isContinuation b = true
    · rw [if_neg (by simp [isSpecial_of_continuation hb]), List.singleton_append, runesFrom_cons,
        if_pos hb, if_pos hb, ih]
    · rw [if_neg hb]
      by_cases hs : isSpecial b = true
      · rw [if_pos hs, List.cons_append, List.singleton_append, runesFrom_cons, if_neg (by decide),
          runesFrom_cons, if_neg hb, ih, List.flatMap_cons, escapeRune, if_pos hs]
        rfl
      · rw [if_neg hs, List.singleton_append, runesFrom_cons, if_neg hb, ih, List.flatMap_cons,
          escapeRune, if_neg hs]
        rfl

theorem runes_escape (s : Text) : BVLHost.runes (escape backslash isSpecial s) =
    (BVLHost.runes s).flatMap escapeRune := by
  rw [runes_eq, runes_eq, runesFrom_escape]
  cases hr : (runesFrom s).1 with
  | nil => rfl
  | cons b bs =>
    have hb := isSpecial_of_continuation (continuation_runesFrom s b (by rw [hr]; simp))
    rw [if_neg (by simp), if_neg (by simp), List.flatMap_cons, escapeRune, if_neg (by simp [hb])]
    rfl

/-- Only the first byte of a rune can be special. -/
theorem tail_runes {s r : Text} (hr : r ∈ BVLHost.runes s) : ∀ b ∈ r.tail, isContinuation b = true := by
  have hfrom : ∀ r ∈ (runesFrom s).2, ∀ b ∈ r.tail, isContinuation b = true := by
    clear hr
    induction s with
    | nil => exact fun r hr => by cases hr
    | cons a s ih =>
      rw [runesFrom_cons]
      split
      · exact ih
      · exact List.forall_mem_cons.mpr ⟨continuation_runesFrom s, ih⟩
  rw [runes_eq] at hr
  split at hr
  · exact hfrom r hr
  · rcases List.mem_cons.mp hr with rfl | hr
    · exact fun b hb => continuation_runesFrom s b (List.mem_of_mem_tail hb)
    · exact hfrom r hr

theorem flatten_escapeRune {r : Text} (h : ∀ b ∈ r.tail, isContinuation b = true) :
    (escapeRune r).flatten = escape backslash isSpecial r := by
  have hrest : ∀ bs : Text, (∀ b ∈ bs, isContinuation b = true) → escape backslash isSpecial bs = bs := by
    intro bs hbs
    induction bs with
    | nil => rfl
    | cons b bs ih =>
      obtain ⟨hb, hbs⟩ := List.forall_mem_cons.mp hbs
      rw [escape_cons, isSpecial_of_continuation hb, ih hbs]
      rfl
  cases r with
  | nil => rfl
  | cons b bs =>
    rw [escape_cons, hrest bs h, escapeRune]
    split <;> simp

theorem flatten_flatMap_escapeRune {l : List Text} (h : ∀ r ∈ l, ∀ b ∈ r.tail, isContinuation b = true) :
    (l.flatMap escapeRune).flatten = escape backslash isSpecial l.flatten := by
  induction l with
  | nil => rfl
  | cons r l ih =>
    obtain ⟨hr, hl⟩ := List.forall_mem_cons.mp h
    rw [List.flatMap_cons, List.flatten_append, flatten_escapeRune hr, ih hl, List.flatten_cons, escape,
      escape, escape, List.flatMap_append]

theorem escapeRune_space : ∀ r ∈ isspace, escapeRune r = [r] := by decide

theorem escapeRune_cases (r : Text) : escapeRune r = [r] ∨ escapeRune r = [[backslash], r] := by
  cases r with
  | nil => exact Or.inl rfl
  | cons b bs =>
    rw [escapeRune]
    split
    · exact Or.inr rfl
    · exact Or.inl rfl

/-- The escapes are put in after stripping as well as before. -/
theorem strip_escape (s : Text) : strip (escape backslash isSpecial s) =
    escape backslash isSpecial (strip s) := by
  have hback : isspace.contains [backslash] = false := by decide
  have hspace : ∀ r, isspace.contains r = true → escapeRune r = [r] :=
    fun r hr => escapeRune_space r (List.contains_iff_mem.mp hr)
  have hfront : ((BVLHost.runes s).flatMap escapeRune).dropWhile isspace.contains =
      ((BVLHost.runes s).dropWhile isspace.contains).flatMap escapeRune := by
    refine Separators.dropWhile_flatMap (fun r _ hr x hx => ?_) (fun r _ hr => ?_)
    · rw [hspace r hr, List.mem_singleton] at hx
      rw [hx, hr]
    · rcases escapeRune_cases r with he | he
      · exact ⟨r, [], he, hr⟩
      · exact ⟨_, _, he, hback⟩
  have hend : ∀ l : List Text, (l.flatMap fun r => (escapeRune r).reverse).dropWhile isspace.contains =
      (l.dropWhile isspace.contains).flatMap fun r => (escapeRune r).reverse := by
    intro l
    refine Separators.dropWhile_flatMap (fun r _ hr x hx => ?_) (fun r _ hr => ?_)
    · rw [hspace r hr] at hx
      rw [List.mem_singleton.mp hx, hr]
    · rcases escapeRune_cases r with he | he
      · exact ⟨r, [], by rw [he]; rfl, hr⟩
      · exact ⟨r, [[backslash]], by rw [he]; rfl, hr⟩
  unfold strip
  rw [runes_escape]
  dsimp only
  rw [hfront, List.reverse_flatMap, Function.comp_def, hend, List.reverse_flatMap, Function.comp_def]
  simp only [List.reverse_reverse]
  refine flatten_flatMap_escapeRune fun r hr => tail_runes (s := s) ?_
  have hr := (List.dropWhile_sublist _).subset (List.mem_reverse.mp hr)
  exact (List.dropWhile_sublist _).subset (List.mem_reverse.mp hr)

/-! ## Labels and targets -/

def plainLabel (r : Row) : Text := strip (oneLine (labelText r.title r.url))

theorem label_eq (r : Row) : label r.title r.url = escape backslash isSpecial (plainLabel r) := by
  rw [label, escapeCell_eq, strip_escape, plainLabel]

theorem escapeUrl_eq (url : Text) : escapeUrl url = url.flatMap fun b =>
    if b = 40 then ascii "%28" else if b = 41 then ascii "%29" else if b = space then ascii "%20" else [b] := by
  unfold escapeUrl replace
  rw [List.flatMap_assoc, List.flatMap_assoc]
  congr 1
  funext b
  by_cases ho : b = 40
  · rw [ho]
    rfl
  · by_cases hc : b = 41
    · rw [hc]
      rfl
    · simp [ho, hc]

theorem spares_escapeUrl {d : Byte} (hd : d ∉ ascii "() %0289") : Spares (fun b : Byte =>
    if b = 40 then ascii "%28" else if b = 41 then ascii "%29"
    else if b = space then ascii "%20" else [b]) d := by
  have hne : ∀ b ∈ ascii "() %0289", b ≠ d := fun b hb he => hd (he ▸ hb)
  have hsub : ∀ w : Text, w ⊆ ascii "() %0289" → d ∉ w := fun w hw hdw => hd (hw hdw)
  intro b
  dsimp only
  split
  · rename_i hb
    exact Or.inr ⟨hne b (by rw [hb]; decide), by decide, hsub _ (by decide)⟩
  · split
    · rename_i hb
      exact Or.inr ⟨hne b (by rw [hb]; decide), by decide, hsub _ (by decide)⟩
    · split
      · rename_i hb
        exact Or.inr ⟨hne b (by rw [hb]; decide), by decide, hsub _ (by decide)⟩
      · exact Or.inl rfl

theorem unescaped_escapeUrl (odd : Bool) (url : Text) :
    unescaped backslash pipe odd (escapeUrl url) = unescaped backslash pipe odd url := by
  rw [escapeUrl_eq]
  exact unescaped_flatMap (spares_escapeUrl (by decide)) (spares_escapeUrl (by decide)) odd url

theorem endsOdd_escapeUrl (odd : Bool) (url : Text) :
    endsOdd backslash odd (escapeUrl url) = endsOdd backslash odd url := by
  rw [escapeUrl_eq]
  exact endsOdd_flatMap (spares_escapeUrl (by decide)) odd url

/-! ## Rows -/

variable {localTime : Text → Option Text}

/-- A link adds its unescaped pipes to those of the row, whatever it ends in. -/
theorem unescaped_link (title : Option Text) (url : Text) :
    unescaped backslash pipe false (formatLink title url) =
      unescaped backslash pipe false (label title url) + unescaped backslash pipe false url := by
  have hopen : endsOdd backslash false (ascii "[") = false := rfl
  have hmid : ∀ odd, endsOdd backslash odd (ascii "](") = false := by
    intro odd
    cases odd <;> rfl
  have hnone : ∀ odd, unescaped backslash pipe odd (ascii "](") = 0 := by
    intro odd
    cases odd <;> rfl
  have hclose : ∀ odd, unescaped backslash pipe odd (ascii ")") = 0 := by
    intro odd
    cases odd <;> rfl
  simp only [formatLink, unescaped_append, endsOdd_append, hopen, hmid, hnone, hclose, unescaped_escapeUrl]
  have hbracket : unescaped backslash pipe false (ascii "[") = 0 := rfl
  omega

theorem separator (odd : Bool) : endsOdd backslash odd (ascii " | ") = false ∧
    unescaped backslash pipe odd (ascii " | ") = 1 ∧ unescaped backslash pipe odd (ascii " |") = 1 := by
  cases odd <;> exact ⟨rfl, rfl, rfl⟩

theorem unescaped_skimmedRow (localTime : Text → Option Text) (r : Row) :
    unescaped backslash pipe false (skimmedRow localTime r) =
    4 + unescaped backslash pipe false (label r.title r.url) + unescaped backslash pipe false r.url +
      unescaped backslash pipe false (formatTimestamp localTime r.lastSkimmed) +
      unescaped backslash pipe false (formatTimestamp localTime r.firstVisited) := by
  have hstart : unescaped backslash pipe false (ascii "| ") = 1 ∧
    endsOdd backslash false (ascii "| ") = false := ⟨rfl, rfl⟩
  simp only [skimmedRow, unescaped_append, endsOdd_append, hstart.1, hstart.2, (separator _).1,
    (separator _).2.1, (separator _).2.2, unescaped_link]
  omega

theorem unescaped_unskimmedRow (localTime : Text → Option Text) (r : Row) :
    unescaped backslash pipe false (unskimmedRow localTime r) =
    3 + unescaped backslash pipe false (label r.title r.url) + unescaped backslash pipe false r.url +
      unescaped backslash pipe false (formatTimestamp localTime r.firstVisited) := by
  have hstart : unescaped backslash pipe false (ascii "| ") = 1 ∧
    endsOdd backslash false (ascii "| ") = false := ⟨rfl, rfl⟩
  simp only [unskimmedRow, unescaped_append, endsOdd_append, hstart.1, hstart.2, (separator _).1,
    (separator _).2.1, (separator _).2.2, unescaped_link]
  omega

/-! ## Rows that come out whole -/

/-- The row has that many unescaped pipes, and the bracket that closes its label is
not escaped. -/
structure Whole (pipes : Nat) (r : Row) (row : Text) : Prop where
  pipes : unescaped backslash pipe false row = pipes
  bracket : ∃ rest, row = ascii "| [" ++ label r.title r.url ++ ascii "]" ++ rest ∧
    endsOdd backslash false (ascii "| [" ++ label r.title r.url) = false

/-- No bracket in the label and no parenthesis that ends the target is taken for another. -/
structure OneLink (r : Row) : Prop where
  opening : unescaped backslash 91 false (label r.title r.url) = 0
  closing : unescaped backslash 93 false (label r.title r.url) = 0
  target : endsOdd backslash false (escapeUrl r.url) = false

/-- Each pipe of the label comes after an even number of backslashes, and so does its
end; each pipe of the URL comes after an odd number. -/
structure Tame (r : Row) : Prop where
  label : Each backslash pipe false false (plainLabel r)
  last : endsOdd backslash false (plainLabel r) = false
  url : Each backslash pipe true false r.url

def TameTime (localTime : Text → Option Text) (iso : Option Text) : Prop :=
  Each backslash pipe true false (formatTimestamp localTime iso)

theorem unescaped_label {c : Byte} (hc : isSpecial c = true) (r : Row) :
    unescaped backslash c false (label r.title r.url) = 0 ↔ Each backslash c false false (plainLabel r) := by
  rw [label_eq]
  exact unescaped_escape_eq_zero_iff (by decide) hc

theorem endsOdd_label (r : Row) : endsOdd backslash false (label r.title r.url) =
    endsOdd backslash false (plainLabel r) := by
  rw [label_eq]
  exact endsOdd_escape (by decide) false _

theorem row_link (r : Row) (after : Text) : ∃ rest,
    ascii "| " ++ (formatLink r.title r.url ++ after) = ascii "| [" ++ label r.title r.url ++
      ascii "]" ++ rest := by
  refine ⟨ascii "(" ++ (escapeUrl r.url ++ (ascii ")" ++ after)), ?_⟩
  simp only [formatLink, List.append_assoc]
  rfl

theorem whole_iff {pipes k : Nat} {r : Row} {row : Text}
    (hrow : ∃ rest, row = ascii "| [" ++ label r.title r.url ++ ascii "]" ++ rest)
    (hcount : unescaped backslash pipe false row =
      pipes + unescaped backslash pipe false (label r.title r.url) + unescaped backslash pipe false r.url + k) :
    Whole pipes r row ↔ Tame r ∧ k = 0 := by
  have hstart : endsOdd backslash false (ascii "| [" ++ label r.title r.url) =
    endsOdd backslash false (plainLabel r) := by
    rw [endsOdd_append, ← endsOdd_label]
    rfl
  constructor
  · rintro ⟨hp, -, -, hb⟩
    rw [hcount] at hp
    refine ⟨⟨(unescaped_label rfl r).mp (by omega), hstart ▸ hb, unescaped_eq_zero_iff.mp (by omega)⟩, by omega⟩
  · rintro ⟨ht, hk⟩
    have hl := (unescaped_label rfl r).mpr ht.label
    have hu := unescaped_eq_zero_iff.mpr ht.url
    obtain ⟨rest, hrow⟩ := hrow
    exact ⟨by omega, rest, hrow, hstart.trans ht.last⟩

/-- **Rows of the reading list.** Each visit has its row; the row has its cells and a
closed label exactly when the pipes of the title and of the URL, and the end of the
label, are such, and it is one link when the brackets are. -/
theorem rows_iff (localTime : Text → Option Text) (skimmed unskimmed : List Row) :
    (∀ r ∈ skimmed, skimmedRow localTime r ∈ renderLines localTime skimmed unskimmed ∧
      (Whole 4 r (skimmedRow localTime r) ↔ Tame r ∧ TameTime localTime r.lastSkimmed ∧
        TameTime localTime r.firstVisited)) ∧
    (∀ r ∈ unskimmed, unskimmedRow localTime r ∈ renderLines localTime skimmed unskimmed ∧
      (Whole 3 r (unskimmedRow localTime r) ↔ Tame r ∧ TameTime localTime r.firstVisited)) ∧
    (∀ r ∈ skimmed ++ unskimmed, OneLink r ↔ Each backslash 91 false false (plainLabel r) ∧
      Each backslash 93 false false (plainLabel r) ∧ endsOdd backslash false r.url = false) := by
  refine ⟨fun r hr => ⟨?_, ?_⟩, fun r hr => ⟨?_, ?_⟩, fun r _ => ?_⟩
  · have hrow : skimmedRow localTime r ∈ skimmed.map (skimmedRow localTime) := List.mem_map_of_mem hr
    rw [renderLines, if_pos (List.ne_nil_of_mem hr)]
    simp only [List.mem_append]
    exact Or.inl (Or.inl (Or.inl (Or.inr (Or.inr hrow))))
  · have hlink : ∃ rest, skimmedRow localTime r = ascii "| [" ++ label r.title r.url ++ ascii "]" ++ rest := by
      obtain ⟨rest, hrest⟩ := row_link r (ascii " | " ++
        (formatTimestamp localTime r.lastSkimmed ++ (ascii " | " ++
        (formatTimestamp localTime r.firstVisited ++ ascii " |"))))
      exact ⟨rest, by rw [← hrest]; simp only [skimmedRow, List.append_assoc]⟩
    have hcount := unescaped_skimmedRow localTime r
    rw [Nat.add_assoc _ (unescaped backslash pipe false (formatTimestamp localTime r.lastSkimmed))] at hcount
    rw [whole_iff hlink hcount, Nat.add_eq_zero_iff, unescaped_eq_zero_iff, unescaped_eq_zero_iff,
      TameTime, TameTime]
  · have hrow : unskimmedRow localTime r ∈ unskimmed.map (unskimmedRow localTime) := List.mem_map_of_mem hr
    rw [renderLines, if_pos (List.ne_nil_of_mem hr)]
    simp only [List.mem_append]
    exact Or.inl (Or.inr (Or.inr hrow))
  · have hlink : ∃ rest, unskimmedRow localTime r = ascii "| [" ++ label r.title r.url ++ ascii "]" ++
      rest := by
      obtain ⟨rest, hrest⟩ := row_link r (ascii " | " ++
        (formatTimestamp localTime r.firstVisited ++ ascii " |"))
      exact ⟨rest, by rw [← hrest]; simp only [unskimmedRow, List.append_assoc]⟩
    rw [whole_iff hlink (unescaped_unskimmedRow localTime r), unescaped_eq_zero_iff, TameTime]
  · constructor
    · rintro ⟨ho, hc, ht⟩
      exact ⟨(unescaped_label rfl r).mp ho, (unescaped_label rfl r).mp hc, endsOdd_escapeUrl false r.url ▸ ht⟩
    · rintro ⟨ho, hc, ht⟩
      exact ⟨(unescaped_label rfl r).mpr ho, (unescaped_label rfl r).mpr hc,
        (endsOdd_escapeUrl false r.url).trans ht⟩

def pipedUrl : Row := ⟨ascii "https://a.example/?q=x|y", some (ascii "T"),
    some (ascii "2024-05-01T12:00:00Z"), none⟩

/-- The pipe of the URL makes a cell of its own. -/
theorem pipe_in_url : ¬ ∀ (localTime : Text → Option Text) (skimmed unskimmed : List Row),
    (∀ r ∈ skimmed, Whole 4 r (skimmedRow localTime r)) ∧
      ∀ r ∈ unskimmed, Whole 3 r (unskimmedRow localTime r) := by
  intro h
  have hrow := ((h (fun _ => some (ascii "2024-05-01 12:00 UTC")) [] [pipedUrl]).2 pipedUrl (by simp)).pipes
  exact absurd hrow (by decide)

end ReadingList

end VisitLogger
