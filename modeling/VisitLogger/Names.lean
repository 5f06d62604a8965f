import VisitLogger.Text

/-!
# Dates and file names

The regular expressions that recognise a UTC date, a day log and a snapshot
file. They differ between components only in what `\d` matches (ASCII digits in
Go, Unicode decimal digits in Python and in NSRegularExpression) and in `$`,
which in Python also matches before one final newline.
-/

namespace VisitLogger

/-! ## Digits -/

def asciiDigit : Text → Option Text
  | b :: t => if 48 ≤ b ∧ b ≤ 57 then some t else none
  | [] => none

/-- The first code point of a UTF-8 text, and what follows it. -/
def decodeRune : Text → Option (Nat × Text)
  | [] => none
  | a :: t =>
    if a < 0x80 then some (a.toNat, t)
    else if a < 0xE0 then
      match t with
      | b :: t => some (a.toNat % 32 * 64 + b.toNat % 64, t)
      | _ => none
    else if a < 0xF0 then
      match t with
      | b :: c :: t => some (a.toNat % 16 * 4096 + b.toNat % 64 * 64 + c.toNat % 64, t)
      | _ => none
    else
      match t with
      | b :: c :: d :: t =>
        some (a.toNat % 8 * 262144 + b.toNat % 64 * 4096 + c.toNat % 64 * 64 + d.toNat % 64, t)
      | _ => none

/-- The zeros of Unicode's decimal digits (category Nd); each starts a run of ten. -/
def decimalZeros : List Nat :=
  [0x30, 0x660, 0x6F0, 0x7C0, 0x966, 0x9E6, 0xA66, 0xAE6, 0xB66, 0xBE6, 0xC66, 0xCE6, 0xD66, 0xDE6, 0xE50,
   0xED0, 0xF20, 0x1040, 0x1090, 0x17E0, 0x1810, 0x1946, 0x19D0, 0x1A80, 0x1A90, 0x1B50, 0x1BB0, 0x1C40,
   0x1C50, 0xA620, 0xA8D0, 0xA900, 0xA9D0, 0xA9F0, 0xAA50, 0xABF0, 0xFF10, 0x104A0, 0x10D30, 0x11066,
   0x110F0, 0x11136, 0x111D0, 0x112F0, 0x11450, 0x114D0, 0x11650, 0x116C0, 0x11730, 0x118E0, 0x11950,
   0x11C50, 0x11D50, 0x11DA0, 0x16A60, 0x16AC0, 0x16B50, 0x1D7CE, 0x1D7D8, 0x1D7E2, 0x1D7EC, 0x1D7F6,
   0x1E140, 0x1E2F0, 0x1E950, 0x1FBF0]

def unicodeDigit (s : Text) : Option Text :=
  match decodeRune s with
  | some (cp, t) => if decimalZeros.any fun z => decide (z ≤ cp ∧ cp < z + 10) then some t else none
  | none => none

/-! ## Regular expressions -/

def lit (w s : Text) : Option Text := if w.isPrefixOf s then some (s.drop w.length) else none

def digits (digit : Text → Option Text) : Nat → Text → Option Text
  | 0, s => some s
  | n + 1, s => (digit s).bind (digits digit n)

def takeDate (digit : Text → Option Text) (s : Text) : Option Text := do
  let s ← digits digit 4 s
  let s ← lit (ascii "-") s
  let s ← digits digit 2 s
  let s ← lit (ascii "-") s
  digits digit 2 s

def datePrefix (digit : Text → Option Text) (s : Text) : Option (Text × Text) :=
  (takeDate digit s).map fun r => (s.take (s.length - r.length), r)

/-- Python's `$` after the last element: the end, or a final newline. -/
def atEnd (s : Text) : Bool := s == [] || s == [nl]

def dotPlusEnd (s : Text) : Bool :=
  let body := if s.getLast? = some nl then s.dropLast else s
  body != [] && !body.contains nl

/-- `fmt.Sprintf("browser-visits-%s.log", date)`, `_log_filename_for`. -/
def logFilename (date : Text) : Text := ascii "browser-visits-" ++ date ++ ascii ".log"

def parseLogFilename (name : Text) : Option Text := do
  let s ← lit (ascii "browser-visits-") name
  let (d, r) ← datePrefix asciiDigit s
  if r = ascii ".log" then some d else none

/-- `_LOG_RE.match` and `_LOG_FILENAME_RE.match`, and their group 1. -/
def logRe (name : Text) : Option Text := do
  let s ← lit (ascii "browser-visits-") name
  let (d, r) ← datePrefix unicodeDigit s
  let r ← lit (ascii ".log") r
  if atEnd r then some d else none

def dateDirRe (name : Text) : Bool :=
  match takeDate unicodeDigit name with
  | some r => atEnd r
  | none => false

def snapshotFilenameRe (name : Text) : Option Text := do
  let (d, s) ← datePrefix unicodeDigit name
  let s ← lit (ascii "T") s
  let s ← digits unicodeDigit 2 s
  let s ← lit (ascii "-") s
  let s ← digits unicodeDigit 2 s
  let s ← lit (ascii "-") s
  let s ← digits unicodeDigit 2 s
  let s ← lit (ascii "Z-") s
  if dotPlusEnd s then some d else none

/-! ## Dates of the form YYYY-MM-DD -/

/-- A date as every component writes it: ten ASCII characters. -/
def IsDate (d : Text) : Prop := takeDate asciiDigit d = some []

instance (d : Text) : Decidable (IsDate d) := inferInstanceAs (Decidable (_ = _))

theorem lit_eq_some {w s r : Text} : lit w s = some r ↔ s = w ++ r := by
  unfold lit
  constructor
  · intro h
    split at h
    · rename_i hp
      obtain ⟨t, rfl⟩ := List.isPrefixOf_iff_prefix.mp hp
      simpa using h
    · cases h
  · rintro rfl
    rw [if_pos (List.isPrefixOf_iff_prefix.mpr (List.prefix_append _ _))]
    simp

theorem asciiDigit_eq_some {s r : Text} : asciiDigit s = some r ↔ ∃ b, 48 ≤ b ∧ b ≤ 57 ∧ s = b :: r := by
  cases s with
  | nil => simp [asciiDigit]
  | cons b t =>
    simp only [asciiDigit]
    split
    · rename_i h
      simp only [Option.some.injEq, List.cons.injEq]
      exact ⟨fun e => ⟨b, h.1, h.2, rfl, e⟩, fun ⟨_, _, _, _, e⟩ => e⟩
    · rename_i h
      simp only [reduceCtorEq, List.cons.injEq, false_iff, not_exists]
      rintro b' ⟨h₁, h₂, rfl, -⟩
      exact h ⟨h₁, h₂⟩

theorem unicodeDigit_of_ascii {s r : Text} (h : asciiDigit s = some r) : unicodeDigit s = some r := by
  obtain ⟨b, h₁, h₂, rfl⟩ := asciiDigit_eq_some.mp h
  have h₃ : b < 0x80 := lt_of_le_of_lt h₂ (by decide)
  have h₄ : 0x30 ≤ b.toNat := UInt8.le_iff_toNat_le.mp h₁
  have h₅ : b.toNat < 0x30 + 10 := Nat.lt_succ_of_le (UInt8.le_iff_toNat_le.mp h₂)
  have hz : (decimalZeros.any fun z => decide (z ≤ b.toNat ∧ b.toNat < z + 10)) = true :=
    List.any_eq_true.mpr ⟨0x30, by simp [decimalZeros], by simpa using ⟨h₄, h₅⟩⟩
  simp only [unicodeDigit, decodeRune, if_pos h₃, hz, if_true]

/-- `p` takes a fixed piece off the front, whatever follows it, and `q` takes the
same piece there. -/
def Takes (p q : Text → Option Text) : Prop :=
  ∀ s r, p s = some r → ∃ w, s = w ++ r ∧ ∀ t, p (w ++ t) = some t ∧ q (w ++ t) = some t

theorem takes_digit : Takes asciiDigit unicodeDigit := by
  intro s r h
  obtain ⟨b, h₁, h₂, rfl⟩ := asciiDigit_eq_some.mp h
  have hb : ∀ t, asciiDigit (b :: t) = some t := fun t => asciiDigit_eq_some.mpr ⟨b, h₁, h₂, rfl⟩
  exact ⟨[b], rfl, fun t => ⟨hb t, unicodeDigit_of_ascii (hb t)⟩⟩

theorem takes_unicodeDigit : Takes unicodeDigit unicodeDigit := by
  have hrune : ∀ s cp r, decodeRune s = some (cp, r) →
      ∃ w, s = w ++ r ∧ ∀ t, decodeRune (w ++ t) = some (cp, t) := by
    intro s cp r h
    unfold decodeRune at h
    split at h
    · cases h
    · rename_i a t
      split at h
      · rename_i h₁
        cases h
        exact ⟨[a], rfl, fun t => by simp [decodeRune, h₁]⟩
      · rename_i h₁
        split at h
        · rename_i h₂
          split at h
          · rename_i b t
            cases h
            exact ⟨[a, b], rfl, fun t => by simp [decodeRune, h₁, h₂]⟩
          · cases h
        · rename_i h₂
          split at h
          · rename_i h₃
            split at h
            · rename_i b c t
              cases h
              exact ⟨[a, b, c], rfl, fun t => by simp [decodeRune, h₁, h₂, h₃]⟩
            · cases h
          · rename_i h₃
            split at h
            · rename_i b c d t
              cases h
              exact ⟨[a, b, c, d], rfl, fun t => by simp [decodeRune, h₁, h₂, h₃]⟩
            · cases h
  intro s r h
  unfold unicodeDigit at h
  split at h
  · rename_i cp t hd
    split at h
    · rename_i hz
      cases h
      obtain ⟨w, rfl, hw⟩ := hrune s cp r hd
      exact ⟨w, rfl, fun t => by simp only [unicodeDigit, hw t, hz, if_true, and_self]⟩
    · cases h
  · cases h

theorem takes_lit (w : Text) : Takes (lit w) (lit w) := fun _ _ h =>
  ⟨w, lit_eq_some.mp h, fun _ => ⟨lit_eq_some.mpr rfl, lit_eq_some.mpr rfl⟩⟩

theorem Takes.bind {p p' q q' : Text → Option Text} (h : Takes p q) (h' : Takes p' q') :
    Takes (fun s => (p s).bind p') (fun s => (q s).bind q') := by
  intro s r e
  obtain ⟨s', e₁, e₂⟩ := Option.bind_eq_some_iff.mp e
  obtain ⟨w, rfl, hw⟩ := h s s' e₁
  obtain ⟨w', rfl, hw'⟩ := h' s' r e₂
  refine ⟨w ++ w', by simp, fun t => ?_⟩
  simp only [List.append_assoc, (hw _).1, (hw _).2, Option.bind_some]
  exact hw' t

theorem takes_digits {p q : Text → Option Text} (h : Takes p q) : ∀ n, Takes (digits p n) (digits q n)
  | 0 => fun _ _ h => ⟨[], by simpa [digits] using h, fun _ => ⟨rfl, rfl⟩⟩
  | n + 1 => h.bind (takes_digits h n)

theorem takes_date {p q : Text → Option Text} (h : Takes p q) : Takes (takeDate p) (takeDate q) :=
  (takes_digits h 4).bind <| (takes_lit _).bind <| (takes_digits h 2).bind <| (takes_lit _).bind
    (takes_digits h 2)

theorem IsDate.takeDate {d : Text} (h : IsDate d) (t : Text) :
    takeDate asciiDigit (d ++ t) = some t ∧ takeDate unicodeDigit (d ++ t) = some t := by
  obtain ⟨w, e, hw⟩ := takes_date takes_digit d [] h
  rw [List.append_nil] at e
  exact e ▸ hw t

theorem IsDate.datePrefix {d : Text} (h : IsDate d) (t : Text) :
    datePrefix asciiDigit (d ++ t) = some (d, t) ∧ datePrefix unicodeDigit (d ++ t) = some (d, t) := by
  obtain ⟨h₁, h₂⟩ := h.takeDate t
  simp [VisitLogger.datePrefix, h₁, h₂]

/-- **The day log of a date is recognised**, by Go and by Python. -/
theorem parseLogFilename_logFilename {d : Text} (h : IsDate d) : parseLogFilename (logFilename d) = some d := by
  have hl : lit (ascii "browser-visits-") (logFilename d) = some (d ++ ascii ".log") :=
    lit_eq_some.mpr (by simp [logFilename])
  simp [parseLogFilename, hl, (h.datePrefix _).1]

theorem logRe_logFilename {d : Text} (h : IsDate d) : logRe (logFilename d) = some d := by
  have hl : lit (ascii "browser-visits-") (logFilename d) = some (d ++ ascii ".log") :=
    lit_eq_some.mpr (by simp [logFilename])
  have he : lit (ascii ".log") (ascii ".log") = some [] := lit_eq_some.mpr (by simp)
  simp [logRe, hl, (h.datePrefix _).2, he, atEnd]

theorem parseLogFilename_eq_some {name d : Text} (h : parseLogFilename name = some d) :
    name = logFilename d ∧ IsDate d := by
  simp only [parseLogFilename, VisitLogger.datePrefix, Option.bind_eq_bind, Option.bind_eq_some_iff,
    Option.map_eq_some_iff] at h
  obtain ⟨s, hs, ⟨d', r'⟩, ⟨r, hr, he⟩, h⟩ := h
  simp only [Prod.mk.injEq] at he
  obtain ⟨w, rfl, hw⟩ := takes_date takes_digit s r hr
  obtain ⟨rfl, rfl⟩ := he
  have hd : List.take ((w ++ r).length - r.length) (w ++ r) = w := by simp
  rw [hd] at h
  split at h
  · rename_i hl
    simp only [Option.some.injEq] at h
    subst h
    have hr : r = ascii ".log" := hl
    refine ⟨by rw [lit_eq_some.mp hs, hr, logFilename, List.append_assoc], ?_⟩
    have := (hw []).1
    rwa [List.append_nil] at this
  · cases h

theorem digits_notMem {b : Byte} (hb : b < 48) {n : Nat} {s r : Text} (h : digits asciiDigit n s = some r)
    (hr : b ∉ r) : b ∉ s := by
  induction n generalizing s with
  | zero => cases h; exact hr
  | succ n ih =>
    obtain ⟨t, ht, h'⟩ := Option.bind_eq_some_iff.mp h
    obtain ⟨c, hc, -, rfl⟩ := asciiDigit_eq_some.mp ht
    rw [List.mem_cons, not_or]
    exact ⟨fun he => absurd (he ▸ hb) (not_lt.mpr hc), ih h'⟩

theorem IsDate.notMem {d : Text} (h : IsDate d) {b : Byte} (hb : b < 48) (hd : b ≠ 45) : b ∉ d := by
  have hl : ∀ {s r : Text}, lit (ascii "-") s = some r → b ∉ r → b ∉ s := by
    intro s r hs hr
    rw [lit_eq_some.mp hs, List.mem_append, not_or]
    exact ⟨by simpa [ascii] using hd, hr⟩
  simp only [IsDate, VisitLogger.takeDate, Option.bind_eq_bind, Option.bind_eq_some_iff] at h
  obtain ⟨s₁, h₁, s₂, h₂, s₃, h₃, s₄, h₄, h₅⟩ := h
  exact digits_notMem hb h₁ (hl h₂ (digits_notMem hb h₃ (hl h₄ (digits_notMem hb h₅ (by simp)))))

theorem IsDate.noSlash {d : Text} (h : IsDate d) : slash ∉ d := h.notMem (by decide) (by decide)

theorem IsDate.ne_nil {d : Text} (h : IsDate d) : d ≠ [] := by
  rintro rfl
  exact absurd h (by decide)

theorem dateDirRe_snapshot {b d : Text} (h : snapshotFilenameRe b = some d) : dateDirRe d = true := by
  simp only [snapshotFilenameRe, VisitLogger.datePrefix, Option.bind_eq_bind, Option.bind_eq_some_iff,
    Option.map_eq_some_iff] at h
  obtain ⟨⟨d', r'⟩, ⟨r, hr, he⟩, h⟩ := h
  simp only [Prod.mk.injEq] at he
  obtain ⟨w, rfl, hw⟩ := takes_date takes_unicodeDigit b r hr
  have hd : d = w := by
    obtain ⟨_, -, _, -, _, -, _, -, _, -, _, -, _, -, h⟩ := h
    split at h
    · rw [← Option.some.inj h, ← he.1]; simp
    · cases h
  have h₁ := (hw []).1
  rw [List.append_nil] at h₁
  simp [dateDirRe, hd, h₁, atEnd]

theorem snapshotFilenameRe_head {b : Text} (h : snapshotFilenameRe b ≠ none) : b.head? ≠ some 98 := by
  intro hb
  obtain ⟨t, rfl⟩ := List.head?_eq_some_iff.mp hb
  have : unicodeDigit (98 :: t) = none := by
    simp only [unicodeDigit, decodeRune, show (98 : Byte) < 0x80 by decide, if_true]
    rw [if_neg (by decide)]
  exact h (by simp [snapshotFilenameRe, datePrefix, takeDate, digits, this])

theorem ne_logFilename {b : Text} (h : snapshotFilenameRe b ≠ none) (d : Text) : b ≠ logFilename d := by
  intro hb
  rw [hb] at h
  exact snapshotFilenameRe_head h rfl

theorem logFilename_inj {d e : Text} (h : logFilename d = logFilename e) : d = e := by
  simpa [logFilename] using h

end VisitLogger
