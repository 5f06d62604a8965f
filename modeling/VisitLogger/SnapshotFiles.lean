import VisitLogger.PopupSound
import VisitLogger.SealValid

/-!
# The names of the snapshots

The extension names the file, and the mover's two implementations read the date
out of the name: it is the date of the click (`sent_named`).
-/

namespace VisitLogger

/-! ## Digits -/

structure IsDigits (n : ℕ) (w : Text) : Prop where
  length : w.length = n
  range : ∀ b ∈ w, 48 ≤ b ∧ b ≤ 57
  reads : ∀ t, digits unicodeDigit n (w ++ t) = some t

theorem digits_eq {n : ℕ} {s r : Text} (h : digits asciiDigit n s = some r) :
    ∃ w, s = w ++ r ∧ IsDigits n w := by
  induction n generalizing s with
  | zero =>
    cases h
    exact ⟨[], rfl, rfl, nofun, fun _ => rfl⟩
  | succ n ih =>
    obtain ⟨t, ht, h⟩ := Option.bind_eq_some_iff.mp h
    obtain ⟨w, rfl, hw⟩ := ih h
    obtain ⟨b, hlo, hhi, rfl⟩ := asciiDigit_eq_some.mp ht
    refine ⟨b :: w, rfl, by simp [hw.length], fun c hc => ?_, fun t => ?_⟩
    · rcases List.mem_cons.mp hc with rfl | hc
      · exact ⟨hlo, hhi⟩
      · exact hw.range c hc
    · have hb : unicodeDigit (b :: (w ++ t)) = some (w ++ t) :=
        unicodeDigit_of_ascii (asciiDigit_eq_some.mpr ⟨b, hlo, hhi, rfl⟩)
      rw [List.cons_append, digits, hb, Option.bind_some]
      exact hw.reads t

theorem IsDigits.notMem {n : ℕ} {w : Text} (h : IsDigits n w) {b : Byte} (hb : ¬(48 ≤ b ∧ b ≤ 57)) : b ∉ w :=
  fun hm => hb (h.range b hm)

theorem IsDate.mem {d : Text} (h : IsDate d) : ∀ b ∈ d, b = 45 ∨ 48 ≤ b ∧ b ≤ 57 := by
  simp only [IsDate, VisitLogger.takeDate, Option.bind_eq_bind, Option.bind_eq_some_iff] at h
  obtain ⟨s₁, h₁, s₂, h₂, s₃, h₃, s₄, h₄, h₅⟩ := h
  obtain ⟨y, rfl, hy⟩ := digits_eq h₁
  obtain rfl := lit_eq_some.mp h₂
  obtain ⟨m, rfl, hm⟩ := digits_eq h₃
  obtain rfl := lit_eq_some.mp h₄
  obtain ⟨d, rfl, hd⟩ := digits_eq h₅
  intro b hb
  simp only [List.mem_append, List.append_nil] at hb
  rcases hb with hb | hb | hb | hb | hb
  · exact Or.inr (hy.range b hb)
  · exact Or.inl (List.mem_singleton.mp hb)
  · exact Or.inr (hm.range b hb)
  · exact Or.inl (List.mem_singleton.mp hb)
  · exact Or.inr (hd.range b hb)

/-! ## ASCII in the regular expressions -/

theorem runes_ascii {s : Text} (h : ∀ b ∈ s, b < 0x80) : BVLHost.runes s = s.map fun b => [b] := by
  have hfold : s.foldr (fun b (r : Text × List Text) =>
      if 0x80 ≤ b ∧ b < 0xC0 then (b :: r.1, r.2) else ([], (b :: r.1) :: r.2)) ([], []) =
        ([], s.map fun b => [b]) := by
    induction s with
    | nil => rfl
    | cons b s ih =>
      have hb : ¬(0x80 ≤ b ∧ b < 0xC0) := fun hc => absurd hc.1 (not_le.mpr (h b (by simp)))
      rw [List.foldr_cons, ih fun c hc => h c (List.mem_cons_of_mem _ hc), if_neg hb]
      rfl
  rw [BVLHost.runes, hfold]
  rfl

def Printable (s : Text) : Prop := ∀ b ∈ s, 32 ≤ b ∧ b < 127

instance (s : Text) : Decidable (Printable s) := inferInstanceAs (Decidable (∀ b ∈ s, _))

theorem Printable.append {s t : Text} (hs : Printable s) (ht : Printable t) : Printable (s ++ t) :=
  fun b hb => (List.mem_append.mp hb).elim (hs b) (ht b)

theorem Printable.clean {s : Text} (h : Printable s) : Clean s :=
  ⟨fun hb => absurd (h _ hb).1 (by decide), fun hb => absurd (h _ hb).1 (by decide),
    fun hb => absurd (h _ hb).1 (by decide)⟩

theorem printable_of_range {s : Text} {lo hi : Byte} (h : ∀ b ∈ s, lo ≤ b ∧ b ≤ hi) (hlo : 32 ≤ lo)
    (hhi : hi < 127) :
    Printable s :=
  fun b hb => ⟨le_trans hlo (h b hb).1, lt_of_le_of_lt (h b hb).2 hhi⟩

theorem IsDigits.printable {n : ℕ} {w : Text} (h : IsDigits n w) : Printable w :=
  printable_of_range h.range (by decide) (by decide)

theorem IsDate.printable {d : Text} (h : IsDate d) : Printable d := by
  intro b hb
  rcases h.mem b hb with rfl | hr
  · decide
  · exact ⟨le_trans (by decide) hr.1, lt_of_le_of_lt hr.2 (by decide)⟩

theorem dotPlusEnd_printable {s : Text} (h : Printable s) (hne : s ≠ []) : dotPlusEnd s = true := by
  have hnl : nl ∉ s := h.clean.2.1
  have hlast : s.getLast? ≠ some nl := fun he => hnl (List.mem_of_getLast? he)
  simp [dotPlusEnd, hlast, hne, hnl]

theorem dotPlusLineEnd_printable {s : Text} (h : Printable s) (hne : s ≠ []) : dotPlusLineEnd s = true := by
  have hall : ∀ r ∈ s.map fun b => [b], (!lineTerminators.contains r) = true := by
    intro r hr
    obtain ⟨b, hb, rfl⟩ := List.mem_map.mp hr
    have hlo := (h b hb).1
    have hterm : ∀ t ∈ lineTerminators, ∀ c ∈ t.head?, t.length = 1 → c < 32 := by decide +kernel
    rw [Bool.not_eq_true', List.contains_eq_mem, decide_eq_false_iff_not]
    exact fun hm => absurd hlo (not_le.mpr (hterm _ hm b rfl rfl))
  have hrunes := runes_ascii fun b hb => lt_trans (h b hb).2 (by decide)
  simp only [dotPlusLineEnd, hrunes, List.takeWhile_eq_self_iff.mpr hall, List.dropWhile_eq_nil_iff.mpr hall]
  simp [hne, atLineEnd]

namespace Popup

/-! ## Timestamps -/

/-- `Date.prototype.toISOString` in the years of four digits, and the date in it. -/
def isoDate (t : Text) : Option Text := do
  let (d, s) ← datePrefix asciiDigit t
  let s ← lit (ascii "T") s
  let s ← digits asciiDigit 2 s
  let s ← lit (ascii ":") s
  let s ← digits asciiDigit 2 s
  let s ← lit (ascii ":") s
  let s ← digits asciiDigit 2 s
  let s ← lit (ascii ".") s
  let s ← digits asciiDigit 3 s
  if s = ascii "Z" then some d else none

structure Iso (d h m s f : Text) : Prop where
  date : IsDate d
  hour : IsDigits 2 h
  minute : IsDigits 2 m
  second : IsDigits 2 s
  fraction : IsDigits 3 f

theorem isoDate_eq_some {t d : Text} (ht : isoDate t = some d) : ∃ h m s f, Iso d h m s f ∧
    t = d ++ 84 :: (h ++ 58 :: (m ++ 58 :: (s ++ 46 :: (f ++ ascii "Z")))) := by
  simp only [isoDate, VisitLogger.datePrefix, Option.bind_eq_bind, Option.bind_eq_some_iff,
    Option.map_eq_some_iff] at ht
  obtain ⟨⟨d', r'⟩, ⟨r, hr, he⟩, s₁, h₁, s₂, h₂, s₃, h₃, s₄, h₄, s₅, h₅, s₆, h₆, s₇, h₇, s₈, h₈, hz⟩ := ht
  simp only [Prod.mk.injEq] at he
  obtain ⟨w, rfl, hw⟩ := takes_date takes_digit t r hr
  have hd : List.take ((w ++ r).length - r.length) (w ++ r) = w := by simp
  rw [hd] at he
  obtain ⟨rfl, rfl⟩ := he
  obtain rfl := lit_eq_some.mp h₁
  obtain ⟨h, rfl, hh⟩ := digits_eq h₂
  obtain rfl := lit_eq_some.mp h₃
  obtain ⟨m, rfl, hm⟩ := digits_eq h₄
  obtain rfl := lit_eq_some.mp h₅
  obtain ⟨s, rfl, hs⟩ := digits_eq h₆
  obtain rfl := lit_eq_some.mp h₇
  obtain ⟨f, rfl, hf⟩ := digits_eq h₈
  split at hz
  · rename_i hz'
    obtain rfl := Option.some.inj hz
    have hdate : IsDate w := by
      have h := (hw []).1
      rwa [List.append_nil] at h
    exact ⟨h, m, s, f, ⟨hdate, hh, hm, hs, hf⟩, by rw [hz']; rfl⟩
  · cases hz

theorem snapshotDatetimePrefix_iso {d h m s f : Text} (hi : Iso d h m s f) :
    snapshotDatetimePrefix (d ++ 84 :: (h ++ 58 :: (m ++ 58 :: (s ++ 46 :: (f ++ ascii "Z"))))) =
      d ++ 84 :: (h ++ 45 :: (m ++ 45 :: (s ++ ascii "Z"))) := by
  have hd : ∀ b ∈ d, decide (b ≠ 84) = true := by
    intro b hb
    rw [decide_eq_true_iff]
    rintro rfl
    exact absurd (hi.date.mem _ hb) (by decide)
  have hrest : ∀ b ∈ h ++ 58 :: (m ++ 58 :: (s ++ 46 :: (f ++ ascii "Z"))), decide (b ≠ 84) = true := by
    intro b hb
    rw [decide_eq_true_iff]
    rintro rfl
    simp [hi.hour.notMem, hi.minute.notMem, hi.second.notMem, hi.fraction.notMem, ascii] at hb
  have hdate : (d ++ 84 :: (h ++ 58 :: (m ++ 58 :: (s ++ 46 :: (f ++ ascii "Z"))))).takeWhile (· ≠ 84) = d := by
    rw [List.takeWhile_append_of_pos hd, List.takeWhile_cons_of_neg (by decide), List.append_nil]
  have htime : (((d ++ 84 :: (h ++ 58 :: (m ++ 58 :: (s ++ 46 :: (f ++ ascii "Z"))))).dropWhile (· ≠ 84)).drop
      1).takeWhile (· ≠ 84) = h ++ 58 :: (m ++ 58 :: (s ++ 46 :: (f ++ ascii "Z"))) := by
    rw [List.dropWhile_append_of_pos hd, List.dropWhile_cons_of_neg (by decide), List.drop_succ_cons,
      List.drop_zero, List.takeWhile_eq_self_iff.mpr hrest]
  have htake : (h ++ 58 :: (m ++ 58 :: (s ++ 46 :: (f ++ ascii "Z")))).take 8 = h ++ 58 :: (m ++ 58 :: s) := by
    have hlen : (h ++ 58 :: (m ++ 58 :: s)).length = 8 := by
      simp [hi.hour.length, hi.minute.length, hi.second.length]
    rw [show h ++ 58 :: (m ++ 58 :: (s ++ 46 :: (f ++ ascii "Z"))) = (h ++ 58 :: (m ++ 58 :: s)) ++
      46 :: (f ++ ascii "Z") by
      simp, List.take_left' hlen]
  have hmap : ∀ {w : Text}, IsDigits 2 w → w.map (fun b => if b = 58 then 45 else b) = w := by
    intro w hw
    refine (List.map_congr_left fun b hb => ?_).trans (List.map_id w)
    rw [if_neg, id]
    rintro rfl
    exact absurd (hw.range _ hb) (by decide)
  unfold snapshotDatetimePrefix
  rw [hdate, htime]
  dsimp only
  rw [htake]
  simp [hmap hi.hour, hmap hi.minute, hmap hi.second, ascii]

/-! ## Hashes -/

theorem hexDigit_inj {a b : Byte} (ha : a < 16) (hb : b < 16) (h : hexDigit a = hexDigit b) : a = b := by
  have key : ∀ m < 16, ∀ n < 16, hexDigit (UInt8.ofNat m) = hexDigit (UInt8.ofNat n) → m = n := by decide
  have hm := key a.toNat (UInt8.lt_iff_toNat_lt.mp ha) b.toNat (UInt8.lt_iff_toNat_lt.mp hb)
  rw [UInt8.ofNat_toNat, UInt8.ofNat_toNat] at hm
  exact UInt8.toNat_inj.mp (hm h)

theorem div_lt (b : Byte) : b / 16 < 16 := by
  have := b.toNat_lt
  rw [UInt8.lt_iff_toNat_lt, UInt8.toNat_div]
  simp
  omega

theorem mod_lt (b : Byte) : b % 16 < 16 := by
  rw [UInt8.lt_iff_toNat_lt, UInt8.toNat_mod]
  simp
  omega

theorem hexHash_cons (b : Byte) (bs : List Byte) :
    hexHash (b :: bs) = hexDigit (b / 16) :: hexDigit (b % 16) :: hexHash bs := rfl

theorem hexHash_inj {as bs : List Byte} (h : hexHash as = hexHash bs) : as = bs := by
  induction as generalizing bs with
  | nil =>
    cases bs with
    | nil => rfl
    | cons b bs => cases h
  | cons a as ih =>
    cases bs with
    | nil => cases h
    | cons b bs =>
      rw [hexHash_cons, hexHash_cons] at h
      injection h with hdiv h
      injection h with hmod h
      have hd := hexDigit_inj (div_lt a) (div_lt b) hdiv
      have hm := hexDigit_inj (mod_lt a) (mod_lt b) hmod
      have hab : a.toNat = b.toNat := by
        have hd' := congrArg UInt8.toNat hd
        have hm' := congrArg UInt8.toNat hm
        rw [UInt8.toNat_div, UInt8.toNat_div] at hd'
        rw [UInt8.toNat_mod, UInt8.toNat_mod] at hm'
        simp at hd' hm'
        omega
      rw [UInt8.toNat_inj.mp hab, ih h]

theorem hexDigit_range {n : Byte} (hn : n < 16) :
    48 ≤ hexDigit n ∧ hexDigit n ≤ 57 ∨ 97 ≤ hexDigit n ∧ hexDigit n ≤ 102 := by
  have key : ∀ m < 16, 48 ≤ hexDigit (UInt8.ofNat m) ∧ hexDigit (UInt8.ofNat m) ≤ 57 ∨
      97 ≤ hexDigit (UInt8.ofNat m) ∧ hexDigit (UInt8.ofNat m) ≤ 102 := by decide
  have hm := key n.toNat (UInt8.lt_iff_toNat_lt.mp hn)
  rwa [UInt8.ofNat_toNat] at hm

theorem hexHash_range {bs : List Byte} : ∀ b ∈ hexHash bs, 48 ≤ b ∧ b ≤ 57 ∨ 97 ≤ b ∧ b ≤ 102 := by
  intro b hb
  obtain ⟨c, -, hc⟩ := List.mem_flatMap.mp hb
  simp only [List.mem_cons, List.not_mem_nil, or_false] at hc
  rcases hc with rfl | rfl
  · exact hexDigit_range (div_lt c)
  · exact hexDigit_range (mod_lt c)

theorem length_hexHash (bs : List Byte) : (hexHash bs).length = 2 * bs.length := by
  induction bs with
  | nil => rfl
  | cons b bs ih => rw [hexHash_cons, List.length_cons, List.length_cons, ih, List.length_cons, Nat.mul_succ]

/-! ## Names -/

section
variable {sha256 : Text → List Byte} {url ts ts' d : Text}

def snapshotExt (url : Text) : Text := if isPdfUrl url then ascii "pdf" else ascii "mhtml"

def snapshotName (sha256 : Text → List Byte) (url ts : Text) : Text :=
  snapshotDatetimePrefix ts ++ 45 :: (hexHash (sha256 (url ++ ts)) ++ 46 :: snapshotExt url)

theorem snapshotFilename_eq : snapshotFilename sha256 url ts =
    ascii "browser-visit-snapshots" ++ slash :: snapshotName sha256 url ts := by
  rw [snapshotFilename, show ascii "browser-visit-snapshots/" = ascii "browser-visit-snapshots" ++
    [slash] from rfl]
  simp [snapshotName, snapshotExt, ascii]

theorem printable_ext : Printable (snapshotExt url) := by
  rw [snapshotExt]
  split <;> decide +kernel

theorem printable_hash (bs : List Byte) : Printable (hexHash bs) := by
  intro b hb
  rcases hexHash_range b hb with hr | hr
  · exact ⟨le_trans (by decide) hr.1, lt_of_le_of_lt hr.2 (by decide)⟩
  · exact ⟨le_trans (by decide) hr.1, lt_of_le_of_lt hr.2 (by decide)⟩

theorem osPathBasename_slash {b : Text} (a : Text) (h : slash ∉ b) : osPathBasename (a ++ slash :: b) = b := by
  rw [osPathBasename, List.splitOn_append_cons_self, List.splitOn_eq_singleton h]
  exact List.getLastD_concat (a := []) (b := b) (l := a.splitOn slash)

theorem slash_notMem_hash (bs : List Byte) : slash ∉ hexHash bs :=
  fun hm => absurd (hexHash_range _ hm) (by decide)

theorem slash_notMem_ext : slash ∉ snapshotExt url := by
  rw [snapshotExt]
  split <;> decide

theorem lit_append (w t : Text) : lit w (w ++ t) = some t := lit_eq_some.mpr rfl

theorem snapshotName_reads (sha256 : Text → List Byte) (url : Text) (hts : isoDate ts = some d) : Printable (snapshotName sha256 url ts) ∧
    slash ∉ snapshotName sha256 url ts ∧ SnapshotName.dateString (snapshotName sha256 url ts) = some d ∧
      snapshotFilenameRe (snapshotName sha256 url ts) = some d := by
  obtain ⟨h, m, s, f, hi, rfl⟩ := isoDate_eq_some hts
  generalize hhash : hexHash (sha256 (url ++ _)) = hash
  have hend : Printable (hash ++ 46 :: snapshotExt url) := by
    rw [← hhash]
    exact (printable_hash _).append ((by decide +kernel : Printable [46]).append printable_ext)
  have hne : hash ++ 46 :: snapshotExt url ≠ [] := by simp
  have hname : snapshotName sha256 url (d ++ 84 :: (h ++ 58 :: (m ++ 58 :: (s ++ 46 :: (f ++ ascii "Z"))))) =
      d ++ (ascii "T" ++ (h ++ (ascii "-" ++ (m ++ (ascii "-" ++ (s ++ (ascii "Z-" ++
        (hash ++ 46 :: snapshotExt url)))))))) := by
    rw [snapshotName, snapshotDatetimePrefix_iso hi, hhash]
    simp [ascii]
  rw [hname]
  refine ⟨?_, ?_, ?_, ?_⟩
  · refine hi.date.printable.append (.append (by decide +kernel) (hi.hour.printable.append (.append (by decide +kernel)
      (hi.minute.printable.append (.append (by decide +kernel)
        (hi.second.printable.append (.append (by decide +kernel) hend)))))))
  · have hslash : slash ∉ hash ++ 46 :: snapshotExt url := by
      rw [List.mem_append, List.mem_cons, not_or, not_or]
      exact ⟨hhash ▸ slash_notMem_hash _, by decide, slash_notMem_ext⟩
    have hslash' : ∀ w ∈ [ascii "T", ascii "-", ascii "Z-"], slash ∉ w := by decide
    simp only [List.mem_append, not_or]
    exact ⟨hi.date.noSlash, hslash' _ (by simp), hi.hour.notMem (by decide), hslash' _ (by simp),
      hi.minute.notMem (by decide), hslash' _ (by simp), hi.second.notMem (by decide), hslash' _ (by simp),
      by simpa only [List.mem_append, not_or] using hslash⟩
  · simp only [SnapshotName.dateString, Option.bind_eq_bind, (hi.date.datePrefix _).2, Option.bind_some,
      lit_append, hi.hour.reads, hi.minute.reads, hi.second.reads, dotPlusLineEnd_printable hend hne, if_true]
  · simp only [snapshotFilenameRe, Option.bind_eq_bind, (hi.date.datePrefix _).2, Option.bind_some, lit_append,
      hi.hour.reads, hi.minute.reads, hi.second.reads, dotPlusEnd_printable hend hne, if_true]

theorem snapshotFilename_inj (hlen : ∀ t, (sha256 t).length = 32)
    (h : snapshotFilename sha256 url ts = snapshotFilename sha256 url ts') :
    sha256 (url ++ ts) = sha256 (url ++ ts') := by
  have hshape : ∀ t, snapshotName sha256 url t =
      (snapshotDatetimePrefix t ++ [45]) ++ hexHash (sha256 (url ++ t)) ++ 46 :: snapshotExt url := fun t => by
    simp [snapshotName]
  rw [snapshotFilename_eq, snapshotFilename_eq] at h
  have hname := List.tail_eq_of_cons_eq (List.append_cancel_left h)
  rw [hshape, hshape] at hname
  refine hexHash_inj (List.append_inj_right' (List.append_cancel_right hname) ?_)
  rw [length_hexHash, length_hexHash, hlen, hlen]

end

/-! ## The writes of a run -/

section
variable {cfg : Config} {db : Db} {s : State}

theorem sent_asked {clicks : List (Tag × Text)} (h : Inv cfg clicks s) {m : BVLHost.Message} (hm : m ∈ s.sent) :
    ∃ k ∈ clicks, m.tag = k.1.text ∧ m.timestamp = k.2 ∧ m.filename = filename cfg ⟨k.1, k.2, false⟩ := by
  have hmem := h.sent.subset (List.mem_append_left _ (List.mem_map_of_mem hm))
  obtain ⟨k, hk, he⟩ := List.mem_map.mp hmem
  simp only [asked, Click.asked, Prod.mk.injEq] at he
  exact ⟨k, hk, he.1.symm, he.2.1.symm, he.2.2.symm⟩

/-- **The names of the snapshots**: whatever happens to a popup, a write that it sends
for read or skimmed names a file in which both implementations of the mover find the
date of the click, and that a log line keeps as it is; one for of_interest names none;
and two of these names are the same only if the digests are. -/
theorem sent_named {acts : List Act} (hrun : Runs.run (Popup.step cfg) (State.init db) acts = some s)
    (hclicks : ∀ k ∈ acts.flatMap clickOf, (isoDate k.2).isSome) (hlen : ∀ t, (cfg.sha256 t).length = 32) :
    (∀ m ∈ s.sent, (m.tag = ascii "of_interest" ∨ BVLHost.isEventTag m.tag = true) ∧
      (m.tag = ascii "of_interest" → m.filename = []) ∧
      (BVLHost.isEventTag m.tag = true → ∃ d, isoDate m.timestamp = some d ∧
        SnapshotName.dateString (lastPathComponent m.filename) = some d ∧
        snapshotFilenameRe (osPathBasename m.filename) = some d ∧ Clean m.filename)) ∧
      ∀ m ∈ s.sent, ∀ m' ∈ s.sent, m.filename ≠ [] → m.filename = m'.filename →
        cfg.sha256 (cfg.tab.url ++ m.timestamp) = cfg.sha256 (cfg.tab.url ++ m'.timestamp) := by
  have hinv := Inv.run hrun
  refine ⟨fun m hm => ?_, fun m hm m' hm' hne he => ?_⟩
  · obtain ⟨⟨tag, ts⟩, hk, htag, hts, hf⟩ := sent_asked hinv hm
    cases tag with
    | ofInterest =>
      refine ⟨Or.inl htag, fun _ => hf, fun hevent => ?_⟩
      rw [htag] at hevent
      cases hevent
    | event t =>
      have hevent : BVLHost.isEventTag m.tag = true := by
        rw [htag]
        exact BVLHost.isEventTag_tag t
      refine ⟨Or.inr hevent, fun hmark => ?_, fun _ => ?_⟩
      · rw [hmark] at hevent
        exact absurd hevent (by decide)
      obtain ⟨d, hd⟩ := Option.isSome_iff_exists.mp (hclicks _ hk)
      obtain ⟨hprint, hslash, hswift, hpython⟩ := snapshotName_reads cfg.sha256 cfg.tab.url hd
      have hname : m.filename = ascii "browser-visit-snapshots" ++
        slash :: snapshotName cfg.sha256 cfg.tab.url ts := by
        rw [hf, filename, snapshotFilename_eq]
      have hne : snapshotName cfg.sha256 cfg.tab.url ts ≠ [] := by simp [snapshotName]
      rw [hname, hts, lastPathComponent_slash _ hslash hne, osPathBasename_slash _ hslash]
      have hclean : Printable (ascii "browser-visit-snapshots" ++
        slash :: snapshotName cfg.sha256 cfg.tab.url ts) :=
        Printable.append (by decide +kernel) (Printable.append (s := [slash]) (by decide +kernel) hprint)
      exact ⟨d, hd, hswift, hpython, hclean.clean⟩
  · obtain ⟨⟨tag, ts⟩, -, -, hts, hf⟩ := sent_asked hinv hm
    obtain ⟨⟨tag', ts'⟩, -, -, hts', hf'⟩ := sent_asked hinv hm'
    cases tag with
    | ofInterest => exact absurd hf hne
    | event t =>
      cases tag' with
      | ofInterest => exact absurd (he.trans hf') hne
      | event t' =>
        rw [hts, hts']
        refine snapshotFilename_inj hlen ?_
        rw [hf, hf'] at he
        exact he

/-- The popup's page is marked read. -/
theorem sent_named_saved : ∃ s, Runs.run (Popup.step savedConfig)
    (State.init (Db.empty (ascii "/d"))) savedActs = some s ∧
    savedWrite ∈ s.sent ∧ SnapshotName.dateString (lastPathComponent savedWrite.filename) =
      some (ascii "2026-04-30") := by
  have hsent : ((Runs.run (Popup.step savedConfig) (State.init (Db.empty (ascii "/d"))) savedActs).map
      fun s => s.sent) = some [savedWrite] := by decide +kernel
  obtain ⟨s, hrun, hs⟩ := Option.map_eq_some_iff.mp hsent
  have hmem : savedWrite ∈ s.sent := by rw [hs]; exact List.mem_singleton.mpr rfl
  obtain ⟨-, -, hnamed⟩ := (sent_named hrun (by decide +kernel) fun _ => rfl).1 savedWrite hmem
  obtain ⟨d, hd, hswift, -⟩ := hnamed (by decide +kernel)
  have hdate : isoDate savedWrite.timestamp = some (ascii "2026-04-30") := by decide +kernel
  rw [hdate] at hd
  exact ⟨s, hrun, hmem, (Option.some.inj hd) ▸ hswift⟩

end

end Popup

end VisitLogger
