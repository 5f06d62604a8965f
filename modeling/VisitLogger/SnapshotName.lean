import VisitLogger.Host

/-!
# Names in the Swift tools

The same three patterns as in `Names`, as NSRegularExpression matches them: `$`
also matches before one line terminator at the end, and `.` matches no line
terminator.
-/

namespace VisitLogger

/-! ## NSRegularExpression -/

def lineTerminators : List Text :=
  [[0x0A], [0x0B], [0x0C], [0x0D], [0xC2, 0x85], [0xE2, 0x80, 0xA8], [0xE2, 0x80, 0xA9]]

/-- `$` -/
def atLineEnd (s : Text) : Bool := s = [] || s = [cr, nl] || lineTerminators.contains s

/-- `.+$` -/
def dotPlusLineEnd (s : Text) : Bool :=
  let runes := BVLHost.runes s
  runes.takeWhile (fun r => !lineTerminators.contains r) ≠ [] &&
    atLineEnd (runes.dropWhile fun r => !lineTerminators.contains r).flatten

def isDateDirName (basename : Text) : Bool :=
  match takeDate unicodeDigit basename with
  | some r => atLineEnd r
  | none => false

def OrphanLog.extractDate (name : Text) : Option Text := do
  let s ← lit (ascii "browser-visits-") name
  let (d, r) ← datePrefix unicodeDigit s
  let r ← lit (ascii ".log") r
  if atLineEnd r then some d else none

namespace SnapshotName

def dateString (basename : Text) : Option Text := do
  let (d, s) ← datePrefix unicodeDigit basename
  let s ← lit (ascii "T") s
  let s ← digits unicodeDigit 2 s
  let s ← lit (ascii "-") s
  let s ← digits unicodeDigit 2 s
  let s ← lit (ascii "-") s
  let s ← digits unicodeDigit 2 s
  let s ← lit (ascii "Z-") s
  if dotPlusLineEnd s then some d else none

def isValid (basename : Text) : Bool := (dateString basename).isSome

end SnapshotName

/-! ## Lemmas -/

theorem IsDate.isDateDirName {d : Text} (h : IsDate d) : isDateDirName d = true := by
  have h := (h.takeDate []).2
  rw [List.append_nil] at h
  simp [VisitLogger.isDateDirName, h, atLineEnd]

theorem IsDate.extractDate {d : Text} (h : IsDate d) : OrphanLog.extractDate (logFilename d) = some d := by
  have hl : lit (ascii "browser-visits-") (logFilename d) = some (d ++ ascii ".log") :=
    lit_eq_some.mpr (by simp [logFilename])
  have he : lit (ascii ".log") (ascii ".log") = some [] := lit_eq_some.mpr (by simp)
  simp [OrphanLog.extractDate, hl, (h.datePrefix _).2, he, atLineEnd]

namespace OrphanLog

theorem extractDate_eq_some {name d : Text} (h : extractDate name = some d) :
    (∃ r, name = logFilename d ++ r ∧ atLineEnd r = true) ∧ extractDate (logFilename d) = some d := by
  simp only [extractDate, VisitLogger.datePrefix, Option.bind_eq_bind, Option.bind_eq_some_iff,
    Option.map_eq_some_iff] at h
  obtain ⟨s, hs, ⟨d', r'⟩, ⟨r, hr, he⟩, r'', hlog, h⟩ := h
  simp only [Prod.mk.injEq] at he
  obtain ⟨w, rfl, hw⟩ := takes_date takes_unicodeDigit s r hr
  obtain ⟨rfl, rfl⟩ := he
  have hd : List.take ((w ++ r).length - r.length) (w ++ r) = w := by simp
  rw [hd] at h
  split at h
  · rename_i hend
    obtain rfl : w = d := Option.some.inj h
    refine ⟨⟨r'', ?_, hend⟩, ?_⟩
    · have hlog : r = ascii ".log" ++ r'' := lit_eq_some.mp hlog
      rw [lit_eq_some.mp hs, hlog]
      simp [logFilename]
    · have hl : lit (ascii "browser-visits-") (logFilename w) = some (w ++ ascii ".log") :=
        lit_eq_some.mpr (by simp [logFilename])
      have he : lit (ascii ".log") (ascii ".log") = some [] := lit_eq_some.mpr (by simp)
      simp [extractDate, VisitLogger.datePrefix, hl, (hw (ascii ".log")).1, he, atLineEnd]
  · cases h

theorem extractDate_logFilename {d date : Text} (h : extractDate (logFilename date) = some d) : date = d := by
  obtain ⟨⟨r, he, hr⟩, -⟩ := extractDate_eq_some h
  have hlast : ∀ c ∈ r.getLast?, c ≠ 0x67 := by
    have hterm : ∀ t ∈ ([] : Text) :: [cr, nl] :: lineTerminators, ∀ c ∈ t.getLast?, c ≠ 0x67 := by
      simp [lineTerminators, nl, cr]
    refine hterm r ?_
    simpa [atLineEnd, or_assoc] using hr
  rcases List.eq_nil_or_concat r with rfl | ⟨r', c, rfl⟩
  · rw [List.append_nil] at he
    exact logFilename_inj he
  · have hg : (logFilename date).getLast? = some 0x67 :=
      List.getLast?_append_of_ne_nil (ascii "browser-visits-" ++ date) (by decide : ascii ".log" ≠ [])
    rw [he, List.concat_eq_append, ← List.append_assoc, List.getLast?_concat] at hg
    exact absurd (Option.some.inj hg) (hlast c (by simp))

end OrphanLog

namespace SnapshotName

theorem isValid_of_dateString {name date : Text} (h : dateString name = some date) : isValid name = true := by
  rw [isValid, h]
  rfl

theorem isValid_head {name : Text} (h : isValid name = true) : name.head? ≠ some 98 := by
  intro he
  obtain ⟨t, rfl⟩ : ∃ t, name = 98 :: t := ⟨name.tail, List.eq_cons_of_mem_head? he⟩
  have hd : unicodeDigit (98 :: t) = none := by
    simp only [unicodeDigit, decodeRune, show (98 : Byte) < 0x80 by decide, if_true]
    rw [if_neg (by decide)]
  rw [isValid] at h
  simp [dateString, datePrefix, takeDate, digits, hd] at h

theorem ne_logFilename {name : Text} (h : isValid name = true) (d : Text) : name ≠ logFilename d := by
  rintro rfl
  exact isValid_head h rfl

theorem ne_log {name entry : Text} (h : isValid name = true) (he : OrphanLog.extractDate entry ≠ none) :
    entry ≠ name := by
  rintro rfl
  obtain ⟨d, hd⟩ := Option.ne_none_iff_exists'.mp he
  obtain ⟨⟨r, rfl, -⟩, -⟩ := OrphanLog.extractDate_eq_some hd
  exact isValid_head h rfl

end SnapshotName

end VisitLogger
