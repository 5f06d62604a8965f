import VisitLogger.Table
import VisitLogger.Names

/-!
# The day logs

Every write invocation of the host leaves two lines in the log of the day it
started on: an action line, and later a result line that carries the same
record id. This module has the lines as the host renders them (`VisitLog`) and
the entries they stand for.
-/

namespace VisitLogger

open Framing

/-! ## Sanitising a field -/

/-- Swift's `tsvSanitise`. It goes character by character, and CR LF is one
character, which matches none of the cases and is kept. -/
def tsvSanitise : Text → Text
  | [] => []
  | [b] => if b = cr then [] else [if b = tab ∨ b = nl then space else b]
  | b :: c :: t =>
    if b = cr then if c = nl then cr :: nl :: tsvSanitise t else tsvSanitise (c :: t)
    else (if b = tab ∨ b = nl then space else b) :: tsvSanitise (c :: t)

def NoCrLf (t : Text) : Prop := ¬[cr, nl] <:+: t

instance (t : Text) : Decidable (NoCrLf t) := inferInstanceAs (Decidable (¬_))

theorem NoCrLf.of_cons {b : Byte} {t : Text} (h : NoCrLf (b :: t)) : NoCrLf t :=
  fun hi => h (hi.trans (List.suffix_cons b t).isInfix)

theorem Clean.noCrLf {t : Text} (h : Clean t) : NoCrLf t := fun hi => h.2.2 (hi.subset (by simp))

theorem clean_cons {b : Byte} {t : Text} : Clean (b :: t) ↔ (b ≠ tab ∧ b ≠ nl ∧ b ≠ cr) ∧ Clean t := by
  simp only [Clean, List.mem_cons, not_or, ne_comm (a := b)]
  tauto

theorem clean_space : space ≠ tab ∧ space ≠ nl ∧ space ≠ cr := by decide

theorem clean_of_ne {b : Byte} (hb : ¬b = cr) :
    (if b = tab ∨ b = nl then space else b) ≠ tab ∧ (if b = tab ∨ b = nl then space else b) ≠ nl ∧
      (if b = tab ∨ b = nl then space else b) ≠ cr := by
  by_cases h : b = tab ∨ b = nl
  · simp only [if_pos h]; exact clean_space
  · rw [if_neg h]; exact ⟨fun e => h (Or.inl e), fun e => h (Or.inr e), hb⟩

/-- **A sanitised field fits in a line**, unless it held a CR LF pair. -/
theorem tsvSanitise_clean {t : Text} (h : NoCrLf t) : Clean (tsvSanitise t) := by
  fun_induction tsvSanitise t with
  | case1 => decide
  | case2 => decide
  | case3 b hb => exact clean_cons.mpr ⟨clean_of_ne hb, by decide⟩
  | case4 t _ => exact absurd (List.prefix_append [cr, nl] t).isInfix h
  | case5 c t hc ih => exact ih h.of_cons
  | case6 b c t hb ih => exact clean_cons.mpr ⟨clean_of_ne hb, ih h.of_cons⟩

theorem tsvSanitise_of_clean {t : Text} (h : Clean t) : tsvSanitise t = t := by
  fun_induction tsvSanitise t with
  | case1 => rfl
  | case2 => exact absurd h (by decide)
  | case3 b hb => obtain ⟨⟨h₁, h₂, -⟩, -⟩ := clean_cons.mp h; simp [h₁, h₂]
  | case4 => exact absurd rfl (clean_cons.mp h).1.2.2
  | case5 => exact absurd rfl (clean_cons.mp h).1.2.2
  | case6 b c t hb ih => obtain ⟨⟨h₁, h₂, -⟩, h⟩ := clean_cons.mp h; simp [h₁, h₂, ih h]

theorem tab_notMem_tsvSanitise (t : Text) : tab ∉ tsvSanitise t := by
  have hs : ∀ b : Byte, tab ≠ if b = tab ∨ b = nl then space else b := by
    intro b
    by_cases h : b = tab ∨ b = nl
    · simp only [h, if_true]; decide
    · rw [if_neg h]; exact fun e => h (Or.inl e.symm)
  fun_induction tsvSanitise t with
  | case1 => simp
  | case2 => simp
  | case3 b hb => simpa using hs b
  | case4 t ih => simp [ih, show tab ≠ cr by decide, show tab ≠ nl by decide]
  | case5 c t hc ih => exact ih
  | case6 b c t hb ih => simpa using ⟨hs b, ih⟩

theorem tsvSanitise_append {a : Text} (h : Clean a) (b : Text) : tsvSanitise (a ++ b) = a ++ tsvSanitise b := by
  induction a with
  | nil => rfl
  | cons x a ih =>
    obtain ⟨⟨h₁, h₂, h₃⟩, h⟩ := clean_cons.mp h
    rw [List.cons_append, List.cons_append, ← ih h]
    cases a ++ b with
    | nil => simp [tsvSanitise, h₁, h₂, h₃]
    | cons c t => simp [tsvSanitise, h₁, h₂, h₃]

/-! ## Lines -/

/-- What an action line records next to its record id. `tag` is empty on a plain
visit, and only the event tags have a file name. -/
structure Action where
  timestamp : Text
  url : Text
  title : Text
  tag : Text
  filename : Text
  deriving DecidableEq, Repr

namespace VisitLog

def actionFields (recordId : Text) (a : Action) : List Text :=
  [recordId, a.timestamp, a.url, a.title] ++
    if a.tag = [] then [] else
      a.tag :: if a.tag = ascii "read" ∨ a.tag = ascii "skimmed" then [a.filename] else []

/-- The fields as `appendAction` sanitises them. The tag is compared unsanitised. -/
def sanitised (a : Action) : Action :=
  ⟨tsvSanitise a.timestamp, tsvSanitise a.url, tsvSanitise a.title, a.tag, tsvSanitise a.filename⟩

def actionLine (recordId : Text) (a : Action) : Text :=
  joinTabs ((actionFields recordId a).map tsvSanitise)

def resultLine (recordId result : Text) : Text := joinTabs [tsvSanitise recordId, tsvSanitise result]

def appendLine (logs : List (Text × Text)) (date line : Text) : List (Text × Text) :=
  let logs := (Table.insertOrIgnore Prod.fst (date, []) logs).1
  (Table.updateWhere (fun f => f.1 = date) (fun f => (f.1, f.2 ++ line ++ [nl])) logs).1

end VisitLog

/-! ## Entries -/

/-- `UUID().uuidString` without dashes and lowercased, and Python's `_UUID_RE`. -/
def looksLikeUuid (t : Text) : Bool :=
  t.length = 32 && t.all fun b => (48 ≤ b && b ≤ 57) || (97 ≤ b && b ≤ 102)

def isResultPayload (t : Text) : Bool := t = ascii "success" || (ascii "error: ").isPrefixOf t

def validTags : List Text := [ascii "of_interest", ascii "read", ascii "skimmed"]

inductive Entry where
  | action (recordId : Text) (a : Action)
  | result (recordId payload : Text)
  deriving DecidableEq, Repr

namespace Entry

def recordId : Entry → Text
  | action i _ => i
  | result i _ => i

def fields : Entry → List Text
  | action i a => VisitLog.actionFields i a
  | result i p => [i, p]

def line (e : Entry) : Text := joinTabs e.fields

/-- The shape of the host's lines. -/
structure Wf (e : Entry) : Prop where
  uuid : looksLikeUuid e.recordId = true
  clean : ∀ f ∈ e.fields, Clean f
  valid : match e with
    | action _ a => a.tag = [] ∨ a.tag ∈ validTags
    | result _ p => isResultPayload p = true

end Entry

theorem looksLikeUuid_clean {t : Text} (h : looksLikeUuid t = true) : Clean t := by
  simp only [looksLikeUuid, Bool.and_eq_true, List.all_eq_true] at h
  refine ⟨fun hb => ?_, fun hb => ?_, fun hb => ?_⟩ <;> exact absurd (h.2 _ hb) (by decide)

theorem looksLikeUuid_ne_nil {t : Text} (h : looksLikeUuid t = true) : t ≠ [] := by
  rintro rfl; exact absurd h (by decide)

theorem validTags_clean : ∀ t ∈ validTags, Clean t := by decide

namespace VisitLog

theorem actionFields_ne_nil (i : Text) (a : Action) : actionFields i a ≠ [] := by simp [actionFields]

end VisitLog

namespace Entry

theorem line_splits {e : Entry} (h : e.Wf) : splitTabs e.line = e.fields := by
  refine splitTabs_join (fun f hf => (h.clean f hf).1) ?_
  cases e with
  | action i a => exact VisitLog.actionFields_ne_nil i a
  | result i p => exact List.cons_ne_nil _ _

theorem line_noNl {e : Entry} (h : e.Wf) : nl ∉ e.line ∧ cr ∉ e.line := joinTabs_line h.clean

end Entry

namespace VisitLog

theorem actionFields_sanitised {i : Text} {a : Action} (hi : looksLikeUuid i = true)
    (ht : a.tag = [] ∨ a.tag ∈ validTags) :
    actionFields i (sanitised a) = (actionFields i a).map tsvSanitise := by
  have hc : tsvSanitise a.tag = a.tag := by
    rcases ht with ht | ht
    · rw [ht]; rfl
    · exact tsvSanitise_of_clean (validTags_clean _ ht)
  have hi := tsvSanitise_of_clean (looksLikeUuid_clean hi)
  unfold actionFields sanitised
  by_cases h₁ : a.tag = []
  · simp [h₁, hi]
  · by_cases h₂ : a.tag = ascii "read" ∨ a.tag = ascii "skimmed" <;> simp [h₁, h₂, hc, hi]

end VisitLog

namespace Entry

theorem line_action {i : Text} {a : Action} (hi : looksLikeUuid i = true)
    (ht : a.tag = [] ∨ a.tag ∈ validTags) :
    VisitLog.actionLine i a = (action i (VisitLog.sanitised a)).line := by
  rw [line, fields, VisitLog.actionFields_sanitised hi ht, VisitLog.actionLine]

theorem wf_action {i : Text} {a : Action} (hi : looksLikeUuid i = true) (ht : a.tag = [] ∨ a.tag ∈ validTags)
    (hc : ∀ f ∈ VisitLog.actionFields i a, NoCrLf f) : (action i (VisitLog.sanitised a)).Wf where
  uuid := hi
  clean f hf := by
    rw [fields, VisitLog.actionFields_sanitised hi ht] at hf
    obtain ⟨g, hg, rfl⟩ := List.mem_map.mp hf
    exact tsvSanitise_clean (hc g hg)
  valid := ht

theorem line_result {i p : Text} (hi : looksLikeUuid i = true) :
    VisitLog.resultLine i p = (result i (tsvSanitise p)).line := by
  rw [VisitLog.resultLine, tsvSanitise_of_clean (looksLikeUuid_clean hi)]; rfl

theorem wf_success {i : Text} (hi : looksLikeUuid i = true) : (result i (ascii "success")).Wf where
  uuid := hi
  clean f hf := by
    simp only [fields, List.mem_cons, List.not_mem_nil, or_false] at hf
    rcases hf with rfl | rfl
    · exact looksLikeUuid_clean hi
    · decide
  valid := show isResultPayload (ascii "success") = true by decide

end Entry

end VisitLogger
