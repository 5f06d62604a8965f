import Mathlib.Data.List.DropRight
import VisitLogger.MoverErrors

/-!
# Failures that were resolved under a directory

Both tools delete the rows of an operation whose files are no longer strays. The Swift one takes the slashes
off both ends of the directory before it looks for targets under it. No target of an absolute directory
begins with what is left, so its rows stay (`reconcile_agrees_iff`).
-/

namespace VisitLogger

open SnapshotMover (MoverError)

namespace MoverErrors

/-- `appendingPathComponent` of an `NSString` -/
def appendingPathComponent (s component : Text) : Text :=
  if s = [] ∨ s.getLast? = some slash then s ++ component else s ++ slash :: component

def isSlash (b : Byte) : Bool := b = slash

/-- `trimmingCharacters(in: .init(charactersIn: "/"))` -/
def trimSlashes (s : Text) : Text := (s.dropWhile isSlash).rdropWhile isSlash

def dirPrefix (dirPath : Text) : Text := trimSlashes (appendingPathComponent dirPath [slash]) ++ [slash]

def reconcileDirScoped (op dirPath : Text) (currentStrays : List Text) (rows : List MoverError) :
    List MoverError :=
  let prior := rows.filter fun r => r.operation = op
  prior.foldl (fun rows r =>
    if (dirPrefix dirPath).isPrefixOf r.target && !currentStrays.contains r.target then rows.filter fun x => x.key ≠ r.key
    else rows) rows

/-! ## What is deleted -/

def Under (dirPath target : Text) : Prop := osPathJoin dirPath [] <+: target

instance (dirPath target : Text) : Decidable (Under dirPath target) := inferInstanceAs (Decidable (_ <+: _))

/-- The rows of the operation that are under the directory and no strays are deleted, the others stay, and
`_reconcile_dir_scoped_errors` does the same. -/
def ReconcilesExactly (op dirPath : Text) (currentStrays : List Text) (rows : List MoverError) : Prop :=
  reconcileDirScoped op dirPath currentStrays rows =
      rows.filter (fun r => ¬(r.operation = op ∧ Under dirPath r.target ∧ r.target ∉ currentStrays)) ∧
    reconcileDirScoped op dirPath currentStrays rows =
      SnapshotMover.reconcileDirScopedErrors op dirPath currentStrays rows

theorem foldl_delete (p : MoverError → Bool) (prior rows : List MoverError) :
    prior.foldl (fun rows r => if p r then rows.filter fun x => x.key ≠ r.key else rows) rows =
      rows.filter fun x => ∀ r ∈ prior, p r = true → x.key ≠ r.key := by
  induction prior generalizing rows with
  | nil => simp
  | cons r prior ih =>
    rw [List.foldl_cons, ih]
    by_cases hp : p r = true
    · rw [if_pos hp, List.filter_filter]
      refine List.filter_congr fun x _ => ?_
      simp [hp, Bool.and_comm]
    · rw [if_neg hp]
      refine List.filter_congr fun x _ => ?_
      simp [hp]

section
variable {op dirPath : Text} {currentStrays : List Text} {rows : List MoverError}

theorem reconcileDirScoped_eq (hkeys : (rows.map MoverError.key).Nodup) :
    reconcileDirScoped op dirPath currentStrays rows =
      rows.filter fun r => ¬(r.operation = op ∧ dirPrefix dirPath <+: r.target ∧ r.target ∉ currentStrays) := by
  rw [reconcileDirScoped, foldl_delete]
  refine List.filter_congr fun x hx => ?_
  rw [decide_eq_decide]
  constructor
  · intro h ⟨hop, hpre, hstray⟩
    refine h x (List.mem_filter.mpr ⟨hx, by simpa using hop⟩) ?_ rfl
    simpa using ⟨hpre, hstray⟩
  · intro h r hr hp hkey
    obtain ⟨hr, hop⟩ := List.mem_filter.mp hr
    obtain rfl : x = r := List.inj_on_of_nodup_map hkeys hx hr hkey
    refine h ⟨by simpa using hop, ?_⟩
    simpa using hp

theorem reconcileDirScopedErrors_eq :
    SnapshotMover.reconcileDirScopedErrors op dirPath currentStrays rows =
      rows.filter fun r => ¬(r.operation = op ∧ Under dirPath r.target ∧ r.target ∉ currentStrays) := by
  unfold SnapshotMover.reconcileDirScopedErrors
  refine List.filter_congr fun r _ => ?_
  rw [Bool.eq_iff_iff]
  simp [Under, ← List.isPrefixOf_iff_prefix, or_assoc]

theorem filter_eq_filter_iff {α : Type*} {l : List α} {p q : α → Bool} :
    l.filter p = l.filter q ↔ ∀ x ∈ l, p x = q x := by
  constructor
  · intro h x hx
    rw [Bool.eq_iff_iff]
    have hp : x ∈ l.filter p ↔ x ∈ l.filter q := by rw [h]
    simpa [hx] using hp
  · exact List.filter_congr

end

/-! ## Slashes -/

theorem trimSlashes_append_slash (s : Text) : trimSlashes (s ++ [slash]) = trimSlashes s := by
  have hs : isSlash slash = true := rfl
  unfold trimSlashes
  rw [List.dropWhile_append]
  by_cases h : (s.dropWhile isSlash).isEmpty = true
  · rw [if_pos h, List.isEmpty_iff.mp h]
    simp [hs]
  · rw [if_neg h, List.rdropWhile_concat_pos _ _ _ hs]

theorem dirPrefix_eq (dirPath : Text) : dirPrefix dirPath = trimSlashes dirPath ++ [slash] := by
  unfold dirPrefix appendingPathComponent
  split
  · rw [trimSlashes_append_slash]
  · have happ : dirPath ++ slash :: [slash] = (dirPath ++ [slash]) ++ [slash] := by simp
    rw [happ, trimSlashes_append_slash, trimSlashes_append_slash]

theorem head_trimSlashes {s : Text} (h : trimSlashes s ≠ []) : ∃ b t, trimSlashes s = b :: t ∧ b ≠ slash := by
  cases ht : trimSlashes s with
  | nil => exact absurd ht h
  | cons b t =>
    refine ⟨b, t, rfl, ?_⟩
    have hpre : b :: t <+: s.dropWhile isSlash := by
      rw [← ht]
      exact List.rdropWhile_prefix _ _
    obtain ⟨u, hu⟩ := hpre
    have hhead := List.head?_dropWhile_not isSlash s
    rw [← hu] at hhead
    simpa [isSlash] using hhead

theorem trimSlashes_eq_nil {s : Text} (h : trimSlashes s = []) : ∀ b ∈ s, b = slash := by
  have hall : ∀ b ∈ s.dropWhile isSlash, isSlash b = true := List.rdropWhile_eq_nil_iff.mp h
  intro b hb
  rw [← List.takeWhile_append_dropWhile (p := isSlash) (l := s)] at hb
  rcases List.mem_append.mp hb with hb | hb
  · simpa [isSlash] using List.mem_takeWhile_imp hb
  · simpa [isSlash] using hall b hb

/-- The two tools look at the target alike: it is neither under the directory nor under its path without the slashes
at the ends; where the path is slashes only, an absolute target begins with all of them. -/
def Alike (dirPath target : Text) : Prop :=
  if trimSlashes dirPath = [] then [slash] <+: target → dirPath <+: target
  else ¬Under dirPath target ∧ ¬trimSlashes dirPath ++ [slash] <+: target

instance (dirPath target : Text) : Decidable (Alike dirPath target) := inferInstanceAs (Decidable (ite _ _ _))

theorem prefixes_agree_iff {dirPath : Text} (habs : dirPath.head? = some slash) (target : Text) :
    (dirPrefix dirPath <+: target ↔ Under dirPath target) ↔ Alike dirPath target := by
  obtain ⟨d, rfl⟩ : ∃ d, dirPath = slash :: d := by
    cases dirPath with
    | nil => cases habs
    | cons b d => exact ⟨d, by rw [Option.some.inj habs]⟩
  rw [dirPrefix_eq, Alike]
  by_cases hnil : trimSlashes (slash :: d) = []
  · have hlast : (slash :: d).getLast? = some slash := by
      rw [List.getLast?_eq_getLast_of_ne_nil (List.cons_ne_nil _ _)]
      exact congrArg some (trimSlashes_eq_nil hnil _ (List.getLast_mem _))
    have hunder : Under (slash :: d) target ↔ slash :: d <+: target := by
      simp [Under, osPathJoin, hlast]
    rw [if_pos hnil, hnil, List.nil_append, hunder]
    constructor
    · intro h
      exact h.mp
    · intro h
      exact ⟨h, fun hd => (List.prefix_append [slash] d).trans hd⟩
  · rw [if_neg hnil]
    obtain ⟨b, t, ht, hb⟩ := head_trimSlashes hnil
    -- what is under the directory begins with a slash, what is under the trimmed one does not
    have hdisjoint : ¬(Under (slash :: d) target ∧ trimSlashes (slash :: d) ++ [slash] <+: target) := by
      intro ⟨⟨u, hu⟩, ⟨v, hv⟩⟩
      have hhead : (osPathJoin (slash :: d) []).head? = some slash := by
        simp only [osPathJoin]
        split
        · rename_i h; cases h
        · split <;> rfl
      have h₁ : target.head? = some slash := by
        rw [← hu, List.head?_append, hhead]; rfl
      have h₂ : target.head? = some b := by
        rw [← hv, ht]; rfl
      rw [h₁] at h₂
      exact hb (Option.some.inj h₂).symm
    tauto

/-- **The Swift tool heals as it should iff** the two look alike at the target of each row of the operation that is no
stray. -/
theorem reconcile_agrees_iff {rows : List MoverError} (hkeys : (rows.map MoverError.key).Nodup) {dirPath : Text}
    (habs : dirPath.head? = some slash) (op : Text) (currentStrays : List Text) :
    ReconcilesExactly op dirPath currentStrays rows ↔
      ∀ r ∈ rows, r.operation = op → r.target ∉ currentStrays → Alike dirPath r.target := by
  rw [ReconcilesExactly, reconcileDirScopedErrors_eq, and_self, reconcileDirScoped_eq hkeys,
    filter_eq_filter_iff]
  refine forall₂_congr fun r _ => ?_
  rw [← prefixes_agree_iff habs, decide_eq_decide]
  tauto

def renamedFile : MoverError :=
  ⟨ascii "invalid_filename:/d/x", ascii "invalid_filename", ascii "/d/x", [], [], [], 1, 0, 1⟩

/-- The file is still a stray, or it is in another directory. -/
theorem reconcile_agrees_iff_renamed :
    ReconcilesExactly (ascii "invalid_filename") (ascii "/d") [ascii "/d/x"] [renamedFile] ∧
      ReconcilesExactly (ascii "invalid_filename") (ascii "/e") [] [renamedFile] :=
  ⟨(reconcile_agrees_iff (by decide) (by decide) _ _).mpr (by decide),
    (reconcile_agrees_iff (by decide) (by decide) _ _).mpr (by decide)⟩

theorem renamed_file_stays :
    reconcileDirScoped (ascii "invalid_filename") (ascii "/d") [] [renamedFile] = [renamedFile] ∧
      SnapshotMover.reconcileDirScopedErrors (ascii "invalid_filename") (ascii "/d") [] [renamedFile] = [] ∧
      ¬ReconcilesExactly (ascii "invalid_filename") (ascii "/d") [] [renamedFile] := by
  refine ⟨by decide, by decide, fun h => ?_⟩
  have := h.2
  revert this
  decide

end MoverErrors

end VisitLogger
