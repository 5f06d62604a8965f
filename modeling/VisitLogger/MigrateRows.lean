import Mathlib.Data.List.TakeWhile
import VisitLogger.MigrateSound

/-!
# Which rows a migration rewrites

The `UPDATE` selects rows with `LIKE`, where `_` stands for any character and the case of
letters does not count, and `REPLACE` changes every occurrence of the root. `exact_iff`
says for which rows that is the same as putting the new root for the old one.
-/

namespace VisitLogger

namespace Migrate

/-! ## `REPLACE` -/

variable {old new s : Text}

theorem replaceFrom_skip (old new : Text) (k : Nat) (s : Text) :
    replaceFrom old new k s = replaceFrom old new 0 (s.drop k) := by
  induction k generalizing s with
  | zero => rfl
  | succ k ih =>
    cases s with
    | nil => rfl
    | cons b s => rw [replaceFrom, ih, List.drop_succ_cons]

theorem replaceFrom_append (hold : old ≠ []) (s : Text) :
    replaceFrom old new 0 (old ++ s) = new ++ replaceFrom old new 0 s := by
  cases old with
  | nil => exact absurd rfl hold
  | cons b old =>
    have hprefix : (b :: old).isPrefixOf (b :: (old ++ s)) = true := List.isPrefixOf_iff_prefix.mpr ⟨s, rfl⟩
    rw [List.cons_append, replaceFrom, if_pos hprefix, List.length_cons, Nat.add_sub_cancel,
      replaceFrom_skip, List.drop_left]

theorem replaceFrom_cons {b : Byte} (h : ¬ old <+: b :: s) :
    replaceFrom old new 0 (b :: s) = b :: replaceFrom old new 0 s := by
  rw [replaceFrom, if_neg (by rwa [List.isPrefixOf_iff_prefix])]

theorem replace_induction {P : Text → Prop} (hold : old ≠ []) (nil : P [])
    (occurrence : ∀ s, P s → P (old ++ s))
    (other : ∀ b s, ¬ old <+: b :: s → P s → P (b :: s)) (s : Text) : P s := by
  induction hn : s.length using Nat.strong_induction_on generalizing s with
  | _ n ih =>
    cases s with
    | nil => exact nil
    | cons b s =>
      by_cases hprefix : old <+: b :: s
      · obtain ⟨t, ht⟩ := hprefix
        have hpos := List.length_pos_iff.mpr hold
        have hlen := congrArg List.length ht
        rw [List.length_append, hn] at hlen
        exact ht ▸ occurrence t (ih t.length (by omega) t rfl)
      · exact other b s hprefix (ih s.length (by rw [← hn]; exact Nat.lt_succ_self _) s rfl)

theorem replaceFrom_of_not_infix (hold : old ≠ []) (h : ¬ old <:+: s) : replaceFrom old new 0 s = s := by
  induction s using replace_induction hold with
  | nil => rfl
  | occurrence s ih => exact absurd ⟨[], s, rfl⟩ h
  | other b s hprefix ih => rw [replaceFrom_cons hprefix, ih fun hin => h (List.infix_cons hin)]

theorem replaceFrom_self (hold : old ≠ []) (s : Text) : replaceFrom old old 0 s = s := by
  induction s using replace_induction hold with
  | nil => rfl
  | occurrence s ih => rw [replaceFrom_append hold, ih]
  | other b s hprefix ih => rw [replaceFrom_cons hprefix, ih]

theorem length_replaceFrom (hold : old ≠ []) (s : Text) :
    (old.length ≤ new.length → s.length ≤ (replaceFrom old new 0 s).length) ∧
      (new.length ≤ old.length → (replaceFrom old new 0 s).length ≤ s.length) := by
  induction s using replace_induction hold with
  | nil => exact ⟨fun _ => Nat.le_refl _, fun _ => Nat.le_refl _⟩
  | occurrence s ih =>
    rw [replaceFrom_append hold, List.length_append, List.length_append]
    exact ⟨fun h => Nat.add_le_add h (ih.1 h), fun h => Nat.add_le_add h (ih.2 h)⟩
  | other b s hprefix ih =>
    rw [replaceFrom_cons hprefix, List.length_cons, List.length_cons]
    exact ⟨fun h => Nat.succ_le_succ (ih.1 h), fun h => Nat.succ_le_succ (ih.2 h)⟩

theorem exists_first (hold : old ≠ []) (h : old <:+: s) :
    ∃ t u, s = t ++ (old ++ u) ∧
      ∀ new, replaceFrom old new 0 s = t ++ (new ++ replaceFrom old new 0 u) := by
  induction s using replace_induction hold with
  | nil => exact absurd (List.infix_nil.mp h) hold
  | occurrence s ih => exact ⟨[], s, rfl, fun new => replaceFrom_append hold s⟩
  | other b s hprefix ih =>
    obtain ⟨t, u, rfl, hreplace⟩ := ih ((List.infix_cons_iff.mp h).resolve_left hprefix)
    exact ⟨b :: t, u, rfl, fun new => by rw [replaceFrom_cons hprefix, hreplace, List.cons_append]⟩

theorem replace_eq_self_iff (hold : old ≠ []) : replace s old new = s ↔ old = new ∨ ¬ old <:+: s := by
  rw [replace, if_neg hold]
  constructor
  · intro h
    by_contra hno
    rw [not_or, not_not] at hno
    obtain ⟨t, u, rfl, hreplace⟩ := exists_first hold hno.2
    rw [hreplace] at h
    have htail := List.append_cancel_left h
    have hlen := congrArg List.length htail
    rw [List.length_append, List.length_append] at hlen
    obtain ⟨hle, hge⟩ : (old.length ≤ new.length → u.length ≤ (replaceFrom old new 0 u).length) ∧
        (new.length ≤ old.length → (replaceFrom old new 0 u).length ≤ u.length) := length_replaceFrom hold u
    have hsame : new.length = old.length := by
      rcases Nat.lt_trichotomy old.length new.length with hlt | heq | hgt
      · have := hle (Nat.le_of_lt hlt)
        omega
      · exact heq.symm
      · have := hge (Nat.le_of_lt hgt)
        omega
    exact hno.1 (List.append_inj_left htail hsame).symm
  · rintro (rfl | hno)
    · exact replaceFrom_self hold s
    · exact replaceFrom_of_not_infix hold hno

/-! ## `LIKE` -/

theorem slash_mem_dropWhile {cs : List Text} (h : [slash] ∈ cs) :
    [slash] ∈ cs.dropWhile isContinuation := by
  rw [← List.takeWhile_append_dropWhile (p := isContinuation) (l := cs)] at h
  exact (List.mem_append.mp h).resolve_left fun hmem => absurd (List.mem_takeWhile_imp hmem) (by decide)

theorem slash_mem_characters (s : Text) : [slash] ∈ characters (s ++ [slash]) := by
  induction s with
  | nil => exact List.mem_singleton_self _
  | cons b s ih =>
    rw [List.cons_append, characters]
    split
    · exact List.mem_cons_of_mem _ (slash_mem_dropWhile ih)
    · exact List.mem_cons_of_mem _ ih

/-- A slash ends the characters before it. -/
theorem characters_append (s t : Text) :
    characters (s ++ [slash] ++ t) = characters (s ++ [slash]) ++ characters t := by
  induction s with
  | nil => rfl
  | cons b s ih =>
    have hdrop := slash_mem_dropWhile (slash_mem_characters s)
    have hne : ((characters (s ++ [slash])).dropWhile isContinuation).isEmpty = false := by
      rw [List.isEmpty_eq_false_iff]
      exact List.ne_nil_of_mem hdrop
    have hlen : ((characters (s ++ [slash])).takeWhile isContinuation).length ≠
      (characters (s ++ [slash])).length := by
      intro heq
      have hcut := congrArg List.length
        (List.takeWhile_append_dropWhile (p := isContinuation) (l := characters (s ++ [slash])))
      rw [List.length_append, heq] at hcut
      exact List.ne_nil_of_mem hdrop (List.length_eq_zero_iff.mp (by omega))
    rw [List.cons_append, List.cons_append, characters, characters, ih, List.takeWhile_append,
      List.dropWhile_append, hne, if_neg hlen, if_neg Bool.false_ne_true]
    split <;> rfl

theorem like_self (cs rest : List Text) : like (cs ++ [ascii "%"]) (cs ++ rest) := by
  induction cs with
  | nil =>
    simp only [List.nil_append, like, if_true, List.any_eq_true]
    exact ⟨[], by simp, rfl⟩
  | cons c cs ih =>
    simp only [List.cons_append, like]
    split
    · rw [List.any_eq_true]
      exact ⟨cs ++ rest, by simp, ih⟩
    · simp [ih]

/-! ## The rows that are selected -/

/-- The row meets the `WHERE` of the `UPDATE`. -/
def isSelected (oldRoot directory : Text) : Bool :=
  like (characters (withSlash oldRoot ++ ascii "%")) (characters directory)

theorem isSelected_of_start {oldRoot directory : Text} (h : withSlash oldRoot <+: directory) :
    isSelected oldRoot directory := by
  obtain ⟨rest, rfl⟩ := h
  rw [isSelected, withSlash, characters_append, characters_append]
  exact like_self _ _

theorem newDirectory_eq (oldRoot newRoot directory : Text) :
    newDirectory oldRoot newRoot directory =
      if isSelected oldRoot directory then replace directory (withSlash oldRoot)
        (withSlash newRoot) else directory := rfl

def swapped (oldRoot newRoot directory : Text) : Text :=
  if withSlash oldRoot <+: directory then withSlash newRoot ++
    directory.drop (withSlash oldRoot).length else directory

/-- What the `UPDATE` does right with a directory, in the first run and in a second one. -/
structure IsPlain (oldRoot newRoot directory : Text) : Prop where
  selected : isSelected oldRoot directory → withSlash oldRoot <+: directory
  once : ∀ rest, directory = withSlash oldRoot ++ rest → withSlash oldRoot ≠ withSlash newRoot →
    ¬ withSlash oldRoot <:+: rest
  stays : ∀ rest, directory = withSlash oldRoot ++ rest → withSlash oldRoot ≠ withSlash newRoot →
    isSelected oldRoot (withSlash newRoot ++ rest) → ¬ withSlash oldRoot <:+: withSlash newRoot ++ rest

structure IsExact (db : Db) (oldRoot newRoot : Text) : Prop where
  rows : (rewriteDbDirectories db oldRoot newRoot false).1 =
    { db with
      readEvents := db.readEvents.map fun e => { e with directory := swapped oldRoot newRoot e.directory }
      skimmedEvents := db.skimmedEvents.map fun e =>
        { e with directory := swapped oldRoot newRoot e.directory } }
  count : (rewriteDbDirectories db oldRoot newRoot false).2 =
    (db.readEvents ++ db.skimmedEvents).countP fun e => withSlash oldRoot <+: e.directory
  again : (rewriteDbDirectories (rewriteDbDirectories db oldRoot newRoot false).1 oldRoot newRoot false).1 =
    (rewriteDbDirectories db oldRoot newRoot false).1

theorem rewriteDbDirectories_eq (db : Db) (oldRoot newRoot : Text) :
    rewriteDbDirectories db oldRoot newRoot false =
      ({ db with
          readEvents := db.readEvents.map fun e =>
            { e with directory := newDirectory oldRoot newRoot e.directory }
          skimmedEvents := db.skimmedEvents.map fun e =>
            { e with directory := newDirectory oldRoot newRoot e.directory } },
        (db.readEvents ++ db.skimmedEvents).countP fun e => isSelected oldRoot e.directory) := by
  simp only [rewriteDbDirectories, List.foldl_cons, List.foldl_nil, Bool.false_eq_true, if_false,
    Db.events, Db.setEvents, Table.updateWhere, rewriteRow_eq, List.countP_append, Nat.zero_add]
  rfl

theorem forall_of_countP_eq {α : Type*} {p q : α → Bool} {l : List α} (hsub : ∀ a ∈ l, p a → q a)
    (hcount : l.countP q = l.countP p) : ∀ a ∈ l, q a → p a := by
  induction l with
  | nil => exact fun a ha => by cases ha
  | cons b l ih =>
    rw [List.forall_mem_cons] at hsub ⊢
    have hle := List.countP_mono_left hsub.2
    rw [List.countP_cons, List.countP_cons] at hcount
    cases hp : p b with
    | true =>
      rw [hp, hsub.1 hp] at hcount
      exact ⟨fun _ => rfl, ih hsub.2 (Nat.add_right_cancel hcount)⟩
    | false =>
      cases hq : q b with
      | true =>
        rw [hp, hq] at hcount
        simp only [if_true, Bool.false_eq_true, if_false] at hcount
        omega
      | false =>
        rw [hp, hq] at hcount
        exact ⟨fun h => (by cases h), ih hsub.2 hcount⟩

theorem withSlash_ne_nil (root : Text) : withSlash root ≠ [] := by simp [withSlash]

theorem replace_start (oldRoot newRoot rest : Text) :
    replace (withSlash oldRoot ++ rest) (withSlash oldRoot) (withSlash newRoot) =
      withSlash newRoot ++ replace rest (withSlash oldRoot) (withSlash newRoot) := by
  rw [replace, replace, if_neg (withSlash_ne_nil oldRoot), if_neg (withSlash_ne_nil oldRoot),
    replaceFrom_append (withSlash_ne_nil oldRoot)]

theorem swapped_start (oldRoot newRoot rest : Text) :
    swapped oldRoot newRoot (withSlash oldRoot ++ rest) = withSlash newRoot ++ rest := by
  rw [swapped, if_pos (List.prefix_append _ _), List.drop_left]

theorem newDirectory_start (oldRoot newRoot rest : Text) :
    newDirectory oldRoot newRoot (withSlash oldRoot ++ rest) =
      withSlash newRoot ++ replace rest (withSlash oldRoot) (withSlash newRoot) := by
  rw [newDirectory_eq, if_pos (isSelected_of_start (List.prefix_append _ _)), replace_start]

theorem isPlain_iff {oldRoot newRoot directory : Text}
    (hselected : isSelected oldRoot directory → withSlash oldRoot <+: directory) :
    IsPlain oldRoot newRoot directory ↔
      newDirectory oldRoot newRoot directory = swapped oldRoot newRoot directory ∧
        newDirectory oldRoot newRoot (newDirectory oldRoot newRoot directory) =
          newDirectory oldRoot newRoot directory := by
  by_cases hstart : withSlash oldRoot <+: directory
  · obtain ⟨rest, rfl⟩ := hstart
    have hsame : newDirectory oldRoot newRoot (withSlash oldRoot ++ rest) =
      swapped oldRoot newRoot (withSlash oldRoot ++ rest) ↔
        withSlash oldRoot = withSlash newRoot ∨ ¬ withSlash oldRoot <:+: rest := by
      rw [newDirectory_start, swapped_start, List.append_cancel_left_eq,
        replace_eq_self_iff (withSlash_ne_nil oldRoot)]
    have hagain : newDirectory oldRoot newRoot (withSlash newRoot ++ rest) = withSlash newRoot ++ rest ↔
        (isSelected oldRoot (withSlash newRoot ++ rest) →
          withSlash oldRoot = withSlash newRoot ∨ ¬ withSlash oldRoot <:+: withSlash newRoot ++ rest) := by
      rw [newDirectory_eq]
      by_cases hsel : isSelected oldRoot (withSlash newRoot ++ rest)
      · rw [if_pos hsel, replace_eq_self_iff (withSlash_ne_nil oldRoot)]
        exact ⟨fun h _ => h, fun h => h hsel⟩
      · rw [if_neg hsel]
        exact ⟨fun _ h => absurd h hsel, fun _ => rfl⟩
    constructor
    · intro h
      have hfirst := hsame.mpr (Classical.or_iff_not_imp_left.mpr fun hne => h.once rest rfl hne)
      refine ⟨hfirst, ?_⟩
      rw [hfirst, swapped_start, hagain]
      exact fun hsel => Classical.or_iff_not_imp_left.mpr fun hne => h.stays rest rfl hne hsel
    · rintro ⟨hfirst, hsecond⟩
      rw [hfirst, swapped_start, hagain] at hsecond
      refine ⟨hselected, fun r hr hne => ?_, fun r hr hne hsel => ?_⟩
      · exact List.append_cancel_left hr ▸ (hsame.mp hfirst).resolve_left hne
      · rw [← List.append_cancel_left hr] at hsel ⊢
        exact (hsecond hsel).resolve_left hne
  · have hno : ¬ isSelected oldRoot directory := fun h => hstart (hselected h)
    have hstays : newDirectory oldRoot newRoot directory = directory := by rw [newDirectory_eq, if_neg hno]
    rw [hstays, swapped, if_neg hstart]
    exact ⟨fun _ => ⟨rfl, hstays⟩, fun _ => ⟨hselected, fun rest hr => absurd ⟨rest, hr.symm⟩ hstart,
      fun rest hr => absurd ⟨rest, hr.symm⟩ hstart⟩⟩

theorem map_directory_inj {f g : Text → Text} (es : List Event) :
    (es.map fun e => { e with directory := f e.directory }) =
      (es.map fun e => { e with directory := g e.directory }) ↔
      ∀ e ∈ es, f e.directory = g e.directory := by
  rw [List.map_inj_left]
  refine forall₂_congr fun e _ => ⟨fun h => congrArg Event.directory h, fun h => ?_⟩
  rw [h]

theorem map_directory_map (f : Text → Text) (es : List Event) :
    ((es.map fun e => { e with directory := f e.directory }).map fun e =>
      { e with directory := f e.directory }) =
      es.map fun e => { e with directory := f (f e.directory) } := by
  rw [List.map_map]
  rfl

theorem isExact_iff (db : Db) (oldRoot newRoot : Text) :
    IsExact db oldRoot newRoot ↔
      (∀ e ∈ db.readEvents ++ db.skimmedEvents,
        newDirectory oldRoot newRoot e.directory = swapped oldRoot newRoot e.directory ∧
          newDirectory oldRoot newRoot (newDirectory oldRoot newRoot e.directory) =
            newDirectory oldRoot newRoot e.directory) ∧
      (db.readEvents ++ db.skimmedEvents).countP (fun e => isSelected oldRoot e.directory) =
        (db.readEvents ++ db.skimmedEvents).countP fun e => withSlash oldRoot <+: e.directory := by
  have hrows : (rewriteDbDirectories db oldRoot newRoot false).1 =
      { db with
        readEvents := db.readEvents.map fun e => { e with directory := swapped oldRoot newRoot e.directory }
        skimmedEvents := db.skimmedEvents.map fun e =>
          { e with directory := swapped oldRoot newRoot e.directory } } ↔
      ∀ e ∈ db.readEvents ++ db.skimmedEvents, newDirectory oldRoot newRoot e.directory =
        swapped oldRoot newRoot e.directory := by
    rw [rewriteDbDirectories_eq, List.forall_mem_append, ← map_directory_inj, ← map_directory_inj]
    exact ⟨fun h => ⟨congrArg Db.readEvents h, congrArg Db.skimmedEvents h⟩, fun h => by rw [h.1, h.2]⟩
  have hagain :
      (rewriteDbDirectories (rewriteDbDirectories db oldRoot newRoot false).1 oldRoot newRoot false).1 =
      (rewriteDbDirectories db oldRoot newRoot false).1 ↔
      ∀ e ∈ db.readEvents ++ db.skimmedEvents,
        newDirectory oldRoot newRoot (newDirectory oldRoot newRoot e.directory) =
          newDirectory oldRoot newRoot e.directory := by
    have hinj := map_directory_inj (f := fun d => newDirectory oldRoot newRoot (newDirectory oldRoot newRoot d))
      (g := newDirectory oldRoot newRoot)
    rw [rewriteDbDirectories_eq, rewriteDbDirectories_eq, List.forall_mem_append, ← hinj, ← hinj]
    simp only [map_directory_map]
    exact ⟨fun h => ⟨congrArg Db.readEvents h, congrArg Db.skimmedEvents h⟩, fun h => by rw [h.1, h.2]⟩
  have hcount : (rewriteDbDirectories db oldRoot newRoot false).2 =
      (db.readEvents ++ db.skimmedEvents).countP fun e => isSelected oldRoot e.directory := by
    rw [rewriteDbDirectories_eq]
  constructor
  · intro h
    exact ⟨fun e he => ⟨hrows.mp h.rows e he, hagain.mp h.again e he⟩, hcount ▸ h.count⟩
  · rintro ⟨hdirectories, hcounts⟩
    exact ⟨hrows.mpr fun e he => (hdirectories e he).1, hcount ▸ hcounts,
      hagain.mpr fun e he => (hdirectories e he).2⟩

/-- **The rows are rewritten as they should be** iff each of them is plain. -/
theorem exact_iff (db : Db) (oldRoot newRoot : Text) :
    IsExact db oldRoot newRoot ↔ ∀ t, ∀ e ∈ db.events t, IsPlain oldRoot newRoot e.directory := by
  have hall : (∀ t, ∀ e ∈ db.events t, IsPlain oldRoot newRoot e.directory) ↔
      ∀ e ∈ db.readEvents ++ db.skimmedEvents, IsPlain oldRoot newRoot e.directory := by
    rw [List.forall_mem_append]
    refine ⟨fun h => ⟨h .read, h .skimmed⟩, fun h t => ?_⟩
    cases t with
    | read => exact h.1
    | skimmed => exact h.2
  rw [hall, isExact_iff]
  constructor
  · rintro ⟨hdirectories, hcounts⟩ e he
    have hselected := forall_of_countP_eq (p := fun e : Event => decide (withSlash oldRoot <+: e.directory))
      (fun e _ h => isSelected_of_start (of_decide_eq_true h)) hcounts e he
    exact (isPlain_iff fun h => of_decide_eq_true (hselected h)).mpr (hdirectories e he)
  · intro h
    refine ⟨fun e he => (isPlain_iff (h e he).selected).mp (h e he), List.countP_congr fun e he => ?_⟩
    rw [decide_eq_true_iff]
    exact ⟨(h e he).selected, isSelected_of_start⟩

def otherRow : Db := { Db.empty [] with readEvents := [⟨ascii "u", ascii "t", ascii "a", ascii "/axb/d"⟩] }

theorem other_row_counted : ¬ IsExact otherRow (ascii "/a_b") (ascii "/g") :=
  fun h => absurd h.count (by decide)

end Migrate

end VisitLogger
