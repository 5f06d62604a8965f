import VisitLogger.Mover

/-!
# Two ticks on a day

What a tick does to a past date depends only on the date's row, its directory
and its log, which are its `Day`, and on what comes in for it. Two ticks leave
nothing to do unless the day is stuck (`drained_tick_tick`).
-/

namespace VisitLogger

/-- What the passes have of one date. -/
structure Day where
  row : Option Nat
  /-- A plain file has the name of its directory. -/
  plain : Bool
  manifest : Bool
  copy : Option Node
  log : Option Node
  deriving DecidableEq, Repr

def isFile : Option Node → Bool
  | some (.file _ _) => true
  | _ => false

namespace Day

/-! ## The passes on a day -/

def arrive (s : Day) : Day :=
  if s.plain then s
  else { s with row := some (s.row.getD 0), manifest := s.manifest || s.row = some 1 }

def sealDate (s : Day) : Day :=
  if s.plain then s
  else
    match s.log, s.copy with
    | none, _ => { s with row := some 1, manifest := true }
    | some log, none => { s with row := some 1, manifest := true, copy := some (log.chmod 0o444), log := none }
    | some _, some _ => { s with manifest := true }

def backfill (s : Day) : Day := { s with row := some (s.row.getD 0) }

def merge (s : Day) : Day :=
  match s.log, s.copy with
  | none, _ => s
  | some _, none => s.backfill
  | some (.file _ body), some (.file mode content) =>
    if isUtf8 body then { s with copy := some (.file 0o444 (content ++ body)), log := none }
    else { s with copy := some ((Node.file mode content).chmod 0o644) }
  | some _, some copy => { s with copy := some (copy.chmod 0o644) }

/-- A tick. Snapshots of the date came in or not; another entry of `LOG_DIR`
brought a row or not. -/
def tick (arrived filled : Bool) (s : Day) : Day :=
  let s := if arrived then s.arrive else s
  let s := if s.row = some 0 then s.sealDate else s
  let s := s.merge
  if filled then s.backfill else s

/-! ## What drains -/

def Drained (s : Day) : Prop := s.log = none ∧ ∀ n ∈ s.row, n = 1 ∧ s.manifest = true

def mergeable (s : Day) : Bool :=
  match s.log, s.copy with
  | some (.file _ body), some (.file _ _) => isUtf8 body
  | _, _ => false

/-- A date drains by two ticks. `filled` says whether `LOG_DIR` has an entry of the date. -/
def drains (arrived filled : Bool) (s : Day) : Bool :=
  match s.row with
  | none => (s.log = none || s.copy = none || s.mergeable) && !(s.plain && filled)
  | some 0 => !s.plain && (s.log = none || s.copy = none || s.mergeable)
  | some 1 => (s.manifest || arrived && !s.plain) && (s.log = none || s.mergeable)
  | some _ => false

/-! ## Two ticks on a day -/

variable {s : Day} {a f : Bool}

theorem mergeable_iff : s.mergeable = true ↔
    ∃ mode body mode' content, s.log = some (.file mode body) ∧ isUtf8 body = true ∧
      s.copy = some (.file mode' content) := by
  unfold mergeable
  split
  · rename_i hl hc
    simp [hl, hc]
  · rename_i h
    refine iff_of_false Bool.false_ne_true ?_
    rintro ⟨mode, body, mode', content, hl, -, hc⟩
    exact h _ _ _ _ hl hc

theorem arrive_arrive (s : Day) : s.arrive.arrive = s.arrive := by
  obtain ⟨row, plain, manifest, copy, log⟩ := s
  cases plain <;> cases row <;> simp [arrive]

theorem backfill_backfill (s : Day) : s.backfill.backfill = s.backfill := rfl

theorem merge_backfill (s : Day) : s.backfill.merge = s.merge.backfill := by
  obtain ⟨row, plain, manifest, copy, log⟩ := s
  rcases log with - | log
  · rfl
  · rcases copy with - | copy
    · rfl
    · cases log <;> cases copy <;> simp only [backfill, merge]
      split <;> rfl

theorem merge_noLog (h : s.log = none) : s.merge = s := by rw [merge, h]

theorem merge_noCopy (h : s.log ≠ none) (hc : s.copy = none) : s.merge = s.backfill := by
  obtain ⟨log, hl⟩ := Option.ne_none_iff_exists'.mp h
  rw [merge, hl, hc]

theorem merge_mergeable (h : s.mergeable = true) : ∃ c, s.merge = { s with copy := some c, log := none } := by
  obtain ⟨mode, body, mode', content, hl, hu, hc⟩ := mergeable_iff.mp h
  exact ⟨.file 0o444 (content ++ body), by rw [merge, hl, hc]; exact if_pos hu⟩

theorem merge_stuck (h : s.log ≠ none) (hc : s.copy ≠ none) (hm : s.mergeable = false) :
    ∃ c, s.merge = { s with copy := some c } ∧ ({ s with copy := some c } : Day).mergeable = false := by
  obtain ⟨row, plain, manifest, copy, log⟩ := s
  obtain ⟨log, rfl⟩ := Option.ne_none_iff_exists'.mp h
  obtain ⟨copy, rfl⟩ := Option.ne_none_iff_exists'.mp hc
  refine ⟨copy.chmod 0o644, ?_⟩
  cases log with
  | dir _ => cases copy <;> exact ⟨rfl, rfl⟩
  | file _ body =>
    cases copy with
    | dir _ => exact ⟨rfl, rfl⟩
    | file _ content =>
      have hu : isUtf8 body = false := hm
      simp [merge, mergeable, Node.chmod, hu]

def Sealed (s : Day) : Prop := s.row = some 1 ∧ s.manifest = true ∧ s.log = none

theorem Sealed.drained (h : s.Sealed) : s.Drained :=
  ⟨h.2.2, fun _ hn => ⟨Option.some.inj (hn.symm.trans h.1), h.2.1⟩⟩

theorem Sealed.tick (h : s.Sealed) (a f : Bool) : (s.tick a f).Sealed := by
  obtain ⟨row, plain, manifest, copy, log⟩ := s
  obtain ⟨rfl, rfl, rfl⟩ : row = some 1 ∧ manifest = true ∧ log = none := h
  cases plain <;> cases a <;> cases f <;> exact ⟨rfl, rfl, rfl⟩

theorem sealed_tick (hp : s.plain = false) (hr : s.row.getD 0 = 0) (ha : s.row ≠ none ∨ a = true)
    (hl : s.log = none ∨ s.copy = none) : (s.tick a f).Sealed := by
  obtain ⟨row, plain, manifest, copy, log⟩ := s
  obtain rfl : plain = false := hp
  obtain ⟨m, hm⟩ : ∃ m,
      (if a then arrive ⟨row, false, manifest, copy, log⟩ else ⟨row, false, manifest, copy, log⟩) =
        ⟨some 0, false, m, copy, log⟩ := by
    rcases row with - | n
    · obtain rfl : a = true := ha.resolve_left fun h => h rfl
      exact ⟨manifest, by simp [arrive]⟩
    · obtain rfl : n = 0 := hr
      cases a with
      | false => exact ⟨manifest, rfl⟩
      | true => exact ⟨manifest, by simp [arrive]⟩
  rw [Day.tick, hm]
  rcases log with - | log
  · cases f <;> exact ⟨rfl, rfl, rfl⟩
  · obtain rfl : copy = none := hl.resolve_left nofun
    cases f <;> exact ⟨rfl, rfl, rfl⟩

/-- The log stays in `LOG_DIR` for good. -/
def Stuck (s : Day) : Prop := s.log ≠ none ∧ s.mergeable = false ∧ (s.copy = none → s.row.getD 0 ≠ 0)

namespace Stuck

theorem not_drained (h : s.Stuck) : ¬s.Drained := fun hd => h.1 hd.1

theorem arrive (h : s.Stuck) : s.arrive.Stuck := by
  unfold Day.arrive
  split
  · exact h
  · exact ⟨h.1, h.2.1, h.2.2⟩

theorem backfill (h : s.Stuck) : s.backfill.Stuck := ⟨h.1, h.2.1, h.2.2⟩

theorem sealDate (h : s.Stuck) (hr : s.row = some 0) : s.sealDate.Stuck := by
  obtain ⟨row, plain, manifest, copy, log⟩ := s
  obtain rfl : row = some 0 := hr
  obtain ⟨log, rfl⟩ := Option.ne_none_iff_exists'.mp h.1
  obtain ⟨copy, rfl⟩ := Option.ne_none_iff_exists'.mp fun hc => h.2.2 hc rfl
  unfold Day.sealDate
  split
  · exact h
  · exact ⟨h.1, h.2.1, nofun⟩

theorem merge (h : s.Stuck) : s.merge.Stuck := by
  by_cases hc : s.copy = none
  · rw [merge_noCopy h.1 hc]
    exact h.backfill
  · obtain ⟨c, he, hm⟩ := merge_stuck h.1 hc h.2.1
    rw [he]
    exact ⟨h.1, hm, nofun⟩

theorem tick (h : s.Stuck) (a f : Bool) : (s.tick a f).Stuck := by
  unfold Day.tick
  have harrive : (if a then s.arrive else s).Stuck := by
    split
    · exact h.arrive
    · exact h
  have hseal : ∀ {s : Day}, s.Stuck → (if s.row = some 0 then s.sealDate else s).Stuck := by
    intro s h
    split
    · exact h.sealDate ‹_›
    · exact h
  have hmerge := (hseal harrive).merge
  dsimp only
  split
  · exact hmerge.backfill
  · exact hmerge

end Stuck

theorem tick_plain (hp : s.plain = true) (hc : s.copy = none) (a f : Bool) :
    s.tick a f = if s.log ≠ none ∨ f = true then s.backfill else s := by
  obtain ⟨row, plain, manifest, copy, log⟩ := s
  obtain ⟨rfl, rfl⟩ : plain = true ∧ copy = none := ⟨hp, hc⟩
  have hseal : (⟨row, true, manifest, none, log⟩ : Day).sealDate = ⟨row, true, manifest, none, log⟩ := rfl
  have harrive : (⟨row, true, manifest, none, log⟩ : Day).arrive = ⟨row, true, manifest, none, log⟩ := rfl
  unfold tick
  simp only [harrive, hseal, ite_self]
  cases log <;> cases f <;> simp [merge, backfill]

theorem tick_row {n : Nat} (hr : s.row = some (n + 1)) (a f : Bool) : (s.tick a f).row = some (n + 1) := by
  have hmerge : ∀ s : Day, s.row = some (n + 1) → s.merge.row = some (n + 1) := by
    intro s hr
    unfold merge
    split
    · exact hr
    · rw [backfill, hr]
      rfl
    · split <;> exact hr
    · exact hr
  have harrive : (if a then s.arrive else s).row = some (n + 1) := by
    unfold arrive
    split
    · split
      · exact hr
      · simp [hr]
    · exact hr
  have hseal : ¬(some (n + 1) = some 0) := by simp
  unfold tick
  dsimp only
  rw [harrive, if_neg hseal]
  split
  · rw [backfill, hmerge _ harrive]
    rfl
  · exact hmerge _ harrive

theorem tick_sealed (hr : s.row = some 1) (hl : s.log = none ∨ s.mergeable = true) (a f : Bool) :
    (s.tick a f).log = none ∧ (s.tick a f).manifest = (s.manifest || a && !s.plain) ∧
      (s.tick a f).plain = s.plain := by
  obtain ⟨row, plain, manifest, copy, log⟩ := s
  obtain rfl : row = some 1 := hr
  have harrive :
      (if a then arrive ⟨some 1, plain, manifest, copy, log⟩ else ⟨some 1, plain, manifest, copy, log⟩) =
        ⟨some 1, plain, manifest || a && !plain, copy, log⟩ := by
    cases a <;> cases plain <;> simp [arrive]
  have hmerge : ∃ c, merge ⟨some 1, plain, manifest || a && !plain, copy, log⟩ =
      ⟨some 1, plain, manifest || a && !plain, c, none⟩ := by
    rcases hl with hl | hl
    · obtain rfl : log = none := hl
      exact ⟨copy, rfl⟩
    · obtain ⟨c, hc⟩ := merge_mergeable (s := ⟨some 1, plain, manifest || a && !plain, copy, log⟩) hl
      exact ⟨some c, hc⟩
  have hseal : ¬(some 1 = some 0) := by simp
  obtain ⟨c, hc⟩ := hmerge
  unfold tick
  rw [harrive]
  dsimp only
  rw [if_neg hseal, hc]
  cases f <;> exact ⟨rfl, rfl, rfl⟩

theorem drained_tick (hp : s.plain = false) (hr : s.row.getD 0 = 0) (hl : s.log = none)
    (hf : s.row = none → f = false) :
    (s.tick a f).Drained := by
  by_cases ha : s.row ≠ none ∨ a = true
  · exact (sealed_tick hp hr ha (Or.inl hl)).drained
  · obtain ⟨row, plain, manifest, copy, log⟩ := s
    simp only [not_or, not_not, Bool.not_eq_true] at ha
    obtain ⟨rfl, rfl⟩ : row = none ∧ a = false := ha
    obtain rfl : log = none := hl
    obtain rfl : f = false := hf rfl
    exact ⟨rfl, nofun⟩

theorem tick_mergeable (hp : s.plain = false) (hr : s.row.getD 0 = 0) (hm : s.mergeable = true) (a f : Bool) :
    (s.tick a f).plain = false ∧ (s.tick a f).row.getD 0 = 0 ∧ (s.tick a f).log = none ∧
      ((s.tick a f).row = none → f = false) := by
  obtain ⟨mode, body, mode', content, hl, hu, hc⟩ := mergeable_iff.mp hm
  obtain ⟨row, plain, manifest, copy, log⟩ := s
  obtain ⟨rfl, rfl, rfl⟩ : plain = false ∧ log = some (.file mode body) ∧
    copy = some (.file mode' content) := ⟨hp, hl, hc⟩
  have hrow : row = none ∨ row = some 0 := by
    rcases row with - | n
    · exact Or.inl rfl
    · exact Or.inr (congrArg some hr)
  rcases hrow with rfl | rfl <;> cases a <;> cases f <;> simp [tick, arrive, sealDate, merge, backfill, hu]

variable {a₁ a₂ f₁ f₂ : Bool}

theorem drained_unsealed (hp : s.plain = false) (hr : s.row.getD 0 = 0) (hf : f₂ = true → f₁ = true) :
    ((s.tick a₁ f₁).tick a₂ f₂).Drained ↔ (s.log = none ∨ s.copy = none ∨ s.mergeable = true) := by
  constructor
  · intro h
    by_contra hn
    simp only [not_or, Bool.not_eq_true] at hn
    have hs : s.Stuck := ⟨hn.1, hn.2.2, fun hc => absurd hc hn.2.1⟩
    exact ((hs.tick a₁ f₁).tick a₂ f₂).not_drained h
  · intro h
    have hf₂ : f₁ = false → f₂ = false :=
      fun h₁ => Bool.eq_false_iff.mpr fun h₂ => absurd (hf h₂) (by simp [h₁])
    by_cases hm : s.mergeable = true
    · obtain ⟨hp₁, hr₁, hl₁, hrow₁⟩ := tick_mergeable hp hr hm a₁ f₁
      exact drained_tick hp₁ hr₁ hl₁ fun hn => hf₂ (hrow₁ hn)
    have hl : s.log = none ∨ s.copy = none := h.imp_right fun h => h.resolve_right hm
    by_cases ha : s.row ≠ none ∨ a₁ = true
    · exact ((sealed_tick hp hr ha hl).tick a₂ f₂).drained
    -- no row yet, and no snapshot that brings it
    obtain ⟨row, plain, manifest, copy, log⟩ := s
    simp only [not_or, not_not, Bool.not_eq_true] at ha
    obtain ⟨rfl, rfl⟩ : row = none ∧ a₁ = false := ha
    obtain rfl : plain = false := hp
    rcases log with - | log
    · cases f₁ with
      | false => exact drained_tick rfl rfl rfl fun _ => hf₂ rfl
      | true => exact drained_tick rfl rfl rfl nofun
    · obtain rfl : copy = none := hl.resolve_left nofun
      have hs : (⟨none, false, manifest, none, some log⟩ : Day).tick false f₁ =
        ⟨some 0, false, manifest, none, some log⟩ := by
        cases f₁ <;> rfl
      rw [hs]
      exact (sealed_tick rfl rfl (Or.inl (Option.some_ne_none 0)) (Or.inr rfl)).drained

theorem drained_plain (hp : s.plain = true) (hc : s.copy = none) (hf : f₂ = true → f₁ = true) :
    ((s.tick a₁ f₁).tick a₂ f₂).Drained ↔
      s.log = none ∧ (s.row = none ∧ f₁ = false ∨ s.row = some 1 ∧ s.manifest = true) := by
  obtain ⟨row, plain, manifest, copy, log⟩ := s
  obtain ⟨rfl, rfl⟩ : plain = true ∧ copy = none := ⟨hp, hc⟩
  have hs : (tick a₂ f₂ (tick a₁ f₁ ⟨row, true, manifest, none, log⟩)) =
      if log ≠ none ∨ f₁ = true then ⟨some (row.getD 0), true, manifest, none, log⟩
      else ⟨row, true, manifest, none, log⟩ := by
    have h₁ := tick_plain (s := ⟨row, true, manifest, none, log⟩) rfl rfl a₁ f₁
    rw [h₁]
    split
    · rename_i h
      have h₂ := tick_plain (s := ⟨some (row.getD 0), true, manifest, none, log⟩) rfl rfl a₂ f₂
      rw [backfill, h₂, backfill]
      split <;> rfl
    · rename_i h
      rw [tick_plain rfl rfl, if_neg fun h' => h (h'.imp_right hf)]
  rw [hs]
  cases log with
  | some log => exact iff_of_false (fun h => absurd h.1 (by simp)) (by simp)
  | none =>
    cases f₁ with
    | false => cases row <;> simp [Drained]
    | true => rcases row with - | - | n <;> simp [Drained]

theorem drained_sealed (hr : s.row = some 1) :
    ((s.tick a₁ f₁).tick a₂ f₂).Drained ↔
      (s.manifest || (a₁ || a₂) && !s.plain) = true ∧ (s.log = none ∨ s.mergeable = true) := by
  constructor
  · intro h
    have hl : s.log = none ∨ s.mergeable = true := by
      by_contra hn
      rw [not_or, Bool.not_eq_true] at hn
      have hs : s.Stuck := ⟨hn.1, hn.2, fun _ => by rw [hr]; exact Nat.one_ne_zero⟩
      exact ((hs.tick a₁ f₁).tick a₂ f₂).not_drained h
    refine ⟨?_, hl⟩
    obtain ⟨h₁, hm₁, hp₁⟩ := tick_sealed hr hl a₁ f₁
    obtain ⟨-, hm₂, -⟩ := tick_sealed (tick_row hr a₁ f₁) (Or.inl h₁) a₂ f₂
    have hm := (h.2 1 (tick_row (tick_row hr a₁ f₁) a₂ f₂)).2
    rw [hm₂, hm₁, hp₁] at hm
    rw [← hm]
    cases s.manifest <;> cases s.plain <;> cases a₁ <;> cases a₂ <;> rfl
  · rintro ⟨hm, hl⟩
    obtain ⟨h₁, hm₁, hp₁⟩ := tick_sealed hr hl a₁ f₁
    obtain ⟨h₂, hm₂, -⟩ := tick_sealed (tick_row hr a₁ f₁) (Or.inl h₁) a₂ f₂
    refine ⟨h₂, fun n hn => ?_⟩
    rw [tick_row (tick_row hr a₁ f₁) a₂ f₂] at hn
    obtain rfl : 1 = n := Option.some.inj hn
    refine ⟨rfl, ?_⟩
    rw [hm₂, hm₁, hp₁, ← hm]
    cases s.manifest <;> cases s.plain <;> cases a₁ <;> cases a₂ <;> rfl

/-- **A day drains by two ticks iff `drains` says so.** A row that the second tick
brings is one that the first has brought already. -/
theorem drained_tick_tick (s : Day) (hp : s.plain = true → s.copy = none) (a₁ a₂ : Bool) {f₁ f₂ : Bool}
    (hf : f₂ = true → f₁ = true) :
    ((s.tick a₁ f₁).tick a₂ f₂).Drained ↔ s.drains (a₁ || a₂) (f₁ || s.log.isSome) = true := by
  by_cases hplain : s.plain = true
  · rw [drained_plain hplain (hp hplain) hf]
    unfold drains
    rcases hr : s.row with - | - | - | n
    · cases hl : s.log <;> simp [hplain]
    · simp [hplain]
    · cases hl : s.log <;> simp [hplain, mergeable, hl, hp hplain]
    · simp
  · rw [Bool.not_eq_true] at hplain
    unfold drains
    rcases hr : s.row with - | - | - | n
    · rw [drained_unsealed hplain (by rw [hr]; rfl) hf]
      simp [hplain, or_assoc]
    · rw [drained_unsealed hplain (by rw [hr]; rfl) hf]
      simp [hplain, or_assoc]
    · rw [drained_sealed hr]
      simp
    · refine iff_of_false (fun h => ?_) (by simp)
      have hn := (h.2 (n + 1 + 1) (tick_row (tick_row hr a₁ f₁) a₂ f₂)).1
      omega

end Day

end VisitLogger
