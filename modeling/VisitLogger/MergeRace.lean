import VisitLogger.Drain
import VisitLogger.LogRace

/-!
# A merge while a host appends

`OrphanLog.mergePass` takes a past day's log from `LOG_DIR` while a host that is
pinned to that date is still in `appendLine`. Their calls come in any order. A
line is lost when the merge removes the log after the host has written to it
since the merge has read it, or while the host has it open; otherwise each line
is in one of the two logs (`appended_kept`).
-/

namespace VisitLogger

open Framing
open LogRace (Process handleWrite handleWrite_end)

namespace OrphanLog

/-! ## The merge, call by call -/

/-- Where the loop is on an entry: the call it makes next, with what it has read. -/
inductive MergePhase where
  | fileExists
  | insertSnapshot
  | makeWritable
  | contentsOfFile
  | forWriting (body : Text)
  | seekToEnd (body : Text)
  | write (body : Text) (offset : Nat)
  | makeReadOnly (body : Text)
  | removeItem (body : Text)
  | done
  deriving DecidableEq, Repr

end OrphanLog

namespace MergeRace

open OrphanLog (MergePhase)

/-- The log in `LOG_DIR` is `src`, its counterpart is `dst`. When `src` is removed while the host
has it open, what the host has of it stays until the host closes it. -/
structure State where
  src : Option Text
  dst : Option Text
  unlinked : Option Text
  merge : MergePhase
  host : Process
  appended : List Text
  deriving DecidableEq, Repr

inductive Act where
  | merge
  | host
  deriving DecidableEq, Repr

def IsOpen : LogRace.Pc → Prop
  | .seekToEnd | .write _ => True
  | _ => False

instance : DecidablePred IsOpen := fun pc =>
  match pc with
  | .fileExists | .createFile | .forWriting => inferInstanceAs (Decidable False)
  | .seekToEnd | .write _ => inferInstanceAs (Decidable True)

/-- The next call of the merge. A log that is not UTF-8 cannot be read, and the entry is over. -/
def mergeStep (s : State) : Option State :=
  match s.merge with
  | .fileExists => some { s with merge := if s.dst.isSome then .makeWritable else .insertSnapshot }
  | .insertSnapshot => some { s with merge := .done }
  | .makeWritable => some { s with merge := .contentsOfFile }
  | .contentsOfFile =>
    match s.src with
    | none => some { s with merge := .done }
    | some body => some { s with merge := if isUtf8 body then .forWriting body else .done }
  | .forWriting body => some { s with merge := .seekToEnd body }
  | .seekToEnd body => some { s with merge := .write body (s.dst.getD []).length }
  | .write body offset => some { s with dst := some (handleWrite (s.dst.getD []) offset body), merge := .makeReadOnly body }
  | .makeReadOnly body => some { s with merge := .removeItem body }
  | .removeItem _ => some { s with src := none, unlinked := if IsOpen s.host.pc then s.src else none, merge := .done }
  | .done => none

def written (p : Process) : List Text :=
  match p.pc with
  | .write _ => p.lines.take 1
  | _ => []

/-- The next call of the host, on the log that it has open, or else on the one in `LOG_DIR`. -/
def hostStep (s : State) : Option State :=
  match s.unlinked with
  | none => (s.host.step s.src).map fun r =>
      { s with src := r.1, host := r.2, appended := s.appended ++ written s.host }
  | some content => (s.host.step (some content)).map fun r =>
    { s with unlinked := if IsOpen r.2.pc then r.1 else none, host := r.2, appended := s.appended ++ written s.host }

def step (s : State) : Act → Option State
  | .merge => mergeStep s
  | .host => hostStep s

def State.init (src dst : Option Text) (lines : List Text) : State :=
  ⟨src, dst, none, .fileExists, ⟨lines, .fileExists⟩, []⟩

def State.Finished (s : State) : Prop := s.merge = .done ∧ s.host.lines = []

instance (s : State) : Decidable s.Finished := inferInstanceAs (Decidable (_ ∧ _))

/-- The merge removes the log as it has read it, and the host does not have it open. -/
def Unseen (s : State) (a : Act) : Prop :=
  a = .merge → ∀ body, s.merge = .removeItem body → s.src = some body ∧ ¬IsOpen s.host.pc

instance (s : State) (a : Act) : Decidable (Unseen s a) := by
  cases h : s.merge with
  | removeItem body =>
    refine decidable_of_iff (a = .merge → s.src = some body ∧ ¬IsOpen s.host.pc) ?_
    unfold Unseen
    rw [h]
    exact ⟨fun h ha b hb => MergePhase.removeItem.inj hb ▸ h ha, fun h ha => h ha body rfl⟩
  | _ =>
    refine .isTrue fun _ body hb => ?_
    rw [h] at hb
    cases hb

/-! ## The merge alone -/

def logOf (node : Option Node) : Option Text :=
  node.bind fun
    | .file _ content => some content
    | .dir _ => none

open OrphanLog (extractDate counterpart mergeOne mergeOne_fresh) in
/-- **A merge that nothing disturbs** does to the two logs what the pass does. -/
theorem run_mergeOne {m : Mac} {d today entry : Text} {mode : Nat} {body : Text}
    (h : extractDate entry = some d) (hpast : d < today)
    (hl : m.logDir.lookup entry = some (.file mode body))
    (hc : ∀ mode, counterpart m d entry ≠ some (.dir mode)) :
    ∃ n s, Runs.run step (.init (some body) (logOf (counterpart m d entry)) [])
      (List.replicate n .merge) = some s ∧ s.Finished ∧
      s.src = logOf ((mergeOne today m entry).logDir.lookup entry) ∧
      s.dst = logOf (counterpart (mergeOne today m entry) d entry) := by
  cases hdst : counterpart m d entry with
  | none =>
    rw [mergeOne_fresh h hpast hdst]
    refine ⟨2, _, rfl, ⟨rfl, rfl⟩, ?_, ?_⟩
    · dsimp only
      rw [hl]
      rfl
    · exact (congrArg logOf hdst).symm
  | some node =>
    cases node with
    | dir mode' => exact absurd hdst (hc mode')
    | file mode' content =>
      obtain ⟨dir, hf, hlookup⟩ := Option.bind_eq_some_iff.mp hdst
      have hb : (m.folder d).bind (fun dir => (dir.lookup entry).map (dir, ·)) =
        some (dir, .file mode' content) := by
        rw [hf, Option.bind_some, hlookup]
        rfl
      have hmerge : mergeOne today m entry = if isUtf8 body then
            { m with logDir := m.logDir.erase entry }.setFolder d
              (dir.insert entry (.file 0o444 (content ++ body)))
          else m.setFolder d (dir.insert entry (.file 0o644 content)) := by
        unfold mergeOne
        rw [h]
        dsimp only
        rw [if_pos hpast, hb]
        dsimp only
        rw [hl]
        rfl
      rw [hmerge]
      by_cases hu : isUtf8 body = true
      · rw [if_pos hu]
        refine ⟨8, ⟨none, some (content ++ body), none, .done, ⟨[], .fileExists⟩, []⟩, ?_, ⟨rfl, rfl⟩, ?_, ?_⟩
        · have hw := handleWrite_end content body
          simpa [Runs.run, List.replicate, step, mergeStep, State.init, logOf, hu, IsOpen] using hw
        · rw [Mac.setFolder]
          dsimp only
          rw [AList.lookup_erase]
          rfl
        · rw [OrphanLog.counterpart_setFolder, if_pos rfl, AList.lookup_insert]
          rfl
      · rw [if_neg hu]
        refine ⟨3, ⟨some body, some content, none, .done, ⟨[], .fileExists⟩, []⟩, ?_, ⟨rfl, rfl⟩, ?_, ?_⟩
        · simp [Runs.run, List.replicate, step, mergeStep, State.init, logOf, hu]
        · rw [Mac.setFolder, hl]
          rfl
        · rw [OrphanLog.counterpart_setFolder, if_pos rfl, AList.lookup_insert]
          rfl

/-! ## What a call does -/

/-- What a host knows of the log: it is there while it is open, and ends where the write will be. -/
def Knows (file : Option Text) : LogRace.Pc → Prop
  | .createFile => file = none
  | .seekToEnd => file.isSome
  | .write offset => file.isSome ∧ offset = (file.getD []).length
  | _ => True

theorem host_spec {file file' : Option Text} {p p' : Process} (h : p.step file = some (file', p'))
    (hk : Knows file p.pc) :
    file'.getD [] = file.getD [] ++ unlines nl (written p) ∧ Knows file' p'.pc := by
  obtain ⟨lines, pc⟩ := p
  cases lines with
  | nil => cases h
  | cons line rest =>
    cases pc with
    | fileExists =>
      cases h
      refine ⟨by simp [written], ?_⟩
      cases file with
      | none => exact rfl
      | some content => trivial
    | createFile =>
      cases h
      obtain rfl : file = none := hk
      exact ⟨rfl, trivial⟩
    | forWriting =>
      cases file with
      | none =>
        cases h
        exact ⟨rfl, trivial⟩
      | some content =>
        cases h
        exact ⟨by simp [written], rfl⟩
    | seekToEnd =>
      cases h
      exact ⟨by simp [written], hk, rfl⟩
    | write offset =>
      cases h
      obtain ⟨-, rfl⟩ := hk
      refine ⟨?_, trivial⟩
      rw [Option.getD_some, handleWrite_end]
      simp [written]

/-! ## The runs -/

section
variable (src dst : Option Text)

def Held (s : State) : Prop := s.src.getD [] = src.getD [] ++ unlines nl s.appended

/-- The lines up to some point are in the counterpart, the others in `LOG_DIR`. -/
def Split (s : State) : Prop := ∃ into back moved kept, s.appended = moved ++ kept ∧
  s.dst.getD [] = into ++ unlines nl moved ∧ s.src.getD [] = back ++ unlines nl kept ∧
    into ++ back = dst.getD [] ++ src.getD [] ∧ (moved = [] ∨ back = [])

def Reached (s : State) : MergePhase → Prop
  | .write _ offset => Held src s ∧ s.dst = dst ∧ offset = (dst.getD []).length
  | .makeReadOnly body | .removeItem body => Held src s ∧ s.dst.getD [] = dst.getD [] ++ body
  | .done => Split src dst s
  | _ => Held src s ∧ s.dst = dst

structure Inv (s : State) : Prop where
  closed : s.unlinked = none
  knows : Knows s.src s.host.pc
  reached : Reached src dst s s.merge

end

variable {src dst : Option Text} {s s' : State}

theorem Inv.init (src dst : Option Text) (lines : List Text) : Inv src dst (.init src dst lines) where
  closed := rfl
  knows := trivial
  reached := ⟨by simp [Held, State.init], rfl⟩

theorem Held.split (h : Held src s) (hd : s.dst = dst) : Split src dst s :=
  ⟨dst.getD [], src.getD [], [], s.appended, rfl, by simp [hd], h, rfl, Or.inl rfl⟩

theorem Inv.host (h : Inv src dst s) (hs : hostStep s = some s') : Inv src dst s' := by
  rw [hostStep, h.closed] at hs
  obtain ⟨⟨file', p'⟩, hp, rfl⟩ := Option.map_eq_some_iff.mp hs
  obtain ⟨hfile, hknows⟩ := host_spec hp h.knows
  refine ⟨rfl, hknows, ?_⟩
  have hheld : Held src s → Held src { s with src := file', host := p', appended := s.appended ++ written s.host } := by
    intro hh
    unfold Held at hh ⊢
    dsimp only
    rw [hfile, hh, unlines_append, List.append_assoc]
  have hsplit : Split src dst s → Split src dst { s with src := file', host := p', appended := s.appended ++ written s.host } := by
    rintro ⟨into, back, moved, kept, happ, hd, hb, he⟩
    refine ⟨into, back, moved, kept ++ written s.host, ?_, hd, ?_, he⟩
    · dsimp only
      rw [happ, List.append_assoc]
    · dsimp only
      rw [hfile, hb, unlines_append, List.append_assoc]
  have hr := h.reached
  dsimp only
  cases hm : s.merge <;> rw [hm] at hr
  case done => exact hsplit hr
  all_goals exact ⟨hheld hr.1, hr.2⟩

theorem Inv.merge (h : Inv src dst s) (hu : Unseen s .merge) (hs : mergeStep s = some s') : Inv src dst s' := by
  have hr := h.reached
  unfold mergeStep at hs
  cases hm : s.merge <;> rw [hm] at hs hr
  case fileExists =>
    cases hs
    refine ⟨h.closed, h.knows, ?_⟩
    dsimp only
    split <;> exact hr
  case insertSnapshot =>
    cases hs
    exact ⟨h.closed, h.knows, hr.1.split hr.2⟩
  case makeWritable =>
    cases hs
    exact ⟨h.closed, h.knows, hr⟩
  case contentsOfFile =>
    dsimp only at hs
    split at hs
    · cases hs
      exact ⟨h.closed, h.knows, hr.1.split hr.2⟩
    · cases hs
      refine ⟨h.closed, h.knows, ?_⟩
      dsimp only
      split
      · exact hr
      · exact hr.1.split hr.2
  case forWriting body =>
    cases hs
    exact ⟨h.closed, h.knows, hr⟩
  case seekToEnd body =>
    cases hs
    exact ⟨h.closed, h.knows, hr.1, hr.2, by rw [hr.2]⟩
  case write body offset =>
    cases hs
    obtain ⟨hh, hd, rfl⟩ := hr
    refine ⟨h.closed, h.knows, hh, ?_⟩
    dsimp only
    rw [hd, Option.getD_some, handleWrite_end]
  case makeReadOnly body =>
    cases hs
    exact ⟨h.closed, h.knows, hr⟩
  case removeItem body =>
    cases hs
    -- by the condition the log is as it was read, and the host does not have it open
    obtain ⟨hsrc, hclosed⟩ := hu rfl body hm
    obtain ⟨hh, hd⟩ := hr
    refine ⟨if_neg hclosed, ?_, ?_⟩
    · dsimp only
      cases hpc : s.host.pc <;> rw [hpc] at hclosed
      case seekToEnd => exact absurd trivial hclosed
      case write offset => exact absurd trivial hclosed
      all_goals trivial
    · -- the host has written nothing since the merge has read the log
      have hbody : body = src.getD [] ++ unlines nl s.appended := by
        rw [Held, hsrc] at hh
        exact hh
      refine ⟨dst.getD [] ++ src.getD [], [], s.appended, [], (List.append_nil _).symm, ?_, rfl,
        List.append_nil _, Or.inr rfl⟩
      dsimp only
      rw [hd, hbody, List.append_assoc]
  case done => cases hs

/-- **No appended line is lost**, if the merge removes the log as it has read it, and while the host
does not have it open: both logs together have the bytes that they had and each line once, in order. -/
theorem appended_kept (src dst : Option Text) (lines : List Text) {acts : List Act} {s : State}
    (ho : Runs.Obeys step Unseen (.init src dst lines) acts)
    (hr : Runs.run step (.init src dst lines) acts = some s)
    (hf : s.Finished) :
    (∀ line ∈ s.appended, line ++ [nl] <:+: s.dst.getD [] ∨ line ++ [nl] <:+: s.src.getD []) ∧
      s.dst.getD [] ++ s.src.getD [] = dst.getD [] ++ src.getD [] ++ unlines nl s.appended := by
  have hinv : Inv src dst s := by
    refine Runs.run_invariant (fun s a s' h ha hs => ?_) (Inv.init src dst lines) ho hr
    cases a with
    | merge => exact h.merge ha hs
    | host => exact h.host hs
  obtain ⟨into, back, moved, kept, happ, hd, hb, he, hnil⟩ : Split src dst s := by
    have hreached := hinv.reached
    rwa [hf.1] at hreached
  have hinfix : ∀ {line : Text} {ls : List Text} (a : Text), line ∈ ls →
    line ++ [nl] <:+: a ++ unlines nl ls := by
    intro line ls a hmem
    obtain ⟨l₁, l₂, rfl⟩ := List.append_of_mem hmem
    exact ⟨a ++ unlines nl l₁, unlines nl l₂, by simp [unlines_append, unlines_cons]⟩
  refine ⟨fun line hmem => ?_, ?_⟩
  · rw [happ] at hmem
    rcases List.mem_append.mp hmem with hmem | hmem
    · exact Or.inl (hd ▸ hinfix into hmem)
    · exact Or.inr (hb ▸ hinfix back hmem)
  · rw [hd, hb, happ, unlines_append, ← he]
    rcases hnil with rfl | rfl <;> simp

/-! ## Two orders -/

/-- The host appends between two passes: its lines are in `LOG_DIR` still. -/
theorem appended_kept_after : ∃ s, Runs.run step (.init (some (ascii "a\n")) (some []) [ascii "b"])
    (List.replicate 8 .merge ++ List.replicate 5 .host) = some s ∧
      (∀ line ∈ s.appended, line ++ [nl] <:+: s.dst.getD [] ∨ line ++ [nl] <:+: s.src.getD []) ∧
        s.dst.getD [] ++ s.src.getD [] = (some []).getD [] ++ (some (ascii "a\n")).getD [] ++
          unlines nl s.appended := by
  have ho : Runs.Obeys step Unseen (.init (some (ascii "a\n")) (some []) [ascii "b"])
      (List.replicate 8 .merge ++ List.replicate 5 .host) := by decide
  exact ⟨_, rfl, appended_kept (some (ascii "a\n")) (some []) [ascii "b"] ho rfl (by decide)⟩

/-- The merge has read the log before the host writes to it, and then removes it. -/
theorem appended_line_lost : ∃ s, Runs.run step (.init (some (ascii "a\n")) (some []) [ascii "b"])
    (List.replicate 3 .merge ++ List.replicate 4 .host ++ List.replicate 5 .merge) = some s ∧ s.Finished ∧
      s.appended = [ascii "b"] ∧ s.src = none ∧ s.dst = some (ascii "a\n") ∧
      ¬∀ line ∈ s.appended, line ++ [nl] <:+: s.dst.getD [] ∨ line ++ [nl] <:+: s.src.getD [] :=
  ⟨_, rfl, by decide, rfl, rfl, rfl, by decide⟩

end MergeRace

end VisitLogger
