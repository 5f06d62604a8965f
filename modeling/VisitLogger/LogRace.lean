import VisitLogger.Log
import VisitLogger.Runs

/-!
# Appends that overlap

Each message has its own host process, and `appendLine` takes no lock. Here any
number of processes go through its steps, in any order. Two things lose lines: a
`createFile` that finds lines in the file, and a write at an offset that is no
longer the end (`overlapping_appends_lose`). Without them every line is in the
file once (`appends_intact`).
-/

namespace VisitLogger

open Framing

namespace LogRace

/-- A write at the handle's own offset. A gap before it reads as zeros. -/
def handleWrite (content : Text) (offset : Nat) (data : Text) : Text :=
  (content ++ List.replicate (offset - content.length) 0).take offset ++
    (data ++ content.drop (offset + data.length))

/-- Where a process is in `appendLine`. -/
inductive Pc where
  | fileExists
  | createFile
  | forWriting
  | seekToEnd
  | write (offset : Nat)
  deriving DecidableEq, Repr

/-- A process with the lines that it has still to append: the action line and the result line. -/
structure Process where
  lines : List Text
  pc : Pc
  deriving DecidableEq, Repr

structure State where
  file : Option Text
  procs : List Process
  deriving DecidableEq, Repr

/-- The next step of a process. A file that cannot be opened is an exception,
which the caller catches. -/
def Process.step (file : Option Text) (p : Process) : Option (Option Text × Process) :=
  match p.lines, p.pc with
  | [], _ => none
  | _ :: _, .fileExists => some (file, { p with pc := if file.isSome then .forWriting else .createFile })
  | _ :: _, .createFile => some (some [], { p with pc := .forWriting })
  | _ :: rest, .forWriting =>
    match file with
    | none => some (file, ⟨rest, .fileExists⟩)
    | some _ => some (file, { p with pc := .seekToEnd })
  | _ :: _, .seekToEnd => some (file, { p with pc := .write (file.getD []).length })
  | line :: rest, .write offset => some (some (handleWrite (file.getD []) offset (line ++ [nl])),
      ⟨rest, .fileExists⟩)

/-- Process `i` takes its next step. -/
def step (s : State) (i : Nat) : Option State :=
  s.procs[i]?.bind fun p => (p.step s.file).map fun r => ⟨r.1, s.procs.set i r.2⟩

def State.init (file : Option Text) (lines : List (List Text)) : State := ⟨file, lines.map (⟨·, .fileExists⟩)⟩

def State.Finished (s : State) : Prop := ∀ p ∈ s.procs, p.lines = []

instance (s : State) : Decidable s.Finished := inferInstanceAs (Decidable (∀ p ∈ s.procs, p.lines = []))

/-- A `createFile` finds nothing to truncate, and a write finds the end where
`seekToEnd` found it. -/
def Pc.Undisturbed (file : Option Text) (pc : Pc) : Prop :=
  match pc with
  | createFile => file.getD [] = []
  | write offset => offset = (file.getD []).length
  | _ => True

instance (file : Option Text) : DecidablePred (Pc.Undisturbed file) := fun pc =>
  match pc with
  | .fileExists => inferInstanceAs (Decidable True)
  | .createFile => inferInstanceAs (Decidable (_ = _))
  | .forWriting => inferInstanceAs (Decidable True)
  | .seekToEnd => inferInstanceAs (Decidable True)
  | .write _ => inferInstanceAs (Decidable (_ = _))

def Undisturbed (s : State) (i : Nat) : Prop := ∀ p ∈ s.procs[i]?, p.pc.Undisturbed s.file

instance (s : State) (i : Nat) : Decidable (Undisturbed s i) :=
  inferInstanceAs (Decidable (∀ p ∈ s.procs[i]?, p.pc.Undisturbed s.file))

/-! ## One process alone -/

theorem handleWrite_end (content data : Text) : handleWrite content content.length data = content ++ data := by
  simp [handleWrite]

def logFile (logs : List (Text × Text)) (date : Text) : Option Text :=
  (logs.find? fun f => f.1 = date).map Prod.snd

theorem logFile_appendLine (logs : List (Text × Text)) (date line : Text) :
    logFile (VisitLog.appendLine logs date line) date =
      some ((logFile logs date).getD [] ++ (line ++ [nl])) := by
  unfold logFile VisitLog.appendLine
  dsimp only
  rw [Table.find_updateWhere Prod.fst (fun f => f.1 = date) (fun f => (f.1, f.2 ++ line ++ [nl])) _
    (fun _ => rfl) date, Table.find_insertOrIgnore]
  cases h : logs.find? fun f => f.1 = date with
  | none => simp
  | some f =>
    have hf : f.1 = date := by simpa using List.find?_some h
    simp [hf]

/-- **A process alone appends the line**, as `VisitLog.appendLine` does. -/
theorem run_alone (logs : List (Text × Text)) (date line : Text) (rest : List Text) :
    Runs.run step ⟨logFile logs date, [⟨line :: rest, .fileExists⟩]⟩
        (List.replicate (if (logFile logs date).isSome then 4 else 5) 0) =
      some ⟨logFile (VisitLog.appendLine logs date line) date, [⟨rest, .fileExists⟩]⟩ := by
  rw [logFile_appendLine]
  cases logFile logs date with
  | none =>
    have h := handleWrite_end [] (line ++ [nl])
    simpa [Runs.run, step, Process.step] using h
  | some content => simp [Runs.run, step, Process.step, handleWrite_end content (line ++ [nl])]

/-! ## Any number of processes -/

/-- A process that has gone past `createFile` finds a file. -/
def Process.Exists (file : Option Text) (p : Process) : Prop :=
  p.pc = .fileExists ∨ p.pc = .createFile ∨ file.isSome

theorem Process.step_spec {file file' : Option Text} {p p' : Process} (h : p.step file = some (file', p'))
    (hu : p.pc.Undisturbed file) (he : p.Exists file) :
    (∃ ls, p.lines = ls ++ p'.lines ∧ file'.getD [] = file.getD [] ++ unlines nl ls) ∧
      (file.isSome → file'.isSome) ∧ p'.Exists file' := by
  obtain ⟨lines, pc⟩ := p
  cases lines with
  | nil => cases h
  | cons line rest =>
    cases pc with
    | fileExists =>
      cases h
      refine ⟨⟨[], rfl, by simp⟩, id, ?_⟩
      cases file with
      | none => exact Or.inr (Or.inl rfl)
      | some _ => exact Or.inr (Or.inr rfl)
    | createFile =>
      cases h
      have hempty : file.getD [] = [] := hu
      exact ⟨⟨[], rfl, by rw [hempty]; rfl⟩, fun _ => rfl, Or.inr (Or.inr rfl)⟩
    | forWriting =>
      cases file with
      | none => exact absurd he (by simp [Process.Exists])
      | some content =>
        cases h
        exact ⟨⟨[], rfl, by simp⟩, id, Or.inr (Or.inr rfl)⟩
    | seekToEnd =>
      cases h
      have hsome : file.isSome := by simpa [Process.Exists] using he
      exact ⟨⟨[], rfl, by simp⟩, id, Or.inr (Or.inr hsome)⟩
    | write offset =>
      cases h
      have hend : offset = (file.getD []).length := hu
      refine ⟨⟨[line], rfl, ?_⟩, fun _ => rfl, Or.inl rfl⟩
      rw [hend, handleWrite_end]
      simp

theorem flatMap_set {procs : List Process} {i : Nat} {p p' : Process} {ls : List Text} (h : procs[i]? = some p)
    (hl : p.lines = ls ++ p'.lines) :
    (procs.flatMap Process.lines).Perm (ls ++ (procs.set i p').flatMap Process.lines) := by
  induction procs generalizing i with
  | nil => cases h
  | cons q procs ih =>
    cases i with
    | zero =>
      obtain rfl : q = p := by simpa using h
      simp [hl]
    | succ i =>
      have hi := ih (i := i) (by simpa using h)
      rw [List.set_cons_succ, List.flatMap_cons, List.flatMap_cons]
      calc q.lines ++ procs.flatMap Process.lines
          |>.Perm (q.lines ++ (ls ++ (procs.set i p').flatMap Process.lines)) := hi.append_left _
        _ |>.Perm (ls ++ (q.lines ++ (procs.set i p').flatMap Process.lines)) := by
          rw [← List.append_assoc, ← List.append_assoc]
          exact List.perm_append_comm.append_right _

/-- The file has the lines of the appends that are over, and the others are still to come. -/
structure Inv (file : Option Text) (lines : List (List Text)) (s : State) : Prop where
  logged : ∃ ls, s.file.getD [] = file.getD [] ++ unlines nl ls ∧
    (ls ++ s.procs.flatMap Process.lines).Perm lines.flatten
  exists_ : ∀ p ∈ s.procs, p.Exists s.file

theorem Inv.init (file : Option Text) (lines : List (List Text)) : Inv file lines (.init file lines) where
  logged := ⟨[], by simp [State.init], by simp [State.init, List.flatMap_map, List.flatMap_id']⟩
  exists_ p hp := by
    obtain ⟨ls, -, rfl⟩ := List.mem_map.mp hp
    exact Or.inl rfl

theorem Inv.step {file : Option Text} {lines : List (List Text)} {s s' : State} {i : Nat} (h : Inv file lines s)
    (hu : Undisturbed s i) (hs : s' ∈ LogRace.step s i) : Inv file lines s' := by
  obtain ⟨p, hp, hs⟩ := Option.bind_eq_some_iff.mp hs
  obtain ⟨⟨file', p'⟩, hstep, rfl⟩ := Option.map_eq_some_iff.mp hs
  obtain ⟨⟨ls', hl', hf'⟩, hsome, he'⟩ := Process.step_spec hstep (hu p hp)
    (h.exists_ p (List.mem_of_getElem? hp))
  obtain ⟨ls, hf, hperm⟩ := h.logged
  refine ⟨⟨ls ++ ls', ?_, ?_⟩, fun q hq => ?_⟩
  · rw [hf', hf, unlines_append, List.append_assoc]
  · rw [List.append_assoc]
    exact ((flatMap_set hp hl').symm.append_left ls).trans hperm
  · rcases List.mem_or_eq_of_mem_set hq with hq | rfl
    · exact (h.exists_ q hq).imp id (Or.imp id hsome)
    · exact he'

/-- **Undisturbed appends lose nothing.** Once all have finished, the file has the
bytes it had and then each line of each process once, in some order. -/
theorem appends_intact (file : Option Text) (lines : List (List Text)) {acts : List Nat} {s : State}
    (ho : Runs.Obeys step Undisturbed (.init file lines) acts)
      (hr : Runs.run step (.init file lines) acts = some s)
    (hf : s.Finished) : ∃ ls : List Text, ls.Perm lines.flatten ∧
      s.file.getD [] = file.getD [] ++ unlines nl ls := by
  have hinv : Inv file lines s := Runs.run_invariant (fun _ _ _ h hu hs => h.step hu hs)
    (Inv.init file lines) ho hr
  obtain ⟨ls, hfile, hperm⟩ := hinv.logged
  have hnone : s.procs.flatMap Process.lines = [] := List.flatMap_eq_nil_iff.mpr hf
  rw [hnone, List.append_nil] at hperm
  exact ⟨ls, hperm, hfile⟩

/-! ## Two processes -/

/-- Two hosts append in turn to a new day log. -/
theorem appends_intact_inTurn : ∃ s,
    Runs.run step (.init none [[ascii "a"], [ascii "b"]]) [0, 0, 0, 0, 0, 1, 1, 1, 1] = some s ∧
    ∃ ls : List Text, ls.Perm [[ascii "a"], [ascii "b"]].flatten ∧
      s.file.getD [] = (none : Option Text).getD [] ++ unlines nl ls := by
  have ho : Runs.Obeys step Undisturbed (.init none [[ascii "a"], [ascii "b"]])
      [0, 0, 0, 0, 0, 1, 1, 1, 1] := by decide
  exact ⟨_, rfl, appends_intact none [[ascii "a"], [ascii "b"]] ho rfl (by decide)⟩

/-- The second host writes where the first one has written since. -/
theorem overlapping_appends_lose :
    ∃ s, Runs.run step (.init (some []) [[ascii "a"], [ascii "b"]]) [0, 0, 0, 1, 1, 1, 0, 1] = some s ∧
      s.Finished ∧
      s.file = some (ascii "b\n") ∧
      ¬∃ ls : List Text, ls.Perm [[ascii "a"], [ascii "b"]].flatten ∧
        s.file.getD [] = (some []).getD [] ++ unlines nl ls := by
  refine ⟨_, rfl, by decide, rfl, ?_⟩
  rintro ⟨ls, hperm, hfile⟩
  have hlen := (hperm.flatMap_right (· ++ [nl])).length_eq
  rw [show ls.flatMap (· ++ [nl]) = ascii "b\n" from hfile.symm] at hlen
  revert hlen
  decide

end LogRace

end VisitLogger
