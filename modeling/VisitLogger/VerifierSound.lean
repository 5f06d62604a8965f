import VisitLogger.Streaks
import VisitLogger.Verifier

/-!
# What the user is told of a sealed directory

Over any number of processes, each with its own files and database, the row of a
directory is there just while it fails, and the user is notified of it until the
row is marked: once for each time it fails after not having failed, where no
statement of `escalate` throws (`notified_per_streak`).
-/

namespace VisitLogger

open SnapshotMover (MoverError)

namespace MoverErrors

/-! ## The row of a key -/

/-- A call of another tool, which does not record or clear a failure of this key; it may delete
its row. -/
def Call.Spares (k : Text) : Call → Prop
  | .record _ op target _ | .clear op target | .moverRecord _ op target _ | .moverClear op target =>
    op.text ++ ascii ":" ++ target.text ≠ k
  | .syncRecord _ operation target _ _ | .syncClear operation target =>
    operation.text ++ ascii "|" ++ target.text ≠ k
  | .delete _ => True
  | .escalate _ => False

/-- The row of a key, if there is one: it is immediate, and marked as notified or not. -/
def RowIs (k : Text) (notified : Option Bool) (rows : List MoverError) : Prop :=
  match notified with
  | none => rows.filter (fun r => r.key = k) = []
  | some b => ∃ r, rows.filter (fun r => r.key = k) = [r] ∧ r.notified = b.toNat ∧ r.immediate = 1

variable {k : Text} {o : Option Bool} {rows rows' : List MoverError}

theorem RowIs.congr (h : RowIs k o rows)
    (hrows : rows'.filter (fun r => r.key = k) = rows.filter fun r => r.key = k) : RowIs k o rows' := by
  cases o with
  | none => exact hrows.trans h
  | some n =>
    obtain ⟨r, hr, hn⟩ := h
    exact ⟨r, hrows.trans hr, hn⟩

theorem RowIs.isSome_iff (h : RowIs k o rows) : (∃ r ∈ rows, r.key = k) ↔ o.isSome = true := by
  have hmem : (∃ r ∈ rows, r.key = k) ↔ rows.filter (fun r => r.key = k) ≠ [] := by simp
  rw [hmem]
  cases o with
  | none => simp [show rows.filter (fun r => r.key = k) = [] from h]
  | some n =>
    obtain ⟨r, hr, -⟩ := h
    simp [hr]

theorem filter_upsert_ne {f : Failure} (hk : f.key ≠ k) :
    (upsert f rows).filter (fun r => r.key = k) = rows.filter fun r => r.key = k := by
  unfold upsert
  split
  · rw [filter_updateWhere _ _ (again f) fun _ => rfl]
    simp only [if_neg (Ne.symm hk), List.map_id']
  · rw [List.filter_append]
    simp [hk]

theorem RowIs.others (h : RowIs k o rows) {f : Failure} (hk : f.key ≠ k) : RowIs k o (upsert f rows) :=
  h.congr (filter_upsert_ne hk)

theorem RowIs.recorded (h : RowIs k o rows) {f : Failure} (hk : f.key = k) (hf : f.immediate = true) :
    RowIs k (some (o.getD false)) (upsert f rows) := by
  have hhas := has_key_iff f.key rows
  rw [hk] at hhas
  cases o with
  | none =>
    have hnone : rows.filter (fun r => r.key = k) = [] := h
    rw [MoverErrors.upsert, hk, if_neg (hhas.not.mpr (not_not.mpr hnone))]
    refine ⟨⟨k, f.operation, f.target, f.message, f.now, f.now, 1, 0, if f.immediate then 1 else 0⟩, ?_,
      rfl, if_pos hf⟩
    rw [List.filter_append, hnone]
    simp
  | some n =>
    obtain ⟨r, hr, hn, hi⟩ := h
    rw [MoverErrors.upsert, hk, if_pos (hhas.mpr (by rw [hr]; exact List.cons_ne_nil _ _))]
    refine ⟨again f r, ?_, hn, ?_⟩
    · rw [filter_updateWhere _ _ (again f) fun _ => rfl, hr]
      simp
    · simp [again, hi, hf]

theorem RowIs.filter_ne (h : RowIs k o rows) {k' : Text} (hk : k' ≠ k) :
    RowIs k o (rows.filter fun r => r.key ≠ k') := by
  refine h.congr ?_
  rw [List.filter_filter]
  refine List.filter_congr fun r _ => ?_
  by_cases hr : r.key = k <;> simp [hr, Ne.symm hk]

theorem rowIs_clear (k : Text) (rows : List MoverError) : RowIs k none (rows.filter fun r => r.key ≠ k) := by
  show (rows.filter fun r => r.key ≠ k).filter (fun r => r.key = k) = []
  simp [List.filter_filter]

/-! ## Escalating -/

theorem filter_markNotified (k k' : Text) (rows : List MoverError) :
    (markNotified k' rows).filter (fun r => r.key = k) =
      (rows.filter fun r => r.key = k).map fun r => if k = k' then told r else r :=
  filter_updateWhere _ _ told (fun _ => rfl) _

theorem filter_markAll (io : EscalateIo) (k : Text) (rs rows : List MoverError) :
    (markAll io rs rows).filter (fun r => r.key = k) = (rows.filter fun r => r.key = k).map fun r =>
      if k ∈ rs.map MoverError.key ∧ io.update k = false then told r else r := by
  unfold markAll
  induction rs generalizing rows with
  | nil => simp
  | cons q rs ih =>
    rw [List.foldl_cons, ih]
    by_cases hq : k = q.key
    · subst hq
      cases hu : io.update q.key with
      | true => simp
      | false =>
        simp only [filter_markNotified, List.map_map, Bool.false_eq_true, if_false, if_true]
        refine List.map_congr_left fun r _ => ?_
        simp only [Function.comp_apply, List.map_cons, List.mem_cons, true_or, true_and, if_true]
        split <;> rfl
    · have hrows : (if io.update q.key = true then rows else markNotified q.key rows).filter
          (fun r => r.key = k) = rows.filter fun r => r.key = k := by
        split
        · rfl
        · rw [filter_markNotified]
          simp [hq]
      rw [hrows]
      simp only [List.map_cons, List.mem_cons, hq, false_or]

theorem countP_due (k : Text) (threshold : Int) (rows : List MoverError) :
    (due threshold rows).countP (fun r => r.key = k) =
      (rows.filter fun r => r.key = k).countP (Due threshold) := by
  rw [(due_perm threshold rows).countP_eq, List.countP_filter, List.countP_filter]
  simp only [Bool.and_comm]

/-- What `escalate` does to the row of a key. -/
def EscalateIo.events (io : EscalateIo) (k : Text) : List Streaks.Event :=
  if io.query then [] else [.reported (!io.update k)]

/-- The user is told of a row that is not marked. -/
theorem RowIs.escalate (h : RowIs k o rows) (io : EscalateIo) (threshold : Int) :
    RowIs k ((io.events k).foldl Streaks.Event.next o) (MoverErrors.escalate io threshold rows).1 ∧
      (MoverErrors.escalate io threshold rows).2.countP (fun n => n.key = k) =
        Streaks.reportsFrom o (io.events k) := by
  unfold MoverErrors.escalate EscalateIo.events
  cases hq : io.query with
  | true => exact ⟨h, rfl⟩
  | false =>
    simp only [Bool.false_eq_true, if_false, List.foldl_cons, List.foldl_nil, Streaks.reportsFrom, Nat.add_zero,
      Streaks.Event.next, Streaks.Event.reports]
    have hcount : ((due threshold rows).map notification).countP (fun n => n.key = k) =
        (rows.filter fun r => r.key = k).countP (Due threshold) := by
      rw [← countP_due, List.countP_map]
      rfl
    rw [hcount]
    cases o with
    | none =>
      have hnone : rows.filter (fun r => r.key = k) = [] := h
      refine ⟨?_, by simp [hnone]⟩
      show (markAll io (due threshold rows) rows).filter (fun r => r.key = k) = []
      rw [filter_markAll, hnone]
      rfl
    | some b =>
      obtain ⟨r, hr, hn, hi⟩ := h
      have hdue : Due threshold r ↔ b = false := by cases b <;> simp [Due, hn, hi]
      have hmem : k ∈ (due threshold rows).map MoverError.key ↔ b = false := by
        have hpos : k ∈ (due threshold rows).map MoverError.key ↔
            0 < (due threshold rows).countP fun r => r.key = k := by
          rw [List.countP_pos_iff]
          simp
        rw [← hdue, hpos, countP_due, hr, List.countP_pos_iff]
        simp
      refine ⟨⟨if b = false ∧ io.update k = false then told r else r, ?_, ?_, ?_⟩, ?_⟩
      · rw [filter_markAll, hr]
        simp [hmem]
      · cases b <;> cases hu : io.update k <;> simp [told, hn]
      · split <;> exact hi
      · rw [hr, List.countP_singleton]
        simp [hdue]

/-! ## The calls of others -/

theorem record_eq (characters : Text → List Text) (now op target : Text) (error : SwiftError)
    (rows : List MoverError) :
    record characters now op target error rows =
      upsert ⟨op ++ ascii ":" ++ target, op, target,
        BVLHost.cString ((characters (tsvSanitise error.description)).take 500).flatten, now,
          isImmediate op error⟩ rows :=
  rfl

def Call.deletes (k : Text) (rows : List MoverError) : Call → Bool
  | .delete doomed => rows.any fun r => r.key = k && doomed r
  | _ => false

theorem RowIs.call (characters : Text → List Text) (h : RowIs k o rows) {c : Call} (hc : c.Spares k) :
    RowIs k (if c.deletes k rows then none else o) (c.apply characters rows) := by
  cases c with
  | record now op target error =>
    rw [Call.apply, record_eq]
    exact h.others hc
  | moverRecord now op target exc =>
    let f : Failure := ⟨op.text ++ ascii ":" ++ target.text, op.text, target.text,
      SnapshotMover.takeRunes 500 (SnapshotMover.tsvSanitise exc.text), now,
        SnapshotMover.isImmediate op.text exc⟩
    have hothers : RowIs k o (upsert f rows) := h.others hc
    exact hothers
  | syncRecord now operation target message immediate =>
    let f : Failure := ⟨operation.text ++ ascii "|" ++ target.text, operation.text, target.text,
      message, now, immediate⟩
    have hothers : RowIs k o (upsert f rows) := h.others hc
    exact hothers
  | clear op target => exact h.filter_ne hc
  | moverClear op target => exact h.filter_ne hc
  | syncClear operation target => exact h.filter_ne hc
  | delete doomed =>
    show RowIs k (if (rows.any fun r => r.key = k && doomed r) = true then none else o)
      (rows.filter fun r => !doomed r)
    have hany : (rows.any fun r => r.key = k && doomed r) = (rows.filter fun r => r.key = k).any doomed := by
      rw [List.any_filter]
    have hfilter : (rows.filter fun r => !doomed r).filter (fun r => r.key = k) =
        (rows.filter fun r => r.key = k).filter fun r => !doomed r := by
      rw [List.filter_filter, List.filter_filter]
      simp only [Bool.and_comm]
    rw [hany]
    cases o with
    | none =>
      rw [ite_self]
      show (rows.filter fun r => !doomed r).filter (fun r => r.key = k) = []
      rw [hfilter, show rows.filter (fun r => r.key = k) = [] from h]
      rfl
    | some n =>
      obtain ⟨r, hr, hn⟩ := h
      rw [hr]
      by_cases hd : doomed r = true
      · rw [if_pos (by simpa using hd)]
        show (rows.filter fun r => !doomed r).filter (fun r => r.key = k) = []
        rw [hfilter, hr]
        simp [hd]
      · rw [if_neg (by simpa using hd)]
        refine ⟨r, ?_, hn⟩
        rw [hfilter, hr]
        simp [hd]
  | escalate threshold => exact absurd hc id

end MoverErrors

namespace BVLVerifier

open MoverErrors (RowIs Notification)
open Streaks

variable (characters : Text → List Text)

/-! ## What is found of a directory -/

def key (target : Text) : Text := ascii "manifest_invalid" ++ ascii ":" ++ target

def dateResult (w : World) (root date : Text) : Option (Text × Verify.VerifyResult) :=
  let target := MoverErrors.appendingPathComponent root date
  (w.disk target).map fun dir => (target, Verify.directory (w.verifyIo target) w.db target dir)

def sealedResults (w : World) : List (Text × Verify.VerifyResult) :=
  match w.querySealed, w.archiveSnapshotsDir with
  | none, .ok root => (sealedDates w.db).filterMap (dateResult w root)
  | _, _ => []

def verdictsOf (w : World) (target : Text) (results : List (Text × Verify.VerifyResult)) : List Bool :=
  (results.filter fun r => r.1 = target && !w.writeFails r.1).map fun r => r.2.isValid

/-- A failure that is deleted counts as resolved. -/
def callVerdicts (k : Text) : List MoverError → List MoverErrors.Call → List Bool
  | _, [] => []
  | rows, c :: calls => (if c.deletes k rows then [true] else []) ++
      callVerdicts k (c.apply characters rows) calls

def recordedEvents (w : World) (target : Text) (results : List (Text × Verify.VerifyResult)) :
    List Streaks.Event :=
  (verdictsOf w target results).map .found ++ w.escalateIo.events (key target)

def dispatchEvents (w : World) (opts : CLIOptions) (target : Text) (rows : List MoverError) :
    List Streaks.Event :=
  match opts.mode with
  | .tick =>
    if w.archiveSnapshotsDir.isOk ∧ w.createDirectory = none ∧ w.hasDb = true ∧ w.openDb = none ∧
      opts.dryRun = false then
      (callVerdicts characters (key target) rows w.passes).map .found ++
        recordedEvents w target (sealedResults w)
    else []
  | .verifyOne arg =>
    match w.disk (resolveTarget w arg), w.openDb, opts.record with
    | some dir, none, true =>
      let t := resolveTarget w arg
      recordedEvents w target [(t, Verify.directory (w.verifyIo t) w.db t dir)]
    | _, _, _ => []
  | .verifyAll =>
    if w.openDb = none ∧ opts.record = true then
      recordedEvents w target (if opts.dryRun then [] else sealedResults w)
    else []
  | .showErrors => []
  | .clearErrors => if w.openDb = none ∧ w.statement = none then [.found true] else []
  | .clearError n =>
    if w.openDb = none ∧ w.statement = none ∧ 1 ≤ n ∧
      (fetchPending rows)[(n - 1).toNat]?.map MoverError.key = some (key target)
    then [.found true] else []

/-! ## Histories -/

/-- A process of BVLVerifier, or a call of another tool on a database. -/
inductive Step where
  | process (world : List (Text × Text) → World) (argv : List Text)
  | other (database : Text) (c : MoverErrors.Call)

/-- `mover_errors` of each database, and the notifications with the database of their rows. -/
structure State where
  tables : Text → List MoverError
  notifications : List (Option Text × Notification)

def databaseOf (world : List (Text × Text) → World) (argv : List Text) : Option Text :=
  match parseArgs argv with
  | .ok a => some (world a.env).database
  | .error _ => none

def State.next (s : State) : Step → State
  | .process world argv =>
    let e := main characters world argv s.tables
    ⟨e.rows, s.notifications ++ e.notifications.map (Prod.mk (databaseOf world argv))⟩
  | .other database c =>
    ⟨Function.update s.tables database (c.apply characters (s.tables database)), s.notifications⟩

def stepEvents (database target : Text) (s : State) : Step → List Streaks.Event
  | .process world argv =>
    match parseArgs argv with
    | .error _ => []
    | .ok a =>
      let w := world a.env
      if w.database = database then dispatchEvents characters w a.opts target (s.tables database) else []
  | .other database' c =>
    if database' = database ∧ c.deletes (key target) (s.tables database) = true then [.found true] else []

def State.created : State := ⟨fun _ => [], []⟩

def run (steps : List Step) : State := steps.foldl (State.next characters) State.created

def history (database target : Text) : State → List Step → List Streaks.Event
  | _, [] => []
  | s, step :: steps =>
    stepEvents characters database target s step ++ history database target (s.next characters step) steps

/-- The other tools, and the passes before the verification, record and clear other failures. -/
def Step.Spares (database k : Text) : Step → Prop
  | .process world _ => ∀ env, (world env).database = database → ∀ c ∈ (world env).passes, c.Spares k
  | .other database' c => database' = database → c.Spares k

/-- No statement of `escalate` throws that the row of the key needs. -/
def Step.Marks (database k : Text) : Step → Prop
  | .process world _ => ∀ env, (world env).database = database →
      (world env).escalateIo.query = false ∧ (world env).escalateIo.update k = false
  | .other _ _ => True

/-! ## One process -/

section
variable {w : World} {target : Text} {o : Option Bool} {rows : List MoverError} {es : List Streaks.Event}

theorem key_inj {t t' : Text} : key t = key t' ↔ t = t' := List.append_right_inj _

theorem rowIs_update (h : RowIs (key target) o rows) (t : Text) (result : Verify.VerifyResult) :
    RowIs (key target)
      (if t = target ∧ w.writeFails t = false then (Streaks.Event.found result.isValid).next o else o)
      (updateErrorState characters w t result rows) := by
  unfold updateErrorState
  by_cases hw : w.writeFails t = true
  · rw [if_pos hw, if_neg (by simp [hw])]
    exact h
  · rw [if_neg hw]
    by_cases ht : t = target
    · subst ht
      rw [if_pos ⟨rfl, by simpa using hw⟩, Streaks.Event.next]
      split
      · exact MoverErrors.rowIs_clear (key t) rows
      · rw [MoverErrors.record_eq]
        exact h.recorded rfl rfl
    · rw [if_neg (fun hc => ht hc.1)]
      have hk : key t ≠ key target := fun hc => ht (key_inj.mp hc)
      split
      · exact h.filter_ne hk
      · rw [MoverErrors.record_eq]
        exact h.others hk

theorem rowIs_results (h : RowIs (key target) o rows) (results : List (Text × Verify.VerifyResult)) :
    RowIs (key target) (((verdictsOf w target results).map Streaks.Event.found).foldl Streaks.Event.next o)
      (results.foldl (fun rows r => updateErrorState characters w r.1 r.2 rows) rows) := by
  induction results generalizing o rows with
  | nil => exact h
  | cons r results ih =>
    have hupdate : RowIs (key target) _ (updateErrorState characters w r.1 r.2 rows) :=
      rowIs_update characters h r.1 r.2
    have hr := ih hupdate
    rw [List.foldl_cons]
    by_cases ht : r.1 = target ∧ w.writeFails r.1 = false
    · rw [if_pos ht] at hr
      have hkeep : (decide (r.1 = target) && !w.writeFails r.1) = true := by simp [ht.1, ht.1 ▸ ht.2]
      rw [verdictsOf, List.filter_cons, if_pos hkeep]
      exact hr
    · rw [if_neg ht] at hr
      have hkeep : ¬(decide (r.1 = target) && !w.writeFails r.1) = true := by simpa using ht
      rw [verdictsOf, List.filter_cons, if_neg hkeep]
      exact hr

structure Effect (target : Text) (o : Option Bool) (es : List Streaks.Event) (rows : List MoverError)
    (notifications : List Notification) : Prop where
  row : RowIs (key target) (es.foldl Streaks.Event.next o) rows
  notified : notifications.countP (fun n => n.key = key target) = reportsFrom o es

theorem Effect.quiet (h : RowIs (key target) o rows) : Effect target o [] rows [] := ⟨h, rfl⟩

theorem Effect.deleted (h : RowIs (key target) none rows) : Effect target o [.found true] rows [] := ⟨h, rfl⟩

/-- **A verification that is recorded, and its escalation.** -/
theorem Effect.recorded (h : RowIs (key target) o rows) (results : List (Text × Verify.VerifyResult)) :
    let r := escalate w (results.foldl (fun rows r => updateErrorState characters w r.1 r.2 rows) rows) []
    Effect target o (recordedEvents w target results) r.1 r.2 := by
  obtain ⟨hrow, hcount⟩ := (rowIs_results characters h results).escalate w.escalateIo w.threshold
  refine ⟨?_, ?_⟩
  · rw [recordedEvents, List.foldl_append]
    exact hrow
  · rw [recordedEvents, reportsFrom_append, reportsFrom_found, Nat.zero_add]
    exact hcount

theorem rowIs_calls (h : RowIs (key target) o rows) (calls : List MoverErrors.Call)
    (hc : ∀ c ∈ calls, c.Spares (key target)) :
    RowIs (key target)
      (((callVerdicts characters (key target) rows calls).map Streaks.Event.found).foldl Streaks.Event.next o)
      (calls.foldl (fun rows c => c.apply characters rows) rows) := by
  induction calls generalizing o rows with
  | nil => exact h
  | cons c calls ih =>
    have hcall := h.call characters (hc c (by simp))
    have hrest := ih hcall fun c hm => hc c (List.mem_cons_of_mem _ hm)
    rw [callVerdicts, List.map_append, List.foldl_append, List.foldl_cons]
    by_cases hd : c.deletes (key target) rows = true
    · rw [if_pos hd] at hrest ⊢
      exact hrest
    · rw [if_neg hd] at hrest ⊢
      exact hrest

/-! ## The verification of all -/

theorem rows_verifyDates (record quiet : Bool) (root : Text) (dates : List Text) (rows : List MoverError) :
    (verifyDates characters w record quiet root dates rows).1 = if record then
      (dates.filterMap (dateResult w root)).foldl (fun rows r =>
        updateErrorState characters w r.1 r.2 rows) rows
    else rows := by
  unfold verifyDates
  generalize hs : (rows, ([] : List Text), false) = s₀
  rw [show rows = s₀.1 from by rw [← hs]]
  clear hs
  induction dates generalizing s₀ with
  | nil => simp
  | cons date dates ih =>
    rw [List.foldl_cons, ih]
    cases hd : w.disk (MoverErrors.appendingPathComponent root date) with
    | none =>
      have hr : dateResult w root date = none := by simp [dateResult, hd]
      rw [List.filterMap_cons_none hr]
      simp only [hd]
    | some dir =>
      have hr : dateResult w root date = some (MoverErrors.appendingPathComponent root date,
          Verify.directory (w.verifyIo (MoverErrors.appendingPathComponent root date)) w.db
            (MoverErrors.appendingPathComponent root date) dir) := by simp [dateResult, hd]
      rw [List.filterMap_cons_some hr]
      simp only [hd]
      cases record <;> rfl

theorem rows_verifyAllSealed (record quiet dryRun : Bool) (rows : List MoverError) :
    (verifyAllSealed characters w record quiet dryRun rows).1 = if record && !dryRun then
      (sealedResults w).foldl (fun rows r => updateErrorState characters w r.1 r.2 rows) rows
    else rows := by
  unfold verifyAllSealed
  cases dryRun with
  | true => simp
  | false =>
    rw [if_neg Bool.false_ne_true]
    cases hq : w.querySealed with
    | some e => cases record <;> simp [sealedResults, hq]
    | none =>
      dsimp only
      by_cases hd : sealedDates w.db = []
      · rw [if_pos hd]
        cases ha : w.archiveSnapshotsDir <;> cases record <;> simp [sealedResults, hq, ha, hd]
      · rw [if_neg hd]
        cases ha : w.archiveSnapshotsDir with
        | error e => cases record <;> simp [sealedResults, hq, ha]
        | ok root =>
          dsimp only
          rw [rows_verifyDates]
          cases record with
          | false => rfl
          | true =>
            rw [sealedResults, hq, ha]
            rfl

/-- A directory that is verified twice is found the same. -/
theorem agree (w : World) (target : Text) : ∃ b, ∀ x ∈ verdictsOf w target (sealedResults w), x = b := by
  refine ⟨match w.disk target with
    | some dir => (Verify.directory (w.verifyIo target) w.db target dir).isValid
    | none => true, fun x hx => ?_⟩
  obtain ⟨r, hr, rfl⟩ := List.mem_map.mp hx
  obtain ⟨hr, ht⟩ := List.mem_filter.mp hr
  have ht : r.1 = target := by
    simp only [Bool.and_eq_true, decide_eq_true_eq] at ht
    exact ht.1
  unfold sealedResults at hr
  split at hr
  · obtain ⟨date, -, hd⟩ := List.mem_filterMap.mp hr
    obtain ⟨dir, hdir, rfl⟩ := Option.map_eq_some_iff.mp hd
    dsimp only at ht
    rw [ht] at hdir
    rw [hdir, ht]
  · cases hr

/-! ## One process -/

theorem runTick_effect (h : RowIs (key target) o rows) (opts : CLIOptions) (hmode : opts.mode = .tick)
    (hc : ∀ c ∈ w.passes, c.Spares (key target)) :
    Effect target o (dispatchEvents characters w opts target rows) (runTick characters w opts rows).rows
      (runTick characters w opts rows).notifications := by
  unfold dispatchEvents runTick
  rw [hmode]
  cases ha : w.archiveSnapshotsDir with
  | error e => exact .quiet h
  | ok root =>
    dsimp only
    cases hcreate : w.createDirectory with
    | some e => exact .quiet h
    | none =>
      dsimp only
      cases hdb : w.hasDb with
      | false => exact .quiet h
      | true =>
        cases hopen : w.openDb with
        | some e => exact .quiet h
        | none =>
          cases hdry : opts.dryRun with
          | true =>
            rw [if_neg (by simp)]
            simp only [if_true, if_false, rows_verifyAllSealed, Bool.not_true, Bool.and_false,
              Bool.true_eq_false, Bool.false_eq_true]
            exact .quiet h
          | false =>
            rw [if_pos (by simp [Except.isOk, Except.toBool])]
            have hpasses := rowIs_calls characters h w.passes hc
            have hverified := Effect.recorded characters (w := w) hpasses (sealedResults w)
            simp only [if_false, rows_verifyAllSealed, Bool.not_false, Bool.and_true, if_true,
              Bool.false_eq_true]
            refine ⟨?_, ?_⟩
            · rw [List.foldl_append]
              exact hverified.row
            · rw [reportsFrom_append, reportsFrom_found, Nat.zero_add]
              exact hverified.notified

theorem verifyAll_effect (h : RowIs (key target) o rows) (opts : CLIOptions) (hmode : opts.mode = .verifyAll) :
    Effect target o (dispatchEvents characters w opts target rows) (verifyAll characters w opts rows).rows
      (verifyAll characters w opts rows).notifications := by
  unfold dispatchEvents verifyAll
  rw [hmode]
  cases hopen : w.openDb with
  | some e => exact .quiet h
  | none =>
    dsimp only
    rw [rows_verifyAllSealed]
    cases hrecord : opts.record with
    | false => exact .quiet h
    | true =>
      cases hdry : opts.dryRun with
      | true => exact .recorded characters h []
      | false => exact .recorded characters h (sealedResults w)

theorem verifyOne_effect (h : RowIs (key target) o rows) (opts : CLIOptions) {arg : Text}
    (hmode : opts.mode = .verifyOne arg) :
    Effect target o (dispatchEvents characters w opts target rows)
      (verifyOne characters w (resolveTarget w arg) opts rows).rows
      (verifyOne characters w (resolveTarget w arg) opts rows).notifications := by
  unfold dispatchEvents verifyOne
  rw [hmode]
  dsimp only
  cases hdisk : w.disk (resolveTarget w arg) with
  | none => exact .quiet h
  | some dir =>
    cases hopen : w.openDb with
    | some e => exact .quiet h
    | none =>
      cases hrecord : opts.record with
      | false => exact .quiet h
      | true => exact .recorded characters h [(_, Verify.directory _ w.db _ dir)]

theorem clearError_effect (h : RowIs (key target) o rows) (opts : CLIOptions) {n : Int}
    (hmode : opts.mode = .clearError n) :
    Effect target o (dispatchEvents characters w opts target rows) (clearError w n rows).rows
      (clearError w n rows).notifications := by
  unfold dispatchEvents clearError
  rw [hmode]
  cases hopen : w.openDb with
  | some e => exact .quiet h
  | none =>
    cases hst : w.statement with
    | some e => exact .quiet h
    | none =>
      dsimp only [Option.orElse]
      by_cases hempty : fetchPending rows = []
      · rw [if_pos hempty, if_neg (by simp [hempty])]
        exact .quiet h
      · rw [if_neg hempty]
        by_cases hn : n < 1 ∨ n > (fetchPending rows).length
        · rw [if_pos hn, if_neg]
          · exact .quiet h
          · rintro ⟨-, -, h1, hk⟩
            obtain ⟨r, hr, -⟩ := Option.map_eq_some_iff.mp hk
            obtain ⟨hlt, -⟩ := List.getElem?_eq_some_iff.mp hr
            omega
        · rw [if_neg hn]
          have hlt : (n - 1).toNat < (fetchPending rows).length := by omega
          rw [List.getElem?_eq_getElem hlt]
          by_cases hk : ((fetchPending rows)[(n - 1).toNat]).key = key target
          · rw [if_pos ⟨rfl, rfl, by omega, congrArg some hk⟩]
            refine .deleted ?_
            dsimp only
            rw [hk]
            exact MoverErrors.rowIs_clear _ _
          · rw [if_neg fun hc => hk (Option.some.inj hc.2.2.2)]
            exact .quiet (h.filter_ne hk)

theorem showErrors_rows (w : World) (rows : List MoverError) :
    (showErrors w rows).rows = rows ∧ (showErrors w rows).notifications = [] := by
  unfold showErrors
  split
  · exact ⟨rfl, rfl⟩
  · dsimp only
    split <;> exact ⟨rfl, rfl⟩

theorem dispatch_effect (h : RowIs (key target) o rows) (opts : CLIOptions)
    (hc : ∀ c ∈ w.passes, c.Spares (key target)) :
    Effect target o (dispatchEvents characters w opts target rows) (dispatch characters w opts rows).rows
      (dispatch characters w opts rows).notifications := by
  unfold dispatch
  cases hmode : opts.mode with
  | tick => exact runTick_effect characters h opts hmode hc
  | verifyOne arg => exact verifyOne_effect characters h opts hmode
  | verifyAll => exact verifyAll_effect characters h opts hmode
  | showErrors =>
    have hnil : dispatchEvents characters w opts target rows = [] := by rw [dispatchEvents, hmode]
    dsimp only
    rw [hnil, (showErrors_rows w rows).1, (showErrors_rows w rows).2]
    exact .quiet h
  | clearErrors =>
    unfold dispatchEvents clearErrors
    rw [hmode]
    cases hopen : w.openDb with
    | some e => exact .quiet h
    | none =>
      cases hst : w.statement with
      | some e => exact .quiet h
      | none => exact .deleted rfl
  | clearError n => exact clearError_effect characters h opts hmode

end

/-! ## Runs -/

section
variable {database target : Text} {es : List Streaks.Event} {s : State}

structure Inv (database target : Text) (es : List Streaks.Event) (s : State) : Prop where
  row : RowIs (key target) (after es) (s.tables database)
  notified : s.notifications.countP (fun n => n.1 = some database ∧ n.2.key = key target) = reports es

theorem Inv.effect (h : Inv database target es s) {es' : List Streaks.Event} {rows : List MoverError}
    {notifications : List Notification} (he : Effect target (after es) es' rows notifications) :
    Inv database target (es ++ es')
      ⟨Function.update s.tables database rows,
        s.notifications ++ notifications.map (Prod.mk (some database))⟩ := by
  refine ⟨?_, ?_⟩
  · rw [after, List.foldl_append]
    dsimp only
    rw [Function.update_self]
    exact he.row
  · rw [List.countP_append, h.notified, List.countP_map, reports, reports, reportsFrom_append]
    congr 1
    rw [← after, ← he.notified]
    simp [Function.comp_def]

theorem Inv.elsewhere (h : Inv database target es s) {database' : Text} (hne : database' ≠ database)
    (rows : List MoverError) (notifications : List Notification) :
    Inv database target (es ++ [])
      ⟨Function.update s.tables database' rows,
        s.notifications ++ notifications.map (Prod.mk (some database'))⟩ := by
  rw [List.append_nil]
  refine ⟨?_, ?_⟩
  · dsimp only
    rw [Function.update_of_ne (Ne.symm hne)]
    exact h.row
  · rw [List.countP_append, h.notified, List.countP_map]
    simp [Function.comp_def, hne]

theorem Inv.next (h : Inv database target es s) {step : Step} (hspare : step.Spares database (key target)) :
    Inv database target (es ++ stepEvents characters database target s step) (s.next characters step) := by
  cases step with
  | other database' c =>
    by_cases hd : database' = database
    · subst hd
      have hcall := h.row.call characters (hspare rfl)
      have heffect : Effect target (after es)
          (stepEvents characters database' target s (.other database' c))
          (c.apply characters (s.tables database')) [] := by
        rw [stepEvents]
        by_cases hdel : c.deletes (key target) (s.tables database') = true
        · rw [if_pos ⟨rfl, hdel⟩]
          rw [if_pos hdel] at hcall
          exact .deleted hcall
        · rw [if_neg fun hc => hdel hc.2]
          rw [if_neg hdel] at hcall
          exact .quiet hcall
      have hnext := h.effect heffect
      rw [List.map_nil, List.append_nil s.notifications] at hnext
      exact hnext
    · have hnil := h.elsewhere hd (c.apply characters (s.tables database')) []
      rw [List.map_nil, List.append_nil s.notifications] at hnil
      rw [stepEvents, if_neg fun hc => hd hc.1]
      exact hnil
  | process world argv =>
    simp only [stepEvents, State.next, main, databaseOf]
    cases parseArgs argv with
    | error stop =>
      rw [List.append_nil]
      cases stop <;> exact ⟨h.row, by rw [List.map_nil, List.append_nil]; exact h.notified⟩
    | ok a =>
      dsimp only
      by_cases hd : (world a.env).database = database
      · rw [if_pos hd]
        subst hd
        exact h.effect (dispatch_effect characters h.row a.opts (hspare a.env rfl))
      · rw [if_neg hd]
        exact h.elsewhere hd _ _

theorem Inv.history (h : Inv database target es s) {steps : List Step}
    (hspare : ∀ step ∈ steps, step.Spares database (key target)) :
    Inv database target (es ++ BVLVerifier.history characters database target s steps)
      (steps.foldl (State.next characters) s) := by
  induction steps generalizing es s with
  | nil =>
    rw [BVLVerifier.history, List.append_nil]
    exact h
  | cons step steps ih =>
    rw [BVLVerifier.history, ← List.append_assoc]
    exact ih (h.next characters (hspare step (by simp))) fun step hm => hspare step (List.mem_cons_of_mem _ hm)

/-! ## No statement of escalate fails -/

theorem callVerdicts_true (k : Text) (rows : List MoverError) (calls : List MoverErrors.Call) :
    ∀ b ∈ callVerdicts characters k rows calls, b = true := by
  induction calls generalizing rows with
  | nil => nofun
  | cons c calls ih =>
    intro b hb
    rw [callVerdicts, List.mem_append] at hb
    rcases hb with hb | hb
    · split at hb
      · exact List.mem_singleton.mp hb
      · cases hb
    · exact ih _ b hb

section
variable {w : World}

theorem noted_recorded (h : Noted es)
    (hm : w.escalateIo.query = false ∧ w.escalateIo.update (key target) = false)
    {results : List (Text × Verify.VerifyResult)} {b : Bool} (hb : ∀ x ∈ verdictsOf w target results, x = b) :
    Noted (es ++ recordedEvents w target results) := by
  have hevents : w.escalateIo.events (key target) = [.reported true] := by
    simp [MoverErrors.EscalateIo.events, hm.1, hm.2]
  rw [recordedEvents, hevents]
  exact h.found hb

theorem noted_dispatch (h : Noted es)
    (hm : w.escalateIo.query = false ∧ w.escalateIo.update (key target) = false) (opts : CLIOptions)
    (rows : List MoverError) : Noted (es ++ dispatchEvents characters w opts target rows) := by
  have hquiet : Noted (es ++ []) := by rwa [List.append_nil]
  have hdeleted : Noted (es ++ [.found true]) := h.resolved (l := [true]) (by simp)
  obtain ⟨b, hb⟩ := agree w target
  unfold dispatchEvents
  cases opts.mode with
  | tick =>
    dsimp only
    split
    · rw [← List.append_assoc]
      exact noted_recorded (h.resolved (callVerdicts_true characters _ _ _)) hm hb
    · exact hquiet
  | verifyOne arg =>
    dsimp only
    split
    · rename_i dir _ _ _
      -- one result
      refine noted_recorded h hm (b :=
        (Verify.directory (w.verifyIo (resolveTarget w arg)) w.db (resolveTarget w arg) dir).isValid)
        fun x hx => ?_
      obtain ⟨r, hr, rfl⟩ := List.mem_map.mp hx
      rw [List.mem_singleton.mp (List.mem_filter.mp hr).1]
    · exact hquiet
  | verifyAll =>
    dsimp only
    split
    · cases opts.dryRun with
      | true => exact noted_recorded h hm (b := true) nofun
      | false => exact noted_recorded h hm hb
    · exact hquiet
  | showErrors => exact hquiet
  | clearErrors =>
    dsimp only
    split
    · exact hdeleted
    · exact hquiet
  | clearError n =>
    dsimp only
    split
    · exact hdeleted
    · exact hquiet

end

theorem noted_history (h : Noted es) {steps : List Step}
    (hm : ∀ step ∈ steps, step.Marks database (key target)) :
    Noted (es ++ BVLVerifier.history characters database target s steps) := by
  induction steps generalizing es s with
  | nil =>
    rw [BVLVerifier.history, List.append_nil]
    exact h
  | cons step steps ih =>
    rw [BVLVerifier.history, ← List.append_assoc]
    refine ih ?_ fun step hmem => hm step (List.mem_cons_of_mem _ hmem)
    have hquiet : Noted (es ++ []) := by rwa [List.append_nil]
    have hstep := hm step (by simp)
    cases step with
    | other database' c =>
      rw [stepEvents]
      split
      · exact h.resolved (l := [true]) (by simp)
      · exact hquiet
    | process world argv =>
      rw [stepEvents]
      split
      · exact hquiet
      · rename_i a _
        dsimp only
        split
        · rename_i hd
          exact noted_dispatch characters h (hstep a.env hd) a.opts _
        · exact hquiet

/-- **What the user is told of a directory.** Whatever processes of BVLVerifier run,
on whatever files and databases, with calls of the other tools in between: the
user is notified whenever `escalate` gets a row of the directory that is not
marked, and the row is there if and only if the directory failed when it was last
looked at. Where no statement of `escalate` throws, the user has been notified as
often as the directory began to fail. -/
theorem notified_per_streak (database target : Text) {steps : List Step}
    (hspare : ∀ step ∈ steps, step.Spares database (key target)) :
    let es := BVLVerifier.history characters database target State.created steps
    let s := run characters steps
    s.notifications.countP (fun n => n.1 = some database ∧ n.2.key = key target) = reports es ∧
      ((∃ r ∈ s.tables database, r.key = key target) ↔ fails (outcomes es) = true) ∧
      ((∀ step ∈ steps, step.Marks database (key target)) → reports es = count (outcomes es)) := by
  have hinit : Inv database target [] State.created := ⟨rfl, rfl⟩
  have h := hinit.history characters hspare
  rw [List.nil_append] at h
  refine ⟨h.notified, ?_, fun hm => ?_⟩
  · rw [← after_isSome]
    exact h.row.isSome_iff
  · exact (noted_history characters .empty hm).reports

/-! ## A run -/

def flakyTarget : Text := ascii "/a/2026-01-01"

/-- One date is sealed; its directory is as given, and updates of `escalate` throw or not. -/
def flakyWorld (dir : Folder) (fails : Bool) : World where
  archiveSnapshotsDir := .ok (ascii "/a")
  createDirectory := none
  dbFile := ascii "/db"
  database := ascii "/db"
  hasDb := true
  openDb := none
  passes := []
  db := { Db.empty [] with snapshots := [(ascii "2026-01-01", 1)] }
  disk := fun path => if path = flakyTarget then some dir else none
  verifyIo := fun _ => {}
  querySealed := none
  writeFails := fun _ => false
  statement := none
  escalateIo := { update := fun _ => fails }
  now := ascii "2026-01-02T00:00:00Z"
  threshold := 3

def intact : Folder :=
  (AList.singleton (ascii "MANIFEST.tsv") (Node.file 0o444 (joinTabs Seal.manifestHeader ++ [nl]))).insert
    (logFilename (ascii "2026-01-01")) (.file 0o444 [])

/-- Two ticks without the manifest, one with it, and one without it again; in the first, updates
throw or not. -/
def flakySteps (fails : Bool) : List Step :=
  [(∅, fails), (∅, false), (intact, false), (∅, false)].map fun x => .process (fun _ => flakyWorld x.1 x.2) []

theorem notified_per_streak_flaky :
    let told := fun fails => (run (fun t => t.map fun b => [b]) (flakySteps fails)).notifications.countP
      fun n => n.1 = some (ascii "/db") ∧ n.2.key = key flakyTarget
    told true = 3 ∧ told false = 2 ∧
      ∃ r ∈ (run (fun t => t.map fun b => [b]) (flakySteps false)).tables (ascii "/db"),
        r.key = key flakyTarget := by
  have hspare : ∀ fails, ∀ step ∈ flakySteps fails, step.Spares (ascii "/db") (key flakyTarget) := by
    intro fails step hstep
    obtain ⟨x, -, rfl⟩ := List.mem_map.mp hstep
    exact fun _ _ _ hc => absurd hc List.not_mem_nil
  have hmarks : ∀ step ∈ flakySteps false, step.Marks (ascii "/db") (key flakyTarget) := by
    simp [flakySteps, Step.Marks, flakyWorld]
  have hfaulty : history (fun t => t.map fun b => [b]) (ascii "/db") flakyTarget State.created
      (flakySteps true) = [.found false, .reported false, .found false, .reported true,
        .found true, .reported true, .found false, .reported true] := by
    decide +kernel
  have hfaultless : outcomes (history (fun t => t.map fun b => [b]) (ascii "/db") flakyTarget State.created
      (flakySteps false)) = [false, false, true, false] := by
    decide +kernel
  obtain ⟨hthree, -, -⟩ :=
    notified_per_streak (fun t => t.map fun b => [b]) (ascii "/db") flakyTarget (hspare true)
  obtain ⟨htwo, hrow, hcount⟩ :=
    notified_per_streak (fun t => t.map fun b => [b]) (ascii "/db") flakyTarget (hspare false)
  rw [hfaulty] at hthree
  rw [hcount hmarks, hfaultless] at htwo
  rw [hfaultless] at hrow
  exact ⟨hthree, htwo, hrow.mpr rfl⟩

end

end BVLVerifier

end VisitLogger
