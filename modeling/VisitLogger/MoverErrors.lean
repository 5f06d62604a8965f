import VisitLogger.Host
import VisitLogger.Seal

/-!
# The failures that are not resolved yet

`mover_errors` has a row for each operation and target that failed. The Swift
tools, `snapshot_mover` and `sync_client` record and clear failures in it, and
`escalate` notifies the user. A row is what its key's failures since the last
clear make of it (`row_of_failures`).
-/

namespace VisitLogger

open SnapshotMover (MoverError Errno Exc)

/-- A text without NUL, as operations, paths and endpoints are. SQLite gets all of it. -/
structure CText where
  text : Text
  noNul : (0 : Byte) ∉ text

namespace SyncClient

def recordError (now operation target message : Text) (immediate : Bool) (rows : List MoverError) :
    List MoverError :=
  let key := operation ++ ascii "|" ++ target
  let immediate := if immediate then 1 else 0
  if Table.has MoverError.key key rows then
    (Table.updateWhere (fun r => r.key = key)
      (fun r => { r with
        message, lastSeen := now, attempts := r.attempts + 1, immediate := max r.immediate immediate }) rows).1
  else rows ++ [⟨key, operation, target, message, now, now, 1, 0, immediate⟩]

def clearError (operation target : Text) (rows : List MoverError) : List MoverError :=
  rows.filter fun r => r.key ≠ operation ++ ascii "|" ++ target

end SyncClient

namespace SnapshotMover

def clearError (op target : Text) (rows : List MoverError) : List MoverError :=
  rows.filter fun r => r.key ≠ op ++ ascii ":" ++ target

end SnapshotMover

namespace MoverErrors

/-! ## The Swift writer -/

def immediateOps : List Text :=
  [ascii "top_level", ascii "rewrite_manifest", ascii "invalid_filename", ascii "orphan_file",
    ascii "manifest_invalid"]

/-- An error as interpolation shows it; `posix` is its code if it is in `NSPOSIXErrorDomain`. -/
structure SwiftError where
  posix : Option Errno
  description : Text
  deriving DecidableEq, Repr

def isImmediate (op : Text) (error : SwiftError) : Bool :=
  immediateOps.contains op || match error.posix with
    | some errno => errno ≠ .other
    | none => false

/-- `characters` divides a text into Swift's Characters, of which `prefix` counts. -/
def record (characters : Text → List Text) (now op target : Text) (error : SwiftError)
    (rows : List MoverError) :
    List MoverError :=
  let key := op ++ ascii ":" ++ target
  let message := BVLHost.cString ((characters (tsvSanitise error.description)).take 500).flatten
  let immediate := if isImmediate op error then 1 else 0
  if Table.has MoverError.key key rows then
    (Table.updateWhere (fun r => r.key = key)
      (fun r => { r with
        attempts := r.attempts + 1, lastSeen := now, message, immediate := max r.immediate immediate }) rows).1
  else rows ++ [⟨key, op, target, message, now, now, 1, 0, immediate⟩]

def clear (op target : Text) (rows : List MoverError) : List MoverError :=
  rows.filter fun r => r.key ≠ op ++ ascii ":" ++ target

/-! ## Escalating -/

def times : Text := [0xC3, 0x97]

def fixHints : List (Text × Text) :=
  [(ascii "move", ascii "Check that the iCloud destination is writable and has free " ++
      ascii "space, then wait for the next mover run."),
    (ascii "seal", ascii "Check the iCloud destination, then wait for the next mover run " ++ emDash ++
      ascii " the seal pass retries every tick until it succeeds."),
    (ascii "rewrite_manifest", ascii "Run `snapshot_sealer.py <date>` to rebuild the manifest, " ++
      ascii "then `verify_snapshot_directory --clear-error N` to clear this row."),
    (ascii "invalid_filename", ascii "Rename the file to match '<YYYY-MM-DDTHH-MM-SSZ>-<hash>.<ext>' or remove it; the " ++
      ascii "row clears on the next mover run."),
    (ascii "orphan_file", ascii "Snapshot file has no matching events row.  Either delete the file, or re-tag its " ++
      ascii "URL via the popup to recreate the row; either way clears on the next mover run."),
    (ascii "missing_directory", ascii "Re-create the directory, OR remove the snapshots row " ++
      ascii "(`sqlite3 <db> \"DELETE FROM snapshots WHERE date='<YYYY-MM-DD>'\"`)."),
    (ascii "top_level", ascii "Check ~/browser-visits-verifier.log for the traceback, then " ++
      ascii "`verify_snapshot_directory --clear-errors` once the bug is fixed."),
    (ascii "manifest_invalid", ascii "Re-seal the directory: delete MANIFEST.tsv and run `snapshot_sealer.py <date>`, " ++
      ascii "then `verify_snapshot_directory --clear-error N` to clear this row.")]

structure Notification where
  key : Text
  title : Text
  body : Text
  deriving DecidableEq, Repr

def notification (r : MoverError) : Notification :=
  let message := BVLHost.cString r.message
  let body :=
    if r.operation = ascii "top_level" then ascii "Mover crashed: " ++ message
    else
      let target := if r.target = [] then ascii "(no target)" else r.target
      r.operation ++ ascii " failed " ++ ascii (toString r.attempts) ++ times ++ ascii " since " ++
        r.firstSeen ++
        ascii ": " ++ target ++ ascii " " ++ emDash ++ ascii " " ++ message
  ⟨r.key, ascii "Browser Visit Logger: mover error",
    match fixHints.lookup r.operation with
    | some hint => body ++ ascii "  Fix: " ++ hint
    | none => body⟩

/-- `ORDER BY first_seen ASC, key ASC` -/
def rowBefore (a b : MoverError) : Prop := a.firstSeen < b.firstSeen ∨ a.firstSeen = b.firstSeen ∧ a.key ≤ b.key

instance : DecidableRel rowBefore := fun _ _ => inferInstanceAs (Decidable (_ ∨ _))

/-- The `WHERE` of the query. -/
def Due (threshold : Int) (r : MoverError) : Prop := r.notified = 0 ∧ (r.immediate = 1 ∨ threshold ≤ r.attempts)

instance (threshold : Int) : DecidablePred (Due threshold) := fun _ => inferInstanceAs (Decidable (_ ∧ _))

def due (threshold : Int) (rows : List MoverError) : List MoverError :=
  (rows.filter (Due threshold)).insertionSort rowBefore

def told (r : MoverError) : MoverError := { r with notified := 1 }

/-- `UPDATE mover_errors SET notified = 1 WHERE key = ?` -/
def markNotified (key : Text) (rows : List MoverError) : List MoverError :=
  (Table.updateWhere (fun r => r.key = key) told rows).1

/-- The statements of `escalate` that throw: the query, and the update of a key. -/
structure EscalateIo where
  query : Bool := false
  update : Text → Bool := fun _ => false

/-- The loop of `escalate` over the rows it has got. -/
def markAll (io : EscalateIo) (pending rows : List MoverError) : List MoverError :=
  pending.foldl (fun rows r => if io.update r.key then rows else markNotified r.key rows) rows

/-- Next to the rows that are left, what the user is notified of. -/
def escalate (io : EscalateIo) (threshold : Int) (rows : List MoverError) :
    List MoverError × List Notification :=
  if io.query then (rows, [])
  else
    let pending := due threshold rows
    -- a row whose update fails has been shown to the user all the same
    (markAll io pending rows, pending.map notification)

/-! ## Histories -/

structure Failure where
  key : Text
  operation : Text
  target : Text
  message : Text
  now : Text
  immediate : Bool
  deriving DecidableEq, Repr

inductive Event where
  | recorded (f : Failure)
  | cleared (key : Text)
  | notified (n : Notification)
  deriving DecidableEq, Repr

/-- The statements of these calls succeed. -/
inductive Call where
  | record (now : Text) (op target : CText) (error : SwiftError)
  | clear (op target : CText)
  | moverRecord (now : Text) (op target : CText) (exc : Exc)
  | moverClear (op target : CText)
  | syncRecord (now : Text) (operation target : CText) (message : Text) (immediate : Bool)
  | syncClear (operation target : CText)
  /-- Any other `DELETE`: `--clear-errors`, `--clear-error N`, or a reconciliation. -/
  | delete (doomed : MoverError → Bool)
  | escalate (threshold : Int)

section
variable (characters : Text → List Text)

def Call.apply (rows : List MoverError) : Call → List MoverError
  | .record now op target error => MoverErrors.record characters now op.text target.text error rows
  | .clear op target => MoverErrors.clear op.text target.text rows
  | .moverRecord now op target exc => SnapshotMover.recordError now op.text target.text exc rows
  | .moverClear op target => SnapshotMover.clearError op.text target.text rows
  | .syncRecord now operation target message immediate =>
    SyncClient.recordError now operation.text target.text message immediate rows
  | .syncClear operation target => SyncClient.clearError operation.text target.text rows
  | .delete doomed => rows.filter fun r => !doomed r
  | .escalate threshold => (MoverErrors.escalate {} threshold rows).1

def Call.events (rows : List MoverError) : Call → List Event
  | .record now op target error =>
    [.recorded ⟨op.text ++ ascii ":" ++ target.text, op.text, target.text,
      BVLHost.cString ((characters (tsvSanitise error.description)).take 500).flatten, now,
        isImmediate op.text error⟩]
  | .moverRecord now op target exc =>
    [.recorded ⟨op.text ++ ascii ":" ++ target.text, op.text, target.text,
      SnapshotMover.takeRunes 500 (SnapshotMover.tsvSanitise exc.text), now,
        SnapshotMover.isImmediate op.text exc⟩]
  | .syncRecord now operation target message immediate =>
    [.recorded ⟨operation.text ++ ascii "|" ++ target.text, operation.text, target.text, message, now,
      immediate⟩]
  | .clear op target | .moverClear op target => [.cleared (op.text ++ ascii ":" ++ target.text)]
  | .syncClear operation target => [.cleared (operation.text ++ ascii "|" ++ target.text)]
  | .delete doomed => (rows.filter doomed).map fun r => .cleared r.key
  | .escalate threshold => (MoverErrors.escalate {} threshold rows).2.map .notified

structure State where
  rows : List MoverError
  events : List Event

def run (calls : List Call) : State := calls.foldl
  (fun s c => ⟨c.apply characters s.rows, s.events ++ c.events characters s.rows⟩) ⟨[], []⟩

end

/-! ## Since the last clear -/

def sinceClear (k : Text) (es : List Event) : List Event :=
  es.foldl (fun since e => if e = .cleared k then [] else since ++ [e]) []

def Event.failure (k : Text) : Event → Option Failure
  | .recorded f => if f.key = k then some f else none
  | _ => none

def Event.notifies (k : Text) : Event → Bool
  | .notified n => n.key = k
  | _ => false

def failures (k : Text) (es : List Event) : List Failure := (sinceClear k es).filterMap (Event.failure k)

def timesNotified (k : Text) (es : List Event) : Nat := (sinceClear k es).countP (Event.notifies k)

def rowOf (k : Text) (n : Nat) : List Failure → List MoverError
  | [] => []
  | f :: fs =>
    let last := fs.getLastD f
    [⟨k, f.operation, f.target, last.message, f.now, last.now, fs.length + 1, n,
      if (f :: fs).any Failure.immediate then 1 else 0⟩]

theorem sinceClear_snoc (k : Text) (es : List Event) (e : Event) :
    sinceClear k (es ++ [e]) = if e = .cleared k then [] else sinceClear k es ++ [e] := by
  simp only [sinceClear, List.foldl_append, List.foldl_cons, List.foldl_nil]

theorem failures_snoc (k : Text) (es : List Event) (e : Event) :
    failures k (es ++ [e]) = if e = .cleared k then [] else failures k es ++ (e.failure k).toList := by
  unfold failures
  rw [sinceClear_snoc]
  split
  · rfl
  · rw [List.filterMap_append]
    cases h : e.failure k <;> simp [h]

theorem timesNotified_snoc (k : Text) (es : List Event) (e : Event) :
    timesNotified k (es ++ [e]) =
      if e = .cleared k then 0 else timesNotified k es + if e.notifies k then 1 else 0 := by
  unfold timesNotified
  rw [sinceClear_snoc]
  split
  · rfl
  · rw [List.countP_append, List.countP_singleton]

/-- What the statement of all writers does to a row that is there. -/
def again (f : Failure) (r : MoverError) : MoverError :=
  { r with
    attempts := r.attempts + 1, lastSeen := f.now, message := f.message,
    immediate := max r.immediate (if f.immediate then 1 else 0) }

theorem rowOf_snoc (k : Text) (n : Nat) (fs : List Failure) (f : Failure) :
    rowOf k n (fs ++ [f]) = match rowOf k n fs with
      | [] => [⟨k, f.operation, f.target, f.message, f.now, f.now, 1, n, if f.immediate then 1 else 0⟩]
      | rows => rows.map (again f) := by
  cases fs with
  | nil => cases h : f.immediate <;> simp [rowOf, h]
  | cons g gs =>
    have hmax : ∀ a b : Bool, (if (a || b) = true then 1 else 0) =
      max (if a = true then 1 else 0) (if b = true then 1 else 0) := by
      decide
    simp only [rowOf, again, List.cons_append, List.getLastD_concat, List.length_append,
      List.length_singleton, List.map_cons, List.map_nil, List.any_cons, List.any_append, List.any_nil,
        Bool.or_false]
    rw [← Bool.or_assoc, hmax (g.immediate || _)]
    rfl

/-! ## One event -/

/-- `INSERT INTO mover_errors ... ON CONFLICT(key) DO UPDATE`, the statement of all writers. -/
def upsert (f : Failure) (rows : List MoverError) : List MoverError :=
  if Table.has MoverError.key f.key rows then
    (Table.updateWhere (fun r => r.key = f.key) (again f) rows).1
  else rows ++ [⟨f.key, f.operation, f.target, f.message, f.now, f.now, 1, 0, if f.immediate then 1 else 0⟩]

def Event.apply (rows : List MoverError) : Event → List MoverError
  | .recorded f => upsert f rows
  | .cleared k => rows.filter fun r => r.key ≠ k
  | .notified n => markNotified n.key rows

theorem filter_updateWhere (k k' : Text) (g : MoverError → MoverError) (hg : ∀ r, (g r).key = r.key)
    (rows : List MoverError) :
    (Table.updateWhere (fun r => r.key = k') g rows).1.filter (fun r => r.key = k) =
      (rows.filter fun r => r.key = k).map fun r => if k = k' then g r else r := by
  simp only [Table.updateWhere, List.filter_map]
  have hkey : (fun r : MoverError => decide ((if r.key = k' then g r else r).key = k)) = fun r =>
    decide (r.key = k) := by
    funext r
    split <;> simp [hg]
  simp only [Function.comp_def, decide_eq_true_eq, hkey]
  refine List.map_congr_left fun r hr => ?_
  have hr : r.key = k := by simpa using (List.mem_filter.mp hr).2
  rw [hr]

theorem has_key_iff (k : Text) (rows : List MoverError) :
    Table.has MoverError.key k rows = true ↔ (rows.filter fun r => r.key = k) ≠ [] := by
  simp [Table.has]

/-- The rows are what the events since each key's last clear make of them. -/
structure Tallied (es : List Event) (rows : List MoverError) : Prop where
  row : ∀ k, rows.filter (fun r => r.key = k) = rowOf k (timesNotified k es) (failures k es)
  once : ∀ k, timesNotified k es ≤ 1
  unknown : ∀ k, failures k es = [] → timesNotified k es = 0

namespace Tallied

theorem empty : Tallied [] [] := ⟨fun _ => rfl, fun _ => Nat.zero_le 1, fun _ _ => rfl⟩

variable {es : List Event} {rows : List MoverError}

theorem recorded (h : Tallied es rows) (f : Failure) : Tallied (es ++ [.recorded f]) (upsert f rows) := by
  have htimes : ∀ k, timesNotified k (es ++ [.recorded f]) = timesNotified k es := by
    intro k
    rw [timesNotified_snoc, if_neg nofun]
    rfl
  have hfail : ∀ k, failures k (es ++ [.recorded f]) = failures k es ++ if f.key = k then [f] else [] := by
    intro k
    rw [failures_snoc, if_neg nofun]
    by_cases hk : f.key = k <;> simp [Event.failure, hk]
  refine ⟨fun k => ?_, fun k => by rw [htimes]; exact h.once k, fun k hn => ?_⟩
  · rw [htimes, hfail]
    by_cases hk : f.key = k
    · subst hk
      have hrow := h.row f.key
      rw [if_pos rfl, rowOf_snoc, ← hrow]
      cases hf : rows.filter fun r => r.key = f.key with
      | nil =>
        have hnone : failures f.key es = [] := by
          cases hfs : failures f.key es with
          | nil => rfl
          | cons g gs => rw [hf, hfs] at hrow; cases hrow
        rw [upsert, if_neg ((has_key_iff _ _).not.mpr (not_not.mpr hf)), List.filter_append, hf,
          h.unknown _ hnone]
        simp
      | cons r rs =>
        rw [upsert, if_pos ((has_key_iff _ _).mpr (by rw [hf]; exact List.cons_ne_nil _ _)),
          filter_updateWhere _ _ (again f) fun _ => rfl, hf]
        simp
    · rw [if_neg hk, List.append_nil, ← h.row]
      unfold upsert
      split
      · rw [filter_updateWhere _ _ (again f) fun _ => rfl]
        simp [Ne.symm hk]
      · rw [List.filter_append]
        simp [hk]
  · rw [hfail] at hn
    rw [htimes]
    exact h.unknown k (List.append_eq_nil_iff.mp hn).1

theorem cleared (h : Tallied es rows) (k : Text) :
    Tallied (es ++ [.cleared k]) (rows.filter fun r => r.key ≠ k) := by
  have htimes : ∀ k', timesNotified k' (es ++ [.cleared k]) = if k' = k then 0 else timesNotified k' es := by
    intro k'
    rw [timesNotified_snoc]
    by_cases hk : k = k' <;> simp [hk, eq_comm, Event.notifies]
  have hfail : ∀ k', failures k' (es ++ [.cleared k]) = if k' = k then [] else failures k' es := by
    intro k'
    rw [failures_snoc]
    by_cases hk : k = k' <;> simp [hk, eq_comm, Event.failure]
  refine ⟨fun k' => ?_, fun k' => ?_, fun k' hn => ?_⟩
  · rw [htimes, hfail, List.filter_filter]
    by_cases hk : k' = k
    · subst hk
      simp [rowOf]
    · rw [if_neg hk, if_neg hk, ← h.row]
      refine List.filter_congr fun r _ => ?_
      by_cases hr : r.key = k' <;> simp [hr, hk]
  · rw [htimes]
    split
    · exact Nat.zero_le 1
    · exact h.once k'
  · rw [hfail] at hn
    rw [htimes]
    split
    · rfl
    · rename_i hk
      rw [if_neg hk] at hn
      exact h.unknown k' hn

/-- A row that is not yet notified. -/
theorem notified (h : Tallied es rows) {n : Notification} {r : MoverError} (hr : r ∈ rows) (hk : r.key = n.key)
    (h0 : r.notified = 0) : Tallied (es ++ [.notified n]) (markNotified n.key rows) := by
  have htimes : ∀ k, timesNotified k (es ++ [.notified n]) =
      timesNotified k es + if n.key = k then 1 else 0 := by
    intro k
    rw [timesNotified_snoc, if_neg nofun]
    simp [Event.notifies]
  have hfail : ∀ k, failures k (es ++ [.notified n]) = failures k es := by
    intro k
    rw [failures_snoc, if_neg nofun]
    simp [Event.failure]
  have hmem : r ∈ rowOf n.key (timesNotified n.key es) (failures n.key es) := by
    rw [← h.row]
    exact List.mem_filter.mpr ⟨hr, by simpa using hk⟩
  have hzero : timesNotified n.key es = 0 := by
    cases hfs : failures n.key es with
    | nil => exact h.unknown _ hfs
    | cons f fs =>
      rw [hfs, rowOf, List.mem_singleton] at hmem
      rw [← h0, hmem]
  refine ⟨fun k => ?_, fun k => ?_, fun k hn => ?_⟩
  · rw [htimes, hfail, markNotified, filter_updateWhere _ _ told fun _ => rfl, h.row]
    by_cases hk' : n.key = k
    · subst hk'
      rw [hzero]
      cases failures n.key es with
      | nil => rfl
      | cons f fs => simp [rowOf, told]
    · simp [hk', Ne.symm hk']
  · rw [htimes]
    split
    · rename_i e
      rw [← e, hzero]
    · exact h.once k
  · rw [hfail] at hn
    rw [htimes, h.unknown k hn, if_neg]
    rintro rfl
    rw [hn] at hmem
    cases hmem

theorem nodup (h : Tallied es rows) : (rows.map MoverError.key).Nodup := by
  rw [List.nodup_iff_count_le_one]
  intro k
  have hcount : (rows.map MoverError.key).count k = (rows.filter fun r => r.key = k).length := by
    rw [List.count, List.countP_map, List.countP_eq_length_filter]
    congr 2
    funext r
    exact beq_eq_decide _ _
  rw [hcount, h.row]
  cases failures k es with
  | nil => exact Nat.zero_le 1
  | cons f fs => exact Nat.le_refl 1

theorem clearedAll (h : Tallied es rows) (ks : List Text) :
    Tallied (es ++ ks.map .cleared) (rows.filter fun r => r.key ∉ ks) := by
  induction ks generalizing es rows with
  | nil => simpa using h
  | cons k ks ih =>
    have h := ih (h.cleared k)
    rw [List.filter_filter] at h
    rw [List.map_cons, List.append_cons]
    convert h using 3
    rename_i r
    by_cases hr : r.key = k <;> simp [hr]

theorem notifiedAll (h : Tallied es rows) {rs : List MoverError} (hr : ∀ r ∈ rs, r ∈ rows ∧ r.notified = 0)
    (hn : (rs.map MoverError.key).Nodup) :
    Tallied (es ++ (rs.map notification).map .notified)
      (markAll {} rs rows) := by
  induction rs generalizing es rows with
  | nil => simpa [markAll] using h
  | cons r rs ih =>
    rw [List.map_cons, List.nodup_cons] at hn
    obtain ⟨hmem, h0⟩ := hr r (by simp)
    rw [List.map_cons, List.map_cons, List.append_cons]
    refine ih (h.notified hmem rfl h0) (fun q hq => ?_) hn.2
    have hne : q.key ≠ r.key := fun e => hn.1 (e ▸ List.mem_map_of_mem hq)
    obtain ⟨hq, hq0⟩ := hr q (List.mem_cons_of_mem _ hq)
    refine ⟨List.mem_map.mpr ⟨q, hq, ?_⟩, hq0⟩
    simp [hne]

end Tallied

/-! ## Calls -/

theorem due_perm (threshold : Int) (rows : List MoverError) :
    (due threshold rows).Perm (rows.filter (Due threshold)) :=
  List.perm_insertionSort _ _

theorem mem_due {threshold : Int} {rows : List MoverError} {r : MoverError} :
    r ∈ due threshold rows ↔ r ∈ rows ∧ Due threshold r := by
  rw [(due_perm threshold rows).mem_iff, List.mem_filter, decide_eq_true_eq]

section
variable (characters : Text → List Text)

theorem Tallied.call {es : List Event} {rows : List MoverError} (h : Tallied es rows) (c : Call) :
    Tallied (es ++ c.events characters rows) (c.apply characters rows) := by
  cases c with
  | record now op target error => exact h.recorded _
  | moverRecord now op target exc => exact h.recorded _
  | syncRecord now operation target message immediate => exact h.recorded _
  | clear op target => exact h.cleared _
  | moverClear op target => exact h.cleared _
  | syncClear operation target => exact h.cleared _
  | delete doomed =>
    have hkeep : (rows.filter fun r => !doomed r) =
        rows.filter fun r => r.key ∉ (rows.filter doomed).map MoverError.key := by
      refine List.filter_congr fun r hr => ?_
      have hiff : r.key ∈ (rows.filter doomed).map MoverError.key ↔ doomed r = true := by
        constructor
        · intro hk
          obtain ⟨q, hq, he⟩ := List.mem_map.mp hk
          obtain ⟨hq, hd⟩ := List.mem_filter.mp hq
          exact List.inj_on_of_nodup_map h.nodup hq hr he ▸ hd
        · intro hd
          exact List.mem_map_of_mem (List.mem_filter.mpr ⟨hr, hd⟩)
      simp [hiff]
    have h := h.clearedAll ((rows.filter doomed).map MoverError.key)
    rw [List.map_map] at h
    rw [Call.apply, hkeep]
    exact h
  | escalate threshold =>
    refine h.notifiedAll (fun r hr => ?_) ?_
    · obtain ⟨hr, h0, -⟩ := mem_due.mp hr
      exact ⟨hr, h0⟩
    · rw [((due_perm threshold rows).map MoverError.key).nodup_iff]
      exact h.nodup.sublist (List.filter_sublist.map _)

theorem run_tallied (calls : List Call) :
    Tallied (run characters calls).events (run characters calls).rows := by
  induction calls using List.reverseRecOn with
  | nil => exact Tallied.empty
  | append_singleton calls c ih =>
    simp only [run, List.foldl_append, List.foldl_cons, List.foldl_nil]
    exact ih.call characters c

/-- **A row is what its key's failures since the last clear make of it**: the
number of them, whether one was immediate, the time of the first. The user has
been notified of them at most once, and `escalate` does it when the row is due. -/
theorem row_of_failures (calls : List Call) (k : Text) :
    let s := run characters calls
    s.rows.filter (fun r => r.key = k) = rowOf k (timesNotified k s.events) (failures k s.events) ∧
      timesNotified k s.events ≤ 1 ∧
      ∀ threshold, k ∈ (escalate {} threshold s.rows).2.map Notification.key ↔
        ∃ r ∈ s.rows, r.key = k ∧ r.notified = 0 ∧ (r.immediate = 1 ∨ threshold ≤ r.attempts) := by
  have h := run_tallied characters calls
  refine ⟨h.row k, h.once k, fun threshold => ?_⟩
  rw [escalate, if_neg Bool.false_ne_true, List.map_map, List.mem_map]
  constructor
  · rintro ⟨r, hr, hk⟩
    obtain ⟨hr, hdue⟩ := mem_due.mp hr
    exact ⟨r, hr, hk, hdue⟩
  · rintro ⟨r, hr, hk, hdue⟩
    exact ⟨r, mem_due.mpr ⟨hr, hdue⟩, hk⟩

end

end MoverErrors

end VisitLogger
