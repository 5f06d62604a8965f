import VisitLogger.Auth
import VisitLogger.DbDiff

/-!
# A copy of the VM's database

`fetch_vm_snapshot.py` writes the chunks of `ExportDbSnapshot` to a file, for
`db_diff.py` to compare with the database of a laptop.
-/

namespace VisitLogger

/-! ## fetch_vm_snapshot.py -/

namespace VmSnapshot

open Server (ExportDbSnapshotRequest ExportError ExportIo exportDbSnapshot sendSnapshot snapshotChunkSize)

structure Args where
  server : String
  machineId : Text
  clientCert : String
  clientKey : String
  ca : String
  out : String
  insecure : Bool
  deriving DecidableEq, Repr

structure Credentials where
  rootCertificates : Text
  privateKey : Text
  certificateChain : Text
  deriving DecidableEq, Repr

abbrev Files := String → Option Text

/-- What comes of a call: the chunks that are received, and how the stream ends. -/
structure Call (ε : Type*) where
  chunks : List Text
  status : Except ε Unit

inductive Exit (ε : Type*) where
  | notFound (path : String)
  | rpcError (e : ε)
  | wrote (written : Nat)
  deriving DecidableEq, Repr

def readFile (files : Files) (path : String) : Except String Text :=
  match files path with
  | some data => .ok data
  | none => .error path

def credentials (files : Files) (args : Args) : Except String (Option Credentials) :=
  if args.insecure then .ok none
  else
    match readFile files args.clientCert, readFile files args.clientKey, readFile files args.ca with
    | .error p, _, _ => .error p
    | .ok _, .error p, _ => .error p
    | .ok _, .ok _, .error p => .error p
    | .ok cert, .ok key, .ok ca => .ok (some ⟨ca, key, cert⟩)

def store (files : Files) (path : String) (data : Text) : Files := Function.update files path (some data)

def receive (out : String) (acc : Files × Nat) (data : Text) : Files × Nat :=
  (store acc.1 out ((acc.1 out).getD [] ++ data), acc.2 + data.length)

/-- `out` is opened, and so emptied, before the call is made. -/
def main {ε : Type*} (stub : String → Option Credentials → ExportDbSnapshotRequest → Call ε)
    (writable : String → Bool) (files : Files) (args : Args) : Files × Exit ε :=
  match credentials files args with
  | .error path => (files, .notFound path)
  | .ok creds =>
    if !writable args.out then (files, .notFound args.out)
    else
      let call := stub args.server creds ⟨args.machineId⟩
      let r := call.chunks.foldl (receive args.out) (store files args.out [], 0)
      match call.status with
      | .error e => (r.1, .rpcError e)
      | .ok () => (r.1, .wrote r.2)

/-! ### What is written -/

/-- A stream that ends well is whole; one that breaks off has some of the chunks. -/
def Arrives {ε : Type*} (sent : List Text × Except ExportError Unit) (call : Call ε) : Prop :=
  call.chunks <+: sent.1 ∧ (call.status = .ok () → call.chunks = sent.1 ∧ sent.2 = .ok ())

theorem receive_chunks (out : String) (chunks : List Text) (files : Files) (data : Text) (n : Nat) :
    chunks.foldl (receive out) (store files out data, n) =
      (store files out (data ++ chunks.flatten), n + chunks.flatten.length) := by
  induction chunks generalizing data n with
  | nil => simp
  | cons c chunks ih =>
    have hstep : receive out (store files out data, n) c = (store files out (data ++ c), n + c.length) := by
      simp [receive, store]
    rw [List.foldl_cons, hstep, ih, List.flatten_cons, List.append_assoc, List.length_append, Nat.add_assoc]

theorem flatten_toChunks_go {α : Type*} (n : Nat) (xs : List α) (acc₁ : Array α) (acc₂ : Array (List α)) :
    (List.toChunks.go n xs acc₁ acc₂).flatten = acc₂.toList.flatten ++ (acc₁.toList ++ xs) := by
  induction xs generalizing acc₁ acc₂ with
  | nil => simp [List.toChunks.go]
  | cons x xs ih =>
    rw [List.toChunks.go]
    split <;> simp [ih]

theorem flatten_toChunks {α : Type*} (n : Nat) (xs : List α) : (xs.toChunks n).flatten = xs := by
  cases xs with
  | nil => simp [List.toChunks]
  | cons x xs =>
    cases n with
    | zero => simp [List.toChunks]
    | succ n => simp [List.toChunks, flatten_toChunks_go]

theorem sendSnapshot_sent (io : ExportIo) (sent rest : List Text) :
    (sendSnapshot io sent rest).1 <+: sent ++ rest ∧
      ((sendSnapshot io sent rest).2 = .ok () → (sendSnapshot io sent rest).1 = sent ++ rest) := by
  induction rest generalizing sent with
  | nil =>
    rw [sendSnapshot]
    split <;> simp
  | cons data rest ih =>
    rw [sendSnapshot]
    split
    · simp
    · split
      · simp
      · simpa using ih (sent ++ [data])

/-- **What is sent is the snapshot**, or the start of it when the export fails. -/
theorem exportDbSnapshot_sent {io : ExportIo} {db : Db} {id : Option Text} {req : ExportDbSnapshotRequest}
    {snapshot : Text} (hs : io.vacuum db = .ok snapshot) :
    (exportDbSnapshot io db id req).1.flatten <+: snapshot ∧
      ((exportDbSnapshot io db id req).2 = .ok () → (exportDbSnapshot io db id req).1.flatten = snapshot) := by
  unfold exportDbSnapshot
  rw [hs]
  split
  · simp
  · split
    · simp
    · dsimp only
      split
      · simp
      · obtain ⟨⟨rest, hrest⟩, hall⟩ := sendSnapshot_sent io [] (snapshot.toChunks snapshotChunkSize)
        rw [List.nil_append] at hrest hall
        constructor
        · refine ⟨rest.flatten, ?_⟩
          rw [← List.flatten_append, hrest, flatten_toChunks]
        · intro hok
          rw [hall hok, flatten_toChunks]

theorem vacuum_of_ok {io : ExportIo} {db : Db} {id : Option Text} {req : ExportDbSnapshotRequest}
    (hok : (exportDbSnapshot io db id req).2 = .ok ()) : ∃ snapshot, io.vacuum db = .ok snapshot := by
  unfold exportDbSnapshot at hok
  cases hv : io.vacuum db with
  | ok snapshot => exact ⟨snapshot, rfl⟩
  | error e =>
    rw [hv] at hok
    split at hok
    · cases hok
    · split at hok <;> cases hok

theorem main_files {ε : Type*} {stub : String → Option Credentials → ExportDbSnapshotRequest → Call ε}
    {writable : String → Bool} {files : Files} {args : Args} {io : ExportIo} {db : Db} {id : Option Text}
    (harrives : ∀ creds, Arrives (exportDbSnapshot io db id ⟨args.machineId⟩)
      (stub args.server creds ⟨args.machineId⟩))
    {snapshot : Text} (hv : io.vacuum db = .ok snapshot) :
    (main stub writable files args).1 = files ∨
      ∃ data, data <+: snapshot ∧ (main stub writable files args).1 = store files args.out data := by
  unfold main
  split
  · exact Or.inl rfl
  · rename_i creds hcreds
    split
    · exact Or.inl rfl
    · refine Or.inr ⟨(stub args.server creds ⟨args.machineId⟩).chunks.flatten, ?_, ?_⟩
      · obtain ⟨rest, hrest⟩ := (harrives creds).1
        have hsent : (exportDbSnapshot io db id ⟨args.machineId⟩).1.flatten <+: snapshot :=
          (exportDbSnapshot_sent hv).1
        rw [← hrest, List.flatten_append] at hsent
        exact (List.prefix_append _ _).trans hsent
      · simp only [receive_chunks, List.nil_append]
        split <;> rfl

/-- **A fetch that reports what it wrote has written the snapshot**, and nothing else. -/
theorem main_wrote {ε : Type*} {stub : String → Option Credentials → ExportDbSnapshotRequest → Call ε}
    {writable : String → Bool} {files : Files} {args : Args} {io : ExportIo} {db : Db} {id : Option Text}
    (harrives : ∀ creds, Arrives (exportDbSnapshot io db id ⟨args.machineId⟩)
      (stub args.server creds ⟨args.machineId⟩))
    {n : Nat} (h : (main stub writable files args).2 = .wrote n) :
    ∃ snapshot, io.vacuum db = .ok snapshot ∧ n = snapshot.length ∧
      (main stub writable files args).1 = store files args.out snapshot := by
  unfold main at h ⊢
  split at h
  · cases h
  · rename_i creds hcreds
    by_cases hw : writable args.out = true
    · simp only [hw, Bool.not_true, Bool.false_eq_true, if_false, receive_chunks, List.nil_append,
        Nat.zero_add] at h ⊢
      cases hstatus : (stub args.server creds ⟨args.machineId⟩).status with
      | error e => simp [hstatus] at h
      | ok u =>
        obtain ⟨hall, hok⟩ := (harrives creds).2 hstatus
        obtain ⟨snapshot, hv⟩ := vacuum_of_ok hok
        have hsnapshot := (exportDbSnapshot_sent hv).2 hok
        simp only [hstatus, hall, hsnapshot, Exit.wrote.injEq] at h ⊢
        exact ⟨snapshot, hv, h.symm, rfl⟩
    · simp [hw] at h

end VmSnapshot

end VisitLogger
