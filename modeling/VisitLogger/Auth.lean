import VisitLogger.Pull

/-!
# Who may call

Each call comes with what TLS verified about its connection. The interceptor
looks the client's certificate up among the enrolled machines and puts the
machine id in the context; each handler compares it with the id that the
request claims. In insecure mode there is no such interceptor.
-/

namespace VisitLogger

namespace Auth

/-! ## Enrolled machines -/

/-- A row of `enrolled_machines`. SQLite lets a `TEXT PRIMARY KEY` be NULL. -/
structure EnrolledMachine where
  machineId : Option Text
  certSha256 : Text
  deriving DecidableEq, Repr

def scanNull : Text :=
  ascii "sql: Scan error on column index 0, name \"machine_id\": converting NULL to string is unsupported"

/-- `Lookup`; empty stands for not enrolled. `fault` is the error of the query, if it has one. -/
def lookup (fault : Option Text) (table : List EnrolledMachine) (fp : Text) : Except Text Text :=
  match fault with
  | some e => .error e
  | none =>
    match table.find? fun m => m.certSha256 = fp with
    | none => .ok []
    | some ⟨none, _⟩ => .error scanNull
    | some ⟨some id, _⟩ => .ok id

/-! ## The interceptor -/

/-- The `AuthInfo` of a peer; a certificate is its raw bytes. -/
inductive AuthInfo where
  | tlsInfo (verifiedChains : List (List Text))
  | other
  deriving DecidableEq, Repr

structure Peer where
  authInfo : Option AuthInfo
  deriving DecidableEq, Repr

inductive AuthError where
  | noPeerInfo
  | nonTls
  | noVerifiedCert
  | enrolledLookup (e : Text)
  | notEnrolled (fp : Text)
  deriving DecidableEq, Repr

def AuthError.code : AuthError → Code
  | noPeerInfo | nonTls | noVerifiedCert => .unauthenticated
  | enrolledLookup _ => .internal
  | notEnrolled _ => .permissionDenied

def AuthError.message : AuthError → Text
  | noPeerInfo => ascii "no peer info"
  | nonTls => ascii "non-TLS connection"
  | noVerifiedCert => ascii "no verified client cert"
  | enrolledLookup e => ascii "enrolled lookup: " ++ e
  | notEnrolled fp => ascii "client cert " ++ fp.take 16 ++ ascii " not enrolled"

/-- `hex.EncodeToString` -/
def encodeToString (s : Text) : Text :=
  let digit : Byte → Byte := fun n => if n < 10 then 48 + n else 87 + n
  s.flatMap fun b => [digit (b / 16), digit (b % 16)]

/-- What the server is started with, and the hash that Go calls `sha256.Sum256`. -/
structure Config where
  sha256 : Text → Text
  insecure : Bool
  logRoot : Path

def fingerprint (cfg : Config) (leaf : Text) : Text := encodeToString (cfg.sha256 leaf)

def resolveID (cfg : Config) (fault : Option Text) (table : List EnrolledMachine) (peer : Option Peer) :
    Except AuthError Text :=
  match peer with
  | none | some ⟨none⟩ => .error .noPeerInfo
  | some ⟨some .other⟩ => .error .nonTls
  | some ⟨some (.tlsInfo chains)⟩ =>
    match chains with
    | (leaf :: _) :: _ =>
      let fp := fingerprint cfg leaf
      match lookup fault table fp with
      | .error e => .error (.enrolledLookup e)
      | .ok id => if id = [] then .error (.notEnrolled fp) else .ok id
    | _ => .error .noVerifiedCert

/-- `UnaryInterceptor` and `StreamInterceptor`: the handler is given the machine id in its context. -/
def intercept {ρ : Type*} (cfg : Config) (fault : Option Text) (table : List EnrolledMachine)
    (peer : Option Peer)
    (refuse : AuthError → ρ) (handler : Option Text → ρ) : ρ :=
  if cfg.insecure then handler none
  else
    match resolveID cfg fault table peer with
    | .error e => refuse e
    | .ok id => handler (some id)

end Auth

namespace Server

/-! ## ExportDbSnapshot -/

inductive ExportError where
  | auth (e : PushError)
  | mkdirTemp (e : Text)
  | vacuumInto (e : Text)
  | openSnapshot (e : Text)
  | readSnapshot (e : Text)
  | send (e : Text)
  deriving DecidableEq, Repr

/-- The message; an error of the stream is returned as it is. -/
def ExportError.message (quote : Text → Text) (sqlText : Store.Stmt → Text) : ExportError → Text
  | auth e => e.message quote sqlText
  | mkdirTemp e => ascii "mkdir temp: " ++ e
  | vacuumInto e => ascii "vacuum into: " ++ e
  | openSnapshot e => ascii "open snapshot: " ++ e
  | readSnapshot e => ascii "read snapshot: " ++ e
  | send e => e

/-- What the export finds: `vacuum` is the file that `VACUUM INTO` writes, and
`read` is the error of the read after a number of chunks, if it has one. -/
structure ExportIo where
  mkdirTemp : Option Text := none
  vacuum : Db → Except Text Text
  openFile : Option Text := none
  read : Nat → Option Text := fun _ => none
  send : List Text → Option Text := fun _ => none

def snapshotChunkSize : Nat := 256 * 1024

def sendSnapshot (io : ExportIo) : List Text → List Text → List Text × Except ExportError Unit
  | sent, [] =>
    match io.read sent.length with
    | some e => (sent, .error (.readSnapshot e))
    | none => (sent, .ok ())
  | sent, data :: rest =>
    match io.read sent.length with
    | some e => (sent, .error (.readSnapshot e))
    | none =>
      match io.send sent with
      | some e => (sent, .error (.send e))
      | none => sendSnapshot io (sent ++ [data]) rest

structure ExportDbSnapshotRequest where
  machineId : Text
  deriving DecidableEq, Repr

def exportDbSnapshot (io : ExportIo) (db : Db) (id : Option Text) (req : ExportDbSnapshotRequest) :
    List Text × Except ExportError Unit :=
  match crossCheck id req.machineId with
  | some e => ([], .error (.auth e))
  | none =>
    match io.mkdirTemp with
    | some e => ([], .error (.mkdirTemp e))
    | none =>
      match io.vacuum db with
      | .error e => ([], .error (.vacuumInto e))
      | .ok snapshot =>
        match io.openFile with
        | some e => ([], .error (.openSnapshot e))
        | none => sendSnapshot io [] (snapshot.toChunks snapshotChunkSize)

/-! ## A call -/

inductive Request where
  | pushLogs (req : PushLogsRequest)
  | pullLogs (req : PullLogsRequest)
  | exportDbSnapshot (req : ExportDbSnapshotRequest)

def Request.machineId : Request → Text
  | pushLogs req => req.machineId
  | pullLogs req => req.machineId
  | exportDbSnapshot req => req.machineId

inductive Reply where
  | unauthorized (e : Auth.AuthError)
  | pushLogs (result : Except PushError (Text × Int))
  | pullLogs (sent : List LogChunk) (result : Except PullError Unit)
  | exportDbSnapshot (sent : List Text) (result : Except ExportError Unit)

/-- An error, with nothing sent before it. -/
def Reply.Refused : Reply → Prop
  | unauthorized _ | pushLogs (.error _) | pullLogs [] (.error _) | exportDbSnapshot [] (.error _) => True
  | _ => False

/-- What the handlers' system calls meet. -/
structure Env where
  sort : SliceSort
  push : Io
  replay : Nat → Store.Stmt → Bool
  readDir : Option Text
  scan : Text → Store.ReadIo
  send : List LogChunk → Option Text
  exporting : ExportIo

def handle (env : Env) (logRoot : Path) (s : State) (req : Request) (id : Option Text) : State × Reply :=
  match req with
  | .pushLogs req =>
    let r := pushLogs env.sort env.push env.replay logRoot s id req
    (r.1, .pushLogs r.2)
  | .pullLogs req =>
    let r := pullLogs env.send env.readDir env.scan logRoot s.disk id req
    (s, .pullLogs r.1 r.2)
  | .exportDbSnapshot req =>
    let r := exportDbSnapshot env.exporting s.db id req
    (s, .exportDbSnapshot r.1 r.2)

def serve (cfg : Auth.Config) (fault : Option Text) (table : List Auth.EnrolledMachine)
    (peer : Option Auth.Peer)
    (env : Env) (s : State) (req : Request) : State × Reply :=
  Auth.intercept cfg fault table peer (fun e => (s, .unauthorized e)) (handle env cfg.logRoot s req)

end Server

namespace Auth

/-! ## Who gets to the store -/

/-- The first certificate of the first chain that TLS verified. -/
def firstLeaf : Option Peer → Option Text
  | some ⟨some (.tlsInfo ((leaf :: _) :: _))⟩ => some leaf
  | _ => none

theorem lookup_mem {fault : Option Text} {table : List EnrolledMachine} {fp id : Text}
    (h : lookup fault table fp = .ok id)
    (hne : id ≠ []) : ⟨some id, fp⟩ ∈ table := by
  unfold lookup at h
  split at h
  · cases h
  · split at h
    · cases h
      exact absurd rfl hne
    · cases h
    · rename_i id' fp' hf
      cases h
      have hfp : fp' = fp := by simpa using List.find?_some hf
      exact hfp ▸ List.mem_of_find?_eq_some hf

theorem resolveID_ok {cfg : Config} {fault : Option Text} {table : List EnrolledMachine}
    {peer : Option Peer} {id : Text}
    (h : resolveID cfg fault table peer = .ok id) :
    id ≠ [] ∧ ∃ leaf, firstLeaf peer = some leaf ∧ ⟨some id, fingerprint cfg leaf⟩ ∈ table := by
  unfold resolveID at h
  split at h
  · cases h
  · cases h
  · cases h
  · split at h
    · rename_i leaf _ _
      dsimp only at h
      split at h
      · cases h
      · rename_i id' hl
        split at h
        · cases h
        · rename_i hne
          cases h
          exact ⟨hne, leaf, rfl, lookup_mem hl hne⟩
    · cases h

end Auth

namespace Server

/-- **A handler without the claimed identity does nothing**, whatever the store is. -/
theorem handle_refused (id : Option Text) (req : Request) (h : id ≠ some req.machineId) (logRoot : Path) :
    ∃ reply : Reply, reply.Refused ∧ ∀ env s, handle env logRoot s req id = (s, reply) := by
  obtain ⟨e, he⟩ : ∃ e, crossCheck id req.machineId = some e := by
    unfold crossCheck
    cases id with
    | none => exact ⟨_, rfl⟩
    | some id =>
      have hne : id ≠ req.machineId := fun e => h (congrArg some e)
      exact ⟨.identityMismatch id req.machineId, if_pos hne⟩
  cases req with
  | pushLogs req =>
    refine ⟨.pushLogs (.error e), trivial, fun env s => ?_⟩
    simp only [Request.machineId] at he
    simp only [handle, pushLogs, he]
  | pullLogs req =>
    refine ⟨.pullLogs [] (.error (.auth e)), trivial, fun env s => ?_⟩
    simp only [Request.machineId] at he
    simp only [handle, pullLogs, he]
  | exportDbSnapshot req =>
    refine ⟨.exportDbSnapshot [] (.error (.auth e)), trivial, fun env s => ?_⟩
    simp only [Request.machineId] at he
    simp only [handle, exportDbSnapshot, he]

/-- **Only an enrolled machine gets to the store.** Either the first verified leaf
certificate is enrolled under the id that the request claims, or the call is
refused, with the same reply for every store and the store as it was. In insecure
mode it is always refused. -/
theorem served_or_refused (cfg : Auth.Config) (fault : Option Text) (table : List Auth.EnrolledMachine)
    (peer : Option Auth.Peer) (req : Request) :
    (cfg.insecure = false ∧ req.machineId ≠ [] ∧
        ∃ leaf, Auth.firstLeaf peer = some leaf ∧ ⟨some req.machineId, Auth.fingerprint cfg leaf⟩ ∈ table) ∨
      ∃ reply : Reply, reply.Refused ∧ ∀ env s, serve cfg fault table peer env s req = (s, reply) := by
  unfold serve Auth.intercept
  cases hi : cfg.insecure with
  | true =>
    right
    exact handle_refused none req nofun cfg.logRoot
  | false =>
    cases hr : Auth.resolveID cfg fault table peer with
    | error e => exact Or.inr ⟨.unauthorized e, trivial, fun env s => rfl⟩
    | ok id =>
      obtain ⟨hne, leaf, hleaf, hmem⟩ := Auth.resolveID_ok hr
      by_cases hid : id = req.machineId
      · subst hid
        exact Or.inl ⟨rfl, hne, leaf, hleaf, hmem⟩
      · right
        exact handle_refused (some id) req (fun e => hid (Option.some.inj e)) cfg.logRoot

end Server

end VisitLogger
