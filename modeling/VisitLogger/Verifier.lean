import VisitLogger.Reconcile
import VisitLogger.Verify

/-!
# BVLVerifier

The process that launchd starts at every tick, and that the user starts to look
at the failures or to verify a directory: `main.swift` from its arguments to its
exit code. The passes before the verification come as what they write to
`mover_errors`.
-/

namespace VisitLogger

open SnapshotMover (MoverError)

namespace BVLVerifier

open MoverErrors (Notification appendingPathComponent)

/-! ## Arguments -/

/-- `Int(_: String)` -/
def swiftInt (s : Text) : Option Int :=
  let negative := s.head? = some 45
  let ds := if s.head? = some 43 ∨ s.head? = some 45 then s.tail else s
  if ds ≠ [] ∧ ds.all (fun b => 48 ≤ b ∧ b ≤ 57) = true then
    let n : Nat := ds.foldl (fun n b => 10 * n + (b.toNat - 48)) 0
    let i : Int := if negative then -Int.ofNat n else Int.ofNat n
    if -9223372036854775808 ≤ i ∧ i < 9223372036854775808 then some i else none
  else none

inductive Mode where
  | tick
  | verifyOne (arg : Text)
  | verifyAll
  | showErrors
  | clearErrors
  | clearError (n : Int)
  deriving DecidableEq, Repr

structure CLIOptions where
  mode : Mode := .tick
  dryRun : Bool := false
  quiet : Bool := false
  record : Bool := false
  verbose : Bool := false
  deriving DecidableEq, Repr

inductive Stop where
  | usage (message : Text)
  | help
  deriving DecidableEq, Repr

/-- What the loop of `parseArgs` has so far; `env` is what it has set in the environment. -/
structure Args where
  opts : CLIOptions := {}
  operationsSet : Nat := 0
  env : List (Text × Text) := []
  deriving DecidableEq, Repr

inductive Flag where
  | verify
  | verifyAll
  | showErrors
  | clearErrors
  | clearError
  | dryRun
  | quiet
  | record
  | verbose
  | source
  | dest
  | db
  | minAgeSeconds
  | help
  deriving DecidableEq, Repr

def flags : List (Text × Flag) :=
  [(ascii "--verify", .verify), (ascii "--verify-all", .verifyAll), (ascii "--show-errors", .showErrors),
    (ascii "--clear-errors", .clearErrors), (ascii "--clear-error", .clearError), (ascii "--dry-run", .dryRun),
    (ascii "--quiet", .quiet), (ascii "--record", .record), (ascii "-v", .verbose),
      (ascii "--verbose", .verbose),
    (ascii "--source", .source), (ascii "--dest", .dest), (ascii "--db", .db),
    (ascii "--min-age-seconds", .minAgeSeconds), (ascii "-h", .help), (ascii "--help", .help)]

def Flag.requires : Flag → Option Text
  | verify => some (ascii "--verify requires a date or path")
  | clearError => some (ascii "--clear-error requires an integer")
  | source => some (ascii "--source requires a path")
  | dest => some (ascii "--dest requires a path")
  | db => some (ascii "--db requires a path")
  | minAgeSeconds => some (ascii "--min-age-seconds requires an integer")
  | _ => none

def setMode (a : Args) (m : Mode) (flag : Text) : Except Stop Args :=
  let operationsSet := a.operationsSet + 1
  if operationsSet > 1 then
    .error (.usage (ascii "operation flags are mutually exclusive (got: " ++ flag ++ ascii ")"))
  else .ok { a with operationsSet, opts := { a.opts with mode := m } }

def setenv (a : Args) (name value : Text) : Args := { a with env := a.env ++ [(name, value)] }

/-- One case; `value` is the next argument where the case takes one. -/
def Flag.parse (a : Args) (value : Text) : Flag → Except Stop Args
  | verify => setMode a (.verifyOne value) (ascii "--verify")
  | verifyAll => setMode a .verifyAll (ascii "--verify-all")
  | showErrors => setMode a .showErrors (ascii "--show-errors")
  | clearErrors => setMode a .clearErrors (ascii "--clear-errors")
  | clearError =>
    match swiftInt value with
    | none => .error (.usage (ascii "--clear-error requires an integer"))
    | some n => setMode a (.clearError n) (ascii "--clear-error")
  | dryRun => .ok { a with opts := { a.opts with dryRun := true } }
  | quiet => .ok { a with opts := { a.opts with quiet := true } }
  | record => .ok { a with opts := { a.opts with record := true } }
  | verbose => .ok { a with opts := { a.opts with verbose := true } }
  | source => .ok (setenv a (ascii "BVL_DOWNLOADS_SNAPSHOTS_DIR") value)
  | dest => .ok (setenv a (ascii "BVL_ICLOUD_SNAPSHOTS_DIR") value)
  | db => .ok (setenv a (ascii "BVL_DB_FILE") value)
  | minAgeSeconds =>
    match swiftInt value with
    | none => .error (.usage (ascii "--min-age-seconds requires an integer"))
    | some _ => .ok (setenv a (ascii "BVL_MOVER_MIN_AGE_SECONDS") value)
  | help => .error .help

def parseLoop : Args → List Text → Except Stop Args
  | a, [] => .ok a
  | a, arg :: rest =>
    match flags.lookup arg with
    | none => .error (.usage (ascii "unrecognized argument: " ++ arg))
    | some f =>
      match f.requires, rest with
      | none, rest => (f.parse a []).bind fun a => parseLoop a rest
      | some e, [] => .error (.usage e)
      | some _, value :: rest => (f.parse a value).bind fun a => parseLoop a rest

def parseArgs (argv : List Text) : Except Stop Args := parseLoop {} argv

/-! ## The process -/

/-- What a process meets: the directories and the database, as they are when it
verifies, and the errors of its calls. -/
structure World where
  archiveSnapshotsDir : Except Text Text
  createDirectory : Option Text
  dbFile : Text
  /-- The file that `dbFile` is, however it is spelled. -/
  database : Text
  hasDb : Bool
  openDb : Option Text
  /-- What the sweep, the seal and the merge do to `mover_errors`. -/
  passes : List MoverErrors.Call
  db : Db
  /-- What is at a path; a plain file has no entries. -/
  disk : Text → Option Folder
  verifyIo : Text → Verify.VerifyIo
  querySealed : Option Text
  /-- The row of the target cannot be written. -/
  writeFails : Text → Bool
  /-- The error of the other statements on `mover_errors`. -/
  statement : Option Text
  escalateIo : MoverErrors.EscalateIo
  now : Text
  threshold : Int

/-- What a process leaves in its table, or in the tables of all databases, and what it prints. -/
structure Exit (Rows : Type) where
  rows : Rows
  notifications : List Notification
  stdout : List Text
  stderr : List Text
  rc : Nat

section
variable (characters : Text → List Text) (w : World)

/-- An arg that looks like a path is used as it is. -/
def resolveTarget (arg : Text) : Text :=
  if arg.head? = some slash ∨ arg.head? = some 126 ∨ slash ∈ arg then arg
  else match w.archiveSnapshotsDir with
    | .error _ => arg
    | .ok root => appendingPathComponent root arg

def printResult (target : Text) (result : Verify.VerifyResult) (quiet : Bool) : List Text :=
  if result.isValid then if quiet then [] else [target ++ ascii ": OK"]
  else
    let n := result.issues.length
    (target ++ ascii ": FAILED (" ++ Verify.natText n ++ ascii " issue" ++ (if n = 1 then [] else ascii "s") ++
      ascii ")") :: result.issues.map (ascii "  - " ++ ·)

def updateErrorState (target : Text) (result : Verify.VerifyResult) (rows : List MoverError) :
    List MoverError :=
  if w.writeFails target then rows
  else if result.isValid then MoverErrors.clear (ascii "manifest_invalid") target rows
  else MoverErrors.record characters w.now (ascii "manifest_invalid") target
    ⟨none, (ascii "; ").intercalate result.issues⟩ rows

def escalate (rows : List MoverError) (notifications : List Notification) :
    List MoverError × List Notification :=
  let r := MoverErrors.escalate w.escalateIo w.threshold rows
  (r.1, notifications ++ r.2)

def verifyOne (target : Text) (opts : CLIOptions) (rows : List MoverError) : Exit (List MoverError) :=
  match w.disk target with
  | none => ⟨rows, [], [], [ascii "No such directory: " ++ target], 1⟩
  | some dir =>
    match w.openDb with
    | some e => ⟨rows, [], [], [ascii "verify failed: " ++ e], 1⟩
    | none =>
      let result := Verify.directory (w.verifyIo target) w.db target dir
      let r := if opts.record then escalate w (updateErrorState characters w target result rows) [] else
        (rows, [])
      ⟨r.1, r.2, printResult target result opts.quiet, [], if result.isValid then 0 else 1⟩

/-- `SELECT date FROM snapshots WHERE sealed = 1 ORDER BY date` -/
def sealedDates (db : Db) : List Text :=
  (sortStrings ((db.snapshots.filter fun s => s.2 = 1).map Prod.fst)).map BVLHost.cString

def verifyDates (record quiet : Bool) (root : Text) (dates : List Text) (rows : List MoverError) :
    List MoverError × List Text × Bool :=
  dates.foldl (fun s date =>
    let target := appendingPathComponent root date
    match w.disk target with
    | none => s
    | some dir =>
      let result := Verify.directory (w.verifyIo target) w.db target dir
      (if record then updateErrorState characters w target result s.1 else s.1,
        s.2.1 ++ printResult target result quiet, s.2.2 || !result.isValid)) (rows, [], false)

/-- `verifyAllSealed`: the rows, what is printed, and the result. -/
def verifyAllSealed (record quiet dryRun : Bool) (rows : List MoverError) :
    List MoverError × List Text × Bool :=
  if dryRun then (rows, [], true)
  else match w.querySealed with
    | some _ => (rows, [], false)
    | none =>
      let dates := sealedDates w.db
      if dates = [] then (rows, if quiet then [] else [ascii "No sealed directories to verify."], true)
      else match w.archiveSnapshotsDir with
        | .error _ => (rows, [], false)
        | .ok root =>
          let r := verifyDates characters w record quiet root dates rows
          (r.1, r.2.1, !r.2.2)

def runTick (opts : CLIOptions) (rows : List MoverError) : Exit (List MoverError) :=
  match w.archiveSnapshotsDir with
  | .error e => ⟨rows, [], [], [ascii "Could not prepare snapshots archive: " ++ e], 1⟩
  | .ok _ =>
    match w.createDirectory with
    | some e => ⟨rows, [], [], [ascii "Could not prepare snapshots archive: " ++ e], 1⟩
    | none =>
      if w.hasDb = false then ⟨rows, [], [], [ascii "No DB at " ++ w.dbFile], 1⟩
      else match w.openDb with
        | some _ => ⟨rows, [], [], [], 1⟩
        | none =>
          let rows := if opts.dryRun then rows else w.passes.foldl (fun rows c => c.apply characters rows) rows
          let v := verifyAllSealed characters w true opts.quiet opts.dryRun rows
          let r := if opts.dryRun then (v.1, []) else escalate w v.1 []
          ⟨r.1, r.2, v.2.1, [], if v.2.2 then 0 else 1⟩

def verifyAll (opts : CLIOptions) (rows : List MoverError) : Exit (List MoverError) :=
  match w.openDb with
  | some e => ⟨rows, [], [], [ascii "verify-all failed: " ++ e], 1⟩
  | none =>
    let v := verifyAllSealed characters w opts.record opts.quiet opts.dryRun rows
    let r := if opts.record then escalate w v.1 [] else (v.1, [])
    ⟨r.1, r.2, v.2.1, [], if v.2.2 then 0 else 1⟩

/-! ## The failures -/

/-- `SELECT ... FROM mover_errors ORDER BY first_seen ASC, key ASC` -/
def fetchPending (rows : List MoverError) : List MoverError := rows.insertionSort MoverErrors.rowBefore

def plural (n : Nat) : Text := if n = 1 then [] else ascii "s"

def shownTarget (r : MoverError) : Text := if r.target = [] then ascii "(no target)" else r.target

def showError (idx : Nat) (r : MoverError) : List Text :=
  [ascii "  [" ++ Verify.natText (idx + 1) ++ ascii "] " ++ r.operation ++ ascii ": " ++ shownTarget r,
    ascii "      attempts: " ++ Verify.natText r.attempts ++ ascii " (since " ++ r.firstSeen ++
      ascii ", last " ++
      r.lastSeen ++ ascii ")",
    ascii "      error:    " ++ BVLHost.cString r.message] ++
  ((MoverErrors.fixHints.lookup r.operation).map (ascii "      fix:      " ++ ·)).toList ++
  [ascii "      notified: " ++ (if r.notified ≠ 0 then ascii "yes" else ascii "no"), []]

def showErrors (rows : List MoverError) : Exit (List MoverError) :=
  match w.openDb.orElse fun _ => w.statement with
  | some e => ⟨rows, [], [], [ascii "show-errors failed: " ++ e], 1⟩
  | none =>
    let pending := fetchPending rows
    if pending = [] then ⟨rows, [], [ascii "No pending mover errors."], [], 0⟩
    else
      ⟨rows, [], [ascii "Pending mover errors (" ++ Verify.natText pending.length ++ ascii "):", []] ++
        (pending.mapIdx showError).flatten, [], 0⟩

def clearErrors (rows : List MoverError) : Exit (List MoverError) :=
  match w.openDb.orElse fun _ => w.statement with
  | some e => ⟨rows, [], [], [ascii "clear-errors failed: " ++ e], 1⟩
  | none =>
    ⟨[], [], [ascii "Cleared " ++ Verify.natText rows.length ++ ascii " error row" ++
      plural rows.length ++ ascii "."], [], 0⟩

def clearError (n : Int) (rows : List MoverError) : Exit (List MoverError) :=
  match w.openDb.orElse fun _ => w.statement with
  | some e => ⟨rows, [], [], [ascii "clear-error failed: " ++ e], 1⟩
  | none =>
    let pending := fetchPending rows
    if pending = [] then ⟨rows, [], [], [ascii "No pending mover errors to clear."], 1⟩
    else if n < 1 ∨ n > pending.length then
      ⟨rows, [], [], [ascii "No error at index " ++ ascii (toString n) ++ ascii " (table has " ++
        Verify.natText pending.length ++ ascii " row" ++ plural pending.length ++ ascii ")."], 1⟩
    else match pending[(n - 1).toNat]? with
      | none => ⟨rows, [], [], [], 1⟩
      | some row =>
        ⟨rows.filter fun r => r.key ≠ row.key, [],
          [ascii "Cleared error [" ++ ascii (toString n) ++ ascii "]: " ++ row.operation ++ ascii ": " ++
            shownTarget row], [], 0⟩

def dispatch (opts : CLIOptions) (rows : List MoverError) : Exit (List MoverError) :=
  match opts.mode with
  | .tick => runTick characters w opts rows
  | .verifyOne arg => verifyOne characters w (resolveTarget w arg) opts rows
  | .verifyAll => verifyAll characters w opts rows
  | .showErrors => showErrors w rows
  | .clearErrors => clearErrors w rows
  | .clearError n => clearError w n rows

end

/-- The whole of `main.swift`, over `mover_errors` of every database; the text of the help is left out. -/
def main (characters : Text → List Text) (world : List (Text × Text) → World) (argv : List Text)
    (tables : Text → List MoverError) : Exit (Text → List MoverError) :=
  match parseArgs argv with
  | .error (.usage m) => ⟨tables, [], [], [ascii "Error: " ++ m], 1⟩
  | .error .help => ⟨tables, [], [], [], 0⟩
  | .ok a =>
    let w := world a.env
    let e := dispatch characters w a.opts (tables w.database)
    ⟨Function.update tables w.database e.rows, e.notifications, e.stdout, e.stderr, e.rc⟩

end BVLVerifier

end VisitLogger
