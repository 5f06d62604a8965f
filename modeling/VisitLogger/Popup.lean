import VisitLogger.HostQuery
import VisitLogger.Runs

/-!
# The popup

`popup.js` asks the host about the page and then enables its buttons. A click on
of_interest goes to the host as it is; one on read or skimmed goes to
`background.js`, which saves a snapshot of the page and tells the host once the
download is complete. A step is one callback of the browser, one message that
the host handles, or one write of somebody else.
-/

namespace VisitLogger

namespace Popup

open BVLHost

/-! ## Snapshots -/

/-- `/\.pdf([?#]|$)/i` -/
def isPdfUrl (url : Text) : Bool :=
  (url.map fun b => if 65 ≤ b ∧ b ≤ 90 then b + 32 else b).tails.any fun s =>
    match lit (ascii ".pdf") s with
    | none => false
    | some [] => true
    | some (b :: _) => b = 63 || b = 35

/-- The timestamp is split at its first `T`. -/
def snapshotDatetimePrefix (isoTimestamp : Text) : Text :=
  let datePart := isoTimestamp.takeWhile (· ≠ 84)
  let timeRest := ((isoTimestamp.dropWhile (· ≠ 84)).drop 1).takeWhile (· ≠ 84)
  datePart ++ ascii "T" ++ (timeRest.take 8).map (fun b => if b = 58 then 45 else b) ++ ascii "Z"

def hexDigit (n : Byte) : Byte := if n < 10 then n + 48 else n + 87

def hexHash (digest : List Byte) : Text := digest.flatMap fun b => [hexDigit (b / 16), hexDigit (b % 16)]

/-- `sha256` is `crypto.subtle.digest('SHA-256', …)`. -/
def snapshotFilename (sha256 : Text → List Byte) (url timestamp : Text) : Text :=
  ascii "browser-visit-snapshots/" ++ (snapshotDatetimePrefix timestamp ++ ascii "-" ++
    hexHash (sha256 (url ++ timestamp)) ++ ascii "." ++ if isPdfUrl url then ascii "pdf" else ascii "mhtml")

/-! ## State -/

structure Tab where
  url : Text
  title : Text

structure Config where
  tab : Tab
  sha256 : Text → List Byte
  downloads : Text

inductive Tag where
  | ofInterest
  | event (t : EventsTable)
  deriving DecidableEq, Repr

def Tag.text : Tag → Text
  | ofInterest => ascii "of_interest"
  | event t => t.tag

structure Click where
  tag : Tag
  timestamp : Text
  alsoOfInterest : Bool
  deriving DecidableEq, Repr

/-- What `handleResponse` meets: an error of the runtime, or the response with its status. -/
inductive Answer where
  | lastError (message : Text)
  | ok
  | error (message : Option Text)
  deriving DecidableEq, Repr

/-- Where a click is: the page being captured, the download being started, its
listener waiting, the host's reply awaited, the response on its way back, or the
refresh of the icon. -/
inductive Stage where
  | capture
  | download (filename : Text)
  | watch (filename : Text) (downloadId : Nat)
  | native (m : Message)
  | answer (a : Answer)
  | refresh
  deriving DecidableEq, Repr

structure Request where
  click : Click
  stage : Stage
  deriving DecidableEq, Repr

structure State where
  db : Db
  ready : Bool
  alreadyOfInterest : Bool
  disabled : Bool
  status : Text
  closed : Bool
  requests : List Request
  /-- The writes that the host was sent. -/
  sent : List Message
  /-- The click whose success has closed the popup. -/
  done : Option Click
  deriving DecidableEq, Repr

inductive DownloadState where
  | complete
  | interrupted
  | inProgress
  deriving DecidableEq, Repr

inductive Act where
  | arrive (a : Arrival)
  | queried (inv : Invocation)
  | queryFailed
  | click (tag : Tag) (timestamp : Text)
  | captured (i : Nat) (content : Except Text Unit)
  | downloaded (i : Nat) (downloadId : Except Text Nat)
  | changed (downloadId : Nat) (current : DownloadState)
  | handled (i : Nat) (inv : Invocation)
  | unhandled (i : Nat) (inv : Option Invocation) (message : Text)
  | portClosed (i : Nat) (message : Text)
  | answered (i : Nat)
  | refreshed (i : Nat)
  | dismiss
  deriving DecidableEq, Repr

/-! ## Steps -/

section
variable (cfg : Config)

def queryMessage : Message := ⟨ascii "query", cfg.tab.url, [], [], [], [], false⟩

def message (c : Click) (filename : Text) : Message :=
  ⟨[], cfg.tab.url, c.timestamp, if cfg.tab.title = [] then cfg.tab.url else cfg.tab.title, c.tag.text,
    filename, c.alsoOfInterest⟩

def isMarked : Response → Bool
  | .record (some r) => r.ofInterest
  | _ => false

def toAnswer : Response → Answer
  | .ok => .ok
  | .record _ => .ok
  | .error m => .error (some m)
  | .errors _ => .error none

/-- What the runtime's error becomes: of_interest is sent by the popup itself, the rest by the background. -/
def lost (c : Click) (m : Text) : Answer :=
  match c.tag with
  | .ofInterest => .lastError m
  | .event _ => .error (some m)

def errorStatus : Answer → Text
  | .lastError m => ascii "Error: " ++ m
  | .ok => []
  | .error m =>
    if m.getD [] = [] then ascii "Write failed " ++ [0xE2, 0x80, 0x94] ++ ascii " check host log."
    else m.getD []

def onChanged (downloadId : Nat) (current : DownloadState) (r : Request) : Request × List Message :=
  match r.stage with
  | .watch filename d =>
    if d = downloadId then
      match current with
      | .complete => ({ r with stage := .native (message cfg r.click filename) },
          [message cfg r.click filename])
      | .interrupted =>
        ({ r with stage := .answer (.error (some (ascii "Snapshot download was interrupted"))) }, [])
      | .inProgress => (r, [])
    else (r, [])
  | _ => (r, [])

def onClick (s : State) (tag : Tag) (timestamp : Text) : State :=
  match tag with
  | .ofInterest =>
    let c : Click := ⟨tag, timestamp, false⟩
    { s with
      disabled := true
      requests := s.requests ++ [⟨c, .native (message cfg c [])⟩]
      sent := s.sent ++ [message cfg c []] }
  | .event _ =>
    { s with
      disabled := true
      status := ascii "Saving snapshot" ++ [0xE2, 0x80, 0xA6]
      requests := s.requests ++ [⟨⟨tag, timestamp, !s.alreadyOfInterest⟩, .capture⟩] }

/-- `handleResponse`; a popup that is closed no longer runs it. -/
def onAnswer (s : State) (i : Nat) (r : Request) (a : Answer) : State :=
  if s.closed then { s with requests := s.requests.eraseIdx i }
  else if a = .ok then { s with requests := s.requests.set i { r with stage := .refresh } }
  else { s with requests := s.requests.eraseIdx i, status := errorStatus a, disabled := false }

/-- Go on with request `i`, which must be at a stage that `f` takes. -/
def advance (s : State) (i : Nat) (f : Request → Option Stage) : Option State := do
  let r ← s.requests[i]?
  let stage ← f r
  some { s with requests := s.requests.set i { r with stage } }

def step (s : State) : Act → Option State
  | .arrive a => some { s with db := a.receive cfg.downloads s.db }
  | .queried inv =>
    if s.ready = false ∧ inv.message = queryMessage cfg then
      let r := handle cfg.downloads ⟨s.db, []⟩ inv
      some { s with db := r.1.db, ready := true, alreadyOfInterest := isMarked r.2 }
    else none
  | .queryFailed => if s.ready = false then some { s with ready := true } else none
  | .click tag timestamp =>
    if s.ready = true ∧ s.disabled = false ∧ s.closed = false then some (onClick cfg s tag timestamp) else none
  | .captured i content =>
    advance s i fun r =>
      match r.stage, content with
      | .capture, .ok () => some (.download (snapshotFilename cfg.sha256 cfg.tab.url r.click.timestamp))
      | .capture, .error e => some (.answer (.error (some e)))
      | _, _ => none
  | .downloaded i downloadId =>
    advance s i fun r =>
      match r.stage, downloadId with
      | .download filename, .ok d => some (.watch filename d)
      | .download _, .error e => some (.answer (.error (some (ascii "Snapshot download failed: " ++ e))))
      | _, _ => none
  | .changed downloadId current =>
    let rs := s.requests.map (onChanged cfg downloadId current)
    some { s with requests := rs.map Prod.fst, sent := s.sent ++ rs.flatMap Prod.snd }
  | .handled i inv => do
    let r ← s.requests[i]?
    if r.stage = .native inv.message then
      let h := handle cfg.downloads ⟨s.db, []⟩ inv
      some { s with db := h.1.db, requests := s.requests.set i { r with stage := .answer (toAnswer h.2) } }
    else none
  | .unhandled i inv m => do
    let r ← s.requests[i]?
    match r.stage with
    | .native sent =>
      if ∀ x ∈ inv, x.message = sent then
        some { s with
          db := (inv.map fun x => (handle cfg.downloads ⟨s.db, []⟩ x).1.db).getD s.db
          requests := s.requests.set i { r with stage := .answer (lost r.click m) } }
      else none
    | _ => none
  | .portClosed i m =>
    advance s i fun r =>
      if r.click.tag = .ofInterest then none
      else match r.stage with
        | .answer _ => none
        | .refresh => none
        | _ => some (.answer (.lastError m))
  | .answered i => do
    let r ← s.requests[i]?
    match r.stage with
    | .answer a => some (onAnswer s i r a)
    | _ => none
  | .refreshed i => do
    let r ← s.requests[i]?
    if r.stage = .refresh then
      let s := { s with requests := s.requests.eraseIdx i }
      some (if s.closed then s else { s with closed := true, done := some r.click })
    else none
  | .dismiss => if s.closed then none else some { s with closed := true }

def State.init (db : Db) : State := ⟨db, false, false, false, [], false, [], [], none⟩

end

end Popup

end VisitLogger
