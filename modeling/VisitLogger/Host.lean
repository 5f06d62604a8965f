import Mathlib.Data.List.TakeWhile
import VisitLogger.DatabaseSound
import VisitLogger.Log
import VisitLogger.Paths

/-!
# The native messaging host

Chrome starts the host once for each message. A write message is logged as an
action line, applied to the database in one transaction, archived, and logged
again as a result line. `handle` is one invocation; what can fail in it, and
what the archive does with the snapshot, is given by `Faults` and `moved`.
-/

namespace VisitLogger

namespace BVLHost

/-! ## Messages -/

/-- The encodings of `CharacterSet.whitespaces`: the space separators and tab. -/
def whitespaces : List Text :=
  [[9], [32], [0xC2, 0xA0], [0xE1, 0x9A, 0x80], [0xE2, 0x80, 0x80], [0xE2, 0x80, 0x81], [0xE2, 0x80, 0x82],
    [0xE2, 0x80, 0x83], [0xE2, 0x80, 0x84], [0xE2, 0x80, 0x85], [0xE2, 0x80, 0x86], [0xE2, 0x80, 0x87],
    [0xE2, 0x80, 0x88], [0xE2, 0x80, 0x89], [0xE2, 0x80, 0x8A], [0xE2, 0x80, 0xAF], [0xE2, 0x81, 0x9F],
    [0xE3, 0x80, 0x80]]

def runes (s : Text) : List Text :=
  let r := s.foldr (fun b (r : Text × List Text) =>
    if 0x80 ≤ b ∧ b < 0xC0 then (b :: r.1, r.2) else ([], (b :: r.1) :: r.2)) ([], [])
  if r.1 = [] then r.2 else r.1 :: r.2

/-- `trimmingCharacters(in: .whitespaces)` -/
def trim (s : Text) : Text :=
  let r := (runes s).dropWhile whitespaces.contains
  (r.reverse.dropWhile whitespaces.contains).reverse.flatten

/-- A native message; a field that is absent, or not of its type, is empty. -/
structure Message where
  action : Text
  url : Text
  timestamp : Text
  title : Text
  tag : Text
  filename : Text
  alsoOfInterest : Bool
  deriving DecidableEq, Repr

def Message.request (m : Message) : Action :=
  ⟨trim m.timestamp, trim m.url, m.title, trim m.tag, trim m.filename⟩

/-! ## Statements -/

/-- A text as C reads it, up to its first NUL byte: `sqlite3_bind_text` with
length -1 binds no more of it, and `String(cString:)` takes no more from a column. -/
def cString (s : Text) : Text := s.takeWhile fun b => b ≠ 0

theorem cString_of_notMem {s : Text} (h : (0 : Byte) ∉ s) : cString s = s := by
  rw [cString, List.takeWhile_eq_self_iff]
  intro b hb
  simpa using fun e : b = 0 => h (e ▸ hb)

namespace Events

variable (downloads : Text) (db : Db)

def insertVisit (timestamp url title : Text) : Db :=
  db.insertVisit (cString timestamp) (cString url) (cString title)

/-- `downloads` is `Paths.downloadsSnapshotsDir`, a path from the environment, which holds no NUL byte. -/
def insertEvent (table : EventsTable) (url timestamp filename : Text) : Db × Bool :=
  if db.hasVisit (cString url) then
    let r := db.insertEvent table ⟨cString url, cString timestamp, cString (lastPathComponent filename),
      downloads⟩
    (if r.2 > 0 then r.1.increment table (cString url) else r.1, true)
  else (db, false)

def tagVisit (url tag timestamp filename : Text) : Db × Bool :=
  if tag = ascii "of_interest" then
    let r := db.setOfInterest (cString url)
    (r.1, r.2 > 0)
  else match EventsTable.forTag tag with
    | none => (db, false)
    | some table => insertEvent downloads db table url timestamp filename

end Events

/-- `UPDATE <events> SET directory = ? WHERE filename = ? AND directory = ?` on both tables. -/
def relocate (db : Db) (dateSubdir basename downloads : Text) : Db :=
  [EventsTable.read, EventsTable.skimmed].foldl (fun db t =>
    db.setEvents t (Table.updateWhere (fun e => e.filename = basename && e.directory = downloads)
      (fun e => { e with directory := dateSubdir }) (db.events t)).1) db

/-- What `Archive.forTag` does to the tables when it moves the snapshot of `date` to `dateSubdir`. -/
def archived (downloads filename : Text) (db : Db) : Option (Text × Text) → Db
  | some (date, dateSubdir) =>
    (relocate db dateSubdir (cString (lastPathComponent filename)) downloads).insertSnapshot date
  | none => db

/-! ## Queries -/

structure VisitRecord where
  timestamp : Text
  title : Text
  ofInterest : Bool
  read : List Event
  skimmed : List Event
  deriving DecidableEq, Repr

def fetchEvents (db : Db) (t : EventsTable) (url : Text) : List Event :=
  (((db.events t).filter fun e => e.url = cString url).insertionSort fun a b => a.timestamp ≤ b.timestamp).map
    fun e => ⟨e.url, cString e.timestamp, cString e.filename, cString e.directory⟩

def query (db : Db) (url : Text) : Option VisitRecord :=
  (db.visits.find? fun v => v.url = cString url).map fun v =>
    ⟨cString v.timestamp, cString v.title, v.ofInterest.isSome, fetchEvents db .read url,
      fetchEvents db .skimmed url⟩

/-! ## One invocation -/

/-- Where the database part of an invocation can throw. -/
inductive DbStage where
  | beforeTables
  | transaction
  deriving DecidableEq, Repr

structure Faults where
  action : Option Text := none
  db : Option (DbStage × Text) := none
  result : Bool := false
  deriving DecidableEq, Repr

inductive Response where
  | ok
  | record (r : Option VisitRecord)
  | error (message : Text)
  | errors (errors : List Text)
  deriving DecidableEq, Repr

structure Invocation where
  recordId : Text
  todayISO : Text
  message : Message
  faults : Faults
  /-- The date and the directory that the snapshot was moved to, if it was. -/
  moved : Option (Text × Text)
  deriving DecidableEq, Repr

structure State where
  db : Db
  logs : List (Text × Text)
  deriving DecidableEq, Repr

def isEventTag (tag : Text) : Bool := tag = ascii "read" || tag = ascii "skimmed"

def writes (downloads : Text) (a : Action) (alsoOfInterest : Bool) (db : Db) : Db :=
  let db := Events.insertVisit db a.timestamp a.url a.title
  if a.tag = [] then db
  else
    let db := (Events.tagVisit downloads db a.url a.tag a.timestamp a.filename).1
    if alsoOfInterest && isEventTag a.tag then
      (Events.tagVisit downloads db a.url (ascii "of_interest") a.timestamp []).1
    else db

/-- The database part: the snapshots row, the transaction, the archive. -/
def dbWrites (downloads : Text) (inv : Invocation) (a : Action) (db : Db) : Db × Option Text :=
  match inv.faults.db with
  | some (.beforeTables, e) => (db, some e)
  | some (.transaction, e) => (db.insertSnapshot inv.todayISO, some e)
  | none =>
    let db := writes downloads a inv.message.alsoOfInterest (db.insertSnapshot inv.todayISO)
    (if isEventTag a.tag && a.filename ≠ [] then archived downloads a.filename db inv.moved else db, none)

def resultText (errors : List Text) : Text :=
  if errors = [] then ascii "success" else ascii "error: " ++ (ascii "; ").intercalate errors

def write (downloads : Text) (s : State) (inv : Invocation) : State × Response :=
  let a := inv.message.request
  if a.url = [] then (s, .error (ascii "url is required"))
  else if a.timestamp = [] then (s, .error (ascii "timestamp is required"))
  else if a.tag ≠ [] ∧ a.tag ∉ validTags then (s, .error (ascii "invalid tag: " ++ a.tag))
  else
    let logs := if inv.faults.action.isSome then s.logs
      else VisitLog.appendLine s.logs inv.todayISO (VisitLog.actionLine inv.recordId a)
    let r := dbWrites downloads inv a s.db
    let errors := (inv.faults.action.map (ascii "log: " ++ ·)).toList ++ (r.2.map (ascii "db: " ++ ·)).toList
    let logs := if inv.faults.result then logs
      else VisitLog.appendLine logs inv.todayISO (VisitLog.resultLine inv.recordId (resultText errors))
    (⟨r.1, logs⟩, if errors = [] then .ok else .errors errors)

/-- `main.swift`, from the message read to the response. -/
def handle (downloads : Text) (s : State) (inv : Invocation) : State × Response :=
  if trim inv.message.action = ascii "query" then
    if trim inv.message.url = [] then (s, .error (ascii "url is required"))
    else match inv.faults.db with
      | some (_, e) => (s, .error e)
      | none => (s, .record (query s.db (trim inv.message.url)))
  else write downloads s inv

def run (downloads : Text) (invs : List Invocation) : State :=
  invs.foldl (fun s inv => (handle downloads s inv).1) ⟨Db.empty downloads, []⟩

/-! ## Successful invocations -/

/-- A write that nothing fails in: it answers `ok` and leaves both its lines. -/
structure Invocation.Succeeds (inv : Invocation) : Prop where
  write : trim inv.message.action ≠ ascii "query"
  url : inv.message.request.url ≠ []
  timestamp : inv.message.request.timestamp ≠ []
  tag : inv.message.request.tag = [] ∨ inv.message.request.tag ∈ validTags
  faults : inv.faults = {}

def committed (downloads : Text) (inv : Invocation) (db : Db) : Db :=
  let a := inv.message.request
  let db := writes downloads a inv.message.alsoOfInterest (db.insertSnapshot inv.todayISO)
  if isEventTag a.tag && a.filename ≠ [] then archived downloads a.filename db inv.moved else db

theorem handle_succeeds {inv : Invocation} (h : inv.Succeeds) (downloads : Text) (s : State) :
    handle downloads s inv =
      (⟨committed downloads inv s.db,
        VisitLog.appendLine (VisitLog.appendLine s.logs inv.todayISO
          (VisitLog.actionLine inv.recordId inv.message.request)) inv.todayISO
          (VisitLog.resultLine inv.recordId (ascii "success"))⟩, .ok) := by
  have ht : ¬(inv.message.request.tag ≠ [] ∧ inv.message.request.tag ∉ validTags) := by
    rintro ⟨h₁, h₂⟩; exact h.tag.elim h₁ h₂
  unfold handle write
  simp only [h.write, h.url, h.timestamp, ht, h.faults, if_false, dbWrites]
  rfl

/-- **Success is answering `ok` with both lines written.** -/
theorem succeeds_iff (inv : Invocation) (downloads : Text) (s : State) :
    (handle downloads s inv).2 = .ok ∧ inv.faults.result = false ↔ inv.Succeeds := by
  constructor
  · rintro ⟨hok, hr⟩
    unfold handle at hok
    split at hok
    · split at hok
      · cases hok
      · cases hd : inv.faults.db <;> simp [hd] at hok
    · rename_i hw
      unfold write at hok
      dsimp only at hok
      split at hok
      · cases hok
      · rename_i hu
        split at hok
        · cases hok
        · rename_i hts
          split at hok
          · cases hok
          · rename_i ht
            refine ⟨hw, hu, hts, ?_, ?_⟩
            · by_contra hc; exact ht (not_or.mp hc)
            · dsimp only at hok
              split at hok
              · rename_i he
                obtain ⟨ha, hd⟩ := List.append_eq_nil_iff.mp he
                have ha : inv.faults.action = none := by simpa using ha
                have hd : inv.faults.db = none := by
                  cases hd' : inv.faults.db with
                  | none => rfl
                  | some f => obtain ⟨_ | _, e⟩ := f <;> simp [dbWrites, hd'] at hd
                cases hf : inv.faults with
                | mk fa fd fr => simp_all
              · cases hok
  · intro h
    rw [handle_succeeds h]
    exact ⟨rfl, by rw [h.faults]⟩

end BVLHost

end VisitLogger
