import VisitLogger.Table
import VisitLogger.GrowOnly
import VisitLogger.Text

/-!
# The visits database

The tables that visits are logged to, with the SQL statements the components
run on them. The same schema serves a laptop's database and the VM's canonical
one; they differ in the default of the events tables' `directory` column, which
is fixed when the tables are created.
-/

namespace VisitLogger

structure Visit where
  url : Text
  timestamp : Text
  title : Text
  ofInterest : Option Text
  read : Nat
  skimmed : Nat
  deriving DecidableEq, Repr

structure Event where
  url : Text
  timestamp : Text
  filename : Text
  directory : Text
  deriving DecidableEq, Repr

inductive EventsTable where
  | read
  | skimmed
  deriving DecidableEq, Repr

namespace EventsTable

def tag : EventsTable → Text
  | read => ascii "read"
  | skimmed => ascii "skimmed"

def forTag (tag : Text) : Option EventsTable :=
  if tag = ascii "read" then some read else if tag = ascii "skimmed" then some skimmed else none

def counter : EventsTable → Visit → Nat
  | read, v => v.read
  | skimmed, v => v.skimmed

def increment : EventsTable → Visit → Visit
  | read, v => { v with read := v.read + 1 }
  | skimmed, v => { v with skimmed := v.skimmed + 1 }

@[simp] theorem forTag_tag (t : EventsTable) : forTag t.tag = some t := by cases t <;> decide

theorem forTag_eq_some {tag : Text} {t : EventsTable} (h : forTag tag = some t) : tag = t.tag := by
  unfold forTag at h
  split at h
  · rename_i e; cases h; exact e
  · split at h
    · rename_i e; cases h; exact e
    · cases h

@[simp] theorem increment_url (t : EventsTable) (v : Visit) : (t.increment v).url = v.url := by cases t <;> rfl

@[simp] theorem increment_ofInterest (t : EventsTable) (v : Visit) :
    (t.increment v).ofInterest = v.ofInterest := by cases t <;> rfl

theorem counter_increment (t t' : EventsTable) (v : Visit) :
    t'.counter (t.increment v) = t'.counter v + if t = t' then 1 else 0 := by
  cases t <;> cases t' <;> rfl

end EventsTable

structure Db where
  visits : List Visit
  readEvents : List Event
  skimmedEvents : List Event
  snapshots : List (Text × Nat)
  defaultDirectory : Text
  deriving DecidableEq, Repr

namespace Db

/-- The tables just created, with the `DEFAULT` of their directory column. -/
def empty (defaultDirectory : Text) : Db := ⟨[], [], [], [], defaultDirectory⟩

def events (db : Db) : EventsTable → List Event
  | .read => db.readEvents
  | .skimmed => db.skimmedEvents

def setEvents (db : Db) : EventsTable → List Event → Db
  | .read, es => { db with readEvents := es }
  | .skimmed, es => { db with skimmedEvents := es }

/-! ## Statements -/

/-- `INSERT OR IGNORE INTO visits (url, timestamp, title) VALUES (?, ?, ?)` -/
def insertVisit (db : Db) (timestamp url title : Text) : Db :=
  { db with visits := (Table.insertOrIgnore Visit.url ⟨url, timestamp, title, none, 0, 0⟩ db.visits).1 }

/-- `UPDATE visits SET of_interest = '1' WHERE url = ?`, and the rows changed. -/
def setOfInterest (db : Db) (url : Text) : Db × Nat :=
  let r := Table.updateWhere (fun v => v.url = url) (fun v =>
    { v with ofInterest := some (ascii "1") }) db.visits
  ({ db with visits := r.1 }, r.2)

/-- `INSERT OR IGNORE INTO <events> (url, timestamp, filename, directory)`, and
the rows inserted. -/
def insertEvent (db : Db) (t : EventsTable) (e : Event) : Db × Nat :=
  let r := Table.insertOrIgnore (fun e => (e.url, e.timestamp)) e (db.events t)
  (db.setEvents t r.1, r.2)

/-- `UPDATE visits SET <counter> = <counter> + 1 WHERE url = ?` -/
def increment (db : Db) (t : EventsTable) (url : Text) : Db :=
  { db with visits := (Table.updateWhere (fun v => v.url = url) t.increment db.visits).1 }

def hasVisit (db : Db) (url : Text) : Bool := Table.has Visit.url url db.visits

def insertSnapshot (db : Db) (date : Text) : Db :=
  { db with snapshots := (Table.insertOrIgnore Prod.fst (date, 0) db.snapshots).1 }

/-- Insert an event row, and count it when the row is new: the statement pair
that all four writers share. -/
def addEvent (db : Db) (t : EventsTable) (e : Event) : Db :=
  let r := db.insertEvent t e
  if r.2 = 0 then r.1 else r.1.increment t e.url

/-! ## What a database shows -/

def urls (db : Db) : List Text := db.visits.map Visit.url

def isOfInterest (db : Db) (url : Text) : Bool := db.visits.any fun v => v.url = url && v.ofInterest.isSome

def keys (db : Db) (t : EventsTable) : List (Text × Text) := (db.events t).map fun e => (e.url, e.timestamp)

def counter (db : Db) (t : EventsTable) (url : Text) : Option Nat :=
  (db.visits.find? fun v => v.url = url).map t.counter

/-- `SELECT sealed FROM snapshots WHERE date = ?` -/
def sealedOf (db : Db) (date : Text) : Option Nat := (db.snapshots.find? fun s => s.1 = date).map Prod.snd

end Db

end VisitLogger
