import VisitLogger.DatabaseSound
import VisitLogger.Log

/-!
# Replaying one line

The server replays each pushed line into the canonical database
(`Store.replayLine`), a peer each pulled line into its own
(`SyncClient.replayIntoDb`). Both read the line's fields and never its
neighbours. A line comes to at most one `Op` (`replayLine_eq`,
`replayIntoDb_eq`), and on the lines of the host they agree (`lineOp_entry`).
-/

namespace VisitLogger

namespace Store

inductive Stmt where
  | insertVisit
  | setOfInterest
  | begin
  | insertEvent
  | rowsAffected
  | increment
  | commit
  deriving DecidableEq, Repr

variable (fails : Stmt → Bool) (db : Db)

def replayBasic (timestamp url title : Text) : Db × Option Stmt :=
  if fails .insertVisit then (db, some .insertVisit) else (db.insertVisit timestamp url title, none)

def setOfInterest (url : Text) : Db × Option Stmt :=
  if fails .setOfInterest then (db, some .setOfInterest) else ((db.setOfInterest url).1, none)

/-- The event row and the counter are one transaction, rolled back on an error. -/
def tagWithFilename (url timestamp tag filename : Text) : Db × Option Stmt :=
  match EventsTable.forTag tag with
  | none => (db, none)
  | some t =>
    if fails .begin then (db, some .begin)
    else if fails .insertEvent then (db, some .insertEvent)
    else
      let r := db.insertEvent t ⟨url, timestamp, filename, db.defaultDirectory⟩
      if fails .rowsAffected then (db, some .rowsAffected)
      else if r.2 = 0 then
        if fails .commit then (db, some .commit) else (r.1, none)
      else if fails .increment then (db, some .increment)
      else if fails .commit then (db, some .commit)
      else (r.1.increment t url, none)

/-- `Store.ReplayLine`: the database afterwards, and the call that failed. -/
def replayLine (raw : Text) : Db × Option Stmt :=
  match splitTabs raw with
  | [_, timestamp, url, title] => replayBasic fails db timestamp url title
  | [_, timestamp, url, title, tag] =>
    let r := replayBasic fails db timestamp url title
    if r.2 ≠ none then r
    else if tag = ascii "of_interest" then setOfInterest fails r.1 url
    else r
  | [_, timestamp, url, title, tag, filename] =>
    let r := replayBasic fails db timestamp url title
    if r.2 ≠ none then r
    else tagWithFilename fails r.1 url timestamp tag filename
  | _ => (db, none)

def noFault : Stmt → Bool := fun _ => false

def replayLines (db : Db) (lines : List Text) : Db :=
  lines.foldl (fun db raw => (replayLine noFault db raw).1) db

end Store

namespace SyncClient

def replayIntoDb (db : Db) (raw : Text) : Db :=
  match splitTabs raw with
  | _ :: timestamp :: url :: title :: rest =>
    let db := db.insertVisit timestamp url title
    match rest with
    | [] => db
    | tag :: rest =>
      if tag = ascii "of_interest" then (db.setOfInterest url).1
      else
        match EventsTable.forTag tag, rest with
        | some t, filename :: _ =>
          let r := db.insertEvent t ⟨url, timestamp, filename, db.defaultDirectory⟩
          if r.2 = 0 then r.1 else r.1.increment t url
        | _, _ => db
  | _ => db

def replayLines (db : Db) (lines : List Text) : Db := lines.foldl replayIntoDb db

end SyncClient

/-! ## A line is an operation -/

/-- What an action asks of a database that keeps event file names as `store`
returns them, in `directory`. -/
def Action.op (store : Text → Text) (directory : Text) (a : Action) : Op where
  timestamp := a.timestamp
  url := a.url
  title := a.title
  mark :=
    if a.tag = ascii "of_interest" then .ofInterest
    else match EventsTable.forTag a.tag with
      | some t => .event t (store a.filename) directory
      | none => .visit

def Db.applyOpt (db : Db) (o : Option Op) : Db := o.elim db db.apply

namespace Store

def lineOp (directory raw : Text) : Option Op :=
  match splitTabs raw with
  | [_, timestamp, url, title] => some ⟨timestamp, url, title, .visit⟩
  | [_, timestamp, url, title, tag] =>
    some ⟨timestamp, url, title, if tag = ascii "of_interest" then .ofInterest else .visit⟩
  | [_, timestamp, url, title, tag, filename] =>
    some ⟨timestamp, url, title,
      match EventsTable.forTag tag with
      | some t => .event t filename directory
      | none => .visit⟩
  | _ => none

theorem tagWithFilename_eq (db : Db) (url timestamp tag filename : Text) :
    tagWithFilename noFault db url timestamp tag filename =
      (match EventsTable.forTag tag with
        | some t => db.addEvent t ⟨url, timestamp, filename, db.defaultDirectory⟩
        | none => db, none) := by
  unfold tagWithFilename Db.addEvent noFault
  cases EventsTable.forTag tag with
  | none => rfl
  | some t =>
    simp only [Bool.false_eq_true, if_false]
    split <;> rfl

/-- **The server replays a line as one operation.** -/
theorem replayLine_eq (db : Db) (raw : Text) :
    replayLine noFault db raw = (db.applyOpt (lineOp db.defaultDirectory raw), none) := by
  unfold replayLine lineOp Db.applyOpt
  split
  · rfl
  · rename_i ts u ti tag _
    by_cases h : tag = ascii "of_interest" <;>
      simp [replayBasic, setOfInterest, noFault, h, Db.apply]
  · rename_i ts u ti tag f _
    simp only [replayBasic, noFault, Bool.false_eq_true, if_false, ne_eq, not_true]
    rw [tagWithFilename_eq]
    cases EventsTable.forTag tag <;> simp [Db.apply]
  · rfl

theorem tagWithFilename_error {fails : Stmt → Bool} {db : Db} {url timestamp tag filename : Text}
    (h : (tagWithFilename fails db url timestamp tag filename).2 ≠ none) :
    (tagWithFilename fails db url timestamp tag filename).1 = db := by
  unfold tagWithFilename at *
  cases ht : EventsTable.forTag tag with
  | none => simp [ht] at h
  | some t => simp only [ht] at *; grind

theorem tagWithFilename_none {fails : Stmt → Bool} {db : Db} {url timestamp tag filename : Text}
    (h : (tagWithFilename fails db url timestamp tag filename).2 = none) :
    tagWithFilename fails db url timestamp tag filename =
      tagWithFilename noFault db url timestamp tag filename := by
  unfold tagWithFilename at *
  cases ht : EventsTable.forTag tag with
  | none => rfl
  | some t => simp only [ht] at *; grind [noFault]

/-- **A replay that fails** leaves the database as it was, or with the visit row of the line. -/
theorem replayLine_error {fails : Stmt → Bool} {db : Db} {raw : Text} (h : (replayLine fails db raw).2 ≠ none) :
    (replayLine fails db raw).1 = db ∨
      ∃ i ts u ti rest, splitTabs raw = i :: ts :: u :: ti :: rest ∧
        (replayLine fails db raw).1 = db.apply ⟨ts, u, ti, .visit⟩ := by
  unfold replayLine at *
  split at h
  · unfold replayBasic at *
    split at h <;> simp_all
  · rename_i i ts u ti tag hs
    unfold replayBasic setOfInterest at *
    by_cases hf : fails .insertVisit = true
    · simp [hf]
    · right; exact ⟨i, ts, u, ti, _, hs, by grind [Db.apply]⟩
  · rename_i i ts u ti tag f hs
    unfold replayBasic at *
    by_cases hf : fails .insertVisit = true
    · simp [hf]
    · simp only [hf, Bool.false_eq_true, if_false, ne_eq, not_true] at h ⊢
      right; exact ⟨i, ts, u, ti, _, hs, tagWithFilename_error h⟩
  · exact absurd rfl h

theorem replayLine_none {fails : Stmt → Bool} {db : Db} {raw : Text} (h : (replayLine fails db raw).2 = none) :
    replayLine fails db raw = replayLine noFault db raw := by
  unfold replayLine at *
  split at h
  · unfold replayBasic at *; grind [noFault]
  · unfold replayBasic setOfInterest at *; grind [noFault]
  · unfold replayBasic at *
    by_cases hf : fails .insertVisit = true
    · simp [hf] at h
    · simp only [hf, noFault, Bool.false_eq_true, if_false, ne_eq, not_true] at h ⊢
      exact tagWithFilename_none h
  · rfl

end Store

namespace SyncClient

def lineOp (directory raw : Text) : Option Op :=
  match splitTabs raw with
  | _ :: timestamp :: url :: title :: rest =>
    some ⟨timestamp, url, title,
      match rest with
      | [] => .visit
      | tag :: rest =>
        if tag = ascii "of_interest" then .ofInterest
        else match EventsTable.forTag tag, rest with
          | some t, filename :: _ => .event t filename directory
          | _, _ => .visit⟩
  | _ => none

/-- **A peer replays a line as one operation.** -/
theorem replayIntoDb_eq (db : Db) (raw : Text) :
    replayIntoDb db raw = db.applyOpt (lineOp db.defaultDirectory raw) := by
  unfold replayIntoDb lineOp Db.applyOpt
  split
  · rename_i ts u ti rest _
    cases rest with
    | nil => rfl
    | cons tag rest =>
      by_cases h : tag = ascii "of_interest"
      · simp [h, Db.apply]
      · cases ht : EventsTable.forTag tag with
        | none => simp [h, ht, Db.apply]
        | some t =>
          cases rest with
          | nil => simp [h, ht, Db.apply]
          | cons f rest => simp only [h, ht, if_false, Option.elim_some, Db.apply]; rfl
  · rfl

end SyncClient

/-! ## The host's lines -/

namespace Entry

def op (directory : Text) : Entry → Option Op
  | action _ a => some (a.op id directory)
  | result _ _ => none

end Entry

theorem mem_validTags {t : Text} (h : t ∈ validTags) :
    t = ascii "of_interest" ∨ t = EventsTable.read.tag ∨ t = EventsTable.skimmed.tag := by
  simpa [validTags, EventsTable.tag] using h

theorem EventsTable.tag_ne (t : EventsTable) : t.tag ≠ [] ∧ t.tag ≠ ascii "of_interest" := by cases t <;> decide

theorem actionFields_cases {i : Text} {a : Action} (h : a.tag = [] ∨ a.tag ∈ validTags) (store : Text → Text)
    (directory : Text) :
    VisitLog.actionFields i a = [i, a.timestamp, a.url, a.title] ∧
        a.op store directory = ⟨a.timestamp, a.url, a.title, .visit⟩ ∧ a.tag = [] ∨
      VisitLog.actionFields i a = [i, a.timestamp, a.url, a.title, ascii "of_interest"] ∧
        a.op store directory = ⟨a.timestamp, a.url, a.title, .ofInterest⟩ ∧ a.tag = ascii "of_interest" ∨
      ∃ t : EventsTable, VisitLog.actionFields i a = [i, a.timestamp, a.url, a.title, t.tag, a.filename] ∧
        a.op store directory = ⟨a.timestamp, a.url, a.title, .event t (store a.filename) directory⟩ ∧
        a.tag = t.tag := by
  have hev : ∀ t : EventsTable, a.tag = t.tag →
      VisitLog.actionFields i a = [i, a.timestamp, a.url, a.title, t.tag, a.filename] ∧
        a.op store directory = ⟨a.timestamp, a.url, a.title, .event t (store a.filename) directory⟩ ∧
        a.tag = t.tag := by
    intro t ht
    have hr : t.tag = ascii "read" ∨ t.tag = ascii "skimmed" := by cases t <;> simp [EventsTable.tag]
    refine ⟨by simp [VisitLog.actionFields, ht, t.tag_ne.1, hr], ?_, ht⟩
    simp [Action.op, ht, t.tag_ne.2]
  rcases h with h | h
  · left; refine ⟨by simp [VisitLog.actionFields, h], ?_, h⟩
    unfold Action.op; rw [h]; congr
  · rcases mem_validTags h with h | h | h
    · right; left
      refine ⟨?_, by simp [Action.op, h], h⟩
      unfold VisitLog.actionFields
      rw [h, if_neg (by decide), if_neg (by decide)]; rfl
    · right; right; exact ⟨_, hev _ h⟩
    · right; right; exact ⟨_, hev _ h⟩

/-- **On the host's lines the server and a peer agree.** -/
theorem lineOp_entry {e : Entry} (h : e.Wf) (directory : Text) :
    Store.lineOp directory e.line = e.op directory ∧ SyncClient.lineOp directory e.line = e.op directory := by
  unfold Store.lineOp SyncClient.lineOp
  rw [Entry.line_splits h]
  cases e with
  | result i p => exact ⟨rfl, rfl⟩
  | action i a =>
    simp only [Entry.fields, Entry.op]
    rcases actionFields_cases (i := i) h.valid id directory with ⟨hf, ho, -⟩ | ⟨hf, ho, -⟩ | ⟨t, hf, ho, -⟩
    · rw [hf, ho]; exact ⟨rfl, rfl⟩
    · rw [hf, ho]; exact ⟨rfl, rfl⟩
    · rw [hf, ho]; simp [t.tag_ne.2]

end VisitLogger
