import Mathlib.Data.List.AList
import VisitLogger.Paths
import VisitLogger.Replay

/-!
# Rebuilding the database from the logs

`visits_rebuilder` replays day logs file by file. An action waits in a
dictionary under its record id until its result line comes; a success applies
it, an error drops it. The dictionary outlives the file, since the two lines
may end up in different files.
-/

namespace VisitLogger

open Framing

/-! ## The statements of host.py -/

namespace HostPy

variable (downloads : Text) (db : Db)

/-- `_insert_event`; `downloads` is `DOWNLOADS_SNAPSHOTS_DIR`. -/
def insertEvent (t : EventsTable) (url timestamp filename : Text) : Db × Bool :=
  if db.hasVisit url then
    let r := db.insertEvent t ⟨url, timestamp, osPathBasename filename, downloads⟩
    (if r.2 > 0 then r.1.increment t url else r.1, true)
  else (db, false)

def tagVisit (url tag timestamp filename : Text) : Db × Bool :=
  if tag = ascii "of_interest" then
    let r := db.setOfInterest url
    (r.1, r.2 > 0)
  else match EventsTable.forTag tag with
    | some t => insertEvent downloads db t url timestamp filename
    | none => (db, false)

end HostPy

namespace VisitsRebuilder

structure ReplayStats where
  visitsInserted : Nat := 0
  ofInterestSet : Nat := 0
  readEvents : Nat := 0
  skimmedEvents : Nat := 0
  successRecords : Nat := 0
  errorRecords : Nat := 0
  orphanActions : Nat := 0
  orphanResults : Nat := 0
  malformedLines : Nat := 0
  deriving DecidableEq, Repr

/-! ## One line -/

def parseActionFields : List Text → Option Action
  | [timestamp, url, title] => some ⟨timestamp, url, title, [], []⟩
  | [timestamp, url, title, tag] => some ⟨timestamp, url, title, tag, []⟩
  | [timestamp, url, title, tag, filename] => some ⟨timestamp, url, title, tag, filename⟩
  | _ => none

abbrev Pending := AList fun _ : Text => Action

structure State where
  db : Db
  pending : Pending
  stats : ReplayStats

variable (downloads : Text)

def applyAction (db : Db) (stats : ReplayStats) (a : Action) : Db × ReplayStats :=
  let db := db.insertVisit a.timestamp a.url a.title
  let stats := { stats with visitsInserted := stats.visitsInserted + 1 }
  if a.tag = ascii "of_interest" then
    ((db.setOfInterest a.url).1, { stats with ofInterestSet := stats.ofInterestSet + 1 })
  else match EventsTable.forTag a.tag with
    | some t =>
      ((HostPy.tagVisit downloads db a.url a.tag a.timestamp a.filename).1,
        match t with
        | .read => { stats with readEvents := stats.readEvents + 1 }
        | .skimmed => { stats with skimmedEvents := stats.skimmedEvents + 1 })
    | none => (db, stats)

def replayResult (s : State) (recordId payload : Text) : State :=
  match s.pending.lookup recordId with
  | none => { s with stats := { s.stats with orphanResults := s.stats.orphanResults + 1 } }
  | some a =>
    let pending := s.pending.erase recordId
    if payload = ascii "success" then
      let r := applyAction downloads s.db s.stats a
      ⟨r.1, pending, { r.2 with successRecords := r.2.successRecords + 1 }⟩
    else { s with pending, stats := { s.stats with errorRecords := s.stats.errorRecords + 1 } }

def replayAction (s : State) (recordId : Text) (a : Action) : State :=
  { s with
    pending := s.pending.insert recordId a
    stats :=
      if recordId ∈ s.pending then { s.stats with orphanActions := s.stats.orphanActions + 1 } else s.stats }

/-- The body of the loop in `_replay_one_file`. -/
def replayLine (s : State) (line : Text) : State :=
  let malformed := { s with stats := { s.stats with malformedLines := s.stats.malformedLines + 1 } }
  if line = [] then s
  else match splitTabs line with
    | [] => s
    | recordId :: rest =>
      if !looksLikeUuid recordId then malformed
      else if rest.length = 1 && isResultPayload (rest.headD []) then
        replayResult downloads s recordId (rest.headD [])
      else match parseActionFields rest with
        | none => malformed
        | some a => replayAction s recordId a

/-! ## Files -/

def replayOneFile (s : State) (content : Text) : State := (fileLines content).foldl (replayLine downloads) s

/-- A directory as `os.listdir` shows it: a regular file has its content. -/
abbrev Dir := List (Text × Option Text)

/-- The order of `discovered.sort(key=...)`: by date, the archive first. -/
def logBefore (a b : Text × Nat × Text) : Prop := a.1 < b.1 ∨ a.1 = b.1 ∧ a.2.1 ≤ b.2.1

instance : DecidableRel logBefore := fun _ _ => inferInstanceAs (Decidable (_ ∨ _))

/-- `_collect_log_paths`: the dates and contents of the logs to replay. A
directory that does not exist is `none`. -/
def collectLogPaths (logDir : Option Dir) (icloudDir : Option (List (Text × Option Dir))) :
    List (Text × Text) :=
  let archived := (icloudDir.getD []).flatMap fun (dateEntry, sub) =>
    if dateDirRe dateEntry then
      (sub.getD []).filterMap fun (entry, file) =>
        match logRe entry, file with
        | some d, some content => if d = dateEntry then some (d, 0, content) else none
        | _, _ => none
    else []
  let fresh := (logDir.getD []).filterMap fun (entry, file) =>
    match logRe entry, file with
    | some d, some content => some (d, 1, content)
    | _, _ => none
  let discovered : List (Text × Nat × Text) := archived ++ fresh
  (discovered.insertionSort logBefore).map fun e => (e.1, e.2.2)

def replayFile (s : State) (file : Text × Text) : State :=
  replayOneFile downloads { s with db := s.db.insertSnapshot file.1 } file.2

def replayLogs (db : Db) (logDir : Option Dir) (icloudDir : Option (List (Text × Option Dir))) :
    Db × ReplayStats :=
  let s := (collectLogPaths logDir icloudDir).foldl (replayFile downloads) ⟨db, ∅, {}⟩
  (s.db, { s.stats with orphanActions := s.stats.orphanActions + s.pending.entries.length })

end VisitsRebuilder

/-! ## The host's lines -/

namespace VisitsRebuilder

def parsed (a : Action) : Action :=
  if a.tag = ascii "read" ∨ a.tag = ascii "skimmed" then a else { a with filename := [] }

theorem parsed_op {a : Action} (store : Text → Text) (directory : Text) :
    (parsed a).op store directory = a.op store directory := by
  unfold parsed
  split
  · rfl
  · rename_i h
    rw [not_or] at h
    simp only [Action.op, EventsTable.forTag, h.1, h.2, if_false]

variable (downloads : Text)

theorem applyAction_db (db : Db) (stats : ReplayStats) (a : Action) :
    (applyAction downloads db stats a).1 = db.apply (a.op osPathBasename downloads) := by
  unfold applyAction Action.op Db.apply
  by_cases h : a.tag = ascii "of_interest"
  · simp [h]
  · cases ht : EventsTable.forTag a.tag with
    | none => simp [h]
    | some t =>
      have hv : (db.insertVisit a.timestamp a.url a.title).hasVisit a.url = true :=
        (Table.has_iff _).mpr ((db.mem_urls_insertVisit).mpr (Or.inr rfl))
      simp only [h, ht, if_false, HostPy.tagVisit, HostPy.insertEvent, hv, if_true, Db.addEvent, gt_iff_lt,
        Nat.pos_iff_ne_zero, ne_eq, ite_not]

def replayEntry (s : State) : Entry → State
  | .action i a => replayAction s i (parsed a)
  | .result i p => replayResult downloads s i p

/-- **The rebuilder reads a line of the host as its entry.** -/
theorem replayLine_entry {e : Entry} (h : e.Wf) (s : State) :
    replayLine downloads s e.line = replayEntry downloads s e := by
  have hsplit := Entry.line_splits h
  have hne : e.line ≠ [] := by
    intro hl
    rw [hl] at hsplit
    have hu := looksLikeUuid_ne_nil h.uuid
    cases e with
    | action i a => simp [splitTabs, Entry.fields, VisitLog.actionFields] at hsplit
    | result i p => simp [splitTabs, Entry.fields] at hsplit
  unfold replayLine
  rw [if_neg hne, hsplit]
  have hu := h.uuid
  cases e with
  | result i p =>
    simp only [Entry.recordId] at hu
    have hp : isResultPayload p = true := h.valid
    simp [Entry.fields, hu, hp, replayEntry]
  | action i a =>
    simp only [Entry.recordId] at hu
    simp only [Entry.fields, replayEntry]
    rcases actionFields_cases (i := i) h.valid id [] with ⟨hf, -, ht⟩ | ⟨hf, -, ht⟩ | ⟨t, hf, -, ht⟩
    · have : parsed a = ⟨a.timestamp, a.url, a.title, [], []⟩ := by
        unfold parsed; rw [ht, if_neg (by decide)]
      rw [hf]
      simp [hu, parseActionFields, this]
    · have : parsed a = ⟨a.timestamp, a.url, a.title, ascii "of_interest", []⟩ := by
        unfold parsed; rw [ht, if_neg (by decide)]
      rw [hf]
      simp [hu, parseActionFields, this]
    · have hr : t.tag = ascii "read" ∨ t.tag = ascii "skimmed" := by cases t <;> simp [EventsTable.tag]
      have : parsed a = ⟨a.timestamp, a.url, a.title, t.tag, a.filename⟩ := by
        unfold parsed; rw [ht, if_pos hr, ← ht]
      rw [hf]
      simp [hu, parseActionFields, this]

end VisitsRebuilder

end VisitLogger
