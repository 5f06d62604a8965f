import VisitLogger.ReplayAgain

/-!
# The accounts of a replay

Each line that is not blank is counted once: an action and the result that closes it as one record, the others as
orphans or as malformed (`accounted_lines`). What is applied can be read off the lines: for each success, the last
line before it with its record id, if that is an action (`settledIn_eq`).
-/

namespace VisitLogger

/-! ## The length of a dictionary -/

section
variable {α : Type*} {β : α → Type*} [DecidableEq α] {a : α} {s : AList β}

theorem length_keys_erase (h : a ∈ s) : (s.erase a).keys.length + 1 = s.keys.length := by
  have hkey := AList.mem_keys.mp h
  rw [AList.keys_erase, List.length_erase_of_mem hkey]
  exact Nat.sub_add_cancel (List.length_pos_of_mem hkey)

theorem length_keys_insert (b : β a) :
    (s.insert a b).keys.length = if a ∈ s then s.keys.length else s.keys.length + 1 := by
  rw [AList.keys_insert, List.length_cons]
  split
  · rename_i h
    rw [← AList.keys_erase, length_keys_erase h]
  · rename_i h
    rw [List.erase_of_not_mem fun hkey => h (AList.mem_keys.mpr hkey)]

end

namespace VisitsRebuilder

/-! ## Counting lines -/

def ReplayStats.lines (st : ReplayStats) : Nat :=
  2 * (st.successRecords + st.errorRecords) + st.orphanActions + st.orphanResults + st.malformedLines

/-- The lines that a state has an account of: an action that waits is not counted yet. -/
def State.accounted (s : State) : Nat := s.stats.lines + s.pending.keys.length

def blank (line : Text) : Bool := line = []

section
variable (downloads : Text)

theorem lines_applyAction (db : Db) (stats : ReplayStats) (a : Action) :
    (applyAction downloads db stats a).2.lines = stats.lines ∧
    (applyAction downloads db stats a).2.successRecords = stats.successRecords := by
  unfold applyAction
  dsimp only
  by_cases hoi : a.tag = ascii "of_interest"
  · rw [if_pos hoi]
    exact ⟨rfl, rfl⟩
  rw [if_neg hoi]
  cases EventsTable.forTag a.tag with
  | none => exact ⟨rfl, rfl⟩
  | some t => cases t <;> exact ⟨rfl, rfl⟩

theorem accounted_replayResult (s : State) (recordId payload : Text) :
    (replayResult downloads s recordId payload).accounted = s.accounted + 1 := by
  unfold replayResult State.accounted
  cases hl : s.pending.lookup recordId with
  | none => simp only [ReplayStats.lines]; omega
  | some a =>
    have hlen := length_keys_erase (AList.lookup_isSome.mp (by rw [hl]; rfl) : recordId ∈ s.pending)
    dsimp only
    by_cases hok : payload = ascii "success"
    · rw [if_pos hok]
      have hlines := (lines_applyAction downloads s.db s.stats a).1
      unfold ReplayStats.lines at hlines ⊢
      dsimp only
      omega
    · rw [if_neg hok]
      unfold ReplayStats.lines
      dsimp only
      omega

theorem accounted_replayAction (s : State) (recordId : Text) (a : Action) :
    (replayAction s recordId a).accounted = s.accounted + 1 := by
  unfold replayAction State.accounted
  dsimp only
  rw [length_keys_insert]
  by_cases hmem : recordId ∈ s.pending
  · -- the action that waited is an orphan, and its place is taken
    rw [if_pos hmem, if_pos hmem]
    unfold ReplayStats.lines
    dsimp only
    omega
  · rw [if_neg hmem, if_neg hmem]
    omega

theorem accounted_replayLine (s : State) (line : Text) :
    (replayLine downloads s line).accounted = s.accounted + if blank line then 0 else 1 := by
  unfold replayLine blank
  by_cases hnil : line = []
  · simp [hnil]
  have hmalformed : ∀ st : ReplayStats,
      ({ st with malformedLines := st.malformedLines + 1 } : ReplayStats).lines = st.lines + 1 :=
    fun st => by unfold ReplayStats.lines; dsimp only; omega
  rw [if_neg hnil]
  simp only [hnil, decide_false, Bool.false_eq_true, if_false]
  cases hsplit : splitTabs line with
  | nil =>
    -- a line has a first field
    exact absurd hsplit (List.splitOn_ne_nil _ _)
  | cons recordId rest =>
    dsimp only
    by_cases huuid : (!looksLikeUuid recordId) = true
    · rw [if_pos huuid]
      unfold State.accounted
      dsimp only
      rw [hmalformed]
      omega
    rw [if_neg huuid]
    by_cases hres : (decide (rest.length = 1) && isResultPayload (rest.headD [])) = true
    · rw [if_pos hres]
      exact accounted_replayResult downloads s recordId _
    · rw [if_neg hres]
      cases parseActionFields rest with
      | none =>
        unfold State.accounted
        dsimp only
        rw [hmalformed]
        omega
      | some a => exact accounted_replayAction s recordId a

theorem accounted_lines (s : State) (lines : List Text) :
    (lines.foldl (replayLine downloads) s).accounted =
      s.accounted + (lines.filter fun l => !blank l).length := by
  induction lines generalizing s with
  | nil => rfl
  | cons line lines ih =>
    rw [List.foldl_cons, ih, accounted_replayLine, List.filter_cons]
    cases blank line with
    | true => simp
    | false => simp only [Bool.not_false, if_true, Bool.false_eq_true, if_false, List.length_cons]; omega

theorem accounted_files (s : State) (files : List (Text × Text)) :
    (files.foldl (replayFile downloads) s).accounted =
      s.accounted + ((files.flatMap fun file => fileLines file.2).filter fun l => !blank l).length := by
  induction files generalizing s with
  | nil => rfl
  | cons file files ih =>
    rw [List.foldl_cons, ih, replayFile, replayOneFile, accounted_lines, List.flatMap_cons, List.filter_append,
      List.length_append, ← Nat.add_assoc]
    rfl

end

/-! ## What is applied -/

/-- The last line with a record id, if it is an action: neither a result has closed it nor an action replaced it. -/
def openAction (before : List Text) (recordId : Text) : Option Action :=
  match (entriesOf before).reverse.find? fun e => e.recordId = recordId with
  | some (.action _ a) => some a
  | _ => none

/-- The action that line `j` closes as a success. -/
def appliedAt (lines : List Text) (j : Nat) : Option Action :=
  match lines[j]?.bind readLine with
  | some (.result recordId payload) =>
    if payload = ascii "success" then openAction (lines.take j) recordId else none
  | _ => none

def applied (lines : List Text) : List Action := (List.range lines.length).filterMap (appliedAt lines)

theorem openAction_append (before : List Text) (line i : Text) :
    openAction (before ++ [line]) i =
      match readLine line with
      | some (.action j a) => if j = i then some a else openAction before i
      | some (.result j _) => if j = i then none else openAction before i
      | none => openAction before i := by
  have hentries : entriesOf (before ++ [line]) = entriesOf before ++ (readLine line).toList := by
    rw [entriesOf, List.filterMap_append, entriesOf]
    cases hline : readLine line <;> simp [hline]
  unfold openAction
  rw [hentries, List.reverse_append]
  cases readLine line with
  | none => rfl
  | some e =>
    cases e with
    | action j a =>
      rw [Option.toList_some, List.reverse_singleton, List.singleton_append]
      by_cases hj : j = i <;> simp [Entry.recordId, hj]
    | result j payload =>
      rw [Option.toList_some, List.reverse_singleton, List.singleton_append]
      by_cases hj : j = i <;> simp [Entry.recordId, hj]

theorem waiting_append (pending : Pending) (ls : List Text) (l : Text) :
    waiting pending (ls ++ [l]) = (settle (waiting pending ls) l).1 := List.foldl_append

/-- **What waits under a record id** is its last line, if that is an action. -/
theorem lookup_waiting (lines : List Text) (i : Text) : (waiting ∅ lines).lookup i = openAction lines i := by
  induction lines using List.reverseRecOn with
  | nil => rfl
  | append_singleton lines line ih =>
    rw [waiting_append, openAction_append, settle_eq, ← ih]
    cases readLine line with
    | none => rfl
    | some e =>
      cases e with
      | action j a =>
        by_cases hj : j = i
        · rw [hj]
          simp [settleEntry]
        · simp [settleEntry, hj, AList.lookup_insert_ne (Ne.symm hj)]
      | result j payload =>
        dsimp only [settleEntry]
        unfold settleResult
        by_cases hj : j = i
        · rw [hj, if_pos rfl]
          cases hl : (waiting ∅ lines).lookup i with
          | none => exact hl
          | some a => exact AList.lookup_erase _ _
        · rw [if_neg hj]
          cases (waiting ∅ lines).lookup j with
          | none => rfl
          | some a => exact AList.lookup_erase_ne (Ne.symm hj)

theorem applied_append (lines : List Text) (line : Text) :
    applied (lines ++ [line]) = applied lines ++ (settle (waiting ∅ lines) line).2.toList := by
  have hearlier : ∀ j ∈ List.range lines.length, appliedAt (lines ++ [line]) j = appliedAt lines j := by
    intro j hj
    have hlt := List.mem_range.mp hj
    unfold appliedAt
    rw [List.getElem?_append_left hlt, List.take_append_of_le_length (Nat.le_of_lt hlt)]
  have hlast : appliedAt (lines ++ [line]) lines.length = (settle (waiting ∅ lines) line).2 := by
    unfold appliedAt
    rw [List.getElem?_concat_length, List.take_left, Option.bind_some, settle_eq]
    cases readLine line with
    | none => rfl
    | some e =>
      cases e with
      | action j a => rfl
      | result j payload =>
        dsimp only [settleEntry]
        unfold settleResult
        rw [← lookup_waiting]
        cases (waiting ∅ lines).lookup j <;> simp
  unfold applied
  rw [List.length_append, List.length_singleton, List.range_succ, List.filterMap_append,
    List.filterMap_congr hearlier, List.filterMap_cons, hlast, List.filterMap_nil]
  cases (settle (waiting ∅ lines) line).2 <;> rfl

/-- **Each success applies the action that waits for it**, and nothing else is applied. -/
theorem settledIn_eq (lines : List Text) : settledIn ∅ lines = applied lines := by
  induction lines using List.reverseRecOn with
  | nil => rfl
  | append_singleton lines line ih =>
    rw [settledIn_append, applied_append, ih]
    simp [settledIn]

/-! ## The replay -/

theorem apply_insertSnapshot (db : Db) (date : Text) (o : Op) :
    (db.insertSnapshot date).apply o = (db.apply o).insertSnapshot date := by
  unfold Db.apply
  cases o.mark with
  | visit => rfl
  | ofInterest => rfl
  | event t f d =>
    dsimp only
    unfold Db.addEvent
    cases t
    all_goals
      dsimp only
      split
      · rename_i h
        exact (if_pos h).symm ▸ rfl
      · rename_i h
        exact (if_neg h).symm ▸ rfl

theorem ops_insertSnapshots (db : Db) (dates : List Text) (l : List Op) :
    (dates.foldl Db.insertSnapshot (db.ops l)) = (dates.foldl Db.insertSnapshot db).ops l := by
  have hone : ∀ (db : Db) date, (db.ops l).insertSnapshot date = (db.insertSnapshot date).ops l := by
    intro db date
    induction l generalizing db with
    | nil => rfl
    | cons o l ih =>
      rw [Db.ops, Db.ops, List.foldl_cons, List.foldl_cons, apply_insertSnapshot]
      exact ih (db.apply o)
  induction dates generalizing db with
  | nil => rfl
  | cons date dates ih => rw [List.foldl_cons, List.foldl_cons, hone, ih]

section
variable (downloads : Text)

theorem successRecords_replayLine (s : State) (line : Text) :
    (replayLine downloads s line).stats.successRecords =
      s.stats.successRecords + (settle s.pending line).2.toList.length := by
  unfold replayLine settle
  dsimp only
  by_cases hnil : line = []
  · rw [if_pos hnil, if_pos hnil]
    rfl
  rw [if_neg hnil, if_neg hnil]
  cases splitTabs line with
  | nil => rfl
  | cons recordId rest =>
    dsimp only
    by_cases huuid : (!looksLikeUuid recordId) = true
    · rw [if_pos huuid, if_pos huuid]
      rfl
    rw [if_neg huuid, if_neg huuid]
    by_cases hres : (decide (rest.length = 1) && isResultPayload (rest.headD [])) = true
    · rw [if_pos hres, if_pos hres]
      unfold replayResult settleResult
      cases s.pending.lookup recordId with
      | none => rfl
      | some a =>
        dsimp only
        by_cases hok : rest.headD [] = ascii "success"
        · rw [if_pos hok, if_pos hok]
          dsimp only
          rw [(lines_applyAction downloads s.db s.stats a).2]
          rfl
        · rw [if_neg hok, if_neg hok]
          rfl
    · rw [if_neg hres, if_neg hres]
      cases parseActionFields rest with
      | none => rfl
      | some a =>
        unfold replayAction
        dsimp only
        split <;> rfl

theorem successRecords_lines (s : State) (lines : List Text) :
    (lines.foldl (replayLine downloads) s).stats.successRecords =
      s.stats.successRecords + (settledIn s.pending lines).length := by
  induction lines generalizing s with
  | nil => rfl
  | cons line lines ih =>
    rw [List.foldl_cons, ih, successRecords_replayLine, (replayLine_settle downloads s line).1, settledIn,
      List.length_append, Nat.add_assoc]

theorem replayFiles_spec (s : State) (files : List (Text × Text)) :
    (files.foldl (replayFile downloads) s).db =
        ((files.map Prod.fst).foldl Db.insertSnapshot s.db).ops
          (actionOps downloads (settledIn s.pending (files.flatMap fun file => fileLines file.2))) ∧
      (files.foldl (replayFile downloads) s).stats.successRecords =
        s.stats.successRecords + (settledIn s.pending (files.flatMap fun file => fileLines file.2)).length := by
  induction files generalizing s with
  | nil => exact ⟨rfl, rfl⟩
  | cons file files ih =>
    have hfile : replayFile downloads s file =
        (fileLines file.2).foldl (replayLine downloads) { s with db := s.db.insertSnapshot file.1 } := rfl
    obtain ⟨hp, hdb⟩ := replayLines_settled downloads { s with db := s.db.insertSnapshot file.1 }
      (fileLines file.2)
    have hsucc := successRecords_lines downloads { s with db := s.db.insertSnapshot file.1 } (fileLines file.2)
    obtain ⟨ihdb, ihsucc⟩ := ih (replayFile downloads s file)
    rw [← hfile] at hp hdb hsucc
    rw [List.foldl_cons, List.flatMap_cons, settledIn_append]
    constructor
    · rw [ihdb, hp, hdb, ops_insertSnapshots, List.map_cons, List.foldl_cons, actionOps, actionOps, actionOps,
        List.map_append, Db.ops_append]
    · rw [ihsucc, hp, hsucc, List.length_append, Nat.add_assoc]

/-- The lines of the logs, in the order in which they are replayed. -/
def logLines (logDir : Option Dir) (icloudDir : Option (List (Text × Option Dir))) : List Text :=
  (collectLogPaths logDir icloudDir).flatMap fun file => fileLines file.2

theorem replayLogs_db (db : Db) (logDir : Option Dir) (icloudDir : Option (List (Text × Option Dir))) :
    (replayLogs downloads db logDir icloudDir).1 =
      (((collectLogPaths logDir icloudDir).map Prod.fst).foldl Db.insertSnapshot db).ops
        (actionOps downloads (applied (logLines logDir icloudDir))) := by
  have hdb := (replayFiles_spec downloads ⟨db, ∅, {}⟩ (collectLogPaths logDir icloudDir)).1
  rw [← logLines, settledIn_eq] at hdb
  exact hdb

/-- **The counters of a replay account for every line** that is not blank, and each success that closes an action
applies it once, to a database that has the dates of the logs; nothing else is applied. -/
theorem replay_accounts (db : Db) (logDir : Option Dir) (icloudDir : Option (List (Text × Option Dir))) :
    let r := replayLogs downloads db logDir icloudDir
    ((logLines logDir icloudDir).filter fun l => !blank l).length =
        2 * (r.2.successRecords + r.2.errorRecords) + r.2.orphanActions + r.2.orphanResults + r.2.malformedLines ∧
      r.2.successRecords = (applied (logLines logDir icloudDir)).length ∧
      r.1 = (((collectLogPaths logDir icloudDir).map Prod.fst).foldl Db.insertSnapshot db).ops
        (actionOps downloads (applied (logLines logDir icloudDir))) := by
  have hsucc := (replayFiles_spec downloads ⟨db, ∅, {}⟩ (collectLogPaths logDir icloudDir)).2
  have hacc := accounted_files downloads ⟨db, ∅, {}⟩ (collectLogPaths logDir icloudDir)
  rw [← logLines] at hsucc hacc
  rw [settledIn_eq] at hsucc
  refine ⟨?_, ?_, replayLogs_db downloads db logDir icloudDir⟩
  · unfold replayLogs
    have hempty : State.accounted ⟨db, ∅, {}⟩ = 0 := rfl
    rw [hempty, Nat.zero_add] at hacc
    rw [← hacc]
    unfold State.accounted ReplayStats.lines
    dsimp only
    rw [AList.keys, List.keys, List.length_map]
    omega
  · unfold replayLogs
    dsimp only
    rw [hsucc]
    exact Nat.zero_add _

end

end VisitsRebuilder

end VisitLogger
