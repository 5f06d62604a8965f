import VisitLogger.RebuildSound

/-!
# What a replay applies

The rebuilder pairs actions with results, whatever lines the logs hold: `settle`
is what one line does to the waiting actions, and `settledIn` are the actions
that the lines close as successes. A replay applies these (`replayLines_settled`).
-/

namespace VisitLogger

namespace VisitsRebuilder

def settleResult (pending : Pending) (recordId payload : Text) : Pending × Option Action :=
  match pending.lookup recordId with
  | none => (pending, none)
  | some a => (pending.erase recordId, if payload = ascii "success" then some a else none)

/-- What a line does to the waiting actions, and the action that it closes as a success. -/
def settle (pending : Pending) (line : Text) : Pending × Option Action :=
  if line = [] then (pending, none)
  else match splitTabs line with
    | [] => (pending, none)
    | recordId :: rest =>
      if !looksLikeUuid recordId then (pending, none)
      else if rest.length = 1 && isResultPayload (rest.headD []) then settleResult pending recordId
        (rest.headD [])
      else match parseActionFields rest with
        | none => (pending, none)
        | some a => (pending.insert recordId a, none)

def waiting (pending : Pending) (lines : List Text) : Pending :=
  lines.foldl (fun p line => (settle p line).1) pending

def settledIn : Pending → List Text → List Action
  | _, [] => []
  | pending, line :: lines => (settle pending line).2.toList ++ settledIn (settle pending line).1 lines

def localActions (logDir : Option Dir) (icloudDir : Option (List (Text × Option Dir))) : List Action :=
  settledIn ∅ ((collectLogPaths logDir icloudDir).flatMap fun file => fileLines file.2)

theorem settledIn_append (pending : Pending) (ls ms : List Text) :
    settledIn pending (ls ++ ms) = settledIn pending ls ++ settledIn (waiting pending ls) ms := by
  induction ls generalizing pending with
  | nil => rfl
  | cons l ls ih =>
    rw [List.cons_append, settledIn, ih, settledIn, List.append_assoc]
    rfl

section
variable (downloads : Text)

def actionOps (l : List Action) : List Op := l.map fun a => a.op osPathBasename downloads

theorem replayResult_settle (s : State) (recordId payload : Text) :
    (replayResult downloads s recordId payload).pending = (settleResult s.pending recordId payload).1 ∧
      (replayResult downloads s recordId payload).db =
        s.db.ops (actionOps downloads (settleResult s.pending recordId payload).2.toList) := by
  unfold replayResult settleResult
  cases s.pending.lookup recordId with
  | none => exact ⟨rfl, rfl⟩
  | some a =>
    dsimp only
    by_cases h : payload = ascii "success"
    · rw [if_pos h, if_pos h]
      refine ⟨rfl, ?_⟩
      dsimp only
      rw [applyAction_db]
      rfl
    · rw [if_neg h, if_neg h]
      exact ⟨rfl, rfl⟩

theorem replayLine_settle (s : State) (line : Text) :
    (replayLine downloads s line).pending = (settle s.pending line).1 ∧
      (replayLine downloads s line).db = s.db.ops (actionOps downloads (settle s.pending line).2.toList) := by
  unfold replayLine settle
  dsimp only
  by_cases hnil : line = []
  · rw [if_pos hnil, if_pos hnil]
    exact ⟨rfl, rfl⟩
  rw [if_neg hnil, if_neg hnil]
  cases splitTabs line with
  | nil => exact ⟨rfl, rfl⟩
  | cons recordId rest =>
    dsimp only
    by_cases huuid : (!looksLikeUuid recordId) = true
    · rw [if_pos huuid, if_pos huuid]
      exact ⟨rfl, rfl⟩
    rw [if_neg huuid, if_neg huuid]
    by_cases hres : (decide (rest.length = 1) && isResultPayload (rest.headD [])) = true
    · rw [if_pos hres, if_pos hres]
      exact replayResult_settle downloads s recordId _
    · rw [if_neg hres, if_neg hres]
      cases parseActionFields rest with
      | none => exact ⟨rfl, rfl⟩
      | some a => exact ⟨rfl, rfl⟩

theorem rows_ops_refl {a b : Db} (h : a.rows = b.rows) (l : List Op) : (a.ops l).rows = (b.ops l).rows :=
  Db.rows_ops h (List.forall₂_same.mpr fun o _ => Op.Same.refl o)

theorem replayLines_settled (s : State) (lines : List Text) :
    (lines.foldl (replayLine downloads) s).pending = waiting s.pending lines ∧
      (lines.foldl (replayLine downloads) s).db =
        s.db.ops (actionOps downloads (settledIn s.pending lines)) := by
  induction lines generalizing s with
  | nil => exact ⟨rfl, rfl⟩
  | cons line lines ih =>
    obtain ⟨hp, hdb⟩ := replayLine_settle downloads s line
    obtain ⟨hp', hdb'⟩ := ih (replayLine downloads s line)
    rw [List.foldl_cons]
    refine ⟨by rw [hp', hp]; rfl, ?_⟩
    rw [hdb', hdb, hp, settledIn, actionOps, actionOps, actionOps, List.map_append, Db.ops_append]

theorem rows_replayFiles (s : State) (files : List (Text × Text)) :
    (files.foldl (replayFile downloads) s).db.rows =
      (s.db.ops (actionOps downloads (settledIn s.pending (files.flatMap fun file =>
        fileLines file.2)))).rows := by
  induction files generalizing s with
  | nil => rfl
  | cons file files ih =>
    obtain ⟨hp, hdb⟩ := replayLines_settled downloads { s with db := s.db.insertSnapshot file.1 }
      (fileLines file.2)
    have hfile : replayFile downloads s file = (fileLines file.2).foldl (replayLine downloads)
        { s with db := s.db.insertSnapshot file.1 } := rfl
    rw [List.foldl_cons, ih, hfile, hp, hdb, List.flatMap_cons, settledIn_append]
    simp only [actionOps, List.map_append, Db.ops_append]
    exact rows_ops_refl (rows_ops_refl (Db.rows_insertSnapshot s.db file.1) _) _

end

end VisitsRebuilder

end VisitLogger
