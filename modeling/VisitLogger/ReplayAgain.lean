import VisitLogger.Settled

/-!
# Replaying lines again

An operation changes a database that has it already in nothing (`apply_of_has`).
Lines in which no action comes after the result of its record apply, when they
are replayed again, only what they have applied before, and leave the same
actions waiting (`settledIn_again`); so the second replay changes nothing
(`Agree.again`).
-/

namespace VisitLogger

open Table

/-! ## Operations that change nothing -/

namespace Db

def HasMark (db : Db) (u : Text) : Prop := ∀ v ∈ db.visits, v.url = u → v.ofInterest = some (ascii "1")

structure Has (db : Db) (o : Op) : Prop where
  url : o.url ∈ db.urls
  ofInterest : o.mark = .ofInterest → db.HasMark o.url
  event : ∀ t f d, o.mark = .event t f d → (o.url, o.timestamp) ∈ db.keys t

variable {db : Db} {o : Op}

theorem setEvents_events (db : Db) (t : EventsTable) : db.setEvents t (db.events t) = db := by cases t <;> rfl

theorem setOfInterest_of_hasMark {u : Text} (h : db.HasMark u) : (db.setOfInterest u).1 = db := by
  have hvisits :
      db.visits.map (fun v => if v.url = u then { v with ofInterest := some (ascii "1") } else v) = db.visits := by
    refine (List.map_congr_left fun v hv => ?_).trans (List.map_id _)
    by_cases hu : v.url = u
    · rw [if_pos hu, ← h v hv hu]
      rfl
    · rw [if_neg hu]
      rfl
  simp [setOfInterest, updateWhere, hvisits]

theorem addEvent_of_key {t : EventsTable} {e : Event} (h : (e.url, e.timestamp) ∈ db.keys t) :
    db.addEvent t e = db := by
  have hhas : has (fun e : Event => (e.url, e.timestamp)) (e.url, e.timestamp) (db.events t) = true :=
    (has_iff _).mpr h
  simp [addEvent, insertEvent, insertOrIgnore, hhas, setEvents_events]

/-- **An operation that a database has changes nothing.** -/
theorem apply_of_has (h : db.Has o) : db.apply o = db := by
  unfold apply
  rw [insertVisit_of_mem db h.url]
  cases hm : o.mark with
  | visit => rfl
  | ofInterest => exact setOfInterest_of_hasMark (h.ofInterest hm)
  | event t f d => exact addEvent_of_key (h.event t f d hm)

theorem HasMark.insertVisit {u : Text} (h : db.HasMark u) (hu : u ∈ db.urls) (ts u' ti : Text) :
    (db.insertVisit ts u' ti).HasMark u := by
  intro v hv hvu
  rcases (mem_visits_insertVisit db).mp hv with hv | ⟨hnew, rfl⟩
  · exact h v hv hvu
  · exact absurd hu (hvu ▸ hnew)

theorem hasMark_setOfInterest (db : Db) (u : Text) : (db.setOfInterest u).1.HasMark u := by
  intro v hv hvu
  obtain ⟨w, -, rfl⟩ := List.mem_map.mp hv
  by_cases hw : w.url = u
  · simp [hw]
  · simp only [hw, decide_false, Bool.false_eq_true, if_false] at hvu

theorem HasMark.setOfInterest {u : Text} (h : db.HasMark u) (u' : Text) :
    (db.setOfInterest u').1.HasMark u := by
  intro v hv hvu
  obtain ⟨w, hw, rfl⟩ := List.mem_map.mp hv
  by_cases hwu : w.url = u'
  · simp [hwu]
  · simp only [hwu, decide_false, Bool.false_eq_true, if_false] at hvu ⊢
    exact h w hw hvu

theorem HasMark.addEvent {u : Text} (h : db.HasMark u) (t : EventsTable) (e : Event) :
    (db.addEvent t e).HasMark u := by
  intro v hv hvu
  unfold Db.addEvent at hv
  dsimp only at hv
  split at hv
  · rw [visits_insertEvent] at hv
    exact h v hv hvu
  · obtain ⟨w, hw, rfl⟩ := List.mem_map.mp hv
    rw [visits_insertEvent] at hw
    by_cases hwu : w.url = e.url
    · simp only [hwu, decide_true, if_true, EventsTable.increment_url,
        EventsTable.increment_ofInterest] at hvu ⊢
      exact h w hw (hwu.trans hvu)
    · simp only [hwu, decide_false, Bool.false_eq_true, if_false] at hvu ⊢
      exact h w hw hvu

theorem mem_urls_apply {u : Text} (db : Db) (o : Op) : u ∈ (db.apply o).urls ↔ u ∈ db.urls ∨ u = o.url := by
  unfold apply
  cases o.mark with
  | visit => exact mem_urls_insertVisit db
  | ofInterest =>
    dsimp only
    rw [urls_setOfInterest]
    exact mem_urls_insertVisit db
  | event t f d =>
    dsimp only
    rw [urls_addEvent]
    exact mem_urls_insertVisit db

theorem HasMark.apply {u : Text} (h : db.HasMark u) (hu : u ∈ db.urls) (o : Op) : (db.apply o).HasMark u := by
  have hvisit := h.insertVisit hu o.timestamp o.url o.title
  unfold Db.apply
  cases o.mark with
  | visit => exact hvisit
  | ofInterest => exact hvisit.setOfInterest o.url
  | event t f d => exact hvisit.addEvent t _

theorem keys_apply_mono {t : EventsTable} {k : Text × Text} (h : k ∈ db.keys t) (o : Op) :
    k ∈ (db.apply o).keys t := by
  obtain ⟨e, he, rfl⟩ := List.mem_map.mp h
  exact List.mem_map.mpr ⟨e, mem_events_apply.mpr (Or.inl he), rfl⟩

theorem Has.apply (h : db.Has o) (o' : Op) : (db.apply o').Has o where
  url := (mem_urls_apply db o').mpr (Or.inl h.url)
  ofInterest hm := (h.ofInterest hm).apply h.url o'
  event t f d hm := keys_apply_mono (h.event t f d hm) o'

theorem has_apply (db : Db) (o : Op) : (db.apply o).Has o where
  url := (mem_urls_apply db o).mpr (Or.inr rfl)
  ofInterest hm := by
    unfold apply
    rw [hm]
    exact hasMark_setOfInterest _ _
  event t f d hm := by
    unfold apply
    rw [hm]
    exact (mem_keys_addEvent _).mpr (Or.inr ⟨rfl, rfl⟩)

theorem Has.ops (h : db.Has o) (l : List Op) : (db.ops l).Has o := by
  induction l generalizing db with
  | nil => exact h
  | cons o' l ih => exact ih (h.apply o')

theorem has_ops {l : List Op} (h : o ∈ l) (db : Db) : (db.ops l).Has o := by
  induction l generalizing db with
  | nil => cases h
  | cons o' l ih =>
    rcases List.mem_cons.mp h with rfl | h
    · exact (has_apply db o).ops l
    · exact ih h (db.apply o')

theorem ops_of_has {l : List Op} (h : ∀ o ∈ l, db.Has o) : db.ops l = db := by
  induction l with
  | nil => rfl
  | cons o l ih =>
    rw [Db.ops, List.foldl_cons, apply_of_has (h o (by simp))]
    exact ih fun o ho => h o (by simp [ho])

/-! The dates of the snapshots are apart from the visits. -/

theorem snapshots_ops (db : Db) (l : List Op) : (db.ops l).snapshots = db.snapshots := by
  induction l generalizing db with
  | nil => rfl
  | cons o l ih => exact (ih (db.apply o)).trans (snapshots_apply db o)

theorem insertSnapshot_of_mem {date : Text} (h : date ∈ db.snapshots.map Prod.fst) :
    db.insertSnapshot date = db := by
  have hhas : has Prod.fst date db.snapshots = true := (has_iff _).mpr h
  simp [insertSnapshot, insertOrIgnore, hhas]

theorem mem_insertSnapshot (db : Db) (date : Text) : date ∈ (db.insertSnapshot date).snapshots.map Prod.fst :=
  (mem_keys_insertOrIgnore _).mpr (Or.inr rfl)

end Db

/-! ## The entries of lines -/

def Entry.isAction : Entry → Bool
  | .action _ _ => true
  | .result _ _ => false

namespace VisitsRebuilder

def readLine (line : Text) : Option Entry :=
  if line = [] then none
  else match splitTabs line with
    | [] => none
    | recordId :: rest =>
      if !looksLikeUuid recordId then none
      else if rest.length = 1 && isResultPayload (rest.headD []) then some (.result recordId (rest.headD []))
      else (parseActionFields rest).map (.action recordId)

def settleEntry (pending : Pending) : Option Entry → Pending × Option Action
  | none => (pending, none)
  | some (.action recordId a) => (pending.insert recordId a, none)
  | some (.result recordId payload) => settleResult pending recordId payload

theorem settle_eq (pending : Pending) (line : Text) :
    settle pending line = settleEntry pending (readLine line) := by
  unfold settle readLine
  by_cases hnil : line = []
  · rw [if_pos hnil, if_pos hnil]
    rfl
  rw [if_neg hnil, if_neg hnil]
  cases splitTabs line with
  | nil => rfl
  | cons recordId rest =>
    dsimp only
    by_cases huuid : (!looksLikeUuid recordId) = true
    · rw [if_pos huuid, if_pos huuid]
      rfl
    rw [if_neg huuid, if_neg huuid]
    by_cases hres : (decide (rest.length = 1) && isResultPayload (rest.headD [])) = true
    · rw [if_pos hres, if_pos hres]
      rfl
    · rw [if_neg hres, if_neg hres]
      cases parseActionFields rest <;> rfl

def entriesOf (lines : List Text) : List Entry := lines.filterMap readLine

/-- Each record id has at most one action and at most one result, which comes later. -/
def AtMostOnce (lines : List Text) : Prop := ∀ e ∈ entriesOf lines,
  (((entriesOf lines).filter fun e' => e'.recordId = e.recordId).map Entry.isAction).Sublist [true, false]

instance (lines : List Text) : Decidable (AtMostOnce lines) := inferInstanceAs (Decidable (∀ _ ∈ _, _))

/-- No action comes after the result of its record. -/
def OpenFirst (lines : List Text) : Prop := (entriesOf lines).Pairwise fun e e' =>
  e.isAction = false → e'.isAction = true → e'.recordId ≠ e.recordId

theorem AtMostOnce.openFirst {lines before after : List Text}
    (h : AtMostOnce (before ++ lines ++ after)) : OpenFirst lines := by
  have hsub : (entriesOf lines).Sublist (entriesOf (before ++ lines ++ after)) := by
    unfold entriesOf
    rw [List.filterMap_append, List.filterMap_append, List.append_assoc]
    exact (List.sublist_append_left _ _).trans (List.sublist_append_right _ _)
  refine List.Pairwise.sublist hsub (List.pairwise_iff_forall_sublist.mpr ?_)
  intro e e' hpair hr ha hid
  have hmem : e ∈ entriesOf (before ++ lines ++ after) := hpair.subset (by simp)
  have htwo := ((hpair.filter fun x => x.recordId = e.recordId).map Entry.isAction).trans (h e hmem)
  simp only [List.filter_cons, hid, decide_true, if_true, List.filter_nil, List.map_cons, List.map_nil,
    hr, ha] at htwo
  exact absurd htwo (by decide)

/-! ## Waiting actions -/

def SameWaiting (p q : Pending) : Prop := ∀ i, p.lookup i = q.lookup i

section
variable {p q : Pending}

theorem SameWaiting.settle (h : SameWaiting p q) (line : Text) :
    SameWaiting (settle p line).1 (settle q line).1 ∧ (settle p line).2 = (settle q line).2 := by
  rw [settle_eq, settle_eq]
  cases readLine line with
  | none => exact ⟨h, rfl⟩
  | some e =>
    cases e with
    | action i a =>
      refine ⟨fun j => ?_, rfl⟩
      by_cases hj : j = i
      · subst hj
        simp [settleEntry]
      · simp [settleEntry, AList.lookup_insert_ne hj, h j]
    | result i payload =>
      simp only [settleEntry, settleResult, h i]
      cases q.lookup i with
      | none => exact ⟨h, rfl⟩
      | some a =>
        refine ⟨fun j => ?_, rfl⟩
        by_cases hj : j = i
        · subst hj
          simp
        · simp [AList.lookup_erase_ne hj, h j]

theorem SameWaiting.settledIn (h : SameWaiting p q) (lines : List Text) :
    SameWaiting (waiting p lines) (waiting q lines) ∧ settledIn p lines = settledIn q lines := by
  induction lines generalizing p q with
  | nil => exact ⟨h, rfl⟩
  | cons line lines ih =>
    obtain ⟨hw, ha⟩ := h.settle line
    obtain ⟨hrest, hsettled⟩ := ih hw
    refine ⟨hrest, ?_⟩
    rw [VisitsRebuilder.settledIn, VisitsRebuilder.settledIn, ha, hsettled]

theorem waiting_none {i : Text} (h : p.lookup i = none) {lines : List Text}
    (hl : ∀ e ∈ entriesOf lines, e.isAction = true → e.recordId ≠ i) : (waiting p lines).lookup i = none := by
  induction lines generalizing p with
  | nil => exact h
  | cons line lines ih =>
    have hrest : ∀ e ∈ entriesOf lines, e.isAction = true → e.recordId ≠ i := by
      intro e he
      refine hl e ?_
      rw [entriesOf, List.filterMap_cons]
      split
      · exact he
      · exact List.mem_cons_of_mem _ he
    refine ih ?_ hrest
    dsimp only
    rw [settle_eq]
    cases hline : readLine line with
    | none => exact h
    | some e =>
      have hmem : e ∈ entriesOf (line :: lines) := List.mem_filterMap.mpr ⟨line, by simp, hline⟩
      cases e with
      | action j a =>
        have hj : j ≠ i := hl _ hmem rfl
        simp [settleEntry, AList.lookup_insert_ne hj.symm, h]
      | result j payload =>
        simp only [settleEntry, settleResult]
        cases p.lookup j with
        | none => exact h
        | some a =>
          by_cases hj : i = j
          · subst hj
            simp
          · simp [AList.lookup_erase_ne hj, h]

/-- **Lines again.** The second time each record waits as it did at this place the first time, or as it does
after all of the lines. -/
theorem settledIn_again {lines : List Text} (h : OpenFirst lines)
    (hq : ∀ i, q.lookup i = p.lookup i ∨ q.lookup i = (waiting p lines).lookup i) :
    SameWaiting (waiting q lines) (waiting p lines) ∧ ∀ a ∈ settledIn q lines, a ∈ settledIn p lines := by
  induction lines generalizing p q with
  | nil => exact ⟨fun i => (hq i).elim id id, fun a ha => ha⟩
  | cons line lines ih =>
    have hw : ∀ r : Pending, waiting r (line :: lines) = waiting (settle r line).1 lines := fun _ => rfl
    rw [hw p] at hq
    rw [hw p, hw q, settledIn, settledIn]
    simp only [settle_eq] at hq ⊢
    cases hline : readLine line with
    | none =>
      rw [hline] at hq
      have hrest : OpenFirst lines := by
        rw [OpenFirst, entriesOf, List.filterMap_cons, hline] at h
        exact h
      simpa [settleEntry] using ih hrest hq
    | some e =>
      rw [hline] at hq
      rw [OpenFirst, entriesOf, List.filterMap_cons, hline] at h
      obtain ⟨hfirst, hrest⟩ := List.pairwise_cons.mp h
      cases e with
      | action i a =>
        simp only [settleEntry] at hq ⊢
        refine ih hrest fun j => ?_
        by_cases hj : j = i
        · subst hj
          simp
        · rw [AList.lookup_insert_ne hj, AList.lookup_insert_ne hj]
          exact hq j
      | result i payload =>
        -- after its result a record waits no more
        have hnone : ∀ r : Pending, (settleEntry r (some (.result i payload))).1.lookup i = none := by
          intro r
          simp only [settleEntry, settleResult]
          cases hr : r.lookup i with
          | none => exact hr
          | some a => exact AList.lookup_erase i r
        have hne : ∀ r : Pending, ∀ j, j ≠ i →
          (settleEntry r (some (.result i payload))).1.lookup j = r.lookup j := by
          intro r j hj
          simp only [settleEntry, settleResult]
          cases r.lookup i with
          | none => rfl
          | some a => exact AList.lookup_erase_ne hj
        have hafter := waiting_none (hnone p) fun e he ha => hfirst e he rfl ha
        obtain ⟨hsame, hsettled⟩ := ih (p := (settleEntry p (some (.result i payload))).1)
          (q := (settleEntry q (some (.result i payload))).1) hrest fun j => by
            by_cases hj : j = i
            · rw [hj, hnone, hnone]
              exact Or.inl rfl
            · rw [hne q j hj, hne p j hj]
              exact hq j
        refine ⟨hsame, fun a ha => ?_⟩
        rcases List.mem_append.mp ha with ha | ha
        · have hqp : q.lookup i = p.lookup i := by
            rcases hq i with hq | hq
            · exact hq
            · rw [hafter] at hq
              simp [settleEntry, settleResult, hq] at ha
          refine List.mem_append_left _ ?_
          simp only [settleEntry, settleResult, hqp] at ha ⊢
          cases hp : p.lookup i with
          | none => simp [hp] at ha
          | some b => simpa [hp] using ha
        · exact List.mem_append_right _ (hsettled a ha)

end

/-! ## Replays -/

structure Agree (s s' : State) : Prop where
  db : s.db = s'.db
  pending : SameWaiting s.pending s'.pending

section
variable {downloads : Text} {s s' : State}

theorem Agree.refl (s : State) : Agree s s := ⟨rfl, fun _ => rfl⟩

theorem Agree.trans {s'' : State} (h : Agree s s') (h' : Agree s' s'') : Agree s s'' :=
  ⟨h.db.trans h'.db, fun i => (h.pending i).trans (h'.pending i)⟩

theorem Agree.symm (h : Agree s s') : Agree s' s := ⟨h.db.symm, fun i => (h.pending i).symm⟩

theorem Agree.lines (h : Agree s s') (lines : List Text) :
    Agree (lines.foldl (replayLine downloads) s) (lines.foldl (replayLine downloads) s') := by
  obtain ⟨hp, hdb⟩ := replayLines_settled downloads s lines
  obtain ⟨hp', hdb'⟩ := replayLines_settled downloads s' lines
  obtain ⟨hwaiting, hsettled⟩ := h.pending.settledIn lines
  refine ⟨?_, ?_⟩
  · rw [hdb, hdb', h.db, hsettled]
  · rw [hp, hp']
    exact hwaiting

/-- **A second replay changes nothing.** -/
theorem Agree.again {lines : List Text} (h : OpenFirst lines) (s : State) :
    Agree (lines.foldl (replayLine downloads) (lines.foldl (replayLine downloads) s))
      (lines.foldl (replayLine downloads) s) := by
  obtain ⟨hp, hdb⟩ := replayLines_settled downloads s lines
  obtain ⟨hp', hdb'⟩ := replayLines_settled downloads (lines.foldl (replayLine downloads) s) lines
  rw [hp] at hp' hdb'
  obtain ⟨hwaiting, hsettled⟩ := settledIn_again (p := s.pending)
    (q := waiting s.pending lines) h fun _ => Or.inr rfl
  refine ⟨?_, ?_⟩
  · rw [hdb']
    refine Db.ops_of_has fun o ho => ?_
    obtain ⟨a, ha, rfl⟩ := List.mem_map.mp ho
    rw [hdb]
    exact Db.has_ops (List.mem_map_of_mem (hsettled a ha)) s.db
  · rw [hp', hp]
    exact hwaiting

theorem Agree.replicate {lines : List Text} (h : OpenFirst lines) (n : Nat) (s : State) :
    Agree ((List.replicate (n + 1) lines).flatten.foldl (replayLine downloads) s)
      (lines.foldl (replayLine downloads) s) := by
  induction n generalizing s with
  | zero => simp [Agree.refl]
  | succ n ih =>
    rw [List.replicate_succ, List.flatten_cons, List.foldl_append]
    exact (ih _).trans (Agree.again h s)

end

end VisitsRebuilder

end VisitLogger
