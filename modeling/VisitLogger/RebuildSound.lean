import Mathlib.Data.Prod.Lex
import VisitLogger.Rebuild

/-!
# Three replicas of one log

The rebuilder pairs each action with its result and applies the successes
(`After.step`); the server and a peer apply every action
(`view_replayLines`). The replicas therefore agree exactly when what the failed
actions would add is there anyway (`replicas_agree_iff`).
-/

namespace VisitLogger

open Framing

/-! ## Machine logs -/

/-- Each record id has one action line, followed later by one result line. -/
structure Paired (es : List Entry) : Prop where
  wf : ∀ e ∈ es, e.Wf
  pair : ∀ e ∈ es, ∃ a p, es.filter (fun x => x.recordId = e.recordId) =
    [Entry.action e.recordId a, Entry.result e.recordId p]

def content (es : List Entry) : Text := unlines nl (es.map Entry.line)

structure MachineLog where
  days : List (Text × List Entry)
  isDate : ∀ d ∈ days, IsDate d.1
  sorted : days.Pairwise fun a b => a.1 < b.1
  paired : Paired (days.flatMap Prod.snd)

namespace MachineLog

variable (log : MachineLog)

def entries : List Entry := log.days.flatMap Prod.snd

def dir : VisitsRebuilder.Dir := log.days.map fun d => (logFilename d.1, some (content d.2))

def lines : List Text := log.days.flatMap fun d => fileLines (content d.2)

end MachineLog

theorem fileLines_content {es : List Entry} (h : ∀ e ∈ es, e.Wf) :
    fileLines (content es) = es.map Entry.line := by
  refine fileLines_unlines fun l hl => ?_
  obtain ⟨e, he, rfl⟩ := List.mem_map.mp hl
  exact Entry.line_noNl (h e he)

theorem MachineLog.lines_eq (log : MachineLog) : log.lines = log.entries.map Entry.line := by
  have h : ∀ d ∈ log.days, fileLines (content d.2) = d.2.map Entry.line := fun d hd =>
    fileLines_content fun e he => log.paired.wf e (List.mem_flatMap.mpr ⟨d, hd, he⟩)
  rw [lines, entries, List.map_flatMap]
  exact List.flatMap_congr h

/-! ## The outcome of an action -/

def succeeded (i : Text) (es : List Entry) : Bool := Entry.result i (ascii "success") ∈ es

def actions (es : List Entry) : List Action := es.filterMap fun
  | .action _ a => some a
  | .result _ _ => none

def settled (es : List Entry) : List Action := es.filterMap fun
  | .action i a => if succeeded i es then some a else none
  | .result _ _ => none

def failed (es : List Entry) : List Action := es.filterMap fun
  | .action i a => if succeeded i es then none else some a
  | .result _ _ => none

theorem mem_actions {es : List Entry} {a : Action} : a ∈ actions es ↔ ∃ i, Entry.action i a ∈ es := by
  simp only [actions, List.mem_filterMap]
  constructor
  · rintro ⟨e, he, h⟩
    cases e with
    | action i b => cases h; exact ⟨i, he⟩
    | result i p => cases h
  · rintro ⟨i, h⟩; exact ⟨_, h, rfl⟩

theorem mem_settled {es : List Entry} {a : Action} :
    a ∈ settled es ↔ ∃ i, Entry.action i a ∈ es ∧ Entry.result i (ascii "success") ∈ es := by
  simp only [settled, List.mem_filterMap]
  constructor
  · rintro ⟨e, he, h⟩
    cases e with
    | action i b =>
      simp only [succeeded, decide_eq_true_eq, Option.ite_none_right_eq_some, Option.some.injEq] at h
      exact ⟨i, h.2 ▸ he, h.1⟩
    | result i p => cases h
  · rintro ⟨i, h, hs⟩
    exact ⟨_, h, by simp [succeeded, hs]⟩

theorem mem_actions_iff {es : List Entry} {a : Action} : a ∈ actions es ↔ a ∈ settled es ∨ a ∈ failed es := by
  simp only [actions, settled, failed, List.mem_filterMap]
  constructor
  · rintro ⟨e, he, h⟩
    cases e with
    | action i b =>
      by_cases hs : succeeded i es = true
      · exact Or.inl ⟨_, he, by simpa [hs] using h⟩
      · exact Or.inr ⟨_, he, by simpa [hs] using h⟩
    | result i p => cases h
  · rintro (⟨e, he, h⟩ | ⟨e, he, h⟩) <;> refine ⟨e, he, ?_⟩ <;> cases e with
    | action i b => by_cases hs : succeeded i es = true <;> simp_all
    | result i p => cases h

/-! ## What an action adds -/

/-- The effect of an action does not depend on how file names are stored. -/
def Action.effect (a : Action) : View := (a.op id []).effect

theorem Action.op_effect (a : Action) (store : Text → Text) (directory : Text) :
    (a.op store directory).effect = a.effect := by
  unfold effect op Op.effect
  by_cases h : a.tag = ascii "of_interest"
  · simp [h]
  · cases EventsTable.forTag a.tag <;> simp [h]

/-- `a` adds nothing to what the actions `l` add. -/
structure Action.Covered (a : Action) (l : List Action) : Prop where
  url : ∃ b ∈ l, b.url = a.url
  ofInterest : a.tag = ascii "of_interest" → ∃ b ∈ l, b.tag = ascii "of_interest" ∧ b.url = a.url
  event : ∀ t : EventsTable, a.tag = t.tag → ∃ b ∈ l, b.tag = t.tag ∧ b.url = a.url ∧ b.timestamp = a.timestamp

theorem Action.mem_effect_ofInterest {a : Action} {u : Text} :
    u ∈ a.effect.2.1 ↔ a.tag = ascii "of_interest" ∧ u = a.url := by
  simp only [effect, op, Op.effect, Set.mem_ofPred_eq]
  by_cases h : a.tag = ascii "of_interest"
  · simp [h]
  · cases EventsTable.forTag a.tag <;> simp [h]

theorem Action.mem_effect_event {a : Action} {t : EventsTable} {k : Text × Text} :
    k ∈ a.effect.2.2 t ↔ a.tag = t.tag ∧ k = (a.url, a.timestamp) := by
  simp only [effect, op, Op.effect, Set.mem_ofPred_eq]
  by_cases h : a.tag = ascii "of_interest"
  · simp [h, t.tag_ne.2.symm]
  · cases ht : EventsTable.forTag a.tag with
    | none =>
      have : a.tag ≠ t.tag := fun e => by simp [e] at ht
      simp [h, this]
    | some t' =>
      have := EventsTable.forTag_eq_some ht
      by_cases htt : t' = t
      · simp [this, htt, t.tag_ne.2]
      · have hne : t'.tag ≠ t.tag := fun e => htt (by simpa using congrArg EventsTable.forTag e)
        simp [this, t'.tag_ne.2, htt, hne]

theorem total_ofInterest (l : List Action) :
    (GrowOnly.total Action.effect l).2.1 = GrowOnly.total (fun a => a.effect.2.1) l :=
  GrowOnly.map_total (f := fun v : View => v.2.1) rfl (fun _ _ => rfl) _ l

theorem mem_total_ofInterest {l : List Action} {u : Text} :
    u ∈ (GrowOnly.total Action.effect l).2.1 ↔ ∃ a ∈ l, a.tag = ascii "of_interest" ∧ u = a.url := by
  rw [total_ofInterest, GrowOnly.mem_total]
  simp only [Action.mem_effect_ofInterest]

theorem Action.effect_le_iff {a : Action} {l : List Action} :
    a.effect ≤ GrowOnly.total effect l ↔ a.Covered l := by
  have h₁ := GrowOnly.map_total (f := fun v : View => v.1) rfl (fun _ _ => rfl) effect l
  have h₃ := fun t => GrowOnly.map_total (f := fun v : View => v.2.2 t) rfl (fun _ _ => rfl) effect l
  constructor
  · rintro ⟨hu, ho, he⟩
    refine ⟨?_, fun ht => ?_, fun t ht => ?_⟩
    · have := h₁ ▸ hu (show a.url ∈ a.effect.1 from rfl)
      obtain ⟨b, hb, hab⟩ := GrowOnly.mem_total.mp this
      exact ⟨b, hb, Eq.symm hab⟩
    · have := total_ofInterest l ▸ ho (mem_effect_ofInterest.mpr ⟨ht, rfl⟩)
      obtain ⟨b, hb, hab⟩ := GrowOnly.mem_total.mp this
      exact ⟨b, hb, (mem_effect_ofInterest.mp hab).1, (mem_effect_ofInterest.mp hab).2.symm⟩
    · have := h₃ t ▸ he t (mem_effect_event.mpr ⟨ht, rfl⟩)
      obtain ⟨b, hb, hab⟩ := GrowOnly.mem_total.mp this
      obtain ⟨htb, hk⟩ := mem_effect_event.mp hab
      exact ⟨b, hb, htb, (congrArg Prod.fst hk).symm, (congrArg Prod.snd hk).symm⟩
  · intro h
    refine ⟨fun u hu => ?_, fun u hu => ?_, fun t k hk => ?_⟩
    · obtain ⟨b, hb, hab⟩ := h.url
      rw [h₁]
      exact GrowOnly.mem_total.mpr ⟨b, hb, (Set.mem_singleton_iff.mp hu).trans hab.symm⟩
    · obtain ⟨ht, rfl⟩ := mem_effect_ofInterest.mp hu
      obtain ⟨b, hb, htb, hab⟩ := h.ofInterest ht
      rw [total_ofInterest]
      exact GrowOnly.mem_total.mpr ⟨b, hb, mem_effect_ofInterest.mpr ⟨htb, hab.symm⟩⟩
    · obtain ⟨ht, rfl⟩ := mem_effect_event.mp hk
      obtain ⟨b, hb, htb, hab, hts⟩ := h.event t ht
      rw [h₃]
      exact GrowOnly.mem_total.mpr ⟨b, hb, mem_effect_event.mpr ⟨htb, by rw [hab, hts]⟩⟩

/-! ## Replicas that take no notice of results -/

theorem replayLines_eq {es : List Entry} (h : ∀ e ∈ es, e.Wf) (db : Db) :
    Store.replayLines db (es.map Entry.line) =
      es.foldl (fun db e => db.applyOpt (e.op db.defaultDirectory)) db ∧
      SyncClient.replayLines db (es.map Entry.line) =
        es.foldl (fun db e => db.applyOpt (e.op db.defaultDirectory)) db := by
  unfold Store.replayLines SyncClient.replayLines
  rw [List.foldl_map, List.foldl_map]
  constructor
  · refine List.foldl_ext _ _ _ fun db e he => ?_
    rw [Store.replayLine_eq, (lineOp_entry (h e he) _).1]
  · refine List.foldl_ext _ _ _ fun db e he => ?_
    rw [SyncClient.replayIntoDb_eq, (lineOp_entry (h e he) _).2]

theorem view_applyOpt (db : Db) (e : Entry) :
    (db.applyOpt (e.op db.defaultDirectory)).view = db.view ⊔ GrowOnly.total Action.effect (actions [e]) := by
  cases e with
  | action i a =>
    have : actions [Entry.action i a] = [a] := rfl
    simp [Db.applyOpt, Entry.op, Db.view_apply, Action.op_effect, this]
  | result i p =>
    have : actions [Entry.result i p] = [] := rfl
    simp [Db.applyOpt, Entry.op, this]

theorem total_actions (es : List Entry) :
    GrowOnly.total (fun e => GrowOnly.total Action.effect (actions [e])) es =
      GrowOnly.total Action.effect (actions es) := by
  induction es with
  | nil => simp [actions]
  | cons e es ih =>
    have : actions (e :: es) = actions [e] ++ actions es := by cases e <;> rfl
    rw [GrowOnly.total_cons, ih, this, GrowOnly.total_append]

/-- **The server and a peer show every action.** -/
theorem view_replayLines {es : List Entry} (h : ∀ e ∈ es, e.Wf) (directory : Text) :
    (Store.replayLines (Db.empty directory) (es.map Entry.line)).view =
      GrowOnly.total Action.effect (actions es) ∧
      (SyncClient.replayLines (Db.empty directory) (es.map Entry.line)).view =
        GrowOnly.total Action.effect (actions es) := by
  have hv := GrowOnly.view_foldl (l := es) (fun e _ db => view_applyOpt db e) (Db.empty directory)
  rw [Db.view_empty, bot_sup_eq, total_actions] at hv
  rw [(replayLines_eq h _).1, (replayLines_eq h _).2]
  exact ⟨hv, hv⟩

theorem coherent_replayLines (directory : Text) (lines : List Text) :
    (Store.replayLines (Db.empty directory) lines).Coherent ∧
      (SyncClient.replayLines (Db.empty directory) lines).Coherent := by
  have happ : ∀ (db : Db) (o : Option Op), db.Coherent → (db.applyOpt o).Coherent := by
    intro db o h
    cases o with
    | none => exact h
    | some o => exact h.apply o
  constructor
  · refine List.foldlRecOn _ _ (Db.coherent_empty directory) fun db h raw _ => ?_
    rw [Store.replayLine_eq]; exact happ _ _ h
  · refine List.foldlRecOn _ _ (Db.coherent_empty directory) fun db h raw _ => ?_
    rw [SyncClient.replayIntoDb_eq]; exact happ _ _ h

/-! ## The rebuilder -/

namespace VisitsRebuilder

/-- After the entries `p` an action waits exactly when `p` has it without its
result, and the database shows the actions that succeeded in `p`. -/
structure After (downloads : Text) (p : List Entry) (s : State) : Prop where
  pending : ∀ i, s.pending.lookup i = match p.filter fun e => e.recordId = i with
    | [.action _ a] => some (parsed a)
    | _ => none
  view : s.db.view = GrowOnly.total Action.effect (settled p)
  coherent : s.db.Coherent

theorem filter_prefix {p q : List Entry} {e : Entry} (h : Paired (p ++ e :: q)) :
    (p.filter (fun x => x.recordId = e.recordId) = [] ∧ (∃ i a, e = .action i a)) ∨
      ∃ a r, p.filter (fun x => x.recordId = e.recordId) = [.action e.recordId a] ∧
        e = .result e.recordId r := by
  obtain ⟨a, r, hf⟩ := h.pair e (by simp)
  rw [List.filter_append, List.filter_cons, if_pos (by simp)] at hf
  generalize p.filter (fun x => x.recordId = e.recordId) = l at hf ⊢
  rcases l with _ | ⟨x, _ | ⟨y, l⟩⟩
  · exact Or.inl ⟨rfl, _, _, (List.cons.inj hf).1⟩
  · simp only [List.cons_append, List.nil_append, List.cons.injEq] at hf
    exact Or.inr ⟨a, r, by rw [hf.1], hf.2.1⟩
  · have := congrArg List.length hf
    simp only [List.length_append, List.length_cons, List.length_nil] at this
    omega

theorem mem_of_filter {p : List Entry} {i : Text} {l : List Entry}
    (h : p.filter (fun x => x.recordId = i) = l) {e : Entry} (he : e.recordId = i) : e ∈ p ↔ e ∈ l := by
  rw [← h, List.mem_filter]; simp [he]

theorem settled_snoc {p q : List Entry} {e : Entry} (h : Paired (p ++ e :: q)) (a : Action) :
    a ∈ settled (p ++ [e]) ↔
      a ∈ settled p ∨ Entry.action e.recordId a ∈ p ∧ e = .result e.recordId (ascii "success") := by
  simp only [mem_settled, List.mem_append, List.mem_singleton]
  rcases filter_prefix h with ⟨hp, i, b, rfl⟩ | ⟨b, r, hp, he⟩
  · constructor
    · rintro ⟨j, ha, hr | hr⟩
      · rcases ha with ha | ha
        · exact Or.inl ⟨j, ha, hr⟩
        · obtain ⟨rfl, -⟩ := Entry.action.inj ha
          have := (mem_of_filter hp (e := Entry.result j (ascii "success")) rfl).mp hr
          cases this
      · cases hr
    · rintro (⟨j, ha, hr⟩ | ⟨-, hr⟩)
      · exact ⟨j, Or.inl ha, Or.inl hr⟩
      · cases hr
  · rw [he]
    simp only [Entry.recordId, reduceCtorEq, or_false, Entry.result.injEq, true_and]
    constructor
    · rintro ⟨j, ha, hr | ⟨rfl, hr⟩⟩
      · exact Or.inl ⟨j, ha, hr⟩
      · exact Or.inr ⟨ha, hr.symm⟩
    · rintro (⟨j, ha, hr⟩ | ⟨ha, hr⟩)
      · exact ⟨j, ha, Or.inl hr⟩
      · exact ⟨_, ha, Or.inr ⟨rfl, hr.symm⟩⟩

theorem effect_parsed (a : Action) : (parsed a).effect = a.effect := by
  rw [Action.effect, parsed_op, Action.effect]

variable {downloads : Text}

theorem After.step {p q : List Entry} {e : Entry} (h : Paired (p ++ e :: q)) {s : State}
    (hs : After downloads p s) :
    After downloads (p ++ [e]) (replayEntry downloads s e) := by
  have hset := settled_snoc h
  have hfilter : ∀ i, (p ++ [e]).filter (fun x => x.recordId = i) =
      p.filter (fun x => x.recordId = i) ++ if e.recordId = i then [e] else [] := by
    intro i
    rw [List.filter_append, List.filter_singleton]
    by_cases hi : e.recordId = i <;> simp [hi]
  rcases filter_prefix h with ⟨hp, i, b, rfl⟩ | ⟨b, r, hp, he⟩
  · refine ⟨fun j => ?_, ?_, hs.coherent⟩
    · simp only [replayEntry, replayAction]
      rw [hfilter]
      by_cases hj : j = i
      · subst hj
        have hp' : p.filter (fun x => x.recordId = j) = [] := hp
        rw [AList.lookup_insert, hp']
        simp [Entry.recordId]
      · rw [AList.lookup_insert_ne hj, hs.pending]
        simp [Entry.recordId, Ne.symm hj]
    · refine hs.view.trans (GrowOnly.total_congr fun a => ?_)
      rw [hset]; simp
  · generalize hi : e.recordId = i at hp he hset
    subst he
    have hl : s.pending.lookup i = some (parsed b) := by rw [hs.pending, hp]
    have hb : ∀ a, Entry.action i a ∈ p ↔ a = b := fun a => by
      rw [mem_of_filter hp rfl]; simp
    have hpend : ∀ j, (s.pending.erase i).lookup j = match (p ++ [Entry.result i r]).filter fun e =>
      e.recordId = j with
        | [.action _ a] => some (parsed a)
        | _ => none := by
      intro j
      rw [hfilter]
      by_cases hj : j = i
      · subst hj
        rw [AList.lookup_erase, hp]
        simp [Entry.recordId]
      · rw [AList.lookup_erase_ne hj, hs.pending]
        simp [Entry.recordId, Ne.symm hj]
    simp only [replayEntry, replayResult, hl]
    by_cases hr : r = ascii "success"
    · rw [if_pos hr]
      refine ⟨hpend, ?_, ?_⟩
      · simp only [applyAction_db, Db.view_apply, Action.op_effect, effect_parsed, hs.view]
        rw [sup_comm, ← GrowOnly.total_cons]
        refine GrowOnly.total_congr fun a => ?_
        rw [hset, hb, List.mem_cons, or_comm]; simp [hr]
      · simp only [applyAction_db]; exact hs.coherent.apply _
    · rw [if_neg hr]
      refine ⟨hpend, hs.view.trans (GrowOnly.total_congr fun a => ?_), hs.coherent⟩
      rw [hset]; simp [hr]

theorem After.run {p es q : List Entry} (h : Paired (p ++ es ++ q)) {s : State} (hs : After downloads p s) :
    After downloads (p ++ es) (es.foldl (replayEntry downloads) s) := by
  induction es generalizing p s with
  | nil => simpa using hs
  | cons e es ih =>
    have h' : Paired (p ++ e :: (es ++ q)) := by simpa using h
    have := ih (p := p ++ [e]) (by simpa using h) (hs.step h')
    simpa using this

theorem After.insertSnapshot {p : List Entry} {s : State} (hs : After downloads p s) (date : Text) :
    After downloads p { s with db := s.db.insertSnapshot date } := by
  refine ⟨hs.pending, hs.view, ?_⟩
  have hk : ∀ t, (s.db.insertSnapshot date).keys t = s.db.keys t := fun t => by cases t <;> rfl
  refine ⟨hs.coherent.urls_nodup, fun t => hk t ▸ hs.coherent.keys_nodup t, fun v hv t => ?_, fun t k hkt => ?_⟩
  · rw [hk]; exact hs.coherent.counted v hv t
  · exact hs.coherent.visited t k (hk t ▸ hkt)

theorem replayOneFile_content {es : List Entry} (h : ∀ e ∈ es, e.Wf) (s : State) :
    replayOneFile downloads s (content es) = es.foldl (replayEntry downloads) s := by
  rw [replayOneFile, fileLines_content h, List.foldl_map]
  exact List.foldl_ext _ _ _ fun s e he => replayLine_entry downloads (h e he) s

theorem After.files {p : List Entry} {days : List (Text × List Entry)} {s : State}
    (h : Paired (p ++ days.flatMap Prod.snd)) (hs : After downloads p s) :
    After downloads (p ++ days.flatMap Prod.snd)
      ((days.map fun d => (d.1, content d.2)).foldl (replayFile downloads) s) := by
  induction days generalizing p s with
  | nil => simpa using hs
  | cons d days ih =>
    have hp : Paired (p ++ d.2 ++ days.flatMap Prod.snd) := by simpa using h
    have hd : ∀ e ∈ d.2, e.Wf := fun e he => hp.wf e (by simp [he])
    have := ih (p := p ++ d.2) (by simpa using h) ((hs.insertSnapshot d.1).run hp)
    rw [List.map_cons, List.foldl_cons, replayFile, replayOneFile_content hd]
    simpa using this

/-! ## Which files it finds -/

theorem logBefore_iff {a b : Text × Nat × Text} : logBefore a b ↔ toLex (a.1, a.2.1) ≤ toLex (b.1, b.2.1) := by
  rw [logBefore, Prod.Lex.toLex_le_toLex]

instance : Std.Total logBefore where
  total a b := by
    rw [logBefore_iff, logBefore_iff]
    exact le_total _ _

instance : IsTrans (Text × Nat × Text) logBefore where
  trans a b c hab hbc := by
    rw [logBefore_iff] at hab hbc ⊢
    exact hab.trans hbc

def freshLog (x : Text × Option Text) : Option (Text × Nat × Text) :=
  match logRe x.1, x.2 with
  | some d, some content => some (d, 1, content)
  | _, _ => none

def archivedLog (date : Text) (x : Text × Option Text) : Option (Text × Nat × Text) :=
  match logRe x.1, x.2 with
  | some d, some content => if d = date then some (d, 0, content) else none
  | _, _ => none

def archivedLogs (x : Text × Option Dir) : List (Text × Nat × Text) :=
  if dateDirRe x.1 then (x.2.getD []).filterMap (archivedLog x.1) else []

theorem collectLogPaths_eq (logDir : Option Dir) (archive : Option (List (Text × Option Dir))) :
    collectLogPaths logDir archive =
      (((archive.getD []).flatMap archivedLogs ++ (logDir.getD []).filterMap freshLog).insertionSort
        logBefore).map fun e => (e.1, e.2.2) := rfl

/-- **The rebuilder replays the day logs in the order of their dates**, however
the directory lists them. -/
theorem collectLogPaths_dir (log : MachineLog) {listing : Dir} (h : listing.Perm log.dir) :
    collectLogPaths (some listing) none = log.days.map fun d => (d.1, content d.2) := by
  let target : List (Text × Nat × Text) := log.days.map fun d => (d.1, 1, content d.2)
  have hf : log.dir.filterMap freshLog = target := by
    have hd : ∀ d ∈ log.days, (freshLog ∘ fun d => (logFilename d.1, some (content d.2))) d =
      some (d.1, 1, content d.2) := by
      intro d hd
      simp only [Function.comp, freshLog, logRe_logFilename (log.isDate d hd)]
    rw [MachineLog.dir, List.filterMap_map, List.filterMap_congr hd, List.filterMap_eq_map']
  have hsorted : target.Pairwise logBefore := by
    refine List.pairwise_map.mpr (log.sorted.imp fun h => Or.inl h)
  have heq : (listing.filterMap freshLog).insertionSort logBefore = target := by
    refine List.Perm.eq_of_pairwise ?_ (List.pairwise_insertionSort logBefore _) hsorted
      ((List.perm_insertionSort _ _).trans (hf ▸ h.filterMap freshLog))
    -- two logs before each other have one date, so they are one log
    intro a b ha hb hab hba
    have ha : a ∈ target := by
      rw [← hf]; exact (h.filterMap freshLog).mem_iff.mp ((List.perm_insertionSort _ _).mem_iff.mp ha)
    have hdate : a.1 = b.1 := by
      rcases hab with h₁ | ⟨h₁, -⟩
      · rcases hba with h₂ | ⟨h₂, -⟩
        · exact absurd h₂ (lt_asymm h₁)
        · exact h₂.symm
      · exact h₁
    have hnodup : (target.map Prod.fst).Nodup := by
      simp only [target, List.map_map]
      exact List.pairwise_map.mpr (log.sorted.imp fun h => ne_of_lt h)
    exact List.inj_on_of_nodup_map hnodup ha hb hdate
  have : collectLogPaths (some listing) none =
      ((listing.filterMap freshLog).insertionSort logBefore).map fun e => (e.1, e.2.2) := collectLogPaths_eq _ _
  rw [this, heq]
  simp [target]

/-- **The rebuilt database shows the successful actions.** -/
theorem replayLogs_log (log : MachineLog) {listing : Dir} (h : listing.Perm log.dir)
    (downloads directory : Text) :
    (replayLogs downloads (Db.empty directory) (some listing) none).1.view =
        GrowOnly.total Action.effect (settled log.entries) ∧
      (replayLogs downloads (Db.empty directory) (some listing) none).1.Coherent := by
  have h₀ : After downloads [] ⟨Db.empty directory, ∅, {}⟩ :=
    ⟨fun i => by simp, by simp [settled, Db.view_empty], Db.coherent_empty directory⟩
  have hp : Paired ([] ++ log.days.flatMap Prod.snd) := by simpa using log.paired
  have := h₀.files hp
  rw [replayLogs, collectLogPaths_dir log h]
  exact ⟨by simpa [MachineLog.entries] using this.view, this.coherent⟩

end VisitsRebuilder

/-! ## Agreement -/

def SameVisits (a b : Db) : Prop := a.view = b.view ∧ ∀ t u, a.counter t u = b.counter t u

theorem sameVisits_iff {a b : Db} (ha : a.Coherent) (hb : b.Coherent) : SameVisits a b ↔ a.view = b.view :=
  ⟨And.left, fun h => ⟨h, Db.counter_eq_of_view ha hb h⟩⟩

theorem total_actions_eq_iff (es : List Entry) :
    GrowOnly.total Action.effect (actions es) = GrowOnly.total Action.effect (settled es) ↔
      ∀ a ∈ failed es, a.Covered (settled es) := by
  have hle : GrowOnly.total Action.effect (settled es) ≤ GrowOnly.total Action.effect (actions es) :=
    GrowOnly.total_mono fun a ha => mem_actions_iff.mpr (Or.inl ha)
  rw [le_antisymm_iff, and_iff_left hle, GrowOnly.total_le]
  simp only [mem_actions_iff, ← Action.effect_le_iff]
  exact ⟨fun h a ha => h a (Or.inr ha),
    fun h a ha => ha.elim (fun ha => GrowOnly.total_le.mp le_rfl a ha) (h a)⟩

/-- **The replicas agree exactly when every failed action is covered** by the
successful ones. -/
theorem replicas_agree_iff (log : MachineLog) {listing : VisitsRebuilder.Dir} (h : listing.Perm log.dir)
    (vmDirectory peerDirectory downloads : Text) :
    let rebuilt := (VisitsRebuilder.replayLogs downloads (Db.empty downloads) (some listing) none).1
    (SameVisits (Store.replayLines (Db.empty vmDirectory) log.lines) rebuilt ∧
        SameVisits (SyncClient.replayLines (Db.empty peerDirectory) log.lines) rebuilt) ↔
      ∀ a ∈ failed log.entries, a.Covered (settled log.entries) := by
  intro rebuilt
  obtain ⟨hv, hc⟩ := VisitsRebuilder.replayLogs_log log h downloads downloads
  have hw : ∀ e ∈ log.entries, e.Wf := log.paired.wf
  rw [sameVisits_iff (coherent_replayLines _ _).1 hc, sameVisits_iff (coherent_replayLines _ _).2 hc, hv,
    log.lines_eq, (view_replayLines hw _).1, (view_replayLines hw _).2, and_self]
  exact total_actions_eq_iff _

def failedLog : MachineLog :=
  let i := ascii "0123456789abcdef0123456789abcdef"
  let a : Action := ⟨ascii "2024-05-01T12:00:00Z", ascii "https://a.example/", ascii "A",
    ascii "of_interest", []⟩
  { days := [(ascii "2024-05-01", [.action i a, .result i (ascii "error: db: locked")])]
    isDate := by decide
    sorted := by decide
    paired := by
      refine ⟨?_, ?_⟩
      · intro e he
        simp only [List.flatMap_cons, List.flatMap_nil, List.append_nil, List.mem_cons,
          List.not_mem_nil, or_false] at he
        rcases he with rfl | rfl
        · exact ⟨by decide, by decide, show a.tag = [] ∨ a.tag ∈ validTags by decide⟩
        · exact ⟨by decide, by decide, show isResultPayload (ascii "error: db: locked") = true by decide⟩
      · intro e he
        simp only [List.flatMap_cons, List.flatMap_nil, List.append_nil, List.mem_cons,
          List.not_mem_nil, or_false] at he
        rcases he with rfl | rfl <;> exact ⟨a, ascii "error: db: locked", by decide⟩ }

set_option maxRecDepth 4000 in
theorem failed_action_replayed :
    let rebuilt := (VisitsRebuilder.replayLogs [] (Db.empty []) (some failedLog.dir) none).1
    ¬SameVisits (Store.replayLines (Db.empty []) failedLog.lines) rebuilt ∧
      ¬SameVisits (SyncClient.replayLines (Db.empty []) failedLog.lines) rebuilt := by
  have hu : ascii "https://a.example/" ∈ (Store.replayLines (Db.empty []) failedLog.lines).urls ∧
      ascii "https://a.example/" ∈ (SyncClient.replayLines (Db.empty []) failedLog.lines).urls ∧
      ascii "https://a.example/" ∉ (VisitsRebuilder.replayLogs [] (Db.empty [])
        (some failedLog.dir) none).1.urls := by
    decide
  constructor
  · exact fun h => hu.2.2 ((Set.ext_iff.mp (congrArg Prod.fst h.1) _).mp hu.1)
  · exact fun h => hu.2.2 ((Set.ext_iff.mp (congrArg Prod.fst h.1) _).mp hu.2.1)

theorem replicas_agree_iff_failedLog :
    ¬(SameVisits (Store.replayLines (Db.empty []) failedLog.lines)
        (VisitsRebuilder.replayLogs [] (Db.empty []) (some failedLog.dir) none).1 ∧
      SameVisits (SyncClient.replayLines (Db.empty []) failedLog.lines)
        (VisitsRebuilder.replayLogs [] (Db.empty []) (some failedLog.dir) none).1) := by
  intro h
  obtain ⟨⟨b, hb, -⟩, -, -⟩ := (replicas_agree_iff failedLog (List.Perm.refl _) [] [] []).mp h
    ⟨ascii "2024-05-01T12:00:00Z", ascii "https://a.example/", ascii "A", ascii "of_interest", []⟩ (by decide)
  have : settled failedLog.entries = [] := by decide
  rw [this] at hb; cases hb

end VisitLogger
