import Mathlib.Data.List.Dedup
import VisitLogger.HostSound

/-!
# Replicas that receive the same lines

The VM replays the lines pushed to it; a laptop writes its own actions and
replays the lines that it pulls. The URLs, marks, event keys and counters that
result depend on the set of lines only (`replays_converge`). The timestamp and
the title of a visits row do not: they are those of the operation that comes
first (`stamp_ops`), so a row is the earliest one only where the earliest line
comes first (`rows_earliest_iff`).
-/

namespace VisitLogger

/-! ## Lines in any order -/

inductive HostFields : List Text → Prop
  | result (i p : Text) : HostFields [i, p]
  | visit (i ts u ti : Text) : HostFields [i, ts, u, ti]
  | ofInterest (i ts u ti : Text) : HostFields [i, ts, u, ti, ascii "of_interest"]
  | event (i ts u ti : Text) (t : EventsTable) (f : Text) : HostFields [i, ts, u, ti, t.tag, f]

def HostLine (raw : Text) : Prop := HostFields (splitTabs raw)

/-- What a line adds to the view of a database that replays it. -/
def lineEffect (raw : Text) : View := (Store.lineOp [] raw).elim ⊥ Op.effect

theorem HostLine.lineOp_eq {raw : Text} (h : HostLine raw) (directory : Text) :
    SyncClient.lineOp directory raw = Store.lineOp directory raw := by
  unfold HostLine at h
  unfold SyncClient.lineOp Store.lineOp
  generalize splitTabs raw = fields at h
  cases h with
  | result i p => rfl
  | visit i ts u ti => rfl
  | ofInterest i ts u ti => rfl
  | event i ts u ti t f => simp [t.tag_ne.2]

theorem lineEffect_eq (directory raw : Text) :
    (Store.lineOp directory raw).elim ⊥ Op.effect = lineEffect raw := by
  unfold lineEffect Store.lineOp
  split
  · rfl
  · rfl
  · rename_i ts u ti tag f _
    cases EventsTable.forTag tag <;> simp [Op.effect]
  · rfl

theorem Db.view_applyOpt (db : Db) (o : Option Op) : (db.applyOpt o).view = db.view ⊔ o.elim ⊥ Op.effect := by
  cases o with
  | none => exact (sup_bot_eq _).symm
  | some o => exact db.view_apply o

theorem view_storeLines (directory : Text) (l : List Text) :
    (Store.replayLines (Db.empty directory) l).view = GrowOnly.total lineEffect l := by
  have hstep : ∀ raw ∈ l, ∀ db : Db, (Store.replayLine Store.noFault db raw).1.view =
    db.view ⊔ lineEffect raw := by
    intro raw _ db
    rw [Store.replayLine_eq, Db.view_applyOpt, lineEffect_eq]
  have h := GrowOnly.view_foldl hstep (Db.empty directory)
  rwa [Db.view_empty, bot_sup_eq] at h

theorem view_peerLines (directory : Text) {l : List Text} (hl : ∀ raw ∈ l, HostLine raw) :
    (SyncClient.replayLines (Db.empty directory) l).view = GrowOnly.total lineEffect l := by
  have hstep : ∀ raw ∈ l, ∀ db : Db, (SyncClient.replayIntoDb db raw).view = db.view ⊔ lineEffect raw := by
    intro raw hraw db
    rw [SyncClient.replayIntoDb_eq, Db.view_applyOpt, (hl raw hraw).lineOp_eq, lineEffect_eq]
  have h := GrowOnly.view_foldl hstep (Db.empty directory)
  rwa [Db.view_empty, bot_sup_eq] at h

/-- **Replays of the same lines converge.** -/
theorem replays_converge {l l' : List Text} (hl : ∀ raw ∈ l, HostLine raw) (h : ∀ raw, raw ∈ l ↔ raw ∈ l')
    (directory directory' : Text) :
    SameVisits (Store.replayLines (Db.empty directory) l) (Store.replayLines (Db.empty directory') l') ∧
      SameVisits (Store.replayLines (Db.empty directory) l)
        (SyncClient.replayLines (Db.empty directory') l') := by
  have hl' : ∀ raw ∈ l', HostLine raw := fun raw hraw => hl raw ((h raw).mpr hraw)
  have hv := view_storeLines directory l
  rw [GrowOnly.total_congr h] at hv
  have hc := coherent_replayLines directory l
  have hc' := coherent_replayLines directory' l'
  constructor
  · refine (sameVisits_iff hc.1 hc'.1).mpr ?_
    rw [hv, view_storeLines]
  · refine (sameVisits_iff hc.1 hc'.2).mpr ?_
    rw [hv, view_peerLines directory' hl']

theorem replays_converge_twice :
    SameVisits
        (Store.replayLines (Db.empty []) [ascii "i\t1\tu\tA\tread\tf", ascii "i\tsuccess"])
        (Store.replayLines (Db.empty []) [ascii "i\tsuccess", ascii "i\t1\tu\tA\tread\tf",
          ascii "i\tsuccess"]) ∧
      SameVisits
        (Store.replayLines (Db.empty []) [ascii "i\t1\tu\tA\tread\tf", ascii "i\tsuccess"])
        (SyncClient.replayLines (Db.empty []) [ascii "i\tsuccess", ascii "i\t1\tu\tA\tread\tf",
          ascii "i\tsuccess"]) := by
  refine replays_converge (fun raw hraw => ?_) (fun raw => ?_) [] []
  · simp only [List.mem_cons, List.not_mem_nil, or_false] at hraw
    rcases hraw with rfl | rfl
    · exact HostFields.event (ascii "i") (ascii "1") (ascii "u") (ascii "A") .read (ascii "f")
    · exact HostFields.result (ascii "i") (ascii "success")
  · simp only [List.mem_cons, List.not_mem_nil, or_false]
    constructor
    · rintro (h | h)
      · exact Or.inr (Or.inl h)
      · exact Or.inl h
    · rintro (h | h | h)
      · exact Or.inr h
      · exact Or.inl h
      · exact Or.inr h

/-! ## The first operation of a URL -/

namespace Db

def row (db : Db) (u : Text) : Option Visit := db.visits.find? fun v => v.url = u

def stamp (db : Db) (u : Text) : Option (Text × Text) := (db.row u).map fun v => (v.timestamp, v.title)

theorem row_congr {a b : Db} (h : a.visits = b.visits) (u : Text) : a.row u = b.row u := by rw [row, row, h]

variable (db : Db)

theorem stamp_insertVisit (ts u ti u' : Text) :
    (db.insertVisit ts u ti).stamp u' = (db.stamp u').or (if u = u' then some (ts, ti) else none) := by
  have h := Table.find_insertOrIgnore Visit.url ⟨u, ts, ti, none, 0, 0⟩ db.visits u'
  unfold stamp row insertVisit
  rw [h, Option.map_or]
  congr 1
  dsimp only
  split <;> rfl

@[simp] theorem stamp_setOfInterest (u u' : Text) : (db.setOfInterest u).1.stamp u' = db.stamp u' := by
  have h := Table.find_updateWhere Visit.url (fun v => v.url = u)
    (fun v => { v with ofInterest := some (ascii "1") }) db.visits (fun _ => rfl) u'
  unfold stamp row setOfInterest
  rw [h, Option.map_map]
  congr 1
  funext v
  simp only [Function.comp]
  split <;> rfl

@[simp] theorem stamp_increment (t : EventsTable) (u u' : Text) :
    (db.increment t u).stamp u' = db.stamp u' := by
  have h := Table.find_updateWhere Visit.url (fun v => v.url = u) t.increment db.visits t.increment_url u'
  unfold stamp row increment
  rw [h, Option.map_map]
  congr 1
  funext v
  simp only [Function.comp]
  split
  · cases t <;> rfl
  · rfl

@[simp] theorem stamp_addEvent (t : EventsTable) (e : Event) (u : Text) : (db.addEvent t e).stamp u =
  db.stamp u := by
  have hi : (db.insertEvent t e).1.stamp u = db.stamp u := by simp only [stamp, row, visits_insertEvent]
  unfold addEvent
  dsimp only
  split
  · exact hi
  · rw [stamp_increment]; exact hi

theorem stamp_apply (o : Op) (u : Text) :
    (db.apply o).stamp u = (db.stamp u).or (if o.url = u then some (o.timestamp, o.title) else none) := by
  unfold apply
  rw [← stamp_insertVisit]
  cases o.mark with
  | visit => rfl
  | ofInterest => exact stamp_setOfInterest _ _ _
  | event t f d => exact stamp_addEvent _ _ _ _

/-- The timestamp and title that the first operation of a URL brings. -/
def firstStamp (l : List Op) (u : Text) : Option (Text × Text) :=
  (l.find? fun o => o.url = u).map fun o => (o.timestamp, o.title)

/-- **The first operation of a URL fixes its timestamp and title.** -/
theorem stamp_ops (l : List Op) (u : Text) : (db.ops l).stamp u = (db.stamp u).or (firstStamp l u) := by
  induction l generalizing db with
  | nil => exact (Option.or_none).symm
  | cons o l ih =>
    have hcons : db.ops (o :: l) = (db.apply o).ops l := rfl
    rw [hcons, ih, stamp_apply, Option.or_assoc]
    congr 1
    by_cases h : o.url = u
    · simp [firstStamp, h]
    · simp [firstStamp, h]

/-! ## Whole rows -/

/-- The of_interest column holds NULL or `'1'`. -/
def Marked : Prop := ∀ v ∈ db.visits, v.ofInterest = none ∨ v.ofInterest = some (ascii "1")

variable {db}

theorem Marked.increment (h : db.Marked) (t : EventsTable) (u : Text) : (db.increment t u).Marked := by
  intro v hv
  simp only [Db.increment, Table.updateWhere, List.mem_map] at hv
  obtain ⟨w, hw, rfl⟩ := hv
  split
  · rw [EventsTable.increment_ofInterest]; exact h w hw
  · exact h w hw

theorem Marked.apply (h : db.Marked) (o : Op) : (db.apply o).Marked := by
  have hi : (db.insertVisit o.timestamp o.url o.title).Marked := by
    intro v hv
    rcases (mem_visits_insertVisit db).mp hv with hv | ⟨-, rfl⟩
    · exact h v hv
    · exact Or.inl rfl
  unfold Db.apply
  cases o.mark with
  | visit => exact hi
  | ofInterest =>
    intro v hv
    simp only [setOfInterest, Table.updateWhere, List.mem_map] at hv
    obtain ⟨w, hw, rfl⟩ := hv
    split
    · exact Or.inr rfl
    · exact hi w hw
  | event t f d =>
    unfold addEvent
    have he : ((db.insertVisit o.timestamp o.url o.title).insertEvent t
        ⟨o.url, o.timestamp, f, d⟩).1.Marked := by
      unfold Marked; rw [visits_insertEvent]; exact hi
    dsimp only
    split
    · exact he
    · exact he.increment t o.url

theorem Marked.ops (h : db.Marked) (l : List Op) : (db.ops l).Marked := by
  induction l generalizing db with
  | nil => exact h
  | cons o l ih => exact ih (h.apply o)

theorem isOfInterest_row (h : db.urls.Nodup) (u : Text) :
    db.isOfInterest u = (db.row u).any fun v => v.ofInterest.isSome := by
  rw [Bool.eq_iff_iff, isOfInterest_iff]
  constructor
  · rintro ⟨v, hv, rfl, hi⟩
    have hf := Table.filter_key Visit.url h hv
    have hrow : db.row v.url = some v := by
      rw [row, ← List.head?_filter, hf]; rfl
    rw [hrow]; exact hi
  · intro hr
    cases hf : db.row u with
    | none => simp [hf] at hr
    | some v =>
      rw [hf] at hr
      exact ⟨v, List.mem_of_find?_eq_some hf, by simpa using List.find?_some hf, hr⟩

/-- **A row is its stamp, its mark and its counters.** -/
theorem row_eq_iff {a b : Db} (ha : a.urls.Nodup) (hb : b.urls.Nodup) (hma : a.Marked) (hmb : b.Marked)
    (u : Text) :
    a.row u = b.row u ↔ a.stamp u = b.stamp u ∧ a.isOfInterest u = b.isOfInterest u ∧
      ∀ t, a.counter t u = b.counter t u := by
  have hcounter : ∀ (db : Db) (t : EventsTable), db.counter t u = (db.row u).map t.counter := fun _ _ => rfl
  rw [isOfInterest_row ha, isOfInterest_row hb]
  simp only [hcounter, stamp]
  constructor
  · intro h; rw [h]; exact ⟨rfl, rfl, fun _ => rfl⟩
  · rintro ⟨hs, hi, hc⟩
    cases hra : a.row u with
    | none =>
      cases hrb : b.row u with
      | none => rfl
      | some w => simp [hra, hrb] at hs
    | some v =>
      cases hrb : b.row u with
      | none => simp [hra, hrb] at hs
      | some w =>
        have hvu : v.url = u := by simpa using List.find?_some hra
        have hwu : w.url = u := by simpa using List.find?_some hrb
        simp only [hra, hrb, Option.map_some, Option.some.injEq, Prod.mk.injEq, Option.any_some] at hs hi hc
        have hr := hc .read
        have hk := hc .skimmed
        have ho : v.ofInterest = w.ofInterest := by
          rcases hma v (List.mem_of_find?_eq_some hra) with h₁ | h₁ <;>
            rcases hmb w (List.mem_of_find?_eq_some hrb) with h₂ | h₂ <;> simp [h₁, h₂] at hi ⊢
        obtain ⟨_, _, _, _, _, _⟩ := v
        obtain ⟨_, _, _, _, _, _⟩ := w
        simp_all [EventsTable.counter]

def eventTime (t : EventsTable) (u : Text) (o : Op) : Option Text :=
  match o.mark with
  | .event t' _ _ => if t' = t ∧ o.url = u then some o.timestamp else none
  | _ => none

def eventTimes (l : List Op) (t : EventsTable) (u : Text) : List Text := (l.filterMap (eventTime t u)).dedup

theorem mem_eventTimes {l : List Op} {t : EventsTable} {u ts : Text} :
    ts ∈ eventTimes l t u ↔ ∃ o ∈ l, (∃ f d, o.mark = .event t f d) ∧ o.url = u ∧ o.timestamp = ts := by
  rw [eventTimes, List.mem_dedup, List.mem_filterMap]
  refine exists_congr fun o => and_congr_right fun _ => ?_
  unfold eventTime
  cases o.mark with
  | visit => simp
  | ofInterest => simp
  | event t' f d => simp [and_assoc]

/-- **A counter is the number of its events.** -/
theorem counter_ops (d : Text) (l : List Op) (t : EventsTable) (u : Text) :
    ((Db.empty d).ops l).counter t u = if (∃ o ∈ l, o.url = u) then some
      (eventTimes l t u).length else none := by
  have hc : ((Db.empty d).ops l).Coherent := (coherent_empty d).ops l
  have hu : u ∈ ((Db.empty d).ops l).urls ↔ ∃ o ∈ l, o.url = u := by
    rw [urls_ops]; simp [Db.empty, urls]
  rw [hc.counter_eq]
  refine if_congr hu ?_ rfl
  congr 1
  generalize hk : ((Db.empty d).ops l).keys t = keys
  have hnodup : keys.Nodup := hk ▸ hc.keys_nodup t
  have hinj : ((keys.filter fun k => k.1 = u).map Prod.snd).Nodup := by
    refine List.Nodup.map_on (fun x hx y hy hxy => ?_) (hnodup.filter _)
    have h₁ : x.1 = u := by simpa using (List.mem_filter.mp hx).2
    have h₂ : y.1 = u := by simpa using (List.mem_filter.mp hy).2
    exact Prod.ext (h₁.trans h₂.symm) hxy
  have hperm : ((keys.filter fun k => k.1 = u).map Prod.snd).Perm (eventTimes l t u) := by
    refine (List.perm_ext_iff_of_nodup hinj (List.nodup_dedup _)).mpr fun ts => ?_
    rw [← eventTimes, mem_eventTimes]
    have hmem : ∀ k, k ∈ keys ↔ ∃ o ∈ l, (∃ f d, o.mark = .event t f d) ∧ k = (o.url, o.timestamp) := by
      intro k
      rw [← hk, keys_ops]
      cases t <;> simp [Db.empty, Db.keys, Db.events]
    simp only [List.mem_map, List.mem_filter, hmem, decide_eq_true_eq]
    constructor
    · rintro ⟨k, ⟨⟨o, ho, hm, rfl⟩, rfl⟩, rfl⟩; exact ⟨o, ho, hm, rfl, rfl⟩
    · rintro ⟨o, ho, hm, rfl, rfl⟩; exact ⟨_, ⟨⟨o, ho, hm, rfl⟩, rfl⟩, rfl⟩
  rw [List.countP_eq_length_filter, ← List.length_map Prod.snd, hperm.length_eq]

end Db

/-! ## What reaches a replica -/

inductive Arrival where
  | pushed (raw : Text)
  | pulled (raw : Text)
  | written (inv : BVLHost.Invocation)
  deriving DecidableEq, Repr

namespace Arrival

def line : Arrival → Text
  | pushed raw => raw
  | pulled raw => raw
  | written inv => VisitLog.actionLine inv.recordId inv.message.request

def receive (downloads : Text) (db : Db) : Arrival → Db
  | pushed raw => (Store.replayLine Store.noFault db raw).1
  | pulled raw => SyncClient.replayIntoDb db raw
  | written inv => (BVLHost.handle downloads ⟨db, []⟩ inv).1.db

/-- A local write is one that the host accepts, logs and commits. -/
def Ok : Arrival → Prop
  | written inv => inv.Accepted ∧ inv.faults.action = none ∧ inv.faults.db = none
  | _ => True

/-- What an arrival asks of the database, but for the directory of an event. -/
def ops : Arrival → List Op
  | pushed raw => (Store.lineOp [] raw).toList
  | pulled raw => (SyncClient.lineOp [] raw).toList
  | written inv => BVLHost.ops [] inv.message.request inv.message.alsoOfInterest

end Arrival

def replica (downloads directory : Text) (r : List Arrival) : Db :=
  r.foldl (Arrival.receive downloads) (Db.empty directory)

theorem applyOpt_ops (db : Db) (o : Option Op) : db.applyOpt o = db.ops o.toList := by cases o <;> rfl

theorem storeOp_same (d d' raw : Text) :
    List.Forall₂ Op.Same (Store.lineOp d raw).toList (Store.lineOp d' raw).toList := by
  unfold Store.lineOp
  split
  · exact List.forall₂_same.mpr fun o _ => Op.Same.refl o
  · exact List.forall₂_same.mpr fun o _ => Op.Same.refl o
  · rename_i i ts u ti tag f _
    refine .cons ⟨rfl, rfl, rfl, ?_⟩ .nil
    cases EventsTable.forTag tag with
    | none => exact Or.inl rfl
    | some t => exact Or.inr ⟨t, f, d, f, d', rfl, rfl⟩
  · exact .nil

theorem peerOp_same (d d' raw : Text) :
    List.Forall₂ Op.Same (SyncClient.lineOp d raw).toList (SyncClient.lineOp d' raw).toList := by
  unfold SyncClient.lineOp
  split
  · rename_i i ts u ti rest _
    refine .cons ⟨rfl, rfl, rfl, ?_⟩ .nil
    cases rest with
    | nil => exact Or.inl rfl
    | cons tag rest =>
      by_cases h : tag = ascii "of_interest"
      · exact Or.inl (by simp [h])
      · cases ht : EventsTable.forTag tag with
        | none => exact Or.inl (by simp [h, ht])
        | some t =>
          cases rest with
          | nil => exact Or.inl (by simp [h, ht])
          | cons f rest => exact Or.inr ⟨t, f, d, f, d', by simp [h, ht], by simp [h, ht]⟩
  · exact .nil

theorem hostOps_same (d d' : Text) (a : Action) (also : Bool) :
    List.Forall₂ Op.Same (BVLHost.ops d a also) (BVLHost.ops d' a also) := by
  unfold BVLHost.ops
  refine .cons ⟨rfl, rfl, rfl, ?_⟩ ?_
  · unfold Action.op
    by_cases h : (BVLHost.bound a).tag = ascii "of_interest"
    · exact Or.inl (by simp [h])
    · cases EventsTable.forTag (BVLHost.bound a).tag with
      | none => exact Or.inl (by simp [h])
      | some t =>
        simp only [h, if_false]
        exact Or.inr ⟨t, _, d, _, d', rfl, rfl⟩
  · split
    · exact .cons ⟨rfl, rfl, rfl, Or.inl rfl⟩ .nil
    · exact .nil

theorem Arrival.rows_receive {a : Arrival} (h : a.Ok) (downloads : Text) {db db' : Db}
    (hdb : db.rows = db'.rows) :
    (a.receive downloads db).rows = (db'.ops a.ops).rows := by
  cases a with
  | pushed raw =>
    simp only [receive, ops, Store.replayLine_eq, applyOpt_ops]
    exact Db.rows_ops hdb (storeOp_same _ _ raw)
  | pulled raw =>
    simp only [receive, ops, SyncClient.replayIntoDb_eq, applyOpt_ops]
    exact Db.rows_ops hdb (peerOp_same _ _ raw)
  | written inv =>
    obtain ⟨hacc, -, hdbf⟩ := h
    simp only [receive, ops, BVLHost.handle_accepted hacc, BVLHost.rows_dbWrites downloads hacc, hdbf, if_true]
    exact Db.rows_ops hdb (hostOps_same downloads [] _ _)

/-- **A replica holds the rows of the operations that it receives.** -/
theorem rows_replica {r : List Arrival} (h : ∀ a ∈ r, a.Ok) (downloads directory : Text) :
    (replica downloads directory r).rows = ((Db.empty []).ops (r.flatMap Arrival.ops)).rows := by
  have hrun : ∀ db db' : Db, db.rows = db'.rows →
      (r.foldl (Arrival.receive downloads) db).rows = (db'.ops (r.flatMap Arrival.ops)).rows := by
    induction r with
    | nil => exact fun _ _ hdb => hdb
    | cons a r ih =>
      intro db db' hdb
      rw [List.flatMap_cons, Db.ops_append]
      exact ih (fun b hb => h b (List.mem_cons_of_mem _ hb)) _ _ (a.rows_receive (h a (by simp)) downloads hdb)
  refine hrun _ _ (Prod.ext rfl (funext fun t => ?_))
  cases t <;> rfl

/-! ## The earliest line of a URL -/

def visitOf (raw : Text) : Option (Text × Text × Text) :=
  match splitTabs raw with
  | _ :: timestamp :: url :: title :: _ => some (url, timestamp, title)
  | _ => none

structure IsEarliest (lines : List Text) (u : Text) (v : Text × Text) : Prop where
  mem : ∃ raw ∈ lines, visitOf raw = some (u, v)
  least : ∀ raw ∈ lines, ∀ w, visitOf raw = some (u, w) → v.1 ≤ w.1

def Logged (lines : List Text) (u : Text) : Prop := ∃ raw ∈ lines, ∃ v, visitOf raw = some (u, v)

def marks (r : List Arrival) (u : Text) : Prop := ∃ o ∈ r.flatMap Arrival.ops, o.mark = .ofInterest ∧ o.url = u

theorem IsEarliest.congr {lines lines' : List Text} (h : ∀ raw, raw ∈ lines ↔ raw ∈ lines') {u : Text}
    {v : Text × Text} (he : IsEarliest lines u v) : IsEarliest lines' u v where
  mem := by
    obtain ⟨raw, hraw, hv⟩ := he.mem
    exact ⟨raw, (h raw).mp hraw, hv⟩
  least raw hraw := he.least raw ((h raw).mpr hraw)

section Rows

variable {r r' : List Arrival} (hr : ∀ a ∈ r, a.Ok) (hr' : ∀ a ∈ r', a.Ok)
variable (downloads downloads' directory directory' : Text)

include hr

theorem row_replica (u : Text) :
    (replica downloads directory r).row u = ((Db.empty []).ops (r.flatMap Arrival.ops)).row u :=
  Db.row_congr (congrArg Prod.fst (rows_replica hr downloads directory)) u

theorem stamp_replica (u : Text) :
    (replica downloads directory r).stamp u = Db.firstStamp (r.flatMap Arrival.ops) u := by
  rw [Db.stamp, row_replica hr, ← Db.stamp, Db.stamp_ops]
  rfl

include hr'

theorem row_replica_eq_iff {u : Text} {v : Text × Text} (hv : Db.firstStamp (r.flatMap Arrival.ops) u = some v)
    (hv' : Db.firstStamp (r'.flatMap Arrival.ops) u = some v) :
    (replica downloads directory r).row u = (replica downloads' directory' r').row u ↔
      (marks r u ↔ marks r' u) ∧ ∀ t,
        (Db.eventTimes (r.flatMap Arrival.ops) t u).length =
          (Db.eventTimes (r'.flatMap Arrival.ops) t u).length := by
  have hcoh : ∀ l, ((Db.empty []).ops l).Coherent := fun l => (Db.coherent_empty []).ops l
  have hempty : (Db.empty []).Marked := fun v hv => by cases hv
  have hmarked : ∀ l, ((Db.empty []).ops l).Marked := fun l => hempty.ops l
  have hstamp : ∀ l, ((Db.empty []).ops l).stamp u = Db.firstStamp l u := fun l => Db.stamp_ops _ l u
  have hmark : ∀ l : List Op, ((Db.empty []).ops l).isOfInterest u = true ↔
      ∃ o ∈ l, o.mark = .ofInterest ∧ o.url = u := by
    intro l
    rw [Db.isOfInterest_ops]; simp [Db.empty, Db.isOfInterest]
  have hsome : ∀ l : List Op, Db.firstStamp l u = some v → ∃ o ∈ l, o.url = u := by
    intro l hl
    obtain ⟨o, ho, -⟩ := Option.map_eq_some_iff.mp hl
    exact ⟨o, List.mem_of_find?_eq_some ho, by simpa using List.find?_some ho⟩
  rw [row_replica hr, row_replica hr', Db.row_eq_iff (hcoh _).urls_nodup (hcoh _).urls_nodup (hmarked _)
    (hmarked _), hstamp, hstamp, hv, hv', Bool.eq_iff_iff, hmark, hmark]
  simp only [Db.counter_ops, if_pos (hsome _ hv), if_pos (hsome _ hv'), Option.some.injEq, true_and]
  exact Iff.rfl

/-- **Rows are the earliest, and the same on two replicas, exactly when the first
operation of each URL is an earliest one** on both, and both receive as many marks and events of it. -/
theorem rows_earliest_iff (h : ∀ raw, raw ∈ r.map Arrival.line ↔ raw ∈ r'.map Arrival.line) :
    (∀ u, Logged (r.map Arrival.line) u →
        (∃ v, (replica downloads directory r).stamp u = some v ∧ IsEarliest (r.map Arrival.line) u v) ∧
        (∃ v, (replica downloads' directory' r').stamp u = some v ∧ IsEarliest (r'.map Arrival.line) u v) ∧
        (replica downloads directory r).row u = (replica downloads' directory' r').row u) ↔
      ∀ u, Logged (r.map Arrival.line) u →
        (∃ v, Db.firstStamp (r.flatMap Arrival.ops) u = some v ∧
          Db.firstStamp (r'.flatMap Arrival.ops) u = some v ∧
          IsEarliest (r.map Arrival.line) u v) ∧
        (marks r u ↔ marks r' u) ∧ ∀ t,
          (Db.eventTimes (r.flatMap Arrival.ops) t u).length =
            (Db.eventTimes (r'.flatMap Arrival.ops) t u).length := by
  refine forall_congr' fun u => imp_congr_right fun _ => ?_
  rw [stamp_replica hr, stamp_replica hr']
  constructor
  · rintro ⟨⟨v, hv, he⟩, ⟨w, hw, -⟩, hrow⟩
    have hvw : some v = some w := by
      rw [← hv, ← hw, ← stamp_replica hr downloads directory, ← stamp_replica hr' downloads' directory']
      rw [Db.stamp, hrow, Db.stamp]
    have hv' : Db.firstStamp (r'.flatMap Arrival.ops) u = some v := hw.trans hvw.symm
    exact ⟨⟨v, hv, hv', he⟩, (row_replica_eq_iff hr hr' downloads downloads' directory directory' hv hv').mp hrow⟩
  · rintro ⟨⟨v, hv, hv', he⟩, hrest⟩
    exact ⟨⟨v, hv, he⟩, ⟨v, hv', he.congr h⟩,
      (row_replica_eq_iff hr hr' downloads downloads' directory directory' hv hv').mpr hrest⟩

end Rows

/-! ## A later line that comes first -/

def secondVisit : Text := ascii "i\t2024-05-02T00:00:00Z\thttps://a.example/\tLater"

def firstVisit : Text := ascii "i\t2024-05-01T00:00:00Z\thttps://a.example/\tEarlier"

/-- The VM is pushed the later of two visits first, a laptop pulls them in order: the VM keeps
the later timestamp, and the rows differ. -/
theorem later_visit_stays :
    let vm := replica [] [] [.pushed secondVisit, .pushed firstVisit]
    let laptop := replica [] [] [.pulled firstVisit, .pulled secondVisit]
    let u := ascii "https://a.example/"
    vm.stamp u = some (ascii "2024-05-02T00:00:00Z", ascii "Later") ∧
      laptop.stamp u = some (ascii "2024-05-01T00:00:00Z", ascii "Earlier") ∧
      ascii "2024-05-01T00:00:00Z" < ascii "2024-05-02T00:00:00Z" ∧
      visitOf secondVisit = some (u, ascii "2024-05-02T00:00:00Z", ascii "Later") ∧
      visitOf firstVisit = some (u, ascii "2024-05-01T00:00:00Z", ascii "Earlier") := by
  decide +kernel

theorem rows_earliest_iff_later :
    ¬∀ u, Logged [secondVisit, firstVisit] u →
      (∃ v, (replica [] [] [.pushed secondVisit, .pushed firstVisit]).stamp u = some v ∧
          IsEarliest [secondVisit, firstVisit] u v) ∧
        (∃ v, (replica [] [] [.pulled firstVisit, .pulled secondVisit]).stamp u = some v ∧
          IsEarliest [firstVisit, secondVisit] u v) ∧
        (replica [] [] [.pushed secondVisit, .pushed firstVisit]).row u =
          (replica [] [] [.pulled firstVisit, .pulled secondVisit]).row u := by
  intro hall
  have hvm : ∀ a ∈ [Arrival.pushed secondVisit, .pushed firstVisit], a.Ok := by
    intro a ha
    simp only [List.mem_cons, List.not_mem_nil, or_false] at ha
    rcases ha with rfl | rfl <;> trivial
  have hlaptop : ∀ a ∈ [Arrival.pulled firstVisit, .pulled secondVisit], a.Ok := by
    intro a ha
    simp only [List.mem_cons, List.not_mem_nil, or_false] at ha
    rcases ha with rfl | rfl <;> trivial
  have hlines : ∀ raw, raw ∈ [Arrival.pushed secondVisit, .pushed firstVisit].map Arrival.line ↔
      raw ∈ [Arrival.pulled firstVisit, .pulled secondVisit].map Arrival.line := by
    intro raw
    simp only [List.map_cons, List.map_nil, Arrival.line, List.mem_cons, List.not_mem_nil, or_false]
    exact or_comm
  have h := (rows_earliest_iff hvm hlaptop [] [] [] [] hlines).mp hall (ascii "https://a.example/")
    ⟨secondVisit, by simp [Arrival.line], _, rfl⟩
  obtain ⟨⟨v, hv, hv', -⟩, -⟩ := h
  exact absurd (hv.trans hv'.symm) (by decide)

end VisitLogger
