import Mathlib.Data.List.Sort
import VisitLogger.Replicas

/-!
# What a query answers

The extension asks the host what is known of a URL. The answer is a function of
the operations that have reached the database so far, in their order: the
timestamp and title of the first, a mark if one of them made it, and for each
events table the timestamps, each once and in their order, with the filename
that came first (`query_replica`).
-/

namespace VisitLogger

open BVLHost

/-! ## The filename of an event -/

namespace Db

variable (db : Db)

def file (t : EventsTable) (u ts : Text) : Option Text :=
  ((db.events t).find? fun e => (e.url, e.timestamp) = (u, ts)).map Event.filename

def eventFile (t : EventsTable) (u ts : Text) (o : Op) : Option Text :=
  match o.mark with
  | .event t' f _ => if t' = t ∧ (o.url, o.timestamp) = (u, ts) then some f else none
  | _ => none

theorem file_congr {a b : Db} (h : ∀ t, a.events t = b.events t) (t : EventsTable) (u ts : Text) :
    a.file t u ts = b.file t u ts := by rw [file, file, h]

theorem file_insertEvent (t t' : EventsTable) (e : Event) (u ts : Text) :
    (db.insertEvent t' e).1.file t u ts =
      (db.file t u ts).or (if t' = t ∧ (e.url, e.timestamp) = (u, ts) then some e.filename else none) := by
  by_cases ht : t' = t
  · subst ht
    have h := Table.find_insertOrIgnore (fun e : Event => (e.url, e.timestamp)) e (db.events t') (u, ts)
    have hevents : (db.insertEvent t' e).1.events t' =
        (Table.insertOrIgnore (fun e : Event => (e.url, e.timestamp)) e (db.events t')).1 := by cases t' <;> rfl
    rw [file, file, hevents, h, Option.map_or]
    congr 1
    by_cases hk : (e.url, e.timestamp) = (u, ts) <;> simp [hk]
  · have hevents : (db.insertEvent t' e).1.events t = db.events t := by
      cases t <;> cases t' <;> first | rfl | exact absurd rfl ht
    rw [file, hevents, if_neg fun h => ht h.1, Option.or_none, file]

theorem file_addEvent (t t' : EventsTable) (e : Event) (u ts : Text) :
    (db.addEvent t' e).file t u ts =
      (db.file t u ts).or (if t' = t ∧ (e.url, e.timestamp) = (u, ts) then some e.filename else none) := by
  rw [← file_insertEvent]
  unfold addEvent
  dsimp only
  split
  · rfl
  · exact file_congr (fun t => by cases t <;> rfl) t u ts

theorem file_apply (o : Op) (t : EventsTable) (u ts : Text) :
    (db.apply o).file t u ts = (db.file t u ts).or (eventFile t u ts o) := by
  have hvisit : (db.insertVisit o.timestamp o.url o.title).file t u ts = db.file t u ts :=
    file_congr (events_insertVisit _ _ _ _) t u ts
  unfold apply eventFile
  cases o.mark with
  | visit => rw [hvisit, Option.or_none]
  | ofInterest =>
    rw [Option.or_none, ← hvisit]
    exact file_congr (events_setOfInterest _ _) t u ts
  | event t' f d => rw [file_addEvent, hvisit]

def firstFile (l : List Op) (t : EventsTable) (u ts : Text) : Option Text := l.findSome? (eventFile t u ts)

/-- **The first operation that brings an event fixes its filename.** -/
theorem file_ops (l : List Op) (t : EventsTable) (u ts : Text) :
    (db.ops l).file t u ts = (db.file t u ts).or (firstFile l t u ts) := by
  induction l generalizing db with
  | nil => exact Option.or_none.symm
  | cons o l ih =>
    have hcons : db.ops (o :: l) = (db.apply o).ops l := rfl
    rw [hcons, ih, file_apply, Option.or_assoc]
    congr 1
    rw [firstFile, firstFile, List.findSome?_cons]
    cases eventFile t u ts o <;> rfl

theorem file_relocate (dateSubdir basename downloads : Text) (t : EventsTable) (u ts : Text) :
    (relocate db dateSubdir basename downloads).file t u ts = db.file t u ts := by
  have hevents : (relocate db dateSubdir basename downloads).events t =
      (Table.updateWhere (fun e => e.filename = basename && e.directory = downloads)
        (fun e => { e with directory := dateSubdir }) (db.events t)).1 := by cases t <;> rfl
  have h := Table.find_updateWhere (fun e : Event => (e.url, e.timestamp))
    (fun e => e.filename = basename && e.directory = downloads) (fun e => { e with directory := dateSubdir })
    (db.events t) (fun _ => rfl) (u, ts)
  rw [file, hevents, h, Option.map_map, file]
  congr 1
  funext e
  simp only [Function.comp]
  split <;> rfl

end Db

/-! ## What arrives at a database -/

theorem Db.firstFile_storeOp (d raw : Text) (t : EventsTable) (u ts : Text) :
    firstFile (Store.lineOp d raw).toList t u ts = firstFile (Store.lineOp [] raw).toList t u ts := by
  unfold Store.lineOp
  split
  · rfl
  · rfl
  · rename_i tag f _
    cases EventsTable.forTag tag <;> rfl
  · rfl

theorem Db.firstFile_peerOp (d raw : Text) (t : EventsTable) (u ts : Text) :
    firstFile (SyncClient.lineOp d raw).toList t u ts = firstFile (SyncClient.lineOp [] raw).toList t u ts := by
  unfold SyncClient.lineOp
  split
  · rename_i rest _
    cases rest with
    | nil => rfl
    | cons tag rest =>
      by_cases h : tag = ascii "of_interest"
      · simp only [h, if_true]
      · cases ht : EventsTable.forTag tag with
        | none => simp only [h, if_false, ht]
        | some t' =>
          cases rest with
          | nil => simp only [h, if_false, ht]
          | cons f rest => simp only [h, if_false, ht]; rfl
  · rfl

theorem Db.firstFile_hostOps (d : Text) (a : Action) (also : Bool) (t : EventsTable) (u ts : Text) :
    firstFile (BVLHost.ops d a also) t u ts = firstFile (BVLHost.ops [] a also) t u ts := by
  unfold BVLHost.ops Action.op
  by_cases h : (bound a).tag = ascii "of_interest"
  · simp only [h, if_true]
  · simp only [h, if_false]
    cases EventsTable.forTag (bound a).tag <;> split <;> rfl

namespace Arrival

/-- What an arrival asks of the database, if it gets that far. -/
def asks : Arrival → List Op
  | written inv =>
    if inv.Accepted ∧ inv.faults.db = none then BVLHost.ops [] inv.message.request inv.message.alsoOfInterest else []
  | a => a.ops

theorem file_archived (downloads filename : Text) (db : Db) (moved : Option (Text × Text)) (t : EventsTable)
    (u ts : Text) : (archived downloads filename db moved).file t u ts = db.file t u ts := by
  cases moved with
  | none => rfl
  | some m =>
    rw [← db.file_relocate m.2 (cString (lastPathComponent filename)) downloads]
    exact Db.file_congr (fun t => by cases t <;> rfl) t u ts

theorem file_dbWrites (downloads : Text) {inv : Invocation} (h : inv.Accepted) (db : Db) (t : EventsTable)
    (u ts : Text) : (dbWrites downloads inv inv.message.request db).1.file t u ts =
      (db.ops (if inv.faults.db = none then BVLHost.ops downloads inv.message.request inv.message.alsoOfInterest
        else [])).file t u ts := by
  have hsnap : (db.insertSnapshot inv.todayISO).file t u ts = db.file t u ts :=
    Db.file_congr (fun t => by cases t <;> rfl) t u ts
  unfold dbWrites
  cases hf : inv.faults.db with
  | some f =>
    obtain ⟨_ | _, e⟩ := f
    · rfl
    · exact hsnap
  | none =>
    have hwrites : (writes downloads inv.message.request inv.message.alsoOfInterest
        (db.insertSnapshot inv.todayISO)).file t u ts =
          (db.ops (BVLHost.ops downloads inv.message.request inv.message.alsoOfInterest)).file t u ts := by
      rw [writes_eq downloads h.tag, Db.file_ops, Db.file_ops, hsnap]
    rw [if_pos rfl, ← hwrites]
    dsimp only
    split
    · exact file_archived ..
    · rfl

theorem file_receive (a : Arrival) (downloads : Text) (db : Db) (t : EventsTable) (u ts : Text) :
    (a.receive downloads db).file t u ts = (db.file t u ts).or (Db.firstFile a.asks t u ts) := by
  cases a with
  | pushed raw =>
    rw [receive, Store.replayLine_eq, applyOpt_ops, Db.file_ops, Db.firstFile_storeOp]
    rfl
  | pulled raw =>
    rw [receive, SyncClient.replayIntoDb_eq, applyOpt_ops, Db.file_ops, Db.firstFile_peerOp]
    rfl
  | written inv =>
    by_cases h : inv.Accepted
    · rw [receive, handle_accepted h, file_dbWrites downloads h, Db.file_ops]
      by_cases hf : inv.faults.db = none
      · rw [if_pos hf, Db.firstFile_hostOps, asks, if_pos ⟨h, hf⟩]
      · rw [if_neg hf, asks, if_neg fun c => hf c.2]
    · rw [receive, handle_refused h, asks, if_neg fun c => h c.1]
      exact Option.or_none.symm

theorem rows_asks (a : Arrival) (downloads : Text) {db db' : Db} (hdb : db.rows = db'.rows) :
    (a.receive downloads db).rows = (db'.ops a.asks).rows := by
  cases a with
  | pushed raw => exact rows_receive (a := .pushed raw) trivial downloads hdb
  | pulled raw => exact rows_receive (a := .pulled raw) trivial downloads hdb
  | written inv =>
    by_cases h : inv.Accepted
    · rw [receive, handle_accepted h, rows_dbWrites downloads h]
      by_cases hf : inv.faults.db = none
      · rw [if_pos hf, asks, if_pos ⟨h, hf⟩]
        exact Db.rows_ops hdb (hostOps_same downloads [] _ _)
      · rw [if_neg hf, asks, if_neg fun c => hf c.2]
        exact hdb
    · rw [receive, handle_refused h, asks, if_neg fun c => h c.1]
      exact hdb

end Arrival

/-- **A database holds the rows, and the filenames, of what has reached it.** -/
theorem replica_asks (downloads directory : Text) (r : List Arrival) :
    (replica downloads directory r).rows = ((Db.empty []).ops (r.flatMap Arrival.asks)).rows ∧
      ∀ t u ts, (replica downloads directory r).file t u ts = Db.firstFile (r.flatMap Arrival.asks) t u ts := by
  induction r using List.reverseRecOn with
  | nil =>
    refine ⟨Prod.ext rfl (funext fun t => ?_), fun t u ts => ?_⟩
    · cases t <;> rfl
    · cases t <;> rfl
  | append_singleton r a ih =>
    obtain ⟨hrows, hfile⟩ := ih
    have hsnoc : replica downloads directory (r ++ [a]) = a.receive downloads (replica downloads directory r) := by
      rw [replica, List.foldl_append]
      rfl
    rw [hsnoc, List.flatMap_append, Db.ops_append, List.flatMap_singleton]
    refine ⟨a.rows_asks downloads hrows, fun t u ts => ?_⟩
    rw [a.file_receive, hfile]
    exact List.findSome?_append.symm

/-! ## The answer -/

theorem Db.row_of_mem {db : Db} (h : db.urls.Nodup) {v : Visit} (hv : v ∈ db.visits) :
    db.row v.url = some v := by
  have hf := Table.filter_key Visit.url h hv
  rw [row, ← List.head?_filter, hf]
  rfl

theorem Db.file_eq_some {db : Db} {t : EventsTable} (h : (db.keys t).Nodup) {u ts f : Text} :
    db.file t u ts = some f ↔ ∃ e ∈ db.events t, e.url = u ∧ e.timestamp = ts ∧ e.filename = f := by
  rw [file, Option.map_eq_some_iff]
  constructor
  · rintro ⟨e, he, rfl⟩
    have hk := List.find?_some he
    simp only [Prod.mk.injEq, decide_eq_true_eq] at hk
    exact ⟨e, List.mem_of_find?_eq_some he, hk.1, hk.2, rfl⟩
  · rintro ⟨e, he, rfl, rfl, rfl⟩
    refine ⟨e, ?_, rfl⟩
    have hf := Table.filter_key (fun e : Event => (e.url, e.timestamp)) h he
    rw [← List.head?_filter, hf]
    rfl

namespace BVLHost

def VisitRecord.events (r : VisitRecord) : EventsTable → List Event
  | .read => r.read
  | .skimmed => r.skimmed

def eventRows (db : Db) (t : EventsTable) (u : Text) : List Event :=
  ((db.events t).filter fun e => e.url = u).insertionSort fun a b => a.timestamp ≤ b.timestamp

theorem mem_eventRows {db : Db} {t : EventsTable} {u : Text} {e : Event} :
    e ∈ eventRows db t u ↔ e ∈ db.events t ∧ e.url = u := by
  rw [eventRows, (List.perm_insertionSort _ _).mem_iff, List.mem_filter, decide_eq_true_iff]

/-- **The rows of a URL are in the order of their timestamps, each once.** -/
theorem eventRows_sorted {db : Db} {t : EventsTable} (h : (db.keys t).Nodup) (u : Text) :
    (eventRows db t u).Pairwise fun a b => a.timestamp < b.timestamp := by
  have hle : (eventRows db t u).Pairwise fun a b => a.timestamp ≤ b.timestamp :=
    List.pairwise_insertionSort _ _
  have hne : ((db.events t).filter fun e => e.url = u).Pairwise fun a b => a.timestamp ≠ b.timestamp := by
    refine ((List.pairwise_map.mp h).filter _).imp_of_mem fun {a b} ha hb hk he => hk (Prod.ext ?_ he)
    have hau : a.url = u := by simpa using (List.mem_filter.mp ha).2
    have hbu : b.url = u := by simpa using (List.mem_filter.mp hb).2
    exact hau.trans hbu.symm
  have hne' : (eventRows db t u).Pairwise fun a b => a.timestamp ≠ b.timestamp :=
    (List.perm_insertionSort _ _).symm.pairwise hne Ne.symm
  exact hle.imp₂ (fun _ _ => lt_of_le_of_ne) hne'

/-- The answer to a query for `u`, by the operations that have reached the database. -/
structure Answers (l : List Op) (u : Text) (r : VisitRecord) : Prop where
  stamp : ∃ o, l.find? (fun o => o.url = u) = some o ∧ r.timestamp = cString o.timestamp ∧
    r.title = cString o.title
  ofInterest : r.ofInterest = true ↔ ∃ o ∈ l, o.mark = .ofInterest ∧ o.url = u
  events : ∀ t, ∃ rows : List (Text × Text), rows.Pairwise (fun a b => a.1 < b.1) ∧
    (∀ ts f, (ts, f) ∈ rows ↔ Db.firstFile l t u ts = some f) ∧
    (r.events t).map (fun e => (e.timestamp, e.filename)) = rows.map fun p => (cString p.1, cString p.2)

/-- **What a query answers**, whatever writes of the hosts, failed or not, and
lines of other machines have reached the database before: nothing for a URL that
none of them names, and else the record of what they asked for, with as many
events as the counters say. -/
theorem query_replica (downloads directory : Text) (r : List Arrival) (url : Text) :
    let db := replica downloads directory r
    (query db url = none ↔ ∀ o ∈ r.flatMap Arrival.asks, o.url ≠ cString url) ∧
      ∀ rec, query db url = some rec → Answers (r.flatMap Arrival.asks) (cString url) rec ∧
        ∀ t, db.counter t (cString url) = some (rec.events t).length := by
  obtain ⟨hrows, hfile⟩ := replica_asks downloads directory r
  intro db
  have hcoherent : db.Coherent := ((Db.coherent_empty []).ops _).congr hrows.symm
  have hrow : db.row (cString url) = ((Db.empty []).ops (r.flatMap Arrival.asks)).row (cString url) :=
    Db.row_congr (congrArg Prod.fst hrows) _
  have hstamp : db.stamp (cString url) = Db.firstStamp (r.flatMap Arrival.asks) (cString url) := by
    have h := (Db.empty []).stamp_ops (r.flatMap Arrival.asks) (cString url)
    rw [Db.stamp, hrow, ← Db.stamp, h]
    rfl
  generalize r.flatMap Arrival.asks = l at *
  have hquery : query db url = (db.row (cString url)).map fun v =>
      ⟨cString v.timestamp, cString v.title, v.ofInterest.isSome, fetchEvents db .read url,
        fetchEvents db .skimmed url⟩ := rfl
  constructor
  · rw [hquery, Option.map_eq_none_iff]
    have hnone : db.stamp (cString url) = none ↔ db.row (cString url) = none := Option.map_eq_none_iff
    rw [← hnone, hstamp, Db.firstStamp, Option.map_eq_none_iff, List.find?_eq_none]
    simp
  · intro rec hrec
    rw [hquery, Option.map_eq_some_iff] at hrec
    obtain ⟨v, hv, rfl⟩ := hrec
    have hevents : ∀ t, VisitRecord.events ⟨cString v.timestamp, cString v.title, v.ofInterest.isSome,
        fetchEvents db .read url, fetchEvents db .skimmed url⟩ t =
          (eventRows db t (cString url)).map fun e =>
            ⟨e.url, cString e.timestamp, cString e.filename, cString e.directory⟩ := by
      intro t
      cases t <;> rfl
    refine ⟨⟨?_, ?_, fun t => ⟨(eventRows db t (cString url)).map fun e => (e.timestamp, e.filename), ?_,
      fun ts f => ?_, ?_⟩⟩, fun t => ?_⟩
    · rw [Db.stamp, hv, Option.map_some, Db.firstStamp, eq_comm, Option.map_eq_some_iff] at hstamp
      obtain ⟨o, ho, he⟩ := hstamp
      obtain ⟨hts, hti⟩ := Prod.mk.inj he
      exact ⟨o, ho, by rw [hts], by rw [hti]⟩
    · have hmark : db.isOfInterest (cString url) = true ↔ ∃ o ∈ l, o.mark = .ofInterest ∧ o.url = cString url := by
        rw [Db.isOfInterest_congr (congrArg Prod.fst hrows), Db.isOfInterest_ops]
        exact or_iff_right (by simp [Db.isOfInterest, Db.empty])
      rw [← hmark, Db.isOfInterest_row hcoherent.urls_nodup, hv]
      rfl
    · exact List.pairwise_map.mpr (eventRows_sorted (hcoherent.keys_nodup t) _)
    · rw [← hfile, Db.file_eq_some (hcoherent.keys_nodup t)]
      simp only [List.mem_map, mem_eventRows, Prod.mk.injEq, and_assoc]
    · rw [hevents, List.map_map, List.map_map]
      rfl
    · have hmem : cString url ∈ db.urls := by
        have hu : v.url = cString url := by simpa using List.find?_some hv
        exact List.mem_map.mpr ⟨v, List.mem_of_find?_eq_some hv, hu⟩
      rw [hcoherent.counter_eq, if_pos hmem, hevents, List.length_map, eventRows,
        (List.perm_insertionSort _ _).length_eq, ← List.countP_eq_length_filter, Db.keys, List.countP_map]
      rfl

end BVLHost

end VisitLogger
