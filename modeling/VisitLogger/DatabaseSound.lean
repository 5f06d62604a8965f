import VisitLogger.Database

/-!
# What the writers of a database have in common

Every writer turns its input into an `Op`: insert the visit row, then mark it or
add an event to it. `Db.view` is what a database shows of its visits, and an
`Op` only adds to it (`view_apply`). `Coherent` ties the counters to the event
rows; an `Op` keeps it (`Coherent.apply`), so the view determines the counters
(`counter_eq_of_view`).
-/

namespace VisitLogger

open Table

/-! ## Rows of the visits table -/

namespace Db

variable (db : Db)

@[simp] theorem events_setEvents (t t' : EventsTable) (es : List Event) :
    (db.setEvents t es).events t' = if t = t' then es else db.events t' := by
  cases t <;> cases t' <;> rfl

@[simp] theorem visits_setEvents (t : EventsTable) (es : List Event) : (db.setEvents t es).visits =
  db.visits := by
  cases t <;> rfl

@[simp] theorem defaultDirectory_setEvents (t : EventsTable) (es : List Event) :
    (db.setEvents t es).defaultDirectory = db.defaultDirectory := by cases t <;> rfl

@[simp] theorem defaultDirectory_insertVisit (ts u ti : Text) :
    (db.insertVisit ts u ti).defaultDirectory = db.defaultDirectory := rfl

@[simp] theorem events_insertVisit (ts u ti : Text) (t : EventsTable) :
    (db.insertVisit ts u ti).events t = db.events t := by cases t <;> rfl

@[simp] theorem events_setOfInterest (u : Text) (t : EventsTable) :
    (db.setOfInterest u).1.events t = db.events t := by cases t <;> rfl

@[simp] theorem events_increment (t t' : EventsTable) (u : Text) :
    (db.increment t u).events t' = db.events t' := by cases t' <;> rfl

@[simp] theorem visits_insertEvent (t : EventsTable) (e : Event) : (db.insertEvent t e).1.visits =
  db.visits := by
  simp [insertEvent]

@[simp] theorem urls_insertEvent (t : EventsTable) (e : Event) : (db.insertEvent t e).1.urls = db.urls := by
  simp [urls]

theorem events_insertEvent (t t' : EventsTable) (e : Event) :
    (db.insertEvent t e).1.events t' =
      if t = t' then (insertOrIgnore (fun e : Event => (e.url, e.timestamp)) e (db.events t)).1
      else db.events t' := by
  simp [insertEvent]

theorem mem_urls_insertVisit {ts u ti u' : Text} :
    u' ∈ (db.insertVisit ts u ti).urls ↔ u' ∈ db.urls ∨ u' = u := by
  simp only [urls, insertVisit]
  exact mem_keys_insertOrIgnore _

@[simp] theorem urls_setOfInterest (u : Text) : (db.setOfInterest u).1.urls = db.urls :=
  keys_updateWhere _ _ _ _ fun _ => rfl

@[simp] theorem urls_increment (t : EventsTable) (u : Text) : (db.increment t u).urls = db.urls :=
  keys_updateWhere _ _ _ _ (EventsTable.increment_url t)

theorem mem_visits_insertVisit {ts u ti : Text} {v : Visit} :
    v ∈ (db.insertVisit ts u ti).visits ↔ v ∈ db.visits ∨ u ∉ db.urls ∧ v = ⟨u, ts, ti, none, 0, 0⟩ := by
  rw [and_comm]
  exact mem_insertOrIgnore Visit.url

theorem insertVisit_of_mem {u : Text} (h : u ∈ db.urls) (ts ti : Text) : db.insertVisit ts u ti = db := by
  simp only [insertVisit, insertOrIgnore, (has_iff Visit.url).mpr h, if_true]

theorem isOfInterest_iff {u : Text} :
    db.isOfInterest u = true ↔ ∃ v ∈ db.visits, v.url = u ∧ v.ofInterest.isSome = true := by
  simp [isOfInterest]

@[simp] theorem isOfInterest_insertVisit (ts u ti u' : Text) :
    (db.insertVisit ts u ti).isOfInterest u' = db.isOfInterest u' := by
  rw [Bool.eq_iff_iff, isOfInterest_iff, isOfInterest_iff]
  simp only [mem_visits_insertVisit]
  constructor
  · rintro ⟨v, hv | ⟨-, rfl⟩, hu, hi⟩
    · exact ⟨v, hv, hu, hi⟩
    · cases hi
  · rintro ⟨v, hv, h⟩; exact ⟨v, Or.inl hv, h⟩

theorem isOfInterest_setOfInterest (u u' : Text) :
    (db.setOfInterest u).1.isOfInterest u' = true ↔ db.isOfInterest u' = true ∨ u' = u ∧ u ∈ db.urls := by
  simp only [isOfInterest_iff, setOfInterest, updateWhere, List.mem_map, urls]
  constructor
  · rintro ⟨_, ⟨v, hv, rfl⟩, hu, hi⟩
    by_cases hvu : v.url = u
    · simp only [hvu, decide_true, if_true] at hu
      exact Or.inr ⟨hu.symm, v, hv, hvu⟩
    · simp only [hvu, decide_false, Bool.false_eq_true, if_false] at hu hi
      exact Or.inl ⟨v, hv, hu, hi⟩
  · rintro (⟨v, hv, hu, hi⟩ | ⟨rfl, v, hv, hu⟩)
    · refine ⟨_, ⟨v, hv, rfl⟩, ?_⟩
      by_cases hvu : v.url = u
      · simp only [hvu, decide_true, if_true]; exact ⟨hvu.symm.trans hu, rfl⟩
      · simp only [hvu, decide_false, Bool.false_eq_true, if_false]; exact ⟨hu, hi⟩
    · exact ⟨_, ⟨v, hv, rfl⟩, by simp [hu]⟩

@[simp] theorem isOfInterest_increment (t : EventsTable) (u u' : Text) :
    (db.increment t u).isOfInterest u' = db.isOfInterest u' := by
  simp only [isOfInterest, increment, updateWhere, List.any_map]
  congr 1
  funext v
  simp only [Function.comp]
  split <;> simp

theorem isOfInterest_congr {db db' : Db} (h : db'.visits = db.visits) (u : Text) :
    db'.isOfInterest u = db.isOfInterest u := by simp [isOfInterest, h]

/-! ## Event rows -/

theorem events_addEvent (t t' : EventsTable) (e : Event) :
    (db.addEvent t e).events t' =
      if t = t' then (insertOrIgnore (fun e : Event => (e.url, e.timestamp)) e (db.events t)).1
      else db.events t' := by
  rw [← events_insertEvent]
  unfold addEvent
  dsimp only
  split <;> simp

theorem mem_keys_addEvent {t t' : EventsTable} {e : Event} {k : Text × Text} :
    k ∈ (db.addEvent t e).keys t' ↔ k ∈ db.keys t' ∨ t = t' ∧ k = (e.url, e.timestamp) := by
  rw [keys, events_addEvent]
  by_cases ht : t = t'
  · subst ht
    simp only [if_true, true_and]
    exact mem_keys_insertOrIgnore _
  · simp [ht, keys]

@[simp] theorem urls_addEvent (t : EventsTable) (e : Event) : (db.addEvent t e).urls = db.urls := by
  unfold addEvent; dsimp only; split <;> simp

@[simp] theorem isOfInterest_addEvent (t : EventsTable) (e : Event) (u : Text) :
    (db.addEvent t e).isOfInterest u = db.isOfInterest u := by
  unfold addEvent; dsimp only
  split
  · exact isOfInterest_congr (visits_insertEvent db t e) u
  · rw [isOfInterest_increment]; exact isOfInterest_congr (visits_insertEvent db t e) u

end Db

/-! ## Operations -/

inductive Mark where
  | visit
  | ofInterest
  | event (t : EventsTable) (filename directory : Text)
  deriving DecidableEq, Repr

structure Op where
  timestamp : Text
  url : Text
  title : Text
  mark : Mark
  deriving DecidableEq, Repr

def Db.apply (db : Db) (o : Op) : Db :=
  let db := db.insertVisit o.timestamp o.url o.title
  match o.mark with
  | .visit => db
  | .ofInterest => (db.setOfInterest o.url).1
  | .event t filename directory => db.addEvent t ⟨o.url, o.timestamp, filename, directory⟩

theorem Db.mem_events_apply {db : Db} {o : Op} {t : EventsTable} {e : Event} : e ∈ (db.apply o).events t ↔
    e ∈ db.events t ∨
      (∃ f d, o.mark = .event t f d ∧ e = ⟨o.url, o.timestamp, f, d⟩) ∧ (o.url, o.timestamp) ∉ db.keys t := by
  unfold apply
  cases o.mark with
  | visit => simp
  | ofInterest => simp
  | event t' f d =>
    dsimp only
    rw [events_addEvent]
    by_cases ht : t' = t
    · subst ht
      rw [if_pos rfl, mem_insertOrIgnore, events_insertVisit]
      simp [keys]
    · simp [ht]

/-- Visit URLs, URLs of interest, and the keys of each events table. -/
abbrev View := Set Text × Set Text × (EventsTable → Set (Text × Text))

def Db.view (db : Db) : View :=
  ({u | u ∈ db.urls}, {u | db.isOfInterest u = true}, fun t => {k | k ∈ db.keys t})

def Op.effect (o : Op) : View :=
  ({o.url}, {u | o.mark = .ofInterest ∧ u = o.url},
    fun t => {k | (∃ f d, o.mark = .event t f d) ∧ k = (o.url, o.timestamp)})

theorem Db.view_empty (d : Text) : (Db.empty d).view = ⊥ := by
  refine Prod.ext ?_ (Prod.ext ?_ (funext fun t => ?_))
  · exact Set.eq_empty_of_forall_notMem fun u h => by simp [Db.view, Db.empty, Db.urls] at h
  · exact Set.eq_empty_of_forall_notMem fun u h => by simp [Db.view, Db.empty, Db.isOfInterest] at h
  · exact Set.eq_empty_of_forall_notMem fun u h =>
      by cases t <;> simp [Db.view, Db.empty, Db.keys, Db.events] at h

theorem Db.snapshots_apply (db : Db) (o : Op) : (db.apply o).snapshots = db.snapshots := by
  have hinsert : ∀ (db : Db) t e, (db.insertEvent t e).1.snapshots = db.snapshots :=
    fun db t e => by cases t <;> rfl
  unfold apply
  cases o.mark with
  | visit => rfl
  | ofInterest => rfl
  | event t f d =>
    unfold addEvent
    dsimp only
    split <;> exact hinsert _ _ _

/-- **An operation only adds to the view.** -/
theorem Db.view_apply (db : Db) (o : Op) : (db.apply o).view = db.view ⊔ o.effect := by
  have hu : o.url ∈ (db.insertVisit o.timestamp o.url o.title).urls :=
    (mem_urls_insertVisit db).mpr (Or.inr rfl)
  have hk : ∀ t, (db.insertVisit o.timestamp o.url o.title).keys t = db.keys t := fun t => by simp [keys]
  refine Prod.ext ?_ (Prod.ext ?_ (funext fun t => ?_))
  · ext u
    simp only [view, apply, Op.effect, Prod.fst_sup, Set.sup_eq_union, Set.mem_union, Set.mem_ofPred_eq,
      Set.mem_singleton_iff]
    cases o.mark <;> simp [mem_urls_insertVisit]
  · ext u
    simp only [view, apply, Op.effect, Prod.snd_sup, Prod.fst_sup, Set.sup_eq_union, Set.mem_union,
      Set.mem_ofPred_eq]
    cases o.mark with
    | visit => simp
    | ofInterest => simp [isOfInterest_setOfInterest, hu]
    | event t f d => simp
  · ext k
    simp only [view, apply, Op.effect, Prod.snd_sup, Pi.sup_apply, Set.sup_eq_union, Set.mem_union,
      Set.mem_ofPred_eq]
    cases o.mark with
    | visit => simp [hk]
    | ofInterest => simp [keys]
    | event t' f d => simp [mem_keys_addEvent, hk]

/-! ## Runs of operations -/

def Db.ops (db : Db) (l : List Op) : Db := l.foldl Db.apply db

namespace Db

variable (db : Db) (l : List Op)

theorem ops_append (m : List Op) : db.ops (l ++ m) = (db.ops l).ops m := List.foldl_append

theorem view_ops : (db.ops l).view = db.view ⊔ GrowOnly.total Op.effect l :=
  GrowOnly.view_foldl (fun o _ db => Db.view_apply db o) db

theorem urls_ops {u : Text} : u ∈ (db.ops l).urls ↔ u ∈ db.urls ∨ ∃ o ∈ l, o.url = u := by
  have h := Set.ext_iff.mp (congrArg Prod.fst (db.view_ops l)) u
  rw [Prod.fst_sup, GrowOnly.map_total (f := fun v : View => v.1) rfl fun _ _ => rfl] at h
  refine h.trans (or_congr Iff.rfl (GrowOnly.mem_total.trans ?_))
  simp [Op.effect, eq_comm]

theorem isOfInterest_ops {u : Text} :
    (db.ops l).isOfInterest u = true ↔ db.isOfInterest u = true ∨ ∃ o ∈ l, o.mark = .ofInterest ∧
      o.url = u := by
  have h := Set.ext_iff.mp (congrArg (·.2.1) (db.view_ops l)) u
  simp only [Prod.snd_sup, Prod.fst_sup] at h
  rw [GrowOnly.map_total (f := fun v : View => v.2.1) rfl fun _ _ => rfl] at h
  refine h.trans (or_congr Iff.rfl (GrowOnly.mem_total.trans ?_))
  simp [Op.effect, eq_comm]

theorem keys_ops {t : EventsTable} {k : Text × Text} : k ∈ (db.ops l).keys t ↔
    k ∈ db.keys t ∨ ∃ o ∈ l, (∃ f d, o.mark = .event t f d) ∧ k = (o.url, o.timestamp) := by
  have h := Set.ext_iff.mp (congrFun (congrArg (·.2.2) (db.view_ops l)) t) k
  simp only [Prod.snd_sup, Pi.sup_apply] at h
  rw [GrowOnly.map_total (f := fun v : View => v.2.2 t) rfl fun _ _ => rfl] at h
  refine h.trans (or_congr Iff.rfl (GrowOnly.mem_total.trans ?_))
  simp [Op.effect]

end Db

/-! ## The rows that count -/

/-- The visits table and the keys of the events tables: what the statements look at. -/
def Db.rows (db : Db) : List Visit × (EventsTable → List (Text × Text)) := (db.visits, db.keys)

/-- Operations that differ at most in what they store of a snapshot. -/
def Op.Same (o o' : Op) : Prop :=
  o.timestamp = o'.timestamp ∧ o.url = o'.url ∧ o.title = o'.title ∧
    (o.mark = o'.mark ∨ ∃ t f d f' d', o.mark = .event t f d ∧ o'.mark = .event t f' d')

theorem Db.rows_insertSnapshot (db : Db) (date : Text) : (db.insertSnapshot date).rows = db.rows := rfl

theorem Op.Same.refl (o : Op) : o.Same o := ⟨rfl, rfl, rfl, Or.inl rfl⟩

namespace Db

theorem rows_addEvent {a b : Db} (h : a.rows = b.rows) (t : EventsTable) {e e' : Event} (hu : e.url = e'.url)
    (ht : e.timestamp = e'.timestamp) : (a.addEvent t e).rows = (b.addEvent t e').rows := by
  have hv : a.visits = b.visits := congrArg Prod.fst h
  have hk : ∀ t, a.keys t = b.keys t := congrFun (congrArg Prod.snd h)
  have hhas : has (fun e : Event => (e.url, e.timestamp)) (e.url, e.timestamp) (a.events t) =
      has (fun e : Event => (e.url, e.timestamp)) (e'.url, e'.timestamp) (b.events t) := by
    rw [Bool.eq_iff_iff, has_iff, has_iff, hu, ht]
    exact iff_of_eq (congrArg _ (hk t))
  cases hh : has (fun e : Event => (e.url, e.timestamp)) (e.url, e.timestamp) (a.events t) with
  | true =>
    have ha : a.addEvent t e = a.setEvents t (a.events t) := by simp [addEvent, insertEvent, insertOrIgnore, hh]
    have hb : b.addEvent t e' = b.setEvents t (b.events t) := by
      simp [addEvent, insertEvent, insertOrIgnore, ← hhas, hh]
    have hset : ∀ db : Db, db.setEvents t (db.events t) = db := fun db => by cases t <;> rfl
    rw [ha, hb, hset, hset]; exact h
  | false =>
    refine Prod.ext ?_ (funext fun t' => ?_)
    · have ha : (a.addEvent t e).visits = (a.increment t e.url).visits := by
        simp [addEvent, insertEvent, insertOrIgnore, hh, increment]
      have hb : (b.addEvent t e').visits = (b.increment t e'.url).visits := by
        simp [addEvent, insertEvent, insertOrIgnore, ← hhas, hh, increment]
      simp only [rows, ha, hb, increment, hv, hu]
    · have hadd : ∀ (db : Db) (e : Event),
          has (fun e : Event => (e.url, e.timestamp)) (e.url, e.timestamp) (db.events t) = false →
          (db.addEvent t e).keys t' = db.keys t' ++ if t = t' then [(e.url, e.timestamp)] else [] := by
        intro db e hh
        by_cases htt : t = t'
        · subst htt; simp [addEvent, insertEvent, insertOrIgnore, hh, keys]
        · simp [addEvent, insertEvent, insertOrIgnore, hh, keys, htt]
      simp only [rows, hadd a e hh, hadd b e' (hhas ▸ hh), hk, hu, ht]

/-- **Operations look at the rows only.** -/
theorem rows_apply {a b : Db} (h : a.rows = b.rows) {o o' : Op} (ho : o.Same o') :
    (a.apply o).rows = (b.apply o').rows := by
  obtain ⟨ts, u, ti, m⟩ := o
  obtain ⟨ts', u', ti', m'⟩ := o'
  obtain ⟨rfl, rfl, rfl, hm⟩ := ho
  have hi : (a.insertVisit ts u ti).rows = (b.insertVisit ts u ti).rows := by
    refine Prod.ext ?_ (funext fun t => ?_)
    · exact congrArg (fun vs => (insertOrIgnore Visit.url ⟨u, ts, ti, none, 0, 0⟩ vs).1) (congrArg Prod.fst h)
    · simpa [rows, keys] using congrFun (congrArg Prod.snd h) t
  rcases hm with rfl | ⟨t, f, d, f', d', rfl, rfl⟩
  · cases m with
    | visit => exact hi
    | ofInterest =>
      refine Prod.ext ?_ (funext fun t => ?_)
      · exact congrArg (fun vs => (updateWhere (fun v => v.url = u)
          (fun v => { v with ofInterest := some (ascii "1") }) vs).1) (congrArg Prod.fst hi)
      · simpa [rows, keys, apply] using congrFun (congrArg Prod.snd hi) t
    | event t f d => exact rows_addEvent hi t rfl rfl
  · exact rows_addEvent hi t rfl rfl

theorem rows_ops {a b : Db} (h : a.rows = b.rows) {l l' : List Op} (hl : List.Forall₂ Op.Same l l') :
    (a.ops l).rows = (b.ops l').rows := by
  induction hl generalizing a b with
  | nil => exact h
  | cons ho _ ih => exact ih (rows_apply h ho)

end Db

/-! ## Counters -/

/-- The counters count the event rows, and every event row has a visits row. -/
structure Db.Coherent (db : Db) : Prop where
  urls_nodup : db.urls.Nodup
  keys_nodup : ∀ t, (db.keys t).Nodup
  counted : ∀ v ∈ db.visits, ∀ t : EventsTable, t.counter v = (db.keys t).countP fun k => k.1 = v.url
  visited : ∀ t, ∀ k ∈ db.keys t, k.1 ∈ db.urls

theorem Db.Coherent.congr {a b : Db} (h : a.rows = b.rows) (ha : a.Coherent) : b.Coherent := by
  have hv : b.visits = a.visits := (congrArg Prod.fst h).symm
  have hu : b.urls = a.urls := congrArg (List.map Visit.url) hv
  have hk : ∀ t, b.keys t = a.keys t := fun t => (congrFun (congrArg Prod.snd h) t).symm
  constructor
  · rw [hu]; exact ha.urls_nodup
  · intro t; rw [hk]; exact ha.keys_nodup t
  · intro v hv' t; rw [hk]; exact ha.counted v (hv ▸ hv') t
  · intro t k hk'; rw [hu]; exact ha.visited t k (hk t ▸ hk')

theorem Db.coherent_empty (d : Text) : (Db.empty d).Coherent where
  urls_nodup := List.nodup_nil
  keys_nodup t := by cases t <;> exact List.nodup_nil
  counted v hv := by cases hv
  visited t k hk := by cases t <;> cases hk

namespace Db.Coherent

variable {db : Db}

theorem insertVisit (h : db.Coherent) (ts u ti : Text) : (db.insertVisit ts u ti).Coherent where
  urls_nodup := nodup_insertOrIgnore _ h.urls_nodup
  keys_nodup t := by simpa [Db.keys] using h.keys_nodup t
  counted v hv t := by
    have hk : (db.insertVisit ts u ti).keys t = db.keys t := by simp [Db.keys]
    rw [hk]
    rcases (mem_visits_insertVisit db).mp hv with hv | ⟨hu, rfl⟩
    · exact h.counted v hv t
    · -- a URL without a visits row has no event rows
      have : (db.keys t).countP (fun k => k.1 = u) = 0 := by
        rw [List.countP_eq_zero]
        intro k hk
        simpa using fun e : k.1 = u => hu (e ▸ h.visited t k hk)
      rw [this]; cases t <;> rfl
  visited t k hk := by
    have hk : k ∈ db.keys t := by simpa [Db.keys] using hk
    exact (mem_urls_insertVisit db).mpr (Or.inl (h.visited t k hk))

theorem setOfInterest (h : db.Coherent) (u : Text) : (db.setOfInterest u).1.Coherent where
  urls_nodup := by rw [urls_setOfInterest]; exact h.urls_nodup
  keys_nodup t := by simpa [Db.keys] using h.keys_nodup t
  counted v hv t := by
    have hk : (db.setOfInterest u).1.keys t = db.keys t := by simp [Db.keys]
    rw [hk]
    simp only [Db.setOfInterest, updateWhere, List.mem_map] at hv
    obtain ⟨w, hw, rfl⟩ := hv
    have hc := h.counted w hw t
    split
    · cases t <;> exact hc
    · exact hc
  visited t k hk := by
    have hk : k ∈ db.keys t := by simpa [Db.keys] using hk
    rw [urls_setOfInterest]; exact h.visited t k hk

theorem addEvent (h : db.Coherent) (t : EventsTable) (e : Event) (hu : e.url ∈ db.urls) :
    (db.addEvent t e).Coherent := by
  by_cases hk : (e.url, e.timestamp) ∈ db.keys t
  · have : db.addEvent t e = db := by
      have hh := (has_iff fun e : Event => (e.url, e.timestamp)).mpr hk
      simp only [Db.addEvent, Db.insertEvent, insertOrIgnore, hh, if_true]
      cases t <;> rfl
    rw [this]; exact h
  · have hh : has (fun e : Event => (e.url, e.timestamp)) (e.url, e.timestamp) (db.events t) = false := by
      rw [Bool.eq_false_iff]; exact fun c => hk ((has_iff _).mp c)
    have hkeys : ∀ t', (db.addEvent t e).keys t' =
        db.keys t' ++ if t = t' then [(e.url, e.timestamp)] else [] := by
      intro t'
      by_cases ht : t = t'
      · subst ht
        simp [Db.addEvent, Db.insertEvent, insertOrIgnore, hh, Db.keys]
      · simp [Db.addEvent, Db.insertEvent, insertOrIgnore, hh, Db.keys, ht]
    have hv : (db.addEvent t e).visits = (db.increment t e.url).visits := by
      simp [Db.addEvent, Db.insertEvent, insertOrIgnore, hh, Db.increment]
    constructor
    · rw [urls_addEvent]; exact h.urls_nodup
    · intro t'
      rw [hkeys]
      split
      · rename_i ht; subst ht
        refine List.nodup_append.mpr ⟨h.keys_nodup t, List.nodup_singleton _, ?_⟩
        intro a ha b hb e'
        rw [List.mem_singleton.mp hb] at e'
        exact hk (e' ▸ ha)
      · simpa using h.keys_nodup t'
    · intro v hv' t'
      rw [hv] at hv'
      simp only [Db.increment, updateWhere, List.mem_map] at hv'
      obtain ⟨w, hw, rfl⟩ := hv'
      have hc := h.counted w hw t'
      rw [hkeys, List.countP_append]
      by_cases hwu : w.url = e.url
      · simp only [hwu, decide_true, if_true, EventsTable.increment_url, EventsTable.counter_increment, hc]
        by_cases ht : t = t'
        · simp [ht]
        · simp [ht]
      · simp only [hwu, decide_false, Bool.false_eq_true, if_false, hc]
        by_cases ht : t = t'
        · simp [ht, Ne.symm hwu]
        · simp [ht]
    · intro t' k hk'
      rw [urls_addEvent]
      rcases (mem_keys_addEvent db).mp hk' with hk' | ⟨-, rfl⟩
      · exact h.visited t' k hk'
      · exact hu

/-- **An operation keeps the counters right.** -/
theorem apply (h : db.Coherent) (o : Op) : (db.apply o).Coherent := by
  have hi := h.insertVisit o.timestamp o.url o.title
  unfold Db.apply
  cases o.mark with
  | visit => exact hi
  | ofInterest => exact hi.setOfInterest o.url
  | event t f d => exact hi.addEvent t _ ((mem_urls_insertVisit db).mpr (Or.inr rfl))

theorem ops (h : db.Coherent) (l : List Op) : (db.ops l).Coherent := by
  induction l generalizing db with
  | nil => exact h
  | cons o l ih => exact ih (h.apply o)

theorem counter_eq (h : db.Coherent) (t : EventsTable) (u : Text) :
    db.counter t u = if u ∈ db.urls then some ((db.keys t).countP fun k => k.1 = u) else none := by
  unfold Db.counter
  cases hf : db.visits.find? fun v => v.url = u with
  | none =>
    have : u ∉ db.urls := by
      rw [List.find?_eq_none] at hf
      simpa [Db.urls] using hf
    simp [this]
  | some v =>
    have hv := List.mem_of_find?_eq_some hf
    have hu : v.url = u := by simpa using List.find?_some hf
    have : u ∈ db.urls := List.mem_map.mpr ⟨v, hv, hu⟩
    rw [if_pos this, Option.map_some, h.counted v hv t, hu]

end Db.Coherent

theorem Db.counter_congr {a b : Db} (ha : a.Coherent) (hb : b.Coherent) (hurls : a.view.1 = b.view.1)
    (hkeys : a.view.2.2 = b.view.2.2) (t : EventsTable) (u : Text) : a.counter t u = b.counter t u := by
  have hu : u ∈ a.urls ↔ u ∈ b.urls := Set.ext_iff.mp hurls u
  have hk : ∀ k, k ∈ a.keys t ↔ k ∈ b.keys t := fun k => Set.ext_iff.mp (congrFun hkeys t) k
  have hp : (a.keys t).Perm (b.keys t) :=
    (List.perm_ext_iff_of_nodup (ha.keys_nodup t) (hb.keys_nodup t)).mpr hk
  rw [ha.counter_eq, hb.counter_eq, hp.countP_eq]
  simp only [hu]

/-- **The view determines the counters.** -/
theorem Db.counter_eq_of_view {a b : Db} (ha : a.Coherent) (hb : b.Coherent) (h : a.view = b.view)
    (t : EventsTable) (u : Text) : a.counter t u = b.counter t u :=
  counter_congr ha hb (congrArg Prod.fst h) (congrArg (·.2.2) h) t u

end VisitLogger
