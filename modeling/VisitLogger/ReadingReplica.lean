import VisitLogger.HostQuery
import VisitLogger.ReadingList

/-!
# The rows of the reading list

`_fetch_rows` reads the visits that are marked and not read. On a database that
writes of the hosts and lines of other machines have reached, the two lists have
each such page once, newest first, by whether it was skimmed (`listing_replica`).
-/

namespace VisitLogger

namespace ReadingList

/-! ## The query -/

def lastSkimmed (db : Db) (url : Text) : Option Text :=
  (sortStrings (((db.events .skimmed).filter fun e => e.url = url).map Event.timestamp)).getLast?

def toRow (db : Db) (v : Visit) : Row := ⟨v.url, some v.title, some v.timestamp, lastSkimmed db v.url⟩

/-- `sort(key=by_first_visit, reverse=True)`, which is stable. -/
def sortNewest (rows : List Row) : List Row :=
  rows.insertionSort fun a b => b.firstVisited.getD [] ≤ a.firstVisited.getD []

/-- `groups` are the visits in the order in which the query yields them. -/
def fetchRows (db : Db) (groups : List Visit) : List Row × List Row :=
  let rows := groups.filter fun v => v.ofInterest.isSome && v.read = 0
  (sortNewest ((rows.filter fun v => v.skimmed > 0).map (toRow db)),
    sortNewest ((rows.filter fun v => !(v.skimmed > 0)).map (toRow db)))

/-! ## What was asked -/

section
variable (l : List Op) (u : Text)

def Marked : Prop := ∃ o ∈ l, o.mark = .ofInterest ∧ o.url = u

def AskedAt (t : EventsTable) (ts : Text) : Prop :=
  ∃ o ∈ l, (∃ f d, o.mark = .event t f d) ∧ o.url = u ∧ o.timestamp = ts

/-- What the two lists have, by the operations that have reached the database. -/
structure Listing (sk un : List Row) : Prop where
  once : ((sk ++ un).map Row.url).Nodup
  skimmed : ∀ u, u ∈ sk.map Row.url ↔
    Marked l u ∧ (∀ ts, ¬AskedAt l u .read ts) ∧ ∃ ts, AskedAt l u .skimmed ts
  unskimmed : ∀ u, u ∈ un.map Row.url ↔
    Marked l u ∧ (∀ ts, ¬AskedAt l u .read ts) ∧ ∀ ts, ¬AskedAt l u .skimmed ts
  newest : ∀ rows ∈ [sk, un],
    rows.Pairwise fun a b => b.firstVisited.getD [] ≤ a.firstVisited.getD []
  first : ∀ r ∈ sk ++ un, ∃ o, l.find? (fun o => o.url = r.url) = some o ∧
    r.title = some o.title ∧ r.firstVisited = some o.timestamp
  last : ∀ r ∈ sk ++ un, ∀ ts, r.lastSkimmed = some ts ↔
    AskedAt l r.url .skimmed ts ∧ ∀ ts', AskedAt l r.url .skimmed ts' → ts' ≤ ts

end

/-! ## Sorting -/

theorem sortNewest_perm (rows : List Row) : (sortNewest rows).Perm rows := List.perm_insertionSort _ _

instance : Std.Total fun a b : Row => b.firstVisited.getD [] ≤ a.firstVisited.getD [] :=
  ⟨fun _ _ => le_total _ _⟩

instance : IsTrans Row fun a b => b.firstVisited.getD [] ≤ a.firstVisited.getD [] :=
  ⟨fun _ _ _ h h' => h'.trans h⟩

theorem sortNewest_pairwise (rows : List Row) :
    (sortNewest rows).Pairwise fun a b => b.firstVisited.getD [] ≤ a.firstVisited.getD [] :=
  List.pairwise_insertionSort _ _

theorem getLast_sortStrings {l : List Text} {x : Text} :
    (sortStrings l).getLast? = some x ↔ x ∈ l ∧ ∀ y ∈ l, y ≤ x := by
  have hperm : (sortStrings l).Perm l := List.perm_insertionSort _ _
  have hsorted : (sortStrings l).Pairwise (· ≤ ·) := List.pairwise_insertionSort _ _
  simp only [← hperm.mem_iff]
  generalize sortStrings l = s at hsorted
  rcases List.eq_nil_or_concat s with rfl | ⟨init, y, rfl⟩
  · simp
  · rw [List.concat_eq_append] at hsorted ⊢
    have hle : ∀ z ∈ init ++ [y], z ≤ y := by
      intro z hz
      rcases List.mem_append.mp hz with hz | hz
      · exact (List.pairwise_append.mp hsorted).2.2 z hz y (by simp)
      · exact (List.mem_singleton.mp hz).le
    rw [List.getLast?_concat, Option.some.injEq]
    constructor
    · intro he
      rw [← he]
      exact ⟨by simp, hle⟩
    · intro hx
      exact le_antisymm (hx.2 y (by simp)) (hle x hx.1)

/-! ## One visit -/

section
variable {db : Db} {l : List Op}

theorem counter_pos (h : db.Coherent) {v : Visit} (hv : v ∈ db.visits) (t : EventsTable) :
    0 < t.counter v ↔ ∃ ts, (v.url, ts) ∈ db.keys t := by
  rw [h.counted v hv t, List.countP_pos_iff]
  constructor
  · intro hk
    obtain ⟨k, hk, hu⟩ := hk
    have hu : k.1 = v.url := by simpa using hu
    exact ⟨k.2, hu ▸ hk⟩
  · intro hk
    obtain ⟨ts, hk⟩ := hk
    exact ⟨_, hk, by simp⟩

theorem lastSkimmed_eq_some {u ts : Text} : lastSkimmed db u = some ts ↔
    (u, ts) ∈ db.keys .skimmed ∧ ∀ ts', (u, ts') ∈ db.keys .skimmed → ts' ≤ ts := by
  have hmem : ∀ x, x ∈ ((db.events .skimmed).filter fun e => e.url = u).map Event.timestamp ↔
      (u, x) ∈ db.keys .skimmed := by
    intro x
    simp only [Db.keys, List.mem_map, List.mem_filter, decide_eq_true_eq, Prod.mk.injEq, and_assoc]
  rw [lastSkimmed, getLast_sortStrings, hmem]
  simp only [hmem]

theorem keys_iff (hk : ∀ t, db.keys t = ((Db.empty []).ops l).keys t) (t : EventsTable) (u ts : Text) :
    (u, ts) ∈ db.keys t ↔ AskedAt l u t ts := by
  rw [hk, Db.keys_ops]
  have hnone : (u, ts) ∉ (Db.empty []).keys t := by cases t <;> exact List.not_mem_nil
  rw [or_iff_right hnone]
  refine exists_congr fun o => and_congr_right fun _ => and_congr_right fun _ => ?_
  rw [Prod.mk.injEq, eq_comm, eq_comm (a := ts)]

def listed (groups : List Visit) (p : Visit → Bool) : List Visit :=
  (groups.filter fun v => v.ofInterest.isSome && v.read = 0).filter p

theorem mem_rows {groups : List Visit} {p : Visit → Bool} {r : Row} :
    r ∈ sortNewest ((listed groups p).map (toRow db)) ↔
      ∃ v ∈ groups, (v.ofInterest.isSome = true ∧ v.read = 0) ∧ p v = true ∧ toRow db v = r := by
  simp only [(sortNewest_perm _).mem_iff, listed, List.mem_map, List.mem_filter, Bool.and_eq_true,
    decide_eq_true_eq, and_assoc]

theorem mem_urls {groups : List Visit} {p : Visit → Bool} {u : Text} :
    u ∈ (sortNewest ((listed groups p).map (toRow db))).map Row.url ↔
      ∃ v ∈ groups, (v.ofInterest.isSome = true ∧ v.read = 0) ∧ p v = true ∧ v.url = u := by
  rw [List.mem_map]
  constructor
  · intro hr
    obtain ⟨r, hr, hu⟩ := hr
    obtain ⟨v, hv, hi, hp, rfl⟩ := mem_rows.mp hr
    exact ⟨v, hv, hi, hp, hu⟩
  · intro hv
    obtain ⟨v, hv, hi, hp, hu⟩ := hv
    exact ⟨toRow db v, mem_rows.mpr ⟨v, hv, hi, hp, rfl⟩, hu⟩

theorem mem_listed (h : db.Coherent) (hkeys : ∀ t u ts, (u, ts) ∈ db.keys t ↔ AskedAt l u t ts)
    (hmark : ∀ u, (∃ v ∈ db.visits, v.url = u ∧ v.ofInterest.isSome = true) ↔ Marked l u) {groups : List Visit}
    (hg : groups.Perm db.visits) {p : Visit → Bool} {q : Text →
      Prop} (hp : ∀ v ∈ db.visits, p v = true ↔ q v.url)
    (u : Text) : u ∈ (sortNewest ((listed groups p).map (toRow db))).map Row.url ↔
      Marked l u ∧ (∀ ts, ¬AskedAt l u .read ts) ∧ q u := by
  have hread : ∀ v ∈ db.visits, v.read = 0 ↔ ∀ ts, ¬AskedAt l v.url .read ts := by
    intro v hv
    have hpos : 0 < v.read ↔ ∃ ts, AskedAt l v.url .read ts := by
      simp only [← hkeys]
      exact counter_pos h hv .read
    rw [← not_exists, ← hpos]
    omega
  rw [mem_urls, ← hmark]
  constructor
  · intro hv
    obtain ⟨v, hv, hi, hpv, rfl⟩ := hv
    have hv := hg.mem_iff.mp hv
    exact ⟨⟨v, hv, rfl, hi.1⟩, (hread v hv).mp hi.2, (hp v hv).mp hpv⟩
  · intro hu
    obtain ⟨⟨v, hv, rfl, hi⟩, hr, hq⟩ := hu
    exact ⟨v, hg.mem_iff.mpr hv, ⟨hi, (hread v hv).mpr hr⟩, (hp v hv).mpr hq, rfl⟩

theorem listed_once (h : db.Coherent) {groups : List Visit} (hg : groups.Perm db.visits) (p : Visit → Bool) :
    ((sortNewest ((listed groups p).map (toRow db)) ++
      sortNewest ((listed groups fun v => !p v).map (toRow db))).map Row.url).Nodup := by
  have hperm : (sortNewest ((listed groups p).map (toRow db)) ++
      sortNewest ((listed groups fun v => !p v).map (toRow db))).Perm
        ((listed groups p ++ listed groups fun v => !p v).map (toRow db)) := by
    rw [List.map_append]
    exact (sortNewest_perm _).append (sortNewest_perm _)
  have hurls : ((listed groups p ++ listed groups fun v => !p v).map (toRow db)).map Row.url =
      (listed groups p ++ listed groups fun v => !p v).map Visit.url := by
    rw [List.map_map]
    rfl
  have hall : (listed groups p ++ listed groups fun v => !p v).Perm
      (groups.filter fun v => v.ofInterest.isSome && v.read = 0) := by
    simpa [listed] using List.filter_append_perm p (groups.filter fun v => v.ofInterest.isSome && v.read = 0)
  rw [(hperm.map _).nodup_iff, hurls, (hall.map _).nodup_iff]
  refine List.Nodup.sublist (List.filter_sublist.map _) ?_
  rw [(hg.map Visit.url).nodup_iff]
  exact h.urls_nodup

theorem row_first (h : db.Coherent) (hstamp : ∀ u, db.stamp u = Db.firstStamp l u) {v : Visit}
    (hv : v ∈ db.visits) : ∃ o, l.find? (fun o => o.url = v.url) = some o ∧ v.title = o.title ∧
      v.timestamp = o.timestamp := by
  have hs := hstamp v.url
  rw [Db.stamp, Db.row_of_mem h.urls_nodup hv, Option.map_some, Db.firstStamp, eq_comm, Option.map_eq_some_iff] at hs
  obtain ⟨o, ho, he⟩ := hs
  obtain ⟨hts, hti⟩ := Prod.mk.inj he
  exact ⟨o, ho, hti.symm, hts.symm⟩

end

/-- **The reading list of a database that writes of the hosts, failed or not, and
lines of other machines have reached**, in whatever order its query yields the
visits. -/
theorem listing_replica (downloads directory : Text) (r : List Arrival) {groups : List Visit}
    (hg : groups.Perm (replica downloads directory r).visits) :
    Listing (r.flatMap Arrival.asks) (fetchRows (replica downloads directory r) groups).1
      (fetchRows (replica downloads directory r) groups).2 := by
  obtain ⟨hrows, -⟩ := replica_asks downloads directory r
  generalize replica downloads directory r = db at hg hrows
  generalize r.flatMap Arrival.asks = l at hrows
  have hcoherent : db.Coherent := ((Db.coherent_empty []).ops _).congr hrows.symm
  have hkeys : ∀ t u ts, (u, ts) ∈ db.keys t ↔ AskedAt l u t ts :=
    keys_iff fun t => congrFun (congrArg Prod.snd hrows) t
  have hmark : ∀ u, (∃ v ∈ db.visits, v.url = u ∧ v.ofInterest.isSome = true) ↔ Marked l u := by
    intro u
    rw [← Db.isOfInterest_iff, Db.isOfInterest_congr (congrArg Prod.fst hrows), Db.isOfInterest_ops]
    exact or_iff_right (by simp [Db.isOfInterest, Db.empty])
  have hstamp : ∀ u, db.stamp u = Db.firstStamp l u := by
    intro u
    rw [Db.stamp, Db.row_congr (congrArg Prod.fst hrows), ← Db.stamp, Db.stamp_ops]
    rfl
  have hskim : ∀ v ∈ db.visits, decide (v.skimmed > 0) = true ↔ ∃ ts, AskedAt l v.url .skimmed ts := by
    intro v hv
    rw [decide_eq_true_iff]
    simp only [← hkeys]
    exact counter_pos hcoherent hv .skimmed
  have hrow : ∀ r ∈ (fetchRows db groups).1 ++ (fetchRows db groups).2, ∃ v ∈ db.visits, toRow db v = r := by
    intro r hr
    obtain hr | hr := List.mem_append.mp hr <;> obtain ⟨v, hv, -, -, he⟩ := mem_rows.mp hr <;>
      exact ⟨v, hg.mem_iff.mp hv, he⟩
  have hsorted : ∀ rows ∈ [(fetchRows db groups).1, (fetchRows db groups).2],
      rows.Pairwise fun a b => b.firstVisited.getD [] ≤ a.firstVisited.getD [] := by
    intro rows hmem
    obtain rfl | rfl := by simpa using hmem
    · exact sortNewest_pairwise _
    · exact sortNewest_pairwise _
  refine ⟨listed_once hcoherent hg fun v => v.skimmed > 0, mem_listed hcoherent hkeys hmark hg hskim,
    mem_listed hcoherent hkeys hmark hg fun v hv => ?_, hsorted, fun r hr => ?_, fun r hr ts => ?_⟩
  · rw [← not_exists, ← hskim v hv]
    simp
  · obtain ⟨v, hv, rfl⟩ := hrow r hr
    obtain ⟨o, ho, hti, hts⟩ := row_first hcoherent hstamp hv
    exact ⟨o, ho, congrArg some hti, congrArg some hts⟩
  · obtain ⟨v, hv, rfl⟩ := hrow r hr
    have hlast : (toRow db v).lastSkimmed = lastSkimmed db v.url := rfl
    rw [hlast, lastSkimmed_eq_some]
    simp only [hkeys]
    rfl

def skimmedTwice : List Arrival :=
  [.pushed (ascii "a\t1\tu\tt"), .pulled (ascii "b\t2\tu\tx\tof_interest"),
    .pulled (ascii "c\t4\tu\tx\tskimmed\tf"), .pushed (ascii "d\t3\tu\tx\tskimmed\tg")]

theorem listing_replica_skimmed :
    fetchRows (replica [] [] skimmedTwice) (replica [] [] skimmedTwice).visits =
        ([⟨ascii "u", some (ascii "t"), some (ascii "1"), some (ascii "4")⟩], []) ∧
      Listing (skimmedTwice.flatMap Arrival.asks)
        (fetchRows (replica [] [] skimmedTwice) (replica [] [] skimmedTwice).visits).1
        (fetchRows (replica [] [] skimmedTwice) (replica [] [] skimmedTwice).visits).2 :=
  ⟨by decide +kernel, listing_replica [] [] skimmedTwice (List.Perm.refl _)⟩

end ReadingList

end VisitLogger
