import Mathlib.Data.Set.Card
import VisitLogger.Converge
import VisitLogger.DbDiffSound
import VisitLogger.HostQuery
import VisitLogger.VmSnapshot

/-!
# A laptop and a copy of the VM's database

Once the laptops have converged, `db_diff.py` finds no row in one of the two
databases only, in the three tables that a sync writes, and it ignores the counters or not, it counts the same
differences: the pages that were seen with another timestamp or title first,
and those that only the laptop's own events have marked (`diff_converged`).
-/

namespace VisitLogger

open BVLHost

/-! ## The tables of a file -/

def Visit.row (v : Visit) : DbDiff.Row := fun c =>
  if c = "url" then .text v.url
  else if c = "timestamp" then .text v.timestamp
  else if c = "title" then .text v.title
  else if c = "of_interest" then (match v.ofInterest with | some s => .text s | none => .null)
  else if c = "read" then .number v.read
  else .number v.skimmed

def Event.row (e : Event) : DbDiff.Row := fun c =>
  if c = "url" then .text e.url
  else if c = "timestamp" then .text e.timestamp
  else if c = "filename" then .text e.filename
  else .text e.directory

def EventsTable.name : EventsTable → String
  | read => "read_events"
  | skimmed => "skimmed_events"

namespace DbDiff

/-- The table of this name has these columns and rows. -/
def HasTable {α : Type*} (file : Db) (name : String) (columns : List Column) (row : α → Row)
    (rows : List α) : Prop :=
  ∃ t, file.lookup name = some t ∧ t.columns = columns ∧
    (t.rows.map (project (allColumns columns))).Perm (rows.map fun v => project (allColumns columns) (row v))

structure Holds (file : Db) (db : VisitLogger.Db) : Prop where
  visits : HasTable file "visits" DbDiff.visits Visit.row db.visits
  events : ∀ t : EventsTable, HasTable file t.name DbDiff.events Event.row (db.events t)

theorem pkColumns_visits : pkColumns visits = ["url"] := by decide +kernel

theorem pkColumns_events : pkColumns events = ["url", "timestamp"] := by decide +kernel

section
variable (db : VisitLogger.Db) (h : db.Coherent)

def visitsOf : Table where
  columns := visits
  rows := db.visits.map Visit.row
  notNull := by
    intro r hr c hc hnn
    obtain ⟨v, -, rfl⟩ := List.mem_map.mp hr
    simp only [visits, List.mem_cons, List.not_mem_nil, or_false] at hc
    rcases hc with rfl | rfl | rfl | rfl | rfl | rfl <;> simp [Visit.row] at hnn ⊢
  unique := by
    intro _
    rw [pkColumns_visits]
    refine List.pairwise_map.mpr ((List.pairwise_map.mp h.urls_nodup).imp fun hne he => absurd ?_ hne)
    simpa [project, Visit.row] using he

def eventsOf (t : EventsTable) : Table where
  columns := DbDiff.events
  rows := (db.events t).map Event.row
  notNull := by
    intro r hr c hc _
    obtain ⟨e, -, rfl⟩ := List.mem_map.mp hr
    simp only [DbDiff.events, List.mem_cons, List.not_mem_nil, or_false] at hc
    rcases hc with rfl | rfl | rfl | rfl <;> simp [Event.row]
  unique := by
    intro _
    rw [pkColumns_events]
    refine List.pairwise_map.mpr ((List.pairwise_map.mp (h.keys_nodup t)).imp fun hne he => absurd ?_ hne)
    simpa [project, Event.row] using he

def replayedTables : Db :=
  [("visits", visitsOf db h), ("read_events", eventsOf db h .read), ("skimmed_events", eventsOf db h .skimmed)]

theorem holds_replayedTables : Holds (replayedTables db h) db := by
  have hevents : ∀ t : EventsTable, (replayedTables db h).lookup t.name = some (eventsOf db h t) := by
    intro t
    cases t <;> simp [replayedTables, EventsTable.name, List.lookup_cons]
  constructor
  · refine ⟨visitsOf db h, rfl, rfl, ?_⟩
    rw [visitsOf, List.map_map]
    exact List.Perm.refl _
  · intro t
    refine ⟨eventsOf db h t, hevents t, rfl, ?_⟩
    rw [eventsOf, List.map_map]
    exact List.Perm.refl _

end

/-! ## What a comparison counts -/

section
variable {α : Type*} {row : α → Row} {cols pk : List String} {a b : Table} {va vb : List α}

theorem mem_rows {t : Table} {rows : List α}
    (h : (t.rows.map (project cols)).Perm (rows.map fun v => project cols (row v))) :
    (∀ r ∈ t.rows, ∃ v ∈ rows, ∀ c ∈ cols, r c = row v c) ∧
      ∀ v ∈ rows, ∃ r ∈ t.rows, ∀ c ∈ cols, r c = row v c := by
  constructor
  · intro r hr
    obtain ⟨v, hv, he⟩ := List.mem_map.mp (h.mem_iff.mp (List.mem_map_of_mem hr))
    exact ⟨v, hv, project_eq_iff.mp he.symm⟩
  · intro v hv
    have hmem := List.mem_map_of_mem (f := fun v => project cols (row v)) hv
    obtain ⟨r, hr, he⟩ := List.mem_map.mp (h.mem_iff.mpr hmem)
    exact ⟨r, hr, project_eq_iff.mp he⟩

theorem mem_keys (h : (a.rows.map (project cols)).Perm (va.map fun v => project cols (row v)))
    (hpk : pk ⊆ cols) {k : List Value} : k ∈ keys pk a ↔ ∃ v ∈ va, project pk (row v) = k := by
  obtain ⟨hrows, hvals⟩ := mem_rows h
  rw [keys, List.mem_toFinset, List.mem_map]
  constructor
  · intro hr
    obtain ⟨r, hr, rfl⟩ := hr
    obtain ⟨v, hv, he⟩ := hrows r hr
    exact ⟨v, hv, project_eq_iff.mpr fun c hc => (he c (hpk hc)).symm⟩
  · intro hv
    obtain ⟨v, hv, rfl⟩ := hv
    obtain ⟨r, hr, he⟩ := hvals v hv
    exact ⟨r, hr, project_eq_iff.mpr fun c hc => he c (hpk hc)⟩

/-- The keys that one table lacks, when `f` says of a row which key it has. -/
theorem card_keys_sdiff {κ : Type*} [DecidableEq κ] {f : α → κ} {key : κ → List Value}
    (hinj : Function.Injective key) (hkey : ∀ v, project pk (row v) = key (f v))
    (ha : (a.rows.map (project cols)).Perm (va.map fun v => project cols (row v)))
    (hb : (b.rows.map (project cols)).Perm (vb.map fun v => project cols (row v))) (hpk : pk ⊆ cols) :
    (keys pk a \ keys pk b).card = ((va.map f).toFinset \ (vb.map f).toFinset).card := by
  have hkeys : ∀ {t : Table} {rows : List α},
      (t.rows.map (project cols)).Perm (rows.map fun v => project cols (row v)) →
        keys pk t = (rows.map f).toFinset.image key := by
    intro t rows h
    ext k
    rw [mem_keys h hpk]
    simp [hkey]
  rw [hkeys ha, hkeys hb, ← Finset.image_sdiff _ _ hinj, Finset.card_image_of_injective _ hinj]

theorem mem_found_rows {nonPk : List String}
    (ha : (a.rows.map (project cols)).Perm (va.map fun v => project cols (row v)))
    (hb : (b.rows.map (project cols)).Perm (vb.map fun v => project cols (row v)))
    (hpk : pk ⊆ cols) (hnon : nonPk ⊆ cols) {k : List Value} : k ∈ found pk nonPk a b ↔
      ∃ v ∈ va, ∃ w ∈ vb, project pk (row v) = k ∧ project pk (row w) = k ∧ .null ∉ k ∧
        ∃ c ∈ nonPk, coalesce (row v c) (.text []) ≠ coalesce (row w c) (.text []) := by
  obtain ⟨hra, hva⟩ := mem_rows ha
  obtain ⟨hrb, hvb⟩ := mem_rows hb
  rw [mem_found]
  constructor
  · intro h
    obtain ⟨r, hr, s, hs, hkr, hks, hnull, c, hc, hne⟩ := h
    obtain ⟨v, hv, hev⟩ := hra r hr
    obtain ⟨w, hw, hew⟩ := hrb s hs
    refine ⟨v, hv, w, hw, ?_, ?_, hnull, c, hc, ?_⟩
    · rw [← hkr]
      exact project_eq_iff.mpr fun c hc => (hev c (hpk hc)).symm
    · rw [← hks]
      exact project_eq_iff.mpr fun c hc => (hew c (hpk hc)).symm
    · rw [← hev c (hnon hc), ← hew c (hnon hc)]
      exact hne
  · intro h
    obtain ⟨v, hv, w, hw, hkv, hkw, hnull, c, hc, hne⟩ := h
    obtain ⟨r, hr, her⟩ := hva v hv
    obtain ⟨s, hs, hes⟩ := hvb w hw
    refine ⟨r, hr, s, hs, ?_, ?_, hnull, c, hc, ?_⟩
    · rw [← hkv]
      exact project_eq_iff.mpr fun c hc => her c (hpk hc)
    · rw [← hkw]
      exact project_eq_iff.mpr fun c hc => hes c (hpk hc)
    · rw [her c (hnon hc), hes c (hnon hc)]
      exact hne

end

/-! ### The visits -/

section
variable {a b : VisitLogger.Db}

theorem coalesce_mark {v w : Visit} (hv : v.ofInterest = none ∨ v.ofInterest = some (ascii "1"))
    (hw : w.ofInterest = none ∨ w.ofInterest = some (ascii "1")) :
    coalesce (v.row "of_interest") (.text []) ≠ coalesce (w.row "of_interest") (.text []) ↔
      v.ofInterest.isSome ≠ w.ofInterest.isSome := by
  have hone : ascii "1" ≠ [] := by decide
  have hone' : [] ≠ ascii "1" := hone.symm
  rcases hv with hv | hv <;> rcases hw with hw | hw <;> simp [Visit.row, coalesce, hv, hw, hone, hone']

theorem stamp_of_row {u : Text} {v : Visit} (h : a.row u = some v) :
    a.stamp u = some (v.timestamp, v.title) := by
  rw [VisitLogger.Db.stamp, h, Option.map_some]

theorem counter_of_row {u : Text} {v : Visit} (h : a.row u = some v) (t : EventsTable) :
    a.counter t u = some (t.counter v) := by
  have hc : a.counter t u = (a.row u).map t.counter := rfl
  rw [hc, h, Option.map_some]

def Differ (ignoreCounters : Bool) (a b : VisitLogger.Db) (u : Text) : Prop :=
  a.stamp u ≠ b.stamp u ∨ a.isOfInterest u ≠ b.isOfInterest u ∨
    ignoreCounters = false ∧ ∃ t, a.counter t u ≠ b.counter t u

theorem differ_iff (ha : a.urls.Nodup) (hb : b.urls.Nodup) (hma : a.Marked) (hmb : b.Marked)
    (ignoreCounters : Bool)
    {v w : Visit} (hv : v ∈ a.visits) (hw : w ∈ b.visits) (hu : w.url = v.url) :
    (∃ c ∈ (allColumns visits).filter fun c => c ∉ pkColumns visits ∧ c ∉ ignored ignoreCounters "visits",
      coalesce (v.row c) (.text []) ≠ coalesce (w.row c) (.text [])) ↔ Differ ignoreCounters a b v.url := by
  have hra := VisitLogger.Db.row_of_mem ha hv
  have hrb := VisitLogger.Db.row_of_mem hb hw
  rw [hu] at hrb
  have hcols : ((allColumns visits).filter fun c => c ∉ pkColumns visits ∧
    c ∉ ignored ignoreCounters "visits") =
      ["timestamp", "title", "of_interest"] ++ if ignoreCounters then [] else ["read", "skimmed"] := by
    cases ignoreCounters <;> decide +kernel
  have hstamp : a.stamp v.url ≠ b.stamp v.url ↔ v.timestamp ≠ w.timestamp ∨ v.title ≠ w.title := by
    rw [stamp_of_row hra, stamp_of_row hrb, ne_eq, Option.some.injEq, Prod.mk.injEq, not_and_or]
  have hmark : a.isOfInterest v.url ≠ b.isOfInterest v.url ↔ v.ofInterest.isSome ≠ w.ofInterest.isSome := by
    rw [VisitLogger.Db.isOfInterest_row ha, VisitLogger.Db.isOfInterest_row hb, hra, hrb]
    rfl
  have hcounter : (∃ t, a.counter t v.url ≠ b.counter t v.url) ↔ v.read ≠ w.read ∨ v.skimmed ≠ w.skimmed := by
    simp only [counter_of_row hra, counter_of_row hrb, ne_eq, Option.some.injEq]
    constructor
    · intro h
      obtain ⟨t, ht⟩ := h
      cases t with
      | read => exact Or.inl ht
      | skimmed => exact Or.inr ht
    · intro h
      exact h.elim (fun h => ⟨.read, h⟩) fun h => ⟨.skimmed, h⟩
  rw [Differ, hstamp, hmark, hcounter, hcols, ← coalesce_mark (hma v hv) (hmb w hw)]
  cases ignoreCounters <;> simp [Visit.row, coalesce, or_assoc]

theorem compared_visits (sqlite : RowOrder) {fa fb : Db} (hfa : Holds fa a) (hfb : Holds fb b)
    (ha : a.urls.Nodup) (hb : b.urls.Nodup) (hma : a.Marked) (hmb : b.Marked) (ignoreCounters : Bool)
    (sample : Int) : ∃ r, diffTable sqlite fa fb ignoreCounters sample "visits" = .compared r ∧
      r.aOnlyCount = (a.urls.toFinset \ b.urls.toFinset).card ∧
      r.bOnlyCount = (b.urls.toFinset \ a.urls.toFinset).card ∧
      r.valueDiffCount = {u | u ∈ a.urls ∧ u ∈ b.urls ∧ Differ ignoreCounters a b u}.ncard := by
  obtain ⟨ta, hta, hca, hra⟩ := hfa.visits
  obtain ⟨tb, htb, hcb, hrb⟩ := hfb.visits
  have hne : pkColumns ta.columns ≠ [] := by
    rw [hca, pkColumns_visits]
    exact List.cons_ne_nil _ _
  obtain ⟨r, hr, hA, hB, hV⟩ := diffTable_spec sqlite hta htb (hcb.trans hca.symm) hne ignoreCounters sample
  rw [hca] at hA hB hV
  have hpk : pkColumns visits ⊆ allColumns visits := by decide +kernel
  -- a key is the one column with the URL
  have hkey : ∀ v : Visit, project (pkColumns visits) v.row = [.text v.url] := fun v => by
    rw [pkColumns_visits]
    rfl
  have hinj : Function.Injective fun u : Text => [Value.text u] := fun u v h => by simpa using h
  refine ⟨r, hr, ?_, ?_, ?_⟩
  · rw [hA]
    exact card_keys_sdiff hinj hkey hra hrb hpk
  · rw [hB]
    exact card_keys_sdiff hinj hkey hrb hra hpk
  · rw [hV, ← Set.ncard_coe_finset, ← Set.ncard_image_of_injective _ hinj]
    congr 1
    ext k
    have hnon : nonPk ignoreCounters "visits" ta ⊆ allColumns visits := by
      rw [nonPk, hca]
      exact List.filter_subset_self _
    rw [Finset.mem_coe, mem_found_rows hra hrb hpk hnon, nonPk, hca]
    simp only [hkey, Set.mem_image, Set.mem_ofPred_eq]
    constructor
    · intro h
      obtain ⟨v, hv, w, hw, rfl, hk, -, hc⟩ := h
      have hu : w.url = v.url := hinj hk
      exact ⟨v.url, ⟨List.mem_map_of_mem hv, hu ▸ List.mem_map_of_mem hw,
        (differ_iff ha hb hma hmb ignoreCounters hv hw hu).mp hc⟩, rfl⟩
    · intro h
      obtain ⟨u, ⟨hu, hu', hd⟩, rfl⟩ := h
      obtain ⟨v, hv, rfl⟩ := List.mem_map.mp hu
      obtain ⟨w, hw, he⟩ := List.mem_map.mp hu'
      exact ⟨v, hv, w, hw, rfl, by rw [he], by simp,
        (differ_iff ha hb hma hmb ignoreCounters hv hw he).mpr hd⟩

theorem compared_events (sqlite : RowOrder) {fa fb : Db} (hfa : Holds fa a) (hfb : Holds fb b) (t : EventsTable)
    (ignoreCounters : Bool) (sample : Int) :
    ∃ r, diffTable sqlite fa fb ignoreCounters sample t.name = .compared r ∧
      r.aOnlyCount = ((a.keys t).toFinset \ (b.keys t).toFinset).card ∧
      r.bOnlyCount = ((b.keys t).toFinset \ (a.keys t).toFinset).card := by
  obtain ⟨ta, hta, hca, hra⟩ := hfa.events t
  obtain ⟨tb, htb, hcb, hrb⟩ := hfb.events t
  have hne : pkColumns ta.columns ≠ [] := by
    rw [hca, pkColumns_events]
    exact List.cons_ne_nil _ _
  obtain ⟨r, hr, hA, hB, -⟩ := diffTable_spec sqlite hta htb (hcb.trans hca.symm) hne ignoreCounters sample
  rw [hca] at hA hB
  have hpk : pkColumns events ⊆ allColumns events := by decide +kernel
  have hinj : Function.Injective fun k : Text × Text => [Value.text k.1, Value.text k.2] := by
    intro k l h
    simpa [Prod.ext_iff] using h
  have hkey : ∀ e : Event, project (pkColumns events) e.row = [.text e.url, .text e.timestamp] := fun e => by
    rw [pkColumns_events]
    rfl
  refine ⟨r, hr, ?_, ?_⟩
  · rw [hA]
    exact card_keys_sdiff (f := fun e : Event => (e.url, e.timestamp)) hinj hkey hra hrb hpk
  · rw [hB]
    exact card_keys_sdiff (f := fun e : Event => (e.url, e.timestamp)) hinj hkey hrb hra hpk

end

end DbDiff

/-! ## After convergence -/

namespace Network

section
variable {A : Set Text}

def comparedTables : List String := ["visits", "read_events", "skimmed_events"]

theorem isOfInterest_of_view {a b : Db} (h : a.view = b.view ⊔ BVLHost.marks A) (u : Text) :
    a.isOfInterest u = true ↔ b.isOfInterest u = true ∨ u ∈ A :=
  Set.ext_iff.mp (congrArg (fun v : View => v.2.1) h) u

theorem mem_urls_of_view {a b : Db} (h : a.view = b.view ⊔ BVLHost.marks A) (u : Text) :
    u ∈ a.urls ↔ u ∈ b.urls :=
  (Set.ext_iff.mp (congrArg Prod.fst h) u).trans (or_iff_left id)

theorem mem_keys_of_view {a b : Db} (h : a.view = b.view ⊔ BVLHost.marks A) (t : EventsTable)
    (k : Text × Text) :
    k ∈ a.keys t ↔ k ∈ b.keys t :=
  (Set.ext_iff.mp (congrFun (congrArg (fun v : View => v.2.2) h) t) k).trans (or_iff_left id)

theorem card_sdiff_eq_zero {α : Type*} [DecidableEq α] {l l' : List α} (h : ∀ x, x ∈ l → x ∈ l') :
    (l.toFinset \ l'.toFinset).card = 0 := by
  rw [Finset.card_eq_zero, Finset.sdiff_eq_empty_iff_subset]
  intro x hx
  exact List.mem_toFinset.mpr (h x (List.mem_toFinset.mp hx))

/-- The pages whose rows differ, when `a` shows what `b` does and some marks. -/
theorem differ_of_view {a b : Db} (h : a.view = b.view ⊔ BVLHost.marks A)
    (hcounter : ∀ t u, a.counter t u = b.counter t u) (ignoreCounters : Bool) (u : Text) :
    DbDiff.Differ ignoreCounters a b u ↔ a.stamp u ≠ b.stamp u ∨ u ∈ A ∧ b.isOfInterest u = false := by
  have hmark := isOfInterest_of_view h u
  have hnone : ¬∃ t, a.counter t u ≠ b.counter t u := fun ⟨t, ht⟩ => ht (hcounter t u)
  rw [DbDiff.Differ, or_congr_right (or_iff_left fun h => hnone h.2)]
  refine or_congr_right ?_
  cases ha : a.isOfInterest u <;> cases hb : b.isOfInterest u <;> simp [ha, hb] at hmark ⊢ <;> exact hmark

theorem compared_of_view (sqlite : DbDiff.RowOrder) {fa fb : DbDiff.Db} {a b : Db} (hfa : DbDiff.Holds fa a)
    (hfb : DbDiff.Holds fb b) (ha : a.urls.Nodup) (hb : b.urls.Nodup) (hma : a.Marked) (hmb : b.Marked)
    (h : a.view = b.view ⊔ BVLHost.marks A) (hcounter : ∀ t u, a.counter t u = b.counter t u)
    (ignoreCounters : Bool) (sample : Int) {t : String} (ht : t ∈ comparedTables) :
    ∃ r, DbDiff.diffTable sqlite fa fb ignoreCounters sample t = .compared r ∧ r.aOnlyCount = 0 ∧
      r.bOnlyCount = 0 ∧ (t = "visits" → r.valueDiffCount =
        {u | u ∈ b.urls ∧ (a.stamp u ≠ b.stamp u ∨ u ∈ A ∧ b.isOfInterest u = false)}.ncard) := by
  have hevents : ∀ t' : EventsTable, ∃ r, DbDiff.diffTable sqlite fa fb ignoreCounters sample t'.name =
      .compared r ∧ r.aOnlyCount = 0 ∧ r.bOnlyCount = 0 := by
    intro t'
    obtain ⟨r, hr, hA, hB⟩ := DbDiff.compared_events sqlite hfa hfb t' ignoreCounters sample
    refine ⟨r, hr, ?_, ?_⟩
    · rw [hA]
      exact card_sdiff_eq_zero fun k => (mem_keys_of_view h t' k).mp
    · rw [hB]
      exact card_sdiff_eq_zero fun k => (mem_keys_of_view h t' k).mpr
  obtain rfl | rfl | rfl : t = "visits" ∨ t = "read_events" ∨ t = "skimmed_events" := by
    simpa [comparedTables] using ht
  · obtain ⟨r, hr, hA, hB, hV⟩ := DbDiff.compared_visits sqlite hfa hfb ha hb hma hmb ignoreCounters sample
    refine ⟨r, hr, ?_, ?_, fun _ => ?_⟩
    · rw [hA]
      exact card_sdiff_eq_zero fun u => (mem_urls_of_view h u).mp
    · rw [hB]
      exact card_sdiff_eq_zero fun u => (mem_urls_of_view h u).mpr
    · rw [hV]
      congr 1
      ext u
      rw [Set.mem_ofPred_eq, Set.mem_ofPred_eq, mem_urls_of_view h, differ_of_view h hcounter, and_self_left]
  · obtain ⟨r, hr, hA, hB⟩ := hevents .read
    exact ⟨r, hr, hA, hB, fun h => by simp at h⟩
  · obtain ⟨r, hr, hA, hB⟩ := hevents .skimmed
    exact ⟨r, hr, hA, hB, fun h => by simp at h⟩

end

/-- **What db_diff.py finds after convergence**, of a laptop's database and what
`fetch_vm_snapshot.py` has fetched of the server's: no page and no event that one
of them lacks, and the pages whose first timestamp or title differ or that only
the laptop's own events have marked, whether it ignores the counters or not. -/
theorem diff_converged {ι ε : Type*} [DecidableEq ι] (cfg : Config ι) {before pushes pulls : List (Act ι)}
    {s : State ι} (ho : Runs.Obeys (Network.step cfg) (Orderly cfg) (init cfg) (before ++ (pushes ++ pulls)))
    (hr : Runs.run (Network.step cfg) (init cfg) (before ++ (pushes ++ pulls)) = some s)
    (hend : ∀ i, (s.laptop i).running = []) (hquiet : ∀ a ∈ pushes ++ pulls, a.isHost = false)
    (hpush : ∀ i, PushCompletes i pushes) (hpull : ∀ i, PullCompletes i pulls)
    {stub : String → Option VmSnapshot.Credentials → Server.ExportDbSnapshotRequest →
      VmSnapshot.Call ε} {writable : String → Bool}
    {files : VmSnapshot.Files} {args : VmSnapshot.Args} {io : Server.ExportIo} {id : Option Text} {n : Nat}
    (harrives : ∀ creds, VmSnapshot.Arrives (Server.exportDbSnapshot io s.server.db id ⟨args.machineId⟩)
      (stub args.server creds ⟨args.machineId⟩))
    (hwrote : (VmSnapshot.main stub writable files args).2 = .wrote n) {parse : Text → DbDiff.Db}
    (hvacuum : ∀ snapshot, io.vacuum s.server.db = .ok snapshot → DbDiff.Holds (parse snapshot) s.server.db)
    {i : ι} {path : String} {data : Text} (hpath : path ≠ args.out) (hfile : files path = some data)
    (hlaptop : DbDiff.Holds (parse data) (s.laptop i).data.db) (sqlite : DbDiff.RowOrder) (sample : Int)
    (ignoreCounters : Bool) :
    ∃ report, DbDiff.diff sqlite (fun p =>
      ((VmSnapshot.main stub writable files args).1 p).map parse) path args.out
        comparedTables ignoreCounters sample = .ok report ∧
      ∀ t ∈ comparedTables, ∃ r, report.tables.lookup t = some (.compared r) ∧ r.aOnlyCount = 0 ∧
        r.bOnlyCount = 0 ∧ (t = "visits" → r.valueDiffCount = {u | u ∈ s.server.db.urls ∧
          ((s.laptop i).data.db.stamp u ≠ s.server.db.stamp u ∨
            u ∈ flagged (before ++ (pushes ++ pulls)) i ∧ s.server.db.isOfInterest u = false)}.ncard) := by
  obtain ⟨-, hview⟩ := converged_views ho hr hend hquiet hpush hpull
  have hempty : ∀ d, (Db.empty d).Marked := fun d v hv => by cases hv
  have hmarked : (s.laptop i).data.db.Marked := (inv_run hr).laptop_keeps i (hempty _) fun _ l h => h.ops l
  have hmarked' : s.server.db.Marked := server_keeps hr (hempty _) fun _ l h => h.ops l
  -- the two files
  obtain ⟨snapshot, hs, -, hmain⟩ := VmSnapshot.main_wrote harrives hwrote
  have hA : ((VmSnapshot.store files args.out snapshot) path).map parse = some (parse data) := by
    rw [VmSnapshot.store, Function.update_of_ne hpath, hfile, Option.map_some]
  have hB : ((VmSnapshot.store files args.out snapshot) args.out).map parse = some (parse snapshot) := by
    rw [VmSnapshot.store, Function.update_self, Option.map_some]
  obtain ⟨hlookup, -⟩ := DbDiff.lookup_report
    (DbDiff.diffTable sqlite (parse data) (parse snapshot) ignoreCounters sample) comparedTables ([], false)
  rw [hmain]
  refine ⟨⟨path, args.out, _, _⟩, by rw [DbDiff.diff, hA, hB], fun t ht => ?_⟩
  obtain ⟨r, hr, hcounts⟩ := compared_of_view sqlite hlaptop (hvacuum snapshot hs)
    ((inv_run hr).coherent i).urls_nodup (server_coherent hr).urls_nodup hmarked hmarked' (hview i)
    (converged_counters hr (hview i)) ignoreCounters sample ht
  refine ⟨r, ?_, hcounts⟩
  have htables := hlookup t
  rw [if_pos ht] at htables
  rw [htables, hr]

def fetchArgs : VmSnapshot.Args := ⟨"vm:50443", ascii "a", "client.crt", "client.key", "server-ca.crt",
    "vm.db", true⟩

def stores (path : String) : Option Text := if path = "laptop.db" then some [0] else none

def exportOne : Server.ExportIo := { vacuum := fun _ => .ok [1] }

def served (db : Db) (_ : String) (_ : Option VmSnapshot.Credentials) (req : Server.ExportDbSnapshotRequest) :
    VmSnapshot.Call Server.ExportError :=
  let r := Server.exportDbSnapshot exportOne db (some (ascii "a")) req
  ⟨r.1, r.2⟩

theorem diff_converged_visitShared : ∃ s, Runs.run (step pair) (init pair) visitShared = some s ∧
    ∃ parse report, DbDiff.diff DbDiff.RowOrder.given
      (fun p => ((VmSnapshot.main (served s.server.db) (fun _ => true) stores fetchArgs).1 p).map parse)
      "laptop.db" "vm.db" comparedTables false 5 = .ok report ∧
        ∀ t ∈ comparedTables, ∃ r, report.tables.lookup t = some (.compared r) ∧ r.aOnlyCount = 0 ∧
          r.bOnlyCount = 0 ∧ (t = "visits" → r.valueDiffCount = {u | u ∈ s.server.db.urls ∧
            ((s.laptop true).data.db.stamp u ≠ s.server.db.stamp u ∨
              u ∈ flagged visitShared true ∧ s.server.db.isOfInterest u = false)}.ncard) := by
  obtain ⟨s, hr⟩ : ∃ s, Runs.run (step pair) (init pair) visitShared = some s := ⟨_, rfl⟩
  have hc := (inv_run hr).coherent true
  have hc' := server_coherent hr
  have hend : ∀ i, (s.laptop i).running = [] := by
    cases hr
    intro i
    cases i <;> rfl
  have hpush : ∀ i, PushCompletes i pushesBoth := by
    intro i
    cases i with
    | true => exact ⟨[], [.next, .next, .eof, .send .ok].map (.push true), _, rfl⟩
    | false => exact ⟨[.start, .next, .next, .eof, .send .ok, .finish].map (.push true), [], [], rfl⟩
  have hpull : ∀ i, PullCompletes i pullsBoth := by
    intro i
    cases i with
    | true => exact ⟨pullsBoth.dropLast.dropLast, [], [], rfl⟩
    | false =>
      exact ⟨[], [.list, .next, .next, .eof, .endPeer, .receive, .mirror, .replay, .mirror, .replay,
        .endChunk].map (.pull false), _, rfl⟩
  have harrives : ∀ creds, VmSnapshot.Arrives (Server.exportDbSnapshot exportOne s.server.db (some (ascii "a"))
      ⟨fetchArgs.machineId⟩) (served s.server.db fetchArgs.server creds ⟨fetchArgs.machineId⟩) :=
    fun creds => ⟨List.prefix_rfl, fun h => ⟨rfl, h⟩⟩
  have hwrote : (VmSnapshot.main (served s.server.db) (fun _ => true) stores fetchArgs).2 = .wrote 1 := rfl
  refine ⟨s, hr, fun data => if data = [0] then DbDiff.replayedTables _ hc else DbDiff.replayedTables _ hc',
    diff_converged pair orderly_visitShared hr hend
      (by decide) hpush hpull harrives hwrote ?_ ?_ rfl ?_ _ 5 false⟩
  · intro snapshot hs
    cases hs
    exact DbDiff.holds_replayedTables _ hc'
  · decide
  · exact DbDiff.holds_replayedTables _ hc

end Network

end VisitLogger
