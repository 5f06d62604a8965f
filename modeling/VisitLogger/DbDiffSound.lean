import Mathlib.Tactic.Ring
import VisitLogger.DbDiff

/-!
# What db_diff.py does not see

`COALESCE` takes a NULL for the empty string and a join never matches a NULL, so that
two rows that differ in nothing else pass as equal.
-/

namespace VisitLogger

open Queries (innerJoin except Unique rowsAt)

namespace DbDiff

/-! ## What the counts should be -/

def keys (pk : List String) (t : Table) : Finset (List Value) := (t.rows.map (project pk)).toFinset

def valuesAt (pk cols : List String) (t : Table) (k : List Value) : List (List Value) :=
  (rowsAt (project pk) k t.rows).map (project cols)

def differing (pk cols : List String) (a b : Table) : Finset (List Value) :=
  (keys pk a ∩ keys pk b).filter fun k => ¬ (valuesAt pk cols a k).Perm (valuesAt pk cols b k)

def SameRows (cols : List String) (a b : Table) : Prop :=
  (a.rows.map (project cols)).Perm (b.rows.map (project cols))

/-- What `diff` does see: rows of a key differ in more than a NULL for an empty string,
and rows without a key agree. -/
structure IsVisible (pk cols : List String) (a b : Table) : Prop where
  values : ∀ r ∈ a.rows, ∀ s ∈ b.rows, project pk r = project pk s → .null ∉ project pk r →
    (∀ c ∈ cols, coalesce (r c) (.text []) = coalesce (s c) (.text [])) → project cols r = project cols s
  nullKeys : ∀ k ∈ keys pk a ∩ keys pk b, .null ∈ k → (valuesAt pk cols a k).Perm (valuesAt pk cols b k)

/-! ## SQL -/

theorem sqlEq_eq_true {a b : Value} : sqlEq a b = some true ↔ a = b ∧ a ≠ .null := by
  rw [sqlEq]
  split
  · rename_i h
    refine iff_of_false (fun h' => by cases h') fun h' => ?_
    rcases h with rfl | rfl
    · exact h'.2 rfl
    · exact h'.2 h'.1
  · rename_i h
    simp only [Option.some.injEq, decide_eq_true_eq]
    exact ⟨fun hab => ⟨hab, fun ha => h (Or.inl ha)⟩, fun h' => h'.1⟩

theorem coalesce_ne_null (a : Value) : coalesce a (.text []) ≠ .null := by
  rw [coalesce]
  split
  · exact fun h => by cases h
  · rename_i h
    exact h

theorem sqlNe_coalesce {a b : Value} :
    sqlNe (coalesce a (.text [])) (coalesce b (.text [])) = some true ↔
      coalesce a (.text []) ≠ coalesce b (.text []) := by
  rw [sqlNe, sqlEq, if_neg (not_or.mpr ⟨coalesce_ne_null a, coalesce_ne_null b⟩)]
  simp

theorem project_eq_iff {cols : List String} {r s : Row} :
    project cols r = project cols s ↔ ∀ c ∈ cols, r c = s c :=
  List.map_inj_left

theorem pkJoin_iff {pk : List String} {r s : Row} :
    pkJoin pk r s = true ↔ project pk r = project pk s ∧ .null ∉ project pk r := by
  rw [pkJoin, decide_eq_true_eq, Queries.all_eq_true, List.forall_mem_map, project_eq_iff, project,
    List.mem_map]
  simp only [sqlEq_eq_true, not_exists, not_and]
  exact ⟨fun h => ⟨fun c hc => (h c hc).1, fun c hc => (h c hc).2⟩, fun h c hc => ⟨h.1 c hc, h.2 c hc⟩⟩

theorem diffPredicates_iff {nonPk : List String} {r s : Row} : diffPredicates nonPk r s = true ↔
    ∃ c ∈ nonPk, coalesce (r c) (.text []) ≠ coalesce (s c) (.text []) := by
  rw [diffPredicates, decide_eq_true_eq, Queries.any_eq_true]
  simp only [List.mem_map, exists_exists_and_eq_and, sqlNe_coalesce]

/-! ## The counts -/

variable {sqlite : RowOrder} {a b : Table} {pk cols ignore : List String}

theorem presenceDiff_counts (sqlite : RowOrder) (a b : Table) (pk : List String) (sample : Int) :
    (presenceDiff sqlite a b pk sample).1 = (keys pk a \ keys pk b).card ∧
      (presenceDiff sqlite a b pk sample).2.1 = (keys pk b \ keys pk a).card := by
  simp only [presenceDiff, (sqlite.perm _).length_eq, Queries.length_except, keys, and_self]

def found (pk nonPk : List String) (a b : Table) : Finset (List Value) :=
  (((innerJoin (pkJoin pk) a.rows b.rows).filter fun p => diffPredicates nonPk p.1 p.2).map fun p =>
    project pk p.1).toFinset

theorem mem_found {nonPk : List String} {k : List Value} : k ∈ found pk nonPk a b ↔
    ∃ r ∈ a.rows, ∃ s ∈ b.rows, project pk r = k ∧ project pk s = k ∧ .null ∉ k ∧
      ∃ c ∈ nonPk, coalesce (r c) (.text []) ≠ coalesce (s c) (.text []) := by
  simp only [found, List.mem_toFinset, List.mem_map, List.mem_filter, Queries.mem_innerJoin, pkJoin_iff,
    diffPredicates_iff]
  constructor
  · rintro ⟨⟨r, s⟩, ⟨⟨hr, hs, hrs, hnull⟩, hdiff⟩, rfl⟩
    exact ⟨r, hr, s, hs, rfl, hrs.symm, hnull, hdiff⟩
  · rintro ⟨r, hr, s, hs, rfl, hrs, hnull, hdiff⟩
    exact ⟨(r, s), ⟨⟨hr, hs, hrs.symm, hnull⟩, hdiff⟩, rfl⟩

theorem valueDiff_count (sqlite : RowOrder) (ha : Unique (project pk) (fun k => .null ∉ k) a.rows)
    (hb : Unique (project pk) (fun k => .null ∉ k) b.rows) (sample : Int) :
    (valueDiff sqlite a b pk cols ignore sample).1 =
      (found pk (cols.filter fun c => c ∉ pk ∧ c ∉ ignore) a b).card := by
  have hfold : ∀ (names : List String) (rows : List (List Value)) (n : Nat)
    (samples : List (List (String × Value))),
      (rows.foldl (fun acc row => (acc.1 + 1,
        if (acc.2.length : Int) < sample then acc.2 ++ [names.zip row] else acc.2))
        (n, samples)).1 = n + rows.length := by
    intro names rows
    induction rows with
    | nil => exact fun n samples => rfl
    | cons row rows ih =>
      intro n samples
      rw [List.foldl_cons, ih, List.length_cons]
      omega
  simp only [valueDiff]
  split
  · rename_i hnil
    rw [hnil, eq_comm, Finset.card_eq_zero, Finset.eq_empty_iff_forall_notMem]
    intro k hk
    obtain ⟨-, -, -, -, -, -, -, c, hc, -⟩ := mem_found.mp hk
    cases hc
  · rw [hfold, (sqlite.perm _).length_eq, List.length_map,
      Queries.length_innerJoin (fun r s h => pkJoin_iff.mp h) ha hb, Nat.zero_add, found]

/-! ## Seen and unseen differences -/

variable {k : List Value}

theorem valuesAt_eq_nil (h : k ∉ keys pk a) : valuesAt pk cols a k = [] := by
  rw [valuesAt, rowsAt, List.map_eq_nil_iff, List.filter_eq_nil_iff]
  intro r hr hk
  exact h (List.mem_toFinset.mpr (List.mem_map.mpr ⟨r, hr, by simpa using hk⟩))

theorem valuesAt_ne_nil (h : k ∈ keys pk a) : valuesAt pk cols a k ≠ [] := by
  obtain ⟨r, hr, rfl⟩ := List.mem_map.mp (List.mem_toFinset.mp h)
  rw [valuesAt, rowsAt, Ne, List.map_eq_nil_iff, List.filter_eq_nil_iff]
  exact fun hall => hall r hr (by simp)

theorem valuesAt_eq_singleton (cols : List String)
    (ha : Unique (project pk) (fun k => .null ∉ k) a.rows) {r : Row} (hr : r ∈ a.rows)
    (hnull : .null ∉ project pk r) : valuesAt pk cols a (project pk r) = [project cols r] := by
  rw [valuesAt, Queries.rowsAt_eq_singleton ha hr hnull, List.map_singleton]

/-- **Two tables have the same rows** when no key is in one only, and none differs. -/
theorem sameRows_iff (hpk : pk ⊆ cols) : SameRows cols a b ↔
    keys pk a \ keys pk b = ∅ ∧ keys pk b \ keys pk a = ∅ ∧ differing pk cols a b = ∅ := by
  have hf : ∀ r s : Row, project cols r = project cols s → project pk r = project pk s := fun r s h =>
    project_eq_iff.mpr fun c hc => project_eq_iff.mp h c (hpk hc)
  rw [SameRows, Queries.perm_iff_rowsAt hf, Finset.sdiff_eq_empty_iff_subset,
    Finset.sdiff_eq_empty_iff_subset, differing, Finset.filter_eq_empty_iff]
  constructor
  · intro h
    refine ⟨fun k hk => ?_, fun k hk => ?_, fun k _ hno => hno (h k)⟩
    · by_contra hkb
      have := h k
      rw [← valuesAt, ← valuesAt, valuesAt_eq_nil hkb, List.perm_nil] at this
      exact valuesAt_ne_nil hk this
    · by_contra hka
      have := h k
      rw [← valuesAt, ← valuesAt, valuesAt_eq_nil hka, List.nil_perm] at this
      exact valuesAt_ne_nil hk this
  · rintro ⟨hab, hba, hdiff⟩ k
    by_cases hk : k ∈ keys pk a
    · exact not_not.mp (hdiff (Finset.mem_inter.mpr ⟨hk, hab hk⟩))
    · rw [← valuesAt, ← valuesAt, valuesAt_eq_nil hk, valuesAt_eq_nil fun hkb => hk (hba hkb)]

section Keys

variable (ha : Unique (project pk) (fun k => .null ∉ k) a.rows)
  (hb : Unique (project pk) (fun k => .null ∉ k) b.rows)
  {nonPk : List String} (hcols : ∀ c, c ∈ cols ↔ c ∈ pk ∨ c ∈ nonPk)

include ha hb hcols

theorem found_subset : found pk nonPk a b ⊆ differing pk cols a b := by
  intro k hk
  obtain ⟨r, hr, s, hs, rfl, hrs, hnull, c, hc, hne⟩ := mem_found.mp hk
  refine Finset.mem_filter.mpr ⟨Finset.mem_inter.mpr ⟨?_, ?_⟩, ?_⟩
  · exact List.mem_toFinset.mpr (List.mem_map_of_mem hr)
  · rw [← hrs]
    exact List.mem_toFinset.mpr (List.mem_map_of_mem hs)
  · have hbs := valuesAt_eq_singleton cols hb hs (hrs ▸ hnull)
    rw [hrs] at hbs
    rw [valuesAt_eq_singleton cols ha hr hnull, hbs, List.singleton_perm_singleton, project_eq_iff]
    exact fun h => hne (by rw [h c ((hcols c).mpr (Or.inr hc))])

/-- **The join finds every difference** when all of them are visible. -/
theorem card_found_iff : (found pk nonPk a b).card = (differing pk cols a b).card ↔ IsVisible pk cols a b := by
  have hsub := found_subset ha hb hcols
  have hall : (found pk nonPk a b).card = (differing pk cols a b).card ↔
    differing pk cols a b ⊆ found pk nonPk a b :=
    ⟨fun h => (Finset.eq_of_subset_of_card_le hsub h.ge).ge, fun h => congrArg Finset.card (hsub.antisymm h)⟩
  rw [hall]
  constructor
  · intro h
    refine ⟨fun r hr s hs hrs hnull hco => ?_, fun k hk hnull => ?_⟩
    · by_contra hne
      have hmem : project pk r ∈ differing pk cols a b := by
        have hbs := valuesAt_eq_singleton cols hb hs (hrs ▸ hnull)
        rw [← hrs] at hbs
        refine Finset.mem_filter.mpr ⟨Finset.mem_inter.mpr
          ⟨List.mem_toFinset.mpr (List.mem_map_of_mem hr), ?_⟩, ?_⟩
        · rw [hrs]
          exact List.mem_toFinset.mpr (List.mem_map_of_mem hs)
        · rw [valuesAt_eq_singleton cols ha hr hnull, hbs, List.singleton_perm_singleton]
          exact hne
      obtain ⟨r', hr', s', hs', hkr, hks, -, c, hc, hdiff⟩ := mem_found.mp (h hmem)
      rw [ha.eq hr hr' hkr hnull, hb.eq hs hs' (hks.trans hrs) (hrs ▸ hnull)] at hdiff
      exact hdiff (hco c ((hcols c).mpr (Or.inr hc)))
    · by_contra hno
      obtain ⟨-, -, -, -, -, -, hreal, -⟩ := mem_found.mp (h (Finset.mem_filter.mpr ⟨hk, hno⟩))
      exact hreal hnull
  · intro h k hk
    obtain ⟨hin, hno⟩ := Finset.mem_filter.mp hk
    by_cases hnull : .null ∈ k
    · exact absurd (h.nullKeys k hin hnull) hno
    · obtain ⟨hka, hkb⟩ := Finset.mem_inter.mp hin
      obtain ⟨r, hr, rfl⟩ := List.mem_map.mp (List.mem_toFinset.mp hka)
      obtain ⟨s, hs, hrs⟩ := List.mem_map.mp (List.mem_toFinset.mp hkb)
      have hbs := valuesAt_eq_singleton cols hb hs (hrs ▸ hnull)
      rw [hrs] at hbs
      rw [valuesAt_eq_singleton cols ha hr hnull, hbs, List.singleton_perm_singleton] at hno
      refine mem_found.mpr ⟨r, hr, s, hs, rfl, hrs, hnull, ?_⟩
      by_contra hsame
      push Not at hsame
      refine hno (h.values r hr s hs hrs.symm hnull fun c hc => ?_)
      rcases (hcols c).mp hc with hc | hc
      · rw [project_eq_iff.mp hrs c hc]
      · exact hsame c hc

end Keys

/-! ## The report -/

theorem lookup_pair {α : Type*} (k : String) (v : α) (d : List (String × α)) (l : String) :
    ((k, v) :: d).lookup l = if l = k then some v else d.lookup l := by
  rw [List.lookup_cons]
  by_cases h : l = k
  · simp [h]
  · simp [h, beq_eq_false_iff_ne.mpr h]

theorem lookup_setItem {α : Type*} (k : String) (v : α) (d : List (String × α)) (l : String) :
    (setItem k v d).lookup l = if l = k then some v else d.lookup l := by
  induction d with
  | nil => rw [setItem, lookup_pair]
  | cons p d ih =>
    obtain ⟨m, w⟩ := p
    by_cases hm : m = k
    · rw [setItem, if_pos hm, lookup_pair, lookup_pair, hm]
      split <;> rfl
    · rw [setItem, if_neg hm, lookup_pair, lookup_pair, ih]
      by_cases hl : l = k
      · rw [if_pos hl, if_pos hl, if_neg fun h => hm (h.symm.trans hl)]
      · rw [if_neg hl, if_neg hl]

theorem lookup_report (f : String → TableReport) (tables : List String)
    (acc : List (String × TableReport) × Bool) :
    let r := tables.foldl (fun acc t => (setItem t (f t) acc.1, acc.2 || (f t).isDifferent)) acc
    (∀ t, r.1.lookup t = if t ∈ tables then some (f t) else acc.1.lookup t) ∧
      r.2 = (acc.2 || tables.any fun t => (f t).isDifferent) := by
  induction tables generalizing acc with
  | nil => simp
  | cons t tables ih =>
    obtain ⟨hlookup, hany⟩ := ih (setItem t (f t) acc.1, acc.2 || (f t).isDifferent)
    refine ⟨fun u => ?_, ?_⟩
    · rw [List.foldl_cons, hlookup]
      by_cases hu : u ∈ tables
      · simp [hu]
      · by_cases hut : u = t
        · simp [hut, lookup_setItem]
        · simp [hu, hut, lookup_setItem]
    · rw [List.foldl_cons, hany]
      simp [Bool.or_assoc]

/-! ## The default tables -/

def ignored (ignoreCounters : Bool) (t : String) : List String :=
  if ignoreCounters then counterColumns t else []

def kept (ignoreCounters : Bool) (t : String) (table : Table) : List String :=
  (allColumns table.columns).filter fun c => c ∉ ignored ignoreCounters t

/-- The report says of the default tables what there is to say. -/
structure IsExact (ignoreCounters : Bool) (a b : Db) (report : Report) : Prop where
  anyDifference : report.anyDifference = false ↔ ∀ t ∈ defaultTables, ∀ ta tb, a.lookup t = some ta →
    b.lookup t = some tb →
    SameRows (kept ignoreCounters t ta) ta tb
  counts : ∀ t ∈ defaultTables, ∀ ta tb, a.lookup t = some ta → b.lookup t = some tb →
    ∃ r, report.tables.lookup t = some (.compared r) ∧
      r.aOnlyCount = (keys (pkColumns ta.columns) ta \ keys (pkColumns ta.columns) tb).card ∧
      r.bOnlyCount = (keys (pkColumns ta.columns) tb \ keys (pkColumns ta.columns) ta).card ∧
      r.valueDiffCount = (differing (pkColumns ta.columns) (kept ignoreCounters t ta) ta tb).card

theorem columns_of_schema {a b : Db} (ha : HasSchema a) (hb : HasSchema b) {t : String}
    (ht : t ∈ defaultTables) :
    ∃ ta tb, a.lookup t = some ta ∧ b.lookup t = some tb ∧ tb.columns = ta.columns ∧ pkColumns ta.columns ≠ [] ∧
      ∀ ignoreCounters, pkColumns ta.columns ⊆ kept ignoreCounters t ta := by
  have hschema : ∀ t ∈ defaultTables, ∃ p ∈ schema, p.1 = t := by decide +kernel
  have hkeys : ∀ p ∈ schema, pkColumns p.2 ≠ [] ∧
      ∀ c ∈ pkColumns p.2, c ∈ allColumns p.2 ∧ c ∉ counterColumns p.1 := by decide +kernel
  obtain ⟨p, hp, rfl⟩ := hschema t ht
  obtain ⟨ta, hta, hca⟩ := ha p hp
  obtain ⟨tb, htb, hcb⟩ := hb p hp
  obtain ⟨hne, hpk⟩ := hkeys p hp
  rw [← hca] at hne hpk
  refine ⟨ta, tb, hta, htb, hcb.trans hca.symm, hne, fun ignoreCounters c hc => ?_⟩
  refine List.mem_filter.mpr ⟨(hpk c hc).1, ?_⟩
  rw [ignored]
  split
  · simpa using (hpk c hc).2
  · simp

def nonPk (ignoreCounters : Bool) (t : String) (table : Table) : List String :=
  (allColumns table.columns).filter fun c => c ∉ pkColumns table.columns ∧ c ∉ ignored ignoreCounters t

theorem mem_kept {ignoreCounters : Bool} {t : String} {ta : Table}
    (h : pkColumns ta.columns ⊆ kept ignoreCounters t ta)
    (c : String) : c ∈ kept ignoreCounters t ta ↔ c ∈ pkColumns ta.columns ∨ c ∈ nonPk ignoreCounters t ta := by
  have hsub := @h c
  simp only [kept, nonPk, List.mem_filter, decide_eq_true_eq] at hsub ⊢
  tauto

theorem diffTable_spec (sqlite : RowOrder) {a b : Db} {t : String} {ta tb : Table} (hta : a.lookup t = some ta)
    (htb : b.lookup t = some tb) (hcols : tb.columns = ta.columns) (hpk : pkColumns ta.columns ≠ [])
    (ignoreCounters : Bool) (sample : Int) : ∃ r, diffTable sqlite a b ignoreCounters sample t = .compared r ∧
      r.aOnlyCount = (keys (pkColumns ta.columns) ta \ keys (pkColumns ta.columns) tb).card ∧
      r.bOnlyCount = (keys (pkColumns ta.columns) tb \ keys (pkColumns ta.columns) ta).card ∧
      r.valueDiffCount = (found (pkColumns ta.columns) (nonPk ignoreCounters t ta) ta tb).card := by
  have hb := tb.unique
  rw [hcols] at hb
  obtain ⟨hA, hB⟩ := presenceDiff_counts sqlite ta tb (pkColumns ta.columns) sample
  rw [diffTable, hta, htb]
  simp only [hcols, ne_eq, not_true_eq_false, if_false, if_neg hpk]
  exact ⟨_, rfl, hA, hB, valueDiff_count sqlite (ta.unique hpk) (hb hpk) sample⟩

theorem isDifferent_eq_false {r : Compared} :
    (TableReport.compared r).isDifferent = false ↔ r.aOnlyCount = 0 ∧ r.bOnlyCount = 0 ∧
      r.valueDiffCount = 0 := by
  simp [TableReport.isDifferent]

theorem diffTable_default (sqlite : RowOrder) {a b : Db} (ha : HasSchema a) (hb : HasSchema b)
    (ignoreCounters : Bool) (sample : Int) {t : String} (ht : t ∈ defaultTables) {ta tb : Table}
    (hta : a.lookup t = some ta) (htb : b.lookup t = some tb) :
    ∃ r, diffTable sqlite a b ignoreCounters sample t = .compared r ∧
      r.aOnlyCount = (keys (pkColumns ta.columns) ta \ keys (pkColumns ta.columns) tb).card ∧
      r.bOnlyCount = (keys (pkColumns ta.columns) tb \ keys (pkColumns ta.columns) ta).card ∧
      (r.valueDiffCount = (differing (pkColumns ta.columns) (kept ignoreCounters t ta) ta tb).card ↔
        IsVisible (pkColumns ta.columns) (kept ignoreCounters t ta) ta tb) ∧
      (IsVisible (pkColumns ta.columns) (kept ignoreCounters t ta) ta tb →
        ((TableReport.compared r).isDifferent = false ↔ SameRows (kept ignoreCounters t ta) ta tb)) := by
  obtain ⟨ta', tb', hta', htb', hcols, hpk, hkept⟩ := columns_of_schema ha hb ht
  obtain rfl : ta = ta' := Option.some.inj (hta.symm.trans hta')
  obtain rfl : tb = tb' := Option.some.inj (htb.symm.trans htb')
  obtain ⟨r, hr, hA, hB, hV⟩ := diffTable_spec sqlite hta htb hcols hpk ignoreCounters sample
  have hub := tb.unique
  rw [hcols] at hub
  have hcard := card_found_iff (ta.unique hpk) (hub hpk) (mem_kept (hkept ignoreCounters))
  rw [← hV] at hcard
  refine ⟨r, hr, hA, hB, hcard, fun hvisible => ?_⟩
  rw [isDifferent_eq_false, hA, hB, hcard.mpr hvisible, sameRows_iff (hkept ignoreCounters),
    Finset.card_eq_zero, Finset.card_eq_zero, Finset.card_eq_zero]

/-- **The report is exact** when no difference of a default table hides behind a NULL. -/
theorem diff_exact_iff (sqlite : RowOrder) {disk : String → Option Db} {dbA dbB : String} {a b : Db}
    (hdA : disk dbA = some a)
    (hdB : disk dbB = some b) (ha : HasSchema a) (hb : HasSchema b) (ignoreCounters : Bool) (sample : Int) :
    ∃ report, diff sqlite disk dbA dbB defaultTables ignoreCounters sample = .ok report ∧
      (IsExact ignoreCounters a b report ↔ ∀ t ∈ defaultTables, ∀ ta tb, a.lookup t = some ta →
        b.lookup t = some tb →
        IsVisible (pkColumns ta.columns) (kept ignoreCounters t ta) ta tb) := by
  obtain ⟨hlookup, hany⟩ := lookup_report (diffTable sqlite a b ignoreCounters sample) defaultTables ([], false)
  refine ⟨⟨dbA, dbB, _, _⟩, by rw [diff, hdA, hdB], ?_⟩
  constructor
  · intro h t ht ta tb hta htb
    obtain ⟨r, hr, -, -, hV, -⟩ := diffTable_default sqlite ha hb ignoreCounters sample ht hta htb
    obtain ⟨r', hr', -, -, hcount⟩ := h.counts t ht ta tb hta htb
    rw [hlookup, if_pos ht, hr] at hr'
    cases hr'
    exact hV.mp hcount
  · intro h
    refine ⟨?_, fun t ht ta tb hta htb => ?_⟩
    · refine (Iff.of_eq (congrArg (· = false) hany)).trans ?_
      simp only [Bool.false_or, List.any_eq_false, Bool.not_eq_true]
      refine forall₂_congr fun t ht => ?_
      obtain ⟨ta, tb, hta, htb, -⟩ := columns_of_schema ha hb ht
      obtain ⟨r, hr, -, -, -, hsame⟩ := diffTable_default sqlite ha hb ignoreCounters sample ht hta htb
      rw [hr, hsame (h t ht ta tb hta htb), hta, htb]
      constructor
      · intro hrows ta' tb' hta' htb'
        cases hta'
        cases htb'
        exact hrows
      · intro hrows
        exact hrows ta tb rfl rfl
    · obtain ⟨r, hr, hA, hB, hV, -⟩ := diffTable_default sqlite ha hb ignoreCounters sample ht hta htb
      refine ⟨r, ?_, hA, hB, hV.mpr (h t ht ta tb hta htb)⟩
      rw [hlookup, if_pos ht, hr]

/-! ## A tag that is NULL in one of two databases -/

def visit (ofInterest : Value) : Row := fun c =>
  if c = "of_interest" then ofInterest else if c = "read" ∨ c = "skimmed" then .number 0 else .text (ascii c)

def visitsTable (ofInterest : Value) : Table where
  columns := visits
  rows := [visit ofInterest]
  notNull := by
    intro r hr c hc hnn
    rw [List.mem_singleton.mp hr]
    have hname : c.name ≠ "of_interest" := by
      have : ∀ c ∈ visits, c.notNull = true → c.name ≠ "of_interest" := by decide +kernel
      exact this c hc hnn
    rw [visit, if_neg hname]
    split <;> exact fun h => by cases h
  unique _ := List.pairwise_singleton _ _

def emptyTable (columns : List Column) : Table where
  columns := columns
  rows := []
  notNull _ hr := by cases hr
  unique _ := List.Pairwise.nil

def oneVisit (ofInterest : Value) : Db :=
  [("visits", visitsTable ofInterest), ("read_events", emptyTable events),
    ("skimmed_events", emptyTable events), ("snapshots", emptyTable snapshots)]

theorem hasSchema_oneVisit (ofInterest : Value) : HasSchema (oneVisit ofInterest) := by
  intro p hp
  simp only [schema, List.mem_cons, List.not_mem_nil, or_false] at hp
  rcases hp with rfl | rfl | rfl | rfl
  · exact ⟨visitsTable ofInterest, rfl, rfl⟩
  · exact ⟨emptyTable events, by simp [oneVisit, List.lookup_cons], rfl⟩
  · exact ⟨emptyTable events, by simp [oneVisit, List.lookup_cons], rfl⟩
  · exact ⟨emptyTable snapshots, by simp [oneVisit, List.lookup_cons], rfl⟩

def RowOrder.given : RowOrder := ⟨id, fun _ => List.Perm.refl _⟩

def twoFiles (a b : Db) (path : String) : Option Db :=
  if path = "a.db" then some a else if path = "b.db" then some b else none

theorem diff_exact_iff_tagged :
    ∃ report, diff RowOrder.given (twoFiles (oneVisit .null)
      (oneVisit (.text (ascii "1")))) "a.db" "b.db" defaultTables false 5 =
        .ok report ∧
      (IsExact false (oneVisit .null) (oneVisit (.text (ascii "1"))) report ↔ ∀ t ∈ defaultTables, ∀ ta tb,
        (oneVisit .null).lookup t = some ta → (oneVisit (.text (ascii "1"))).lookup t = some tb →
          IsVisible (pkColumns ta.columns) (kept false t ta) ta tb) :=
  diff_exact_iff RowOrder.given rfl (by rw [twoFiles, if_neg (by decide), if_pos rfl]) (hasSchema_oneVisit _)
    (hasSchema_oneVisit _) false 5

/-- A NULL and an empty string pass as the same. -/
theorem null_passes_as_empty :
    ∃ report, diff RowOrder.given (twoFiles (oneVisit .null)
      (oneVisit (.text []))) "a.db" "b.db" defaultTables false 5 =
        .ok report ∧
      report.anyDifference = false ∧ ¬ IsExact false (oneVisit .null) (oneVisit (.text [])) report := by
  have hrun : ∃ report, diff RowOrder.given
    (twoFiles (oneVisit .null) (oneVisit (.text []))) "a.db" "b.db" defaultTables false 5 =
      .ok report ∧ report.anyDifference = false := by
    refine ⟨_, rfl, ?_⟩
    decide +kernel
  obtain ⟨report, hreport, hany⟩ := hrun
  refine ⟨report, hreport, hany, fun h => ?_⟩
  have hsame := h.anyDifference.mp hany "visits" (by decide) (visitsTable .null)
    (visitsTable (.text [])) rfl rfl
  have hrows : project (kept false "visits" (visitsTable .null)) (visit .null) =
      project (kept false "visits" (visitsTable .null))
        (visit (.text [])) := List.singleton_perm_singleton.mp hsame
  have : (Value.null : Value) = .text [] := project_eq_iff.mp hrows "of_interest" (by decide +kernel)
  cases this

end DbDiff

end VisitLogger
