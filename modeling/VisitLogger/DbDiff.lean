import Mathlib.Data.List.Sort
import VisitLogger.Queries
import VisitLogger.Text

/-!
# db_diff.py

`diff` compares two databases table by table: which keys are in one of them only,
by `EXCEPT`, and which rows of the same key differ, by an inner join on the key and
`COALESCE(a.c, '') != COALESCE(b.c, '')` on every other column.
-/

namespace VisitLogger

open Queries (innerJoin except Unique)

namespace DbDiff

/-! ## Tables -/

/-- What a column holds. Numbers compare by their value: an INTEGER and a REAL of the
same value are one. -/
inductive Value where
  | null
  | number (q : Rat)
  | infinity (negative : Bool)
  | text (s : Text)
  | blob (bytes : Text)
  deriving DecidableEq, Repr

structure Column where
  name : String
  notNull : Bool
  pk : Nat
  deriving DecidableEq, Repr

abbrev Row := String → Value

def pkColumns (columns : List Column) : List String :=
  ((columns.filter fun r => 0 < r.pk).insertionSort fun r s => r.pk ≤ s.pk).map (·.name)

def allColumns (columns : List Column) : List String := columns.map (·.name)

def project (cols : List String) (r : Row) : List Value := cols.map r

/-- A key is unique unless a column of it is NULL. -/
structure Table where
  columns : List Column
  rows : List Row
  notNull : ∀ r ∈ rows, ∀ c ∈ columns, c.notNull = true → r c.name ≠ .null
  unique : pkColumns columns ≠ [] → Unique (project (pkColumns columns)) (fun k => .null ∉ k) rows

abbrev Db := List (String × Table)

/-! ## The schema -/

def visits : List Column :=
  [⟨"url", false, 1⟩, ⟨"timestamp", true, 0⟩, ⟨"title", true, 0⟩, ⟨"of_interest", false, 0⟩, ⟨"read", true, 0⟩,
    ⟨"skimmed", true, 0⟩]

def events : List Column :=
  [⟨"url", true, 1⟩, ⟨"timestamp", true, 2⟩, ⟨"filename", true, 0⟩, ⟨"directory", true, 0⟩]

def snapshots : List Column := [⟨"date", false, 1⟩, ⟨"sealed", true, 0⟩]

def schema : List (String × List Column) :=
  [("visits", visits), ("read_events", events), ("skimmed_events", events), ("snapshots", snapshots)]

def HasSchema (db : Db) : Prop := ∀ p ∈ schema, ∃ t, db.lookup p.1 = some t ∧ t.columns = p.2

def defaultTables : List String := ["visits", "read_events", "skimmed_events", "snapshots"]

def counterColumns (t : String) : List String := if t = "visits" then ["read", "skimmed"] else []

/-! ## SQL -/

def sqlEq (a b : Value) : Option Bool := if a = .null ∨ b = .null then none else some (a = b)

def sqlNe (a b : Value) : Option Bool := (sqlEq a b).map (!·)

def coalesce (a b : Value) : Value := if a = .null then b else a

structure RowOrder where
  order : List (List Value) → List (List Value)
  perm : ∀ rows, (order rows).Perm rows

/-- `rows[:n]`. -/
def slice {α : Type*} (rows : List α) (n : Int) : List α :=
  rows.take (if 0 ≤ n then n else rows.length + n).toNat

/-! ## The comparison -/

variable (sqlite : RowOrder)

def presenceDiff (a b : Table) (pk : List String) (sample : Int) :
    Nat × Nat × List (List Value) × List (List Value) :=
  let aOnly := sqlite.order (except (a.rows.map (project pk)) (b.rows.map (project pk)))
  let bOnly := sqlite.order (except (b.rows.map (project pk)) (a.rows.map (project pk)))
  (aOnly.length, bOnly.length, slice aOnly sample, slice bOnly sample)

def pkJoin (pk : List String) (r s : Row) : Bool := Queries.all (pk.map fun c => sqlEq (r c) (s c)) = some true

def diffPredicates (nonPk : List String) (r s : Row) : Bool :=
  Queries.any (nonPk.map fun c => sqlNe (coalesce (r c) (.text [])) (coalesce (s c) (.text []))) = some true

def valueDiff (a b : Table) (pk cols ignoreCols : List String) (sample : Int) :
    Nat × List (List (String × Value)) :=
  let nonPk := cols.filter fun c => c ∉ pk ∧ c ∉ ignoreCols
  if nonPk = [] then (0, [])
  else
    let names := pk.map ("pk_" ++ ·) ++ nonPk.map ("a_" ++ ·) ++ nonPk.map ("b_" ++ ·)
    let pairs := (innerJoin (pkJoin pk) a.rows b.rows).filter fun p => diffPredicates nonPk p.1 p.2
    let selected := pairs.map fun p => project pk p.1 ++ project nonPk p.1 ++ project nonPk p.2
    (sqlite.order selected).foldl
      (fun acc row => (acc.1 + 1, if (acc.2.length : Int) < sample then acc.2 ++
        [names.zip row] else acc.2)) (0, [])

structure Compared where
  aOnlyCount : Nat
  bOnlyCount : Nat
  valueDiffCount : Nat
  aOnlySample : List (List Value)
  bOnlySample : List (List Value)
  valueDiffSample : List (List (String × Value))
  pk : List String
  ignoredColumns : List String
  deriving DecidableEq, Repr

/-- The report on a table; an error may come with the column lists. -/
inductive TableReport where
  | error (message : String) (columns : Option (List String × List String))
  | compared (r : Compared)
  deriving DecidableEq, Repr

def TableReport.isDifferent : TableReport → Bool
  | .error _ _ => true
  | .compared r => r.aOnlyCount ≠ 0 ∨ r.bOnlyCount ≠ 0 ∨ r.valueDiffCount ≠ 0

def diffTable (a b : Db) (ignoreCounters : Bool) (sample : Int) (t : String) : TableReport :=
  match a.lookup t, b.lookup t with
  | some ta, some tb =>
    let colsA := allColumns ta.columns
    let colsB := allColumns tb.columns
    if colsA ≠ colsB then .error "column lists differ" (some (colsA, colsB))
    else
      let pk := if pkColumns ta.columns = [] then colsA else pkColumns ta.columns
      let ignore := if ignoreCounters then counterColumns t else []
      let presence := presenceDiff sqlite ta tb pk sample
      let value := valueDiff sqlite ta tb pk colsA ignore sample
      .compared ⟨presence.1, presence.2.1, value.1, presence.2.2.1, presence.2.2.2, value.2, pk, ignore⟩
  | _, _ => .error "missing in one or both DBs" none

/-- `d[k] = v`. -/
def setItem {α : Type*} (k : String) (v : α) : List (String × α) → List (String × α)
  | [] => [(k, v)]
  | p :: d => if p.1 = k then (k, v) :: d else p :: setItem k v d

structure Report where
  dbA : String
  dbB : String
  tables : List (String × TableReport)
  anyDifference : Bool
  deriving DecidableEq, Repr

/-- The error is the path that is no file. -/
def diff (disk : String → Option Db) (dbA dbB : String) (tables : List String) (ignoreCounters : Bool)
    (sample : Int) :
    Except String Report :=
  match disk dbA with
  | none => .error dbA
  | some a =>
    match disk dbB with
    | none => .error dbB
    | some b =>
      let step := fun (acc : List (String × TableReport) × Bool) t =>
        let r := diffTable sqlite a b ignoreCounters sample t
        (setItem t r acc.1, acc.2 || r.isDifferent)
      let report := tables.foldl step ([], false)
      .ok ⟨dbA, dbB, report.1, report.2⟩

end DbDiff

end VisitLogger
