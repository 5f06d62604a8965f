import Mathlib.Data.List.Infix
import VisitLogger.SqliteReading

/-!
# The read-only check of the MCP server

`validateReadonlySql` strips comments by two patterns, masks string literals by a
third, counts what semicolons separate, and looks at the first word of the rest.
-/

namespace VisitLogger

namespace McpServer

open SqliteReading (quote)

/-- `str.isspace`, of a character, and `\s`. -/
def isSpace (c : Char) : Bool :=
  let n := c.toNat
  (9 ≤ n ∧ n ≤ 13) ∨ (28 ≤ n ∧ n ≤ 32) ∨ n = 0x85 ∨ n = 0xA0 ∨ n = 0x1680 ∨ (0x2000 ≤ n ∧ n ≤ 0x200A) ∨
    n = 0x2028 ∨ n = 0x2029 ∨
    n = 0x202F ∨ n = 0x205F ∨ n = 0x3000

/-- `[A-Za-z_]`. -/
def isLetter (c : Char) : Bool := c.isAlpha ∨ c = '_'

/-- `[A-Za-z_]` when case is ignored: four more letters are the same as an `i`, a `k` or an `s`. -/
def isLetterIgnoreCase (c : Char) : Bool := isLetter c ∨ c.toNat ∈ [0x130, 0x131, 0x17F, 0x212A]

def pragmaSafelist : List String :=
  ["table_info", "index_list", "index_info", "foreign_key_list", "database_list", "table_xinfo"]

def leadingKeywords : List String := ["SELECT", "WITH", "EXPLAIN", "PRAGMA"]

/-! ## Comments -/

/-- `re.sub` of `--[^\n]*` by nothing; the flag is set within a comment. -/
def subLineComment : Bool → List Char → List Char
  | _, [] => []
  | true, c :: s => if c = '\n' then c :: subLineComment false s else subLineComment true s
  | false, c :: s => if c = '-' ∧ s.head? = some '-' then subLineComment true s else c :: subLineComment false s

/-- `re.sub` of `/\*.*?\*/` by a space. Where a comment is not closed, no later one is. -/
def subBlockComment : Bool → List Char → List Char
  | _, [] => []
  | false, '/' :: '*' :: s => if ['*', '/'] <:+: s then ' ' :: subBlockComment true s else '/' :: '*' :: s
  | false, c :: s => c :: subBlockComment false s
  | true, '*' :: '/' :: s => subBlockComment false s
  | true, _ :: s => subBlockComment true s

def stripComments (sql : List Char) : List Char := subBlockComment false (subLineComment false sql)

/-! ## Statements -/

/-- The length of the longest match of `(?:[^']|'')*'`. -/
def literalEnd : List Char → Option Nat
  | [] => none
  | [c] => if c = quote then some 1 else none
  | c :: d :: s =>
    if c ≠ quote then (literalEnd (d :: s)).map (· + 1)
    else if d = quote then
      match literalEnd s with
      | some n => some (n + 2)
      | none => some 1
    else some 1

/-- String literals as spaces; the number is what is left of the literal. -/
def mask : Nat → List Char → List Char
  | _, [] => []
  | n + 1, _ :: s => ' ' :: mask n s
  | 0, c :: s => if c = quote then
      match literalEnd s with
      | some n => ' ' :: mask n s
      | none => c :: mask 0 s
    else c :: mask 0 s

def isBlank (s : List Char) : Bool := s.all isSpace

def statementCount (sql : List Char) : Nat :=
  let parts := (mask 0 sql).splitOn ';'
  let parts := if (parts.getLast?.map isBlank).getD false then parts.dropLast else parts
  (parts.filter fun p => !isBlank p).length

/-! ## The check -/

inductive ValueError where
  | empty
  | noStatements
  | multiple
  | noKeyword
  | keyword (k : List Char)
  | noPragma
  | pragma (p : List Char)
  deriving DecidableEq, Repr

def ValueError.message : ValueError → List Char
  | empty => "SQL is empty".toList
  | noStatements => "SQL contains no statements".toList
  | multiple => "Multiple statements are not allowed".toList
  | noKeyword => "Could not identify leading SQL keyword".toList
  | keyword k => "Statement must start with one of ['EXPLAIN', 'PRAGMA', 'SELECT', 'WITH']; got '".toList ++ k ++ [quote]
  | noPragma => "PRAGMA missing target".toList
  | pragma p => "PRAGMA '".toList ++ p ++
      ("' is not in the read-only safelist (['database_list', 'foreign_key_list', " ++
      "'index_info', 'index_list', 'table_info', 'table_xinfo'])").toList

/-- `^\s*([A-Za-z_]+)`. -/
def firstToken (sql : List Char) : Option (List Char) :=
  let k := (sql.dropWhile isSpace).takeWhile isLetter
  if k = [] then none else some k

/-- `\s*PRAGMA\s+([A-Za-z_]+)`, ignoring case. -/
def pragmaTarget (sql : List Char) : Option (List Char) :=
  let s := sql.dropWhile isSpace
  if (s.take 6).map Char.toUpper = "PRAGMA".toList then
    let r := s.drop 6
    let p := (r.dropWhile isSpace).takeWhile isLetterIgnoreCase
    if (r.head?.map isSpace).getD false ∧ p ≠ [] then some p else none
  else none

/-- `str.lower`, of what the pattern matches. -/
def lower (s : List Char) : List Char := s.flatMap fun c =>
  if c.toNat = 0x212A then ['k'] else if c.toNat = 0x130 then ['i', Char.ofNat 0x307] else [c.toLower]

def validateReadonlySql (sql : List Char) : Except ValueError Unit :=
  if sql = [] ∨ isBlank sql then .error .empty
  else
    let stripped := stripComments sql
    let n := statementCount stripped
    if n = 0 then .error .noStatements
    else if 1 < n then .error .multiple
    else
      match firstToken stripped with
      | none => .error .noKeyword
      | some k =>
        let keyword := k.map Char.toUpper
        if keyword ∉ leadingKeywords.map String.toList then .error (.keyword keyword)
        else if keyword = "PRAGMA".toList then
          match pragmaTarget stripped with
          | none => .error .noPragma
          | some p => if lower p ∈ pragmaSafelist.map String.toList then .ok () else .error (.pragma (lower p))
        else .ok ()

end McpServer

end VisitLogger
