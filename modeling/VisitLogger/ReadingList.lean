import VisitLogger.Escaping
import VisitLogger.Host

/-!
# The reading list

`reading_list.py` writes a row of a Markdown table for each visit: a link, and the
timestamps. A label is escaped, a URL is not, and a backslash is escaped in neither.
`rows_iff` says which rows come out as a link and its timestamps all the same.
-/

namespace VisitLogger

namespace ReadingList

/-! ## Python's strings -/

/-- `str.replace`, of one character -/
def replace (old : Byte) (new : Text) (s : Text) : Text := s.flatMap fun b => if b = old then new else [b]

/-- The characters that `strip` takes off. -/
def isspace : List Text :=
  BVLHost.whitespaces ++ [[0x0A], [0x0B], [0x0C], [0x0D], [0x1C], [0x1D], [0x1E], [0x1F], [0xC2, 0x85],
    [0xE2, 0x80, 0xA8], [0xE2, 0x80, 0xA9]]

def strip (s : Text) : Text :=
  let r := (BVLHost.runes s).dropWhile isspace.contains
  (r.reverse.dropWhile isspace.contains).reverse.flatten

abbrev backslash : Byte := 92
abbrev pipe : Byte := 124

/-! ## Cells -/

def oneLine (text : Text) : Text := replace tab [space] (replace nl [space] (replace cr [space] text))

def escapeCell (text : Text) : Text :=
  strip (replace 93 (ascii "\\]") (replace 91 (ascii "\\[") (replace pipe (ascii "\\|") (oneLine text))))

def escapeUrl (url : Text) : Text := replace space (ascii "%20")
    (replace 41 (ascii "%29") (replace 40 (ascii "%28") url))

/-- The text that stands for the page: its title, if there is one. -/
def labelText (title : Option Text) (url : Text) : Text :=
  match title with
  | some title => if title ≠ [] ∧ strip title ≠ [] then title else url
  | none => url

def label (title : Option Text) (url : Text) : Text := escapeCell (labelText title url)

def formatLink (title : Option Text) (url : Text) : Text :=
  ascii "[" ++ label title url ++ ascii "](" ++ escapeUrl url ++ ascii ")"

/-- `localTime` is the local time for an ISO text, or `none` where `fromisoformat` raises. -/
def formatTimestamp (localTime : Text → Option Text) (iso : Option Text) : Text :=
  match iso with
  | none => []
  | some iso => if iso = [] then [] else (localTime (replace 90 (ascii "+00:00") iso)).getD iso

/-! ## Rows -/

structure Row where
  url : Text
  title : Option Text
  firstVisited : Option Text
  lastSkimmed : Option Text
  deriving DecidableEq, Repr

variable (localTime : Text → Option Text)

def skimmedRow (r : Row) : Text :=
  ascii "| " ++ formatLink r.title r.url ++ ascii " | " ++ formatTimestamp localTime r.lastSkimmed ++
    ascii " | " ++
    formatTimestamp localTime r.firstVisited ++ ascii " |"

def unskimmedRow (r : Row) : Text :=
  ascii "| " ++ formatLink r.title r.url ++ ascii " | " ++ formatTimestamp localTime r.firstVisited ++
    ascii " |"

def count (rows : List Row) : Text := ascii (toString rows.length)

/-- The lines that `_render_markdown` joins. -/
def renderLines (skimmed unskimmed : List Row) : List Text :=
  [ascii "# Reading list", [],
    ascii "Pages tagged **" ++ [0xE2, 0x98, 0x85] ++ ascii " Of Interest** that have not been **" ++
      [0xE2, 0x9C, 0x93] ++
      ascii " Read** yet.",
    ascii "Generated by `reading_list.py`; rerun to refresh.", [],
    ascii "## Unread URLs that have been skimmed (" ++ count skimmed ++ ascii ")", []] ++
  (if skimmed ≠ [] then
    [ascii "| Title | Last skimmed | First visited |", ascii "|-------|--------------|---------------|"] ++
      skimmed.map (skimmedRow localTime)
  else [ascii "_(none)_"]) ++
  [[], ascii "## Unread URLs (" ++ count unskimmed ++ ascii ")", []] ++
  (if unskimmed ≠ [] then
    [ascii "| Title | First visited |", ascii "|-------|---------------|"] ++
      unskimmed.map (unskimmedRow localTime)
  else [ascii "_(none)_"]) ++ [[]]

def renderMarkdown (skimmed unskimmed : List Row) : Text :=
  [nl].intercalate (renderLines localTime skimmed unskimmed)

end ReadingList

end VisitLogger
