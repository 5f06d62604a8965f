import VisitLogger.Text

/-!
# Paths

A cleaned path is a walk from `/` or from the working directory: the names it
passes, innermost first. `filepath.Join` puts its arguments together with `/`
and cleans the result, so joining a text to a cleaned path walks the text's
elements from there (`Path.join`). Python's `normpath` cleans the same way.
-/

namespace VisitLogger

abbrev dotdot : Text := ascii ".."

structure Path where
  rooted : Bool
  /-- The elements, innermost first. -/
  elems : List Text
  deriving DecidableEq, Repr

namespace Path

/-- One element of a walk: empty elements and `.` stay, `..` goes up. -/
def push (p : Path) (c : Text) : Path :=
  if c = [] ∨ c = ascii "." then p
  else if c = dotdot then
    match p.elems with
    | [] => if p.rooted then p else { p with elems := [dotdot] }
    | e :: es => if e = dotdot then { p with elems := dotdot :: e :: es } else { p with elems := es }
  else { p with elems := c :: p.elems }

def join (p : Path) (s : Text) : Path := (s.splitOn slash).foldl push p

def child (p : Path) (name : Text) : Path := { p with elems := name :: p.elems }

/-- `filepath.Clean`, and `os.path.normpath` but for a path that starts with `//`. -/
def clean (s : Text) : Path := (Path.mk (s.head? == some slash) []).join s

def basename (p : Path) : Text := p.elems.headD []

def toText (p : Path) : Text :=
  let s := (if p.rooted then [slash] else []) ++ [slash].intercalate p.elems.reverse
  if s = [] then ascii "." else s

end Path

/-- Where a path leads, on a disk without symbolic links. -/
def located (cwd : Path) (path : Text) : Path :=
  if path.head? = some slash then Path.clean path else cwd.join path

/-! ## Paths as texts -/

def osPathJoin (a b : Text) : Text :=
  if b.head? = some slash then b
  else if a = [] ∨ a.getLast? = some slash then a ++ b
  else a ++ slash :: b

/-- `os.path.basename`: what follows the last slash. -/
def osPathBasename (s : Text) : Text := (s.splitOn slash).getLastD []

/-- `lastPathComponent` of an `NSString`: slashes at the end do not count. -/
def lastPathComponent (s : Text) : Text :=
  match (s.splitOn slash).filter (· ≠ []) with
  | [] => if s = [] then [] else [slash]
  | c :: cs => (c :: cs).getLastD []

/-! ## Plain names -/

structure Plain (s : Text) : Prop where
  noSlash : slash ∉ s
  ne_nil : s ≠ []
  ne_dot : s ≠ ascii "."
  ne_dotdot : s ≠ dotdot

namespace Path

theorem join_of_noSlash {s : Text} (h : slash ∉ s) (p : Path) : p.join s = p.push s := by
  rw [join, List.splitOn_eq_singleton h]; rfl

theorem join_plain {s : Text} (h : Plain s) (p : Path) : p.join s = p.child s := by
  rw [join_of_noSlash h.noSlash, push, if_neg (not_or.mpr ⟨h.ne_nil, h.ne_dot⟩), if_neg h.ne_dotdot]; rfl

theorem join_append_slash (p : Path) (s t : Text) : p.join (s ++ slash :: t) = (p.join s).join t := by
  rw [join, List.splitOn_append_cons_self, List.foldl_append]; rfl

theorem child_inj {p q : Path} {s t : Text} : p.child s = q.child t ↔ p = q ∧ s = t := by
  cases p; cases q; simp only [child, mk.injEq, List.cons.injEq]; tauto

end Path

theorem exists_last_slash {s : Text} (h : slash ∈ s) : ∃ a b, slash ∉ b ∧ s = a ++ slash :: b := by
  induction s with
  | nil => cases h
  | cons c s ih =>
    by_cases hs : slash ∈ s
    · obtain ⟨a, b, hb, rfl⟩ := ih hs
      exact ⟨c :: a, b, hb, rfl⟩
    · rcases List.mem_cons.mp h with rfl | hs'
      · exact ⟨[], s, hs, rfl⟩
      · exact absurd hs' hs

theorem plain_append_log {s : Text} (h : slash ∉ s) : Plain (s ++ ascii ".log") := by
  refine ⟨?_, by simp [ascii], ?_, ?_⟩
  · rw [List.mem_append, not_or]; exact ⟨h, by decide⟩
  all_goals
    intro he
    have := congrArg List.getLast? he
    revert this
    simp [ascii]

end VisitLogger
