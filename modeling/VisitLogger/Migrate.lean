import VisitLogger.Rehydrate

/-!
# Moving the archive to Google Drive

`migrate_icloud_to_gdrive.main` copies the snapshots from one root to another, and then rewrites the directories of
the events. The two passes do not know of each other: a file whose destination is taken stays behind, with a
warning, and the rows of its directory are rewritten all the same.
-/

namespace VisitLogger

namespace Migrate

/-! ## Files -/

inductive Entry where
  | file (content : Text)
  | dir
  deriving DecidableEq, Repr

abbrev FS := AList fun _ : Path => Entry

def FS.read (fs : FS) (p : Path) : Option Text :=
  match fs.lookup p with
  | some (.file content) => some content
  | _ => none

/-- `mkdir(parents=True, exist_ok=True)`, which raises when a file is in the way. -/
def FS.mkdir (fs : FS) (p : Path) : Option FS :=
  p.elems.tails.reverse.foldlM (fun fs elems =>
    match fs.lookup { p with elems } with
    | some (.file _) => none
    | some .dir => some fs
    | none => some (fs.insert { p with elems } .dir)) fs

/-- `shutil.copy2` to a path in a directory that is there. Into a directory it copies too, but nobody then
gets past the hash of that directory. -/
def FS.copy2 (fs : FS) (src dst : Path) : Option FS :=
  if src = dst then none
  else
    match fs.read src, fs.lookup dst with
    | none, _ => none
    | _, some .dir => none
    | some content, _ => some (fs.insert dst (.file content))

def FS.rename (fs : FS) (src dst : Path) : Option FS :=
  match fs.lookup src, fs.lookup dst with
  | none, _ => none
  | _, some .dir => none
  | some e, _ => some ((fs.erase src).insert dst e)

section
variable (sha256 : Text → Text)

/-- `sha256_of`. A directory cannot be opened. -/
def sha256Of (fs : FS) (p : Path) : Option Text := (fs.read p).map sha256

/-! ## `migrate_files` -/

/-- A file that `os.walk` comes to: the directory it is in, and that directory below the other root. -/
structure Visit where
  root : Path
  outDir : Path
  fn : Text
  deriving DecidableEq, Repr

def Visit.srcPath (v : Visit) : Path := v.root.child v.fn

def Visit.dstPath (v : Visit) : Path := v.outDir.child v.fn

def Visit.tmp (v : Visit) : Path := v.outDir.child (v.fn ++ ascii ".partial")

/-- One file, with whether it is counted as copied; `none` when the pass raises. -/
def migrateFile (dryRun : Bool) (fs : FS) (v : Visit) : Option (FS × Bool) :=
  if v.dstPath ∈ fs then do
    let _ ← sha256Of sha256 fs v.srcPath
    let _ ← sha256Of sha256 fs v.dstPath
    -- with the same hash or, and then with a warning, with another
    some (fs, false)
  else if dryRun then some (fs, true)
  else do
    let fs ← fs.mkdir v.outDir
    let fs ← fs.copy2 v.srcPath v.tmp
    let copy ← sha256Of sha256 fs v.tmp
    let source ← sha256Of sha256 fs v.srcPath
    if copy ≠ source then none
    else do
      let fs ← fs.rename v.tmp v.dstPath
      some (fs, true)

def migrateFiles (dryRun : Bool) (visits : List Visit) (fs : FS) : Option (FS × Nat) :=
  visits.foldlM (fun (s : FS × Nat) v =>
    (migrateFile sha256 dryRun s.1 v).map fun r => (r.1, if r.2 then s.2 + 1 else s.2)) (fs, 0)

end

/-! ## `rewrite_db_directories` -/

def isContinuation (c : Text) : Bool := c.all fun b => 0x80 ≤ b ∧ b < 0xC0

/-- The characters of a text, as SQLite reads them: a byte from 0xC0 on takes the continuation bytes after it. -/
def characters : Text → List Text
  | [] => []
  | b :: s =>
    if 0xC0 ≤ b then (b :: ((characters s).takeWhile isContinuation).flatten) :: (characters s).dropWhile isContinuation
    else [b] :: characters s

def foldCase (c : Text) : Text := c.map fun b => if 65 ≤ b ∧ b ≤ 90 then b + 32 else b

/-- SQL's `LIKE` on the characters of a pattern and a text: the case of ASCII letters does not count. -/
def like : List Text → List Text → Bool
  | [], s => s.isEmpty
  | p :: ps, s =>
    if p = ascii "%" then s.tails.any (like ps)
    else
      match s with
      | [] => false
      | c :: s => (p = ascii "_" || foldCase p = foldCase c) && like ps s

def replaceFrom (old new : Text) : Nat → Text → Text
  | _, [] => []
  | skip + 1, _ :: s => replaceFrom old new skip s
  | 0, b :: s =>
    if old.isPrefixOf (b :: s) then new ++
      replaceFrom old new (old.length - 1) s else b :: replaceFrom old new 0 s

/-- SQL's `REPLACE`: every occurrence, from the left. -/
def replace (s old new : Text) : Text := if old = [] then s else replaceFrom old new 0 s

/-- `str(root).rstrip('/') + '/'` -/
def withSlash (root : Text) : Text := (root.reverse.dropWhile (· = slash)).reverse ++ [slash]

/-- What the `UPDATE` makes of a directory. -/
def newDirectory (oldRoot newRoot directory : Text) : Text :=
  if like (characters (withSlash oldRoot ++ ascii "%")) (characters directory) then
    replace directory (withSlash oldRoot) (withSlash newRoot)
  else directory

def rewriteDbDirectories (db : Db) (oldRoot newRoot : Text) (dryRun : Bool) : Db × Nat :=
  [EventsTable.read, .skimmed].foldl (fun (s : Db × Nat) t =>
    let r := Table.updateWhere
      (fun e => like (characters (withSlash oldRoot ++ ascii "%")) (characters e.directory))
      (fun e => { e with directory := replace e.directory (withSlash oldRoot) (withSlash newRoot) })
        (s.1.events t)
    (if dryRun then s.1 else s.1.setEvents t r.1, s.2 + r.2)) (db, 0)

/-! ## `main` -/

/-- The arguments, with the roots as `Path` spells them, and what `main` finds: `walk` is what `os.walk` yields of the
source, each directory that it can list with the names of its files. -/
structure Args where
  src : Text
  dst : Text
  dryRun : Bool
  cwd : Path
  dbExists : Bool
  walk : List (List Text × List Text)

def Args.visits (a : Args) : List Visit :=
  a.walk.flatMap fun (rel, files) =>
    files.map (Visit.mk (rel.foldl Path.child (located a.cwd a.src))
      (rel.foldl Path.child (located a.cwd a.dst)))

/-- The exit code, and what is left; `none` when it raises. -/
def main (sha256 : Text → Text) (a : Args) (fs : FS) (db : Db) : Option (Nat × FS × Db) :=
  if located a.cwd a.src ∉ fs then some (2, fs, db)
  else if !a.dbExists then some (2, fs, db)
  else do
    let fs ← if a.dryRun then some fs else fs.mkdir (located a.cwd a.dst)
    let (fs, _) ← migrateFiles sha256 a.dryRun a.visits fs
    some (0, fs, (rewriteDbDirectories db a.src a.dst a.dryRun).1)

end Migrate

end VisitLogger
