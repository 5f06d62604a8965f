import VisitLogger.MigrateFrame

/-!
# What the events find after a migration

`main` rewrites the directories of the events without asking what has become of the files. An event still finds its
file iff the file has arrived where the event looks for it now (`migrated_iff`).
-/

namespace VisitLogger

namespace Migrate

open Moves

def fileAt (cwd : Path) (directory filename : Text) : Path := located cwd (osPathJoin directory filename)

/-- An event whose directory has been rewritten finds the bytes that it found before. -/
def Migrated (cwd : Path) (fs fs' : FS) (db db' : Db) : Prop :=
  ∀ t, List.Forall₂ (fun e e' : Event => e'.directory ≠ e.directory →
    ∀ text, fs.read (fileAt cwd e.directory e.filename) = some text →
    fs'.read (fileAt cwd e'.directory e.filename) = some text) (db.events t) (db'.events t)

def Args.moves (a : Args) : List (Move Path) := Migrate.moves (located a.cwd a.src) (located a.cwd a.dst) a.walk

/-- **The events find their files again** iff these arrive where the rewritten directories say: they
were there, and no copy goes through the place, or a copy that finds the place free brings them, and
no later one goes through it. -/
theorem migrated_iff {sha256 : Text → Text} {a : Args} {fs fs' : FS} {db db' : Db} (hwalk : IsWalk a.walk)
    (hdry : a.dryRun = false) (h : main sha256 a fs db = some (0, fs', db')) :
    Migrated a.cwd fs fs' db db' ↔
      ∀ t, ∀ e ∈ db.events t, newDirectory a.src a.dst e.directory ≠ e.directory →
        ∀ text, fs.read (fileAt a.cwd e.directory e.filename) = some text →
          Arrives fs.read a.moves (fileAt a.cwd (newDirectory a.src a.dst e.directory) e.filename) text := by
  obtain ⟨⟨fs₁, n, hsame, hfiles⟩, hevents⟩ := main_spec hdry h
  have hrun : fs'.read = run fs.read a.moves := by
    rw [← hsame]
    exact (migrateFiles_run hfiles).1
  refine forall_congr' fun t => ?_
  rw [hevents, List.forall₂_map_right_iff, List.forall₂_same, hrun]
  simp only [run_eq_some_iff (nodup_moves hwalk), Args.moves]

/-! ## A destination that is taken -/

/-- A snapshot in the archive, whose name in the other one has other bytes. -/
def taken (there : Text) : FS :=
  [(ascii "/i", Entry.dir), (ascii "/i/d", .dir), (ascii "/i/d/a", .file (ascii "alpha")),
    (ascii "/g", .dir), (ascii "/g/d", .dir),
      (ascii "/g/d/a", .file there)].foldl (fun fs e => fs.insert (Path.clean e.1) e.2) ∅

def oneEvent : Db := { Db.empty [] with readEvents := [⟨ascii "u", ascii "t", ascii "a", ascii "/i/d"⟩] }

def args : Args := ⟨ascii "/i", ascii "/g", false, Path.clean (ascii "/"), true,
    [([], []), ([ascii "d"], [ascii "a"])]⟩

def untaken : FS :=
  [(ascii "/i", Entry.dir), (ascii "/i/d", .dir),
    (ascii "/i/d/a", .file (ascii "alpha"))].foldl (fun fs e => fs.insert (Path.clean e.1) e.2) ∅

/-- The destination is free: the copy arrives there. -/
theorem migrated_iff_untaken :
    ∃ fs' db', main id args untaken oneEvent = some (0, fs', db') ∧
      Migrated args.cwd untaken fs' oneEvent db' := by
  have hwalk : IsWalk args.walk :=
    ⟨by decide, fun d hd => by
      have hall : ∀ d ∈ args.walk, d.2.Nodup := by decide
      exact hall d hd⟩
  refine ⟨_, _, rfl, (migrated_iff hwalk rfl (rfl : main id args untaken oneEvent = _)).mpr ?_⟩
  intro t e he hne text htext
  cases t with
  | read =>
    obtain rfl := List.mem_singleton.mp he
    have hhere : untaken.read (Path.clean (ascii "/i/d/a")) = some text := htext
    have hmove : args.moves = [⟨Path.clean (ascii "/i/d/a"), Path.clean (ascii "/g/d/a.partial"),
        Path.clean (ascii "/g/d/a")⟩] := by decide
    rw [hmove]
    exact .brought [] _ [] text (.free [] _ (by decide)) (.stays [] _ text hhere not_clears_nil) not_clears_nil
  | skimmed => cases he

/-- With other bytes there the event finds those, and the run returns 0. -/
theorem conflict_migrated : ∃ fs' db', main id args (taken (ascii "other")) oneEvent = some (0, fs', db') ∧
    ¬Migrated args.cwd (taken (ascii "other")) fs' oneEvent db' := by
  refine ⟨_, _, rfl, fun h => ?_⟩
  obtain ⟨hone, -⟩ := List.forall₂_cons.mp (h .read)
  exact absurd (hone (by decide) (ascii "alpha") (by decide)) (by decide)

end Migrate

end VisitLogger
