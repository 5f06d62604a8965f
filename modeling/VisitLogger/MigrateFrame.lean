import VisitLogger.MigrateSound
import VisitLogger.Moves

/-!
# What a migration does to the files that are there

A copy goes by way of `<name>.partial` in the directory that it goes to, and nothing keeps a file from having that
name. `migrates_iff` says when no file is lost to it: one that was there before, or one that has been copied.
-/

namespace VisitLogger

namespace Migrate

open Moves

/-! ## The files of a tree -/

def below (root : Path) (rel : List Text) (fn : Text) : Path := (rel.foldl Path.child root).child fn

theorem foldl_child (root : Path) (rel : List Text) :
    rel.foldl Path.child root = ⟨root.rooted, rel.reverse ++ root.elems⟩ := by
  induction rel generalizing root with
  | nil => rfl
  | cons c rel ih => rw [List.foldl_cons, ih, List.reverse_cons, List.append_assoc]; rfl

theorem below_inj {root : Path} {rel rel' : List Text} {fn fn' : Text} :
    below root rel fn = below root rel' fn' ↔ rel = rel' ∧ fn = fn' := by
  rw [below, below, Path.child_inj, foldl_child, foldl_child, Path.mk.injEq,
    List.append_cancel_right_eq, List.reverse_inj]
  simp

/-- What `os.walk` yields: it comes to a directory once, and the directory has a name once. -/
structure IsWalk (walk : List (List Text × List Text)) : Prop where
  dirs : (walk.map Prod.fst).Nodup
  files : ∀ d ∈ walk, d.2.Nodup

def visitsOf (src dst : Path) (walk : List (List Text × List Text)) : List Visit :=
  walk.flatMap fun (rel, files) => files.map (Visit.mk (rel.foldl Path.child src) (rel.foldl Path.child dst))

/-- A copy goes by way of its `.partial`. -/
def Visit.move (v : Visit) : Move Path := ⟨v.srcPath, v.tmp, v.dstPath⟩

def moves (src dst : Path) (walk : List (List Text × List Text)) : List (Move Path) :=
  (visitsOf src dst walk).map Visit.move

variable {fs fs' : FS} {src dst : Path} {walk : List (List Text × List Text)}

theorem mem_moves {m : Move Path} :
    m ∈ moves src dst walk ↔ ∃ rel files fn, (rel, files) ∈ walk ∧ fn ∈ files ∧
      m = ⟨below src rel fn, below dst rel (fn ++ ascii ".partial"), below dst rel fn⟩ := by
  simp only [moves, visitsOf, List.mem_map, List.mem_flatMap]
  constructor
  · rintro ⟨_, ⟨⟨rel, files⟩, hdir, fn, hfn, rfl⟩, rfl⟩
    exact ⟨rel, files, fn, hdir, hfn, rfl⟩
  · rintro ⟨rel, files, fn, hdir, hfn, rfl⟩
    exact ⟨_, ⟨(rel, files), hdir, fn, hfn, rfl⟩, rfl⟩

theorem nodup_moves (h : IsWalk walk) : ((moves src dst walk).map Move.dst).Nodup := by
  have hdst : (moves src dst walk).map Move.dst = walk.flatMap fun d => d.2.map (below dst d.1) := by
    simp only [moves, visitsOf, List.map_flatMap, List.map_map]
    rfl
  rw [hdst, List.nodup_flatMap]
  refine ⟨fun d hd => (h.files d hd).map fun fn fn' heq => (below_inj.mp heq).2, ?_⟩
  refine (List.pairwise_map.mp h.dirs).imp fun hne => ?_
  intro p hp hp'
  obtain ⟨fn, -, rfl⟩ := List.mem_map.mp hp
  obtain ⟨fn', -, heq⟩ := List.mem_map.mp hp'
  exact hne (below_inj.mp heq).1.symm

theorem tmp_ne_dst {m : Move Path} (h : m ∈ moves src dst walk) : m.tmp ≠ m.dst := by
  obtain ⟨rel, files, fn, -, -, rfl⟩ := mem_moves.mp h
  intro heq
  have hfn := List.append_right_eq_self.mp (below_inj.mp heq).2
  revert hfn
  decide

/-! ## The pass as moves -/

/-- **The copies are moves**, each with something to move. -/
theorem migrateFiles_run {sha256 : Text → Text} {visits : List Visit} {n : Nat}
    (h : migrateFiles sha256 false visits fs = some (fs', n)) :
    fs'.read = run fs.read (visits.map Visit.move) ∧ Finds fs.read (visits.map Visit.move) := by
  induction visits using List.reverseRecOn generalizing fs' n with
  | nil =>
    cases h
    refine ⟨rfl, fun before m after hsplit => ?_⟩
    exact absurd hsplit.symm (List.append_ne_nil_of_right_ne_nil before (List.cons_ne_nil m after))
  | append_singleton visits v ih =>
    obtain ⟨fs₁, n₁, b, hfirst, hfile⟩ := migrateFiles_concat h
    obtain ⟨hbefore, hfinds⟩ := ih hfirst
    rw [List.map_append, List.map_singleton]
    obtain ⟨rfl, htaken⟩ | ⟨hfree, text, htext, hafter⟩ := migrateFile_spec hfile
    · rw [hbefore] at htaken
      refine ⟨by rw [run_taken (m := v.move) htaken, hbefore], fun before m after hsplit hnone => ?_⟩
      obtain ⟨rfl, rfl, -⟩ | ⟨rest, hsplit, -⟩ := concat_eq_split.mp hsplit
      · exact absurd hnone htaken
      · exact hfinds before m rest hsplit hnone
    · rw [hbefore] at hfree htext hafter
      refine ⟨funext fun q => ?_, fun before m after hsplit hnone => ?_⟩
      · rw [run_free (m := v.move) hfree, hafter, ← htext]
        rfl
      · obtain ⟨rfl, rfl, -⟩ | ⟨rest, hsplit, -⟩ := concat_eq_split.mp hsplit
        · rw [Visit.move, htext]
          exact Option.some_ne_none text
        · exact hfinds before m rest hsplit hnone

/-! ## What is there afterwards -/

/-- The files that were there are unchanged, and those that were missing have been copied. -/
structure Migrates (fs fs' : FS) (src dst : Path) : Prop where
  unchanged : ∀ rel fn text, fs.read (below dst rel fn) = some text → fs'.read (below dst rel fn) = some text
  copied : ∀ rel fn text, fs.read (below src rel fn) = some text → below dst rel fn ∉ fs →
    fs'.read (below dst rel fn) = some text

structure NoClash (fs : FS) (src dst : Path) (walk : List (List Text × List Text)) : Prop where
  listed : ∀ rel fn, fs.read (below src rel fn) ≠ none → below dst rel fn ∉ fs →
    ∃ files, (rel, files) ∈ walk ∧ fn ∈ files
  restored : Restores fs.read (moves src dst walk)
  spared : ∀ before u after, moves src dst walk = before ++ u :: after → IsMade fs.read before u →
    ∀ k ∈ before, fs.read k.src ≠ none → k.dst ∉ fs → u.tmp ≠ k.dst

theorem read_of_notMem {p : Path} (h : p ∉ fs) : fs.read p = none := by
  rw [FS.read, AList.lookup_eq_none.mpr h]

theorem keeps_of_unchanged (hrun : fs'.read = run fs.read (moves src dst walk)) (h : Migrates fs fs' src dst)
    (q : Path) (text : Text) (hq : fs.read q = some text) : run fs.read (moves src dst walk) q = some text := by
  by_cases htree : ∃ rel fn, q = below dst rel fn
  · obtain ⟨rel, fn, rfl⟩ := htree
    rw [← hrun]
    exact h.unchanged rel fn text hq
  · rw [run_untouched fun m hm => ?_, hq]
    obtain ⟨rel, files, fn, -, -, rfl⟩ := mem_moves.mp hm
    exact ⟨fun heq => htree ⟨rel, fn, heq⟩, fun heq => htree ⟨rel, fn ++ ascii ".partial", heq⟩⟩

theorem listed_of_copied (hnodup : ((moves src dst walk).map Move.dst).Nodup) {rel : List Text} {fn text : Text}
    (hfree : below dst rel fn ∉ fs) (h : run fs.read (moves src dst walk) (below dst rel fn) = some text) :
    ∃ files, (rel, files) ∈ walk ∧ fn ∈ files := by
  by_cases hmem : ∃ m ∈ moves src dst walk, m.dst = below dst rel fn
  · obtain ⟨m, hm, hdst⟩ := hmem
    obtain ⟨rel', files, fn', hdir, hfn, rfl⟩ := mem_moves.mp hm
    obtain ⟨rfl, rfl⟩ := below_inj.mp hdst
    exact ⟨files, hdir, hfn⟩
  · have hstays := run_not_dst (s := fs.read) hnodup fun m hm hdst => hmem ⟨m, hm, hdst⟩
    rw [h] at hstays
    exact absurd (hstays.elim (fun h => h.trans (read_of_notMem hfree)) id) (Option.some_ne_none text)

/-- **The files are all there afterwards** iff no file is in the way of the copies. -/
theorem migrates_iff {sha256 : Text → Text} {n : Nat} (hwalk : IsWalk walk)
    (h : migrateFiles sha256 false (visitsOf src dst walk) fs = some (fs', n)) :
    Migrates fs fs' src dst ↔ NoClash fs src dst walk := by
  obtain ⟨hrun, hfinds⟩ := migrateFiles_run h
  change fs'.read = run fs.read (moves src dst walk) at hrun
  change Finds fs.read (moves src dst walk) at hfinds
  have hnodup : ((moves src dst walk).map Move.dst).Nodup := nodup_moves hwalk
  have hkeeps := keeps_iff hnodup (fun m hm => tmp_ne_dst hm) hfinds
  constructor
  · intro hmigrates
    have hall := keeps_of_unchanged hrun hmigrates
    refine ⟨fun rel fn hsrc hfree => ?_, hkeeps.mp hall, fun before u after hsplit hmade k hk hsrc hfree => ?_⟩
    · obtain ⟨text, hsrc⟩ := Option.ne_none_iff_exists'.mp hsrc
      have hcopied := hmigrates.copied rel fn text hsrc hfree
      rw [hrun] at hcopied
      exact listed_of_copied hnodup hfree hcopied
    · have hmem : k ∈ moves src dst walk := hsplit ▸ List.mem_append_left _ hk
      obtain ⟨text, hsrc⟩ := Option.ne_none_iff_exists'.mp hsrc
      have harrives := arrives_iff hnodup hfinds hall hmem hsrc (read_of_notMem hfree)
      refine harrives.mp ?_ before u after hsplit hmade hk
      obtain ⟨rel, files, fn, -, -, rfl⟩ := mem_moves.mp hmem
      rw [← hrun]
      exact hmigrates.copied rel fn text hsrc hfree
  · intro hclash
    have hall := hkeeps.mpr hclash.restored
    refine ⟨fun rel fn text hq => hrun ▸ hall _ text hq, fun rel fn text hsrc hfree => ?_⟩
    have hthere : fs.read (below src rel fn) ≠ none := by
      rw [hsrc]
      exact Option.some_ne_none text
    obtain ⟨files, hdir, hfn⟩ := hclash.listed rel fn hthere hfree
    have hmem : _ ∈ moves src dst walk := mem_moves.mpr ⟨rel, files, fn, hdir, hfn, rfl⟩
    have harrives := arrives_iff hnodup hfinds hall hmem hsrc (read_of_notMem hfree)
    rw [hrun]
    exact harrives.mpr fun before u after hsplit hmade hk =>
      hclash.spared before u after hsplit hmade _ hk hthere hfree

/-! ## A file that is named like a temporary one -/

def archive : Path := Path.clean (ascii "/i")

def drive : Path := Path.clean (ascii "/g")

def twoFiles (other : Text) : FS :=
  [(ascii "/i", Entry.dir), (ascii "/i/d", .dir), (ascii "/i/d/a", .file (ascii "alpha")),
    (ascii "/i/d/" ++ other, .file (ascii "beta")),
      (ascii "/g", .dir)].foldl (fun fs e => fs.insert (Path.clean e.1) e.2) ∅

def twoWalk (other : Text) : List (List Text × List Text) := [([], []), ([ascii "d"], [other, ascii "a"])]

theorem twoWalk_isWalk (other : Text) (h : other ≠ ascii "a") : IsWalk (twoWalk other) := by
  refine ⟨(by decide : ([[], [ascii "d"]] : List (List Text)).Nodup), fun d hd => ?_⟩
  rcases List.mem_cons.mp hd with rfl | hd
  · exact List.nodup_nil
  · rw [List.mem_singleton.mp hd]
    simp [h]

theorem migrates_iff_two_files : ∃ fs' n,
    migrateFiles id false (visitsOf archive drive (twoWalk (ascii "b"))) (twoFiles (ascii "b")) =
      some (fs', n) ∧
    (Migrates (twoFiles (ascii "b")) fs' archive drive ↔
      NoClash (twoFiles (ascii "b")) archive drive (twoWalk (ascii "b"))) :=
  ⟨_, _, rfl, migrates_iff (twoWalk_isWalk (ascii "b") (by decide))
    (rfl : migrateFiles id false (visitsOf archive drive (twoWalk (ascii "b"))) (twoFiles (ascii "b")) = _)⟩

/-- The copy of `a.partial` is written over, and renamed to `a`. -/
theorem partial_lost : IsWalk (twoWalk (ascii "a.partial")) ∧ ∃ fs' n,
    migrateFiles id false (visitsOf archive drive (twoWalk (ascii "a.partial")))
      (twoFiles (ascii "a.partial")) = some (fs', n) ∧
    ¬ Migrates (twoFiles (ascii "a.partial")) fs' archive drive := by
  refine ⟨twoWalk_isWalk (ascii "a.partial") (by decide), _, _, rfl, fun h => ?_⟩
  exact absurd (h.copied [ascii "d"] (ascii "a.partial") (ascii "beta") (by decide) (by decide)) (by decide)

end Migrate

end VisitLogger
