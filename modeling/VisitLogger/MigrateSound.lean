import VisitLogger.Migrate

/-!
# What a migration does

A file is copied if its destination is free (`migrateFile_spec`), and a run of `main` that returns 0 has gone through
the files and rewritten the directories of all events below the source (`main_spec`).
-/

namespace VisitLogger

namespace Migrate

/-! ## What a path holds -/

variable {fs fs' : FS} {p q : Path}

theorem read_insert (fs : FS) (p q : Path) (e : Entry) :
    FS.read (fs.insert p e) q =
      if q = p then (match e with | .file content => some content | .dir => none) else fs.read q := by
  unfold FS.read
  by_cases hq : q = p
  · rw [hq, if_pos rfl, AList.lookup_insert]
    cases e <;> rfl
  · rw [if_neg hq, AList.lookup_insert_ne hq]

theorem read_erase (fs : FS) (p q : Path) : FS.read (fs.erase p) q = if q = p then none else fs.read q := by
  unfold FS.read
  by_cases hq : q = p
  · rw [hq, if_pos rfl, AList.lookup_erase]
  · rw [if_neg hq, AList.lookup_erase_ne hq]

theorem foldlM_invariant {σ α : Type*} {f : σ → α → Option σ} (Inv : σ → Prop)
    (hf : ∀ s a t, Inv s → f s a = some t → Inv t)
    (l : List α) {s t : σ} (hs : Inv s) (h : l.foldlM f s = some t) : Inv t := by
  induction l generalizing s with
  | nil =>
    cases h
    exact hs
  | cons a l ih =>
    rw [List.foldlM_cons] at h
    obtain ⟨u, hu, h⟩ := Option.bind_eq_some_iff.mp h
    exact ih (hf s a u hs hu) h

theorem read_mkdir (h : fs.mkdir p = some fs') (q : Path) : fs'.read q = fs.read q := by
  refine foldlM_invariant (fun fs₁ : FS => fs₁.read q = fs.read q) (fun fs₁ elems fs₂ hfs hstep => ?_) _ rfl h
  cases hl : fs₁.lookup { p with elems } with
  | none =>
    simp only [hl] at hstep
    cases hstep
    rw [read_insert]
    split
    · rename_i hq
      rw [← hfs, FS.read, hq, hl]
    · exact hfs
  | some e =>
    cases e with
    | file content =>
      simp only [hl] at hstep
      cases hstep
    | dir =>
      simp only [hl] at hstep
      cases hstep
      exact hfs

theorem copy2_spec {src dst : Path} (h : fs.copy2 src dst = some fs') :
    ∃ text, fs.read src = some text ∧ fs' = fs.insert dst (.file text) := by
  unfold FS.copy2 at h
  split at h
  · cases h
  cases hs : fs.read src with
  | none =>
    rw [hs] at h
    cases h
  | some text =>
    rw [hs] at h
    refine ⟨text, rfl, ?_⟩
    cases hd : fs.lookup dst with
    | none =>
      rw [hd] at h
      exact (Option.some.inj h).symm
    | some e =>
      rw [hd] at h
      cases e with
      | file content => exact (Option.some.inj h).symm
      | dir => cases h

theorem rename_spec {src dst : Path} (h : fs.rename src dst = some fs') :
    ∃ e, fs.lookup src = some e ∧ fs' = (fs.erase src).insert dst e := by
  unfold FS.rename at h
  cases hs : fs.lookup src with
  | none =>
    rw [hs] at h
    cases h
  | some e =>
    rw [hs] at h
    refine ⟨e, rfl, ?_⟩
    cases hd : fs.lookup dst with
    | none =>
      rw [hd] at h
      exact (Option.some.inj h).symm
    | some d =>
      rw [hd] at h
      cases d with
      | file content => exact (Option.some.inj h).symm
      | dir => cases h

/-! ## Copies -/

/-- **What happens to one file**: its destination is taken, or it is copied. -/
theorem migrateFile_spec {sha256 : Text → Text} {v : Visit} {b : Bool}
    (h : migrateFile sha256 false fs v = some (fs', b)) :
    (fs' = fs ∧ fs.read v.dstPath ≠ none) ∨
      (fs.read v.dstPath = none ∧ ∃ text, fs.read v.srcPath = some text ∧
        ∀ q, fs'.read q = if q = v.dstPath then some text else if q = v.tmp then none else fs.read q) := by
  unfold migrateFile at h
  by_cases hmem : v.dstPath ∈ fs
  · rw [if_pos hmem] at h
    obtain ⟨_, -, h⟩ := Option.bind_eq_some_iff.mp h
    obtain ⟨_, hdst, h⟩ := Option.bind_eq_some_iff.mp h
    obtain ⟨text, hread, -⟩ := Option.map_eq_some_iff.mp hdst
    cases h
    refine Or.inl ⟨rfl, ?_⟩
    rw [hread]
    nofun
  · rw [if_neg hmem, if_neg Bool.false_ne_true] at h
    obtain ⟨fs₁, hmkdir, h⟩ := Option.bind_eq_some_iff.mp h
    obtain ⟨fs₂, hcopy, h⟩ := Option.bind_eq_some_iff.mp h
    obtain ⟨_, -, h⟩ := Option.bind_eq_some_iff.mp h
    obtain ⟨_, -, h⟩ := Option.bind_eq_some_iff.mp h
    split at h
    · cases h
    obtain ⟨fs₃, hrename, h⟩ := Option.bind_eq_some_iff.mp h
    cases h
    obtain ⟨text, htext, rfl⟩ := copy2_spec hcopy
    obtain ⟨e, he, rfl⟩ := rename_spec hrename
    rw [AList.lookup_insert] at he
    cases he
    rw [read_mkdir hmkdir] at htext
    refine Or.inr ⟨?_, text, htext, fun q => ?_⟩
    · rw [FS.read, AList.lookup_eq_none.mpr hmem]
    · rw [read_insert, read_erase, read_insert, read_mkdir hmkdir]
      by_cases hdst : q = v.dstPath
      · rw [if_pos hdst, if_pos hdst]
      · rw [if_neg hdst, if_neg hdst]
        by_cases htmp : q = v.tmp
        · rw [if_pos htmp, if_pos htmp]
        · rw [if_neg htmp, if_neg htmp, if_neg htmp]

theorem migrateFiles_concat {sha256 : Text → Text} {dryRun : Bool} {visits : List Visit} {v : Visit} {n : Nat}
    (h : migrateFiles sha256 dryRun (visits ++ [v]) fs = some (fs', n)) :
    ∃ fs₁ n₁ b, migrateFiles sha256 dryRun visits fs = some (fs₁, n₁) ∧
      migrateFile sha256 dryRun fs₁ v = some (fs', b) := by
  rw [migrateFiles, List.foldlM_append] at h
  obtain ⟨⟨fs₁, n₁⟩, hfirst, h⟩ := Option.bind_eq_some_iff.mp h
  rw [List.foldlM_cons] at h
  obtain ⟨⟨fs₂, n₂⟩, hlast, h⟩ := Option.bind_eq_some_iff.mp h
  obtain ⟨⟨fs₃, b⟩, hfile, he⟩ := Option.map_eq_some_iff.mp hlast
  cases he
  cases h
  exact ⟨fs₁, n₁, b, hfirst, hfile⟩

/-! ## The events -/

theorem rewriteRow_eq (oldRoot newRoot : Text) (e : Event) :
    (if like (characters (withSlash oldRoot ++ ascii "%")) (characters e.directory) then
      { e with directory := replace e.directory (withSlash oldRoot) (withSlash newRoot) } else e) =
        { e with directory := newDirectory oldRoot newRoot e.directory } := by
  unfold newDirectory
  split <;> rfl

theorem events_rewriteDbDirectories (db : Db) (oldRoot newRoot : Text) (t : EventsTable) :
    (rewriteDbDirectories db oldRoot newRoot false).1.events t =
      (db.events t).map fun e => { e with directory := newDirectory oldRoot newRoot e.directory } := by
  have hmap : ∀ es : List Event, (Table.updateWhere
      (fun e => like (characters (withSlash oldRoot ++ ascii "%")) (characters e.directory))
      (fun e => { e with directory := replace e.directory (withSlash oldRoot) (withSlash newRoot) }) es).1 =
        es.map fun e => { e with directory := newDirectory oldRoot newRoot e.directory } := fun es =>
    List.map_congr_left fun e _ => rewriteRow_eq oldRoot newRoot e
  unfold rewriteDbDirectories
  rw [List.foldl_cons, List.foldl_cons, List.foldl_nil]
  simp only [Bool.false_eq_true, if_false, hmap, Db.events_setEvents]
  cases t <;> simp

/-- **What a run that returns 0 has done.** -/
theorem main_spec {sha256 : Text → Text} {a : Args} {db db' : Db} (hdry : a.dryRun = false)
    (h : main sha256 a fs db = some (0, fs', db')) :
    (∃ fs₁ n, fs₁.read = fs.read ∧ migrateFiles sha256 false a.visits fs₁ = some (fs', n)) ∧
      ∀ t, db'.events t = (db.events t).map fun e =>
        { e with directory := newDirectory a.src a.dst e.directory } := by
  unfold main at h
  split at h
  · cases h
  split at h
  · cases h
  rw [hdry, if_neg Bool.false_ne_true] at h
  obtain ⟨fs₁, hmkdir, h⟩ := Option.bind_eq_some_iff.mp h
  obtain ⟨⟨fs₂, n⟩, hfiles, h⟩ := Option.bind_eq_some_iff.mp h
  cases h
  exact ⟨⟨fs₁, n, funext (read_mkdir hmkdir), hfiles⟩, fun t => events_rewriteDbDirectories db a.src a.dst t⟩

end Migrate

end VisitLogger
