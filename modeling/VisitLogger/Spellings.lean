import VisitLogger.SealSound
import VisitLogger.SealerSound

/-!
# Spellings of a directory

`cli` takes a date, or any path of a directory. The path itself is a key of the events tables, and cleaned it gives
the date. So two spellings of a directory seal it alike iff the tables show its files alike under both, and both
end in the date or the date is sealed already (`seals_alike_iff`).
-/

namespace VisitLogger

/-! ## Walks -/

namespace Path

/-- `p` is a walk that forgets where it started, and `q` is the same walk from somewhere. -/
def Covers (p q : Path) : Prop :=
  ∃ names dots rest, (∀ n ∈ names, n ≠ dotdot) ∧ (∀ n ∈ dots, n = dotdot) ∧
    p.elems = names ++ dots ∧ q.elems = names ++ rest

theorem Covers.push {p q : Path} (h : p.Covers q) (hp : p.rooted = false) (c : Text) :
    (p.push c).Covers (q.push c) := by
  obtain ⟨names, dots, rest, hnames, hdots, hpe, hqe⟩ := h
  unfold Path.push
  by_cases hstay : c = [] ∨ c = ascii "."
  · rw [if_pos hstay, if_pos hstay]
    exact ⟨names, dots, rest, hnames, hdots, hpe, hqe⟩
  rw [if_neg hstay, if_neg hstay]
  by_cases hup : c = dotdot
  · rw [if_pos hup, if_pos hup, hpe, hqe, hp]
    cases names with
    | nil =>
      -- `p` goes above its start
      cases dots with
      | nil => exact ⟨[], [dotdot], _, nofun, by simp, rfl, rfl⟩
      | cons e es =>
        refine ⟨[], dotdot :: e :: es, _, nofun, fun n hn => (List.mem_cons.mp hn).elim id (hdots n), ?_, rfl⟩
        rw [List.nil_append]
        dsimp only
        rw [if_pos (hdots e (by simp))]
        rfl
    | cons e es =>
      have hne := hnames e (by simp)
      rw [List.cons_append, List.cons_append]
      dsimp only
      rw [if_neg hne, if_neg hne]
      exact ⟨es, dots, rest, fun n hn => hnames n (List.mem_cons_of_mem _ hn), hdots, rfl, rfl⟩
  · rw [if_neg hup, if_neg hup]
    refine ⟨c :: names, dots, rest, fun n hn => ?_, hdots, by rw [hpe]; rfl, by rw [hqe]; rfl⟩
    rcases List.mem_cons.mp hn with rfl | hn
    · exact hup
    · exact hnames n hn

theorem rooted_push (p : Path) (c : Text) : (p.push c).rooted = p.rooted := by
  unfold push
  split
  · rfl
  · split
    · split
      · split <;> rfl
      · split <;> rfl
    · rfl

theorem headD_join {s name : Text} (q : Path) (h : ((Path.mk false []).join s).elems.head? = some name)
    (hname : name ≠ dotdot) :
    (q.join s).elems.head? = some name := by
  have hcovers : ∀ (cs : List Text) (p q : Path), p.rooted = false → p.Covers q →
      (cs.foldl Path.push p).Covers (cs.foldl Path.push q) := by
    intro cs
    induction cs with
    | nil => exact fun _ _ _ h => h
    | cons c cs ih =>
      intro p q hp hpq
      exact ih _ _ ((rooted_push p c).trans hp) (hpq.push hp c)
  obtain ⟨names, dots, rest, -, hdots, hpe, hqe⟩ :=
    hcovers (s.splitOn slash) ⟨false, []⟩ q rfl ⟨[], [], q.elems, nofun, nofun, rfl, rfl⟩
  rw [join] at h ⊢
  rw [hpe] at h
  rw [hqe]
  cases names with
  | nil => exact absurd (hdots name (List.mem_of_mem_head? h)) hname
  | cons e es => exact h

end Path

namespace SnapshotSealer

open SnapshotMover (buildManifestRows lookupEvent listing manifestFilename manifestFiles isOrphan rowOf titleOf)

/-! ## The argument -/

/-- `_resolve_target` -/
def resolveTarget (icloudDir directoryArg : Text) : Text :=
  if directoryArg.head? = some slash ∨ slash ∈ directoryArg then directoryArg else osPathJoin icloudDir directoryArg

/-- The argument is a spelling of the date's directory in the archive. -/
def Spells (cwd : Path) (icloudDir date directoryArg : Text) : Prop :=
  located cwd (resolveTarget icloudDir directoryArg) = (located cwd icloudDir).child date

instance (cwd : Path) (icloudDir date directoryArg : Text) :
    Decidable (Spells cwd icloudDir date directoryArg) :=
  inferInstanceAs (Decidable (_ = _))

def targetOf (cwd : Path) (icloudDir directoryArg : Text) : Target :=
  let path := resolveTarget icloudDir directoryArg
  ⟨path, located cwd path = (located cwd icloudDir).child (Path.clean path).basename⟩

theorem Spells.base_eq {cwd : Path} {icloudDir date arg k : Text} (h : Spells cwd icloudDir date arg)
    (hk : extractDateKey (targetOf cwd icloudDir arg) = some k) : k = date := by
  obtain ⟨hbase, hdate⟩ := extractDateKey_eq_some hk
  have hdots : k ≠ dotdot := by
    rintro rfl
    exact absurd hdate (by decide)
  have hhead : (Path.clean (resolveTarget icloudDir arg)).elems.head? = some k := by
    have hbase : (Path.clean (resolveTarget icloudDir arg)).elems.headD [] = k := hbase
    cases he : (Path.clean (resolveTarget icloudDir arg)).elems with
    | nil =>
      rw [he] at hbase
      exact absurd hbase.symm hdate.ne_nil
    | cons e es =>
      rw [he] at hbase
      exact congrArg some hbase
  have hlocated : (located cwd (resolveTarget icloudDir arg)).elems.head? = some k := by
    unfold located
    split
    · exact hhead
    · rename_i hrel
      refine Path.headD_join cwd ?_ hdots
      have hclean : Path.clean (resolveTarget icloudDir arg) =
        (Path.mk false []).join (resolveTarget icloudDir arg) := by
        rw [Path.clean, beq_eq_false_iff_ne.mpr hrel]
      rw [← hclean]
      exact hhead
  rw [h] at hlocated
  exact (Option.some.inj hlocated).symm

theorem extractDateKey_spells {cwd : Path} {icloudDir date arg : Text} (h : Spells cwd icloudDir date arg)
    (hdate : fromisoformat date = true) :
    extractDateKey (targetOf cwd icloudDir arg) = if (targetOf cwd icloudDir arg).base =
      date then some date else none := by
  by_cases hbase : (targetOf cwd icloudDir arg).base = date
  · have hdateDir : dateDirRe date = true := by
      simp only [fromisoformat, Bool.and_eq_true, decide_eq_true_eq] at hdate
      have htake := (hdate.1.1.1.1.1.takeDate []).2
      rw [List.append_nil] at htake
      rw [dateDirRe, htake]
      rfl
    rw [if_pos hbase, extractDateKey, hbase, hdateDir, hdate]
    rfl
  · rw [if_neg hbase]
    cases hk : extractDateKey (targetOf cwd icloudDir arg) with
    | none => rfl
    | some k =>
      have hd := h.base_eq hk
      exact absurd ((extractDateKey_eq_some hk).1.trans hd) hbase

/-! ## The row of the date -/

def logStuck (s : Disk) (dir : Folder) (date : Text) : Bool :=
  match s.mac.logDir.lookup (logFilename date), dir.lookup (logFilename date) with
  | some (.dir _), some (.file _ _) => true
  | some _, some (.dir _) => logFilename date ∈ s.inner
  | _, _ => false

theorem db_setDir (s : Disk) (t : Target) (dir : Folder) : (s.setDir t dir).mac.db = s.mac.db := by
  unfold Disk.setDir
  split <;> rfl

theorem moveLog_db (s : Disk) (t : Target) (dir : Folder) (date : Text) :
    (SnapshotMover.moveLogIntoSealedDir s t dir date).1.mac.db = s.mac.db ∧
      (SnapshotMover.moveLogIntoSealedDir s t dir date).2 = !logStuck s dir date := by
  unfold SnapshotMover.moveLogIntoSealedDir logStuck
  dsimp only
  cases s.mac.logDir.lookup (logFilename date) with
  | none => exact ⟨rfl, rfl⟩
  | some src =>
    cases dir.lookup (logFilename date) with
    | none => exact ⟨db_setDir _ t _, by cases src <;> rfl⟩
    | some dst =>
      cases dst with
      | file mode content =>
        cases src with
        | file mode body => exact ⟨db_setDir _ t _, rfl⟩
        | dir mode => exact ⟨rfl, rfl⟩
      | dir mode =>
        dsimp only
        by_cases hin : logFilename date ∈ s.inner
        · rw [if_pos hin]
          exact ⟨rfl, by cases src <;> simp [hin]⟩
        · rw [if_neg hin]
          exact ⟨db_setDir _ t _, by cases src <;> simp [hin]⟩

theorem db_sealDirectory {o : Options} (hdry : o.dryRun = false) (s : Disk) (dir : Folder) :
    (SnapshotMover.sealDirectory o s dir).mac.db =
      match extractDateKey o.target with
      | none => s.mac.db
      | some date => if logStuck s dir date then s.mac.db else s.mac.db.upsertSnapshot date 1 := by
  unfold SnapshotMover.sealDirectory
  simp only [hdry, Bool.false_eq_true, if_false]
  cases extractDateKey o.target with
  | none => exact db_setDir s o.target _
  | some date =>
    dsimp only
    have hmanifest : logFilename date ≠ manifestFilename := fun he => by
      have hhead := congrArg List.head? he
      exact absurd hhead (by simp [logFilename, ascii, manifestFilename])
    have hstuck : logStuck (s.setDir o.target
      (SnapshotMover.writeManifestFile o.matchByFilename s.mac.db o.target.path dir))
        (SnapshotMover.writeManifestFile o.matchByFilename s.mac.db o.target.path dir) date =
          logStuck s dir date := by
      unfold logStuck
      rw [logDir_setDir, inner_setDir, lookup_writeManifestFile hmanifest]
    have hmove := moveLog_db
      (s.setDir o.target (SnapshotMover.writeManifestFile o.matchByFilename s.mac.db o.target.path dir)) o.target
      (SnapshotMover.writeManifestFile o.matchByFilename s.mac.db o.target.path dir) date
    rw [hstuck, db_setDir] at hmove
    generalize SnapshotMover.moveLogIntoSealedDir _ _ _ _ = r at hmove ⊢
    obtain ⟨s', ok⟩ := r
    obtain ⟨hdb, hok⟩ := hmove
    dsimp only at hdb hok
    cases hs : logStuck s dir date with
    | true =>
      rw [hs] at hok
      subst hok
      exact hdb
    | false =>
      rw [hs] at hok
      subst hok
      rw [← hdb]
      rfl

/-! ## The files -/

/-- What a manifest shows of the event that the tables have under a file name and a directory. -/
def shown (db : Db) (filename directory : Text) : Option (Text × Text × Text × Text) :=
  [EventsTable.read, EventsTable.skimmed].findSome? fun t =>
    ((db.events t).find? fun e => e.filename = filename && e.directory = directory).map fun e =>
      (t.tag, SnapshotMover.tsvSanitise e.timestamp, SnapshotMover.tsvSanitise e.url,
        SnapshotMover.tsvSanitise (titleOf db e.url))

theorem lookupEvent_shown (db : Db) (filename directory : Text) :
    (lookupEvent false db filename directory).map (fun info =>
      (info.tag, SnapshotMover.tsvSanitise info.timestamp, SnapshotMover.tsvSanitise info.url,
        SnapshotMover.tsvSanitise info.title)) = shown db filename directory := by
  have hfirst : ∀ t, (SnapshotMover.matching false db t filename directory).head? =
      (db.events t).find? fun e => e.filename = filename && e.directory = directory := by
    intro t
    rw [SnapshotMover.matching, List.head?_filter]
    simp
  unfold lookupEvent shown
  simp only [List.findSome?_cons, List.findSome?_nil, hfirst]
  cases (db.events .read).find? fun e => e.filename = filename && e.directory = directory with
  | some e => rfl
  | none => cases (db.events .skimmed).find? fun e => e.filename = filename && e.directory = directory <;> rfl

theorem lookupEvent_byName (db : Db) (filename p q : Text) :
    lookupEvent true db filename p = lookupEvent true db filename q := by
  unfold lookupEvent SnapshotMover.matching
  simp only [Bool.true_or]

theorem rowOf_eq_iff {db : Db} {f p q : Text} (hf : snapshotFilenameRe f ≠ none) :
    rowOf false db p f = rowOf false db q f ↔ shown db f p = shown db f q := by
  rw [rowOf, rowOf, if_neg hf, if_neg hf, ← lookupEvent_shown, ← lookupEvent_shown]
  cases lookupEvent false db f p with
  | none => cases lookupEvent false db f q <;> simp
  | some info => cases lookupEvent false db f q <;> simp

theorem isSome_rowOf {byName : Bool} {db : Db} {f p : Text} (hf : snapshotFilenameRe f ≠ none) :
    (rowOf byName db p f).isSome = !isOrphan byName db p f := by
  rw [rowOf, if_neg hf, isOrphan]
  cases lookupEvent byName db f p <;> simp [hf]

theorem filterMap_eq_iff {α β : Type*} {g h : α → Option β} :
    ∀ {l : List α}, (∀ a ∈ l, (g a).isSome = (h a).isSome) →
    (l.filterMap g = l.filterMap h ↔ ∀ a ∈ l, g a = h a)
  | [], _ => by simp
  | a :: l, hl => by
    have ih := filterMap_eq_iff fun b hb => hl b (List.mem_cons_of_mem _ hb)
    have ha := hl a (by simp)
    rw [List.filterMap_cons, List.filterMap_cons, List.forall_mem_cons, ← ih]
    cases hg : g a with
    | none =>
      cases hh : h a with
      | none => simp
      | some b => simp [hg, hh] at ha
    | some b =>
      cases hh : h a with
      | none => simp [hg, hh] at ha
      | some c => simp

theorem conforming_manifestFiles (p q : Text) (dir : SnapshotMover.Listing) :
    (manifestFiles p dir).filter (fun f => snapshotFilenameRe f ≠ none) =
      (manifestFiles q dir).filter fun f => snapshotFilenameRe f ≠ none := by
  have hkeep : ∀ path, ((manifestFiles path dir).filter fun f => snapshotFilenameRe f ≠ none).Perm
      ((dir.entries.filter fun e => snapshotFilenameRe e.1 ≠ none && e.1 ≠ manifestFilename &&
        !SnapshotMover.ignoredNames.contains e.1 && e.2).map Prod.fst) := by
    intro path
    refine ((SnapshotMover.manifestFiles.eq_1 path dir ▸ sortStrings_perm _).filter _).trans ?_
    rw [List.filter_map, List.filter_filter]
    refine .of_eq (congrArg _ (List.filter_congr fun e _ => ?_))
    by_cases hf : snapshotFilenameRe e.1 = none
    · simp [hf]
    · -- a conforming name is not that of the log
      have hlog : some e.1 ≠ if dateDirRe (Path.clean path).basename then
          some (logFilename (Path.clean path).basename) else none := by
        split
        · exact fun he => ne_logFilename hf _ (Option.some.inj he)
        · exact nofun
      simp [hf, hlog]
  have hsorted : ∀ path,
      ((manifestFiles path dir).filter fun f => snapshotFilenameRe f ≠ none).Pairwise (· ≤ ·) := fun path =>
    (sortStrings_sorted _).filter _
  exact ((hkeep p).trans (hkeep q).symm).eq_of_pairwise' (hsorted p) (hsorted q)

section
variable (byName : Bool) (db : Db) (dir : Folder)

def rows (path : Text) : List SnapshotMover.ManifestRow :=
  (buildManifestRows byName db [] path (listing dir) []).rows

def Orphan (path f : Text) : Prop := osPathJoin path f ∈
    (buildManifestRows byName db [] path (listing dir) []).currentOrphan

def Listed (path f : Text) : Prop := f ∈ manifestFiles path (listing dir) ∧ (rowOf byName db path f).isSome

def snapshots (path : Text) : List Text :=
  (manifestFiles path (listing dir)).filter fun f => snapshotFilenameRe f ≠ none

theorem mem_snapshots {path f : Text} :
    f ∈ snapshots dir path ↔ (f, true) ∈ (listing dir).entries ∧ snapshotFilenameRe f ≠ none := by
  unfold snapshots
  rw [List.mem_filter, decide_eq_true_eq]
  refine ⟨fun ⟨hf, hc⟩ => ⟨?_, hc⟩, fun ⟨hf, hc⟩ => ⟨mem_manifestFiles hc hf, hc⟩⟩
  obtain ⟨e, he, rfl⟩ := List.mem_map.mp (mem_sortStrings.mp hf)
  obtain ⟨he, hkeep⟩ := List.mem_filter.mp he
  have hfile : e.2 = true := by simp only [Bool.and_eq_true] at hkeep; exact hkeep.2
  rw [← hfile]
  exact he

theorem rows_eq (path : Text) : rows byName db dir path =
    (snapshots dir path).filterMap (rowOf byName db path) := by
  unfold rows snapshots
  rw [(SnapshotMover.buildManifestRows_eq ..).1, List.filterMap_filter]
  refine List.filterMap_congr fun f _ => ?_
  unfold rowOf
  by_cases hf : snapshotFilenameRe f = none <;> simp [hf]

theorem orphan_iff {path f : Text} (hf : slash ∉ f) :
    Orphan byName db dir path f ↔ f ∈ snapshots dir path ∧ isOrphan byName db path f = true := by
  unfold Orphan snapshots
  rw [(SnapshotMover.buildManifestRows_eq ..).2, List.mem_map]
  constructor
  · intro h
    obtain ⟨g, hg, hj⟩ := h
    obtain ⟨hg, horphan⟩ := List.mem_filter.mp hg
    obtain ⟨e, he, rfl⟩ := List.mem_map.mp (mem_sortStrings.mp hg)
    obtain rfl := osPathJoin_inj ((listing dir).noSlash e (List.mem_filter.mp he).1) hf hj
    have hconform : snapshotFilenameRe e.1 ≠ none := by
      intro hnone
      simp [isOrphan, hnone] at horphan
    exact ⟨List.mem_filter.mpr ⟨hg, decide_eq_true hconform⟩, horphan⟩
  · intro h
    obtain ⟨hg, horphan⟩ := h
    exact ⟨f, List.mem_filter.mpr ⟨(List.mem_filter.mp hg).1, horphan⟩, rfl⟩

end

/-! ## Two spellings -/

section
variable {byName : Bool} {s : Disk} {dir : Folder} {date : Text} {t u : Target}

/-- Sealing a directory under two paths writes the same rows, sets the same row of its date, and lists under
neither path an orphan of the other. -/
structure Alike (byName : Bool) (s : Disk) (dir : Folder) (date : Text) (t u : Target) : Prop where
  rows : rows byName s.mac.db dir t.path = SnapshotSealer.rows byName s.mac.db dir u.path
  date : (SnapshotMover.sealDirectory ⟨t, false, byName, true⟩ s dir).mac.db.sealedOf date =
    (SnapshotMover.sealDirectory ⟨u, false, byName, true⟩ s dir).mac.db.sealedOf date
  orphans : ∀ e ∈ (listing dir).entries,
    ¬(Orphan byName s.mac.db dir t.path e.1 ∧ Listed byName s.mac.db dir u.path e.1) ∧
    ¬(Orphan byName s.mac.db dir u.path e.1 ∧ Listed byName s.mac.db dir t.path e.1)

theorem snapshots_eq (p q : Text) (dir : Folder) : snapshots dir p = snapshots dir q :=
  conforming_manifestFiles p q (listing dir)

theorem orphan_iff_notListed {db : Db} {path f : Text} (hf : f ∈ snapshots dir path) :
    Orphan byName db dir path f ↔ ¬Listed byName db dir path f := by
  obtain ⟨hin, hconform⟩ := (mem_snapshots dir).mp hf
  rw [orphan_iff byName db dir ((listing dir).noSlash (f, true) hin), Listed, isSome_rowOf hconform]
  simp [hf, mem_manifestFiles hconform hin]

/-- Rows and orphans agree iff each file has the same row under both paths. -/
theorem alike_rows_iff {db : Db} {p q : Text} :
    (rows byName db dir p = rows byName db dir q ∧
        ∀ e ∈ (listing dir).entries, ¬(Orphan byName db dir p e.1 ∧ Listed byName db dir q e.1) ∧
          ¬(Orphan byName db dir q e.1 ∧ Listed byName db dir p e.1)) ↔
      ∀ f ∈ snapshots dir p, rowOf byName db p f = rowOf byName db q f := by
  have hlisted : ∀ path, ∀ f ∈ snapshots dir path,
      (Listed byName db dir path f ↔ (rowOf byName db path f).isSome = true) := by
    intro path f hf
    obtain ⟨hin, hconform⟩ := (mem_snapshots dir).mp hf
    exact and_iff_right (mem_manifestFiles hconform hin)
  rw [rows_eq, rows_eq, snapshots_eq q p dir]
  constructor
  · intro ⟨hrows, horphans⟩
    refine (filterMap_eq_iff fun f hf => ?_).mp hrows
    have hq := snapshots_eq p q dir ▸ hf
    obtain ⟨h₁, h₂⟩ := horphans (f, true) ((mem_snapshots dir).mp hf).1
    rw [orphan_iff_notListed hf, hlisted p f hf, hlisted q f hq] at h₁
    rw [orphan_iff_notListed hq, hlisted p f hf, hlisted q f hq] at h₂
    rw [Bool.eq_iff_iff]
    tauto
  · intro h
    refine ⟨(filterMap_eq_iff fun f hf => congrArg Option.isSome (h f hf)).mpr h, fun e he => ?_⟩
    have hno : ∀ path path', (∀ f ∈ snapshots dir path, rowOf byName db path f = rowOf byName db path' f) →
        ¬(Orphan byName db dir path e.1 ∧ Listed byName db dir path' e.1) := by
      intro path path' hsame ⟨horphan, hlist⟩
      obtain ⟨hf, -⟩ := (orphan_iff byName db dir ((listing dir).noSlash e he)).mp horphan
      refine (orphan_iff_notListed hf).mp horphan ((hlisted path e.1 hf).mpr ?_)
      rw [hsame e.1 hf]
      exact hlist.2
    exact ⟨hno p q h, hno q p fun f hf => (h f (snapshots_eq q p dir ▸ hf)).symm⟩

theorem sealedOf_seal {cwd : Path} {icloudDir arg : Text} (h : Spells cwd icloudDir date arg)
    (hdate : fromisoformat date = true) :
    (SnapshotMover.sealDirectory ⟨targetOf cwd icloudDir arg, false, byName, true⟩ s dir).mac.db.sealedOf date =
      if (targetOf cwd icloudDir arg).base = date ∧
        logStuck s dir date = false then some 1 else s.mac.db.sealedOf date := by
  rw [db_sealDirectory rfl, extractDateKey_spells h hdate]
  by_cases hbase : (targetOf cwd icloudDir arg).base = date
  · rw [if_pos hbase]
    dsimp only
    cases logStuck s dir date with
    | true => simp
    | false =>
      rw [if_neg Bool.false_ne_true, if_pos ⟨hbase, rfl⟩]
      exact Db.sealedOf_upsertSnapshot_self _ _ _
  · rw [if_neg hbase, if_neg fun h => hbase h.1]

/-- **Two spellings of a directory seal it alike iff** both end in its date, or neither, or the date is sealed
already, or its log cannot be moved; and the tables show each conforming file alike under the one text and the
other, unless the file name alone counts. -/
theorem seals_alike_iff {cwd : Path} {icloudDir arg arg' : Text} (hdate : fromisoformat date = true)
    (h : Spells cwd icloudDir date arg) (h' : Spells cwd icloudDir date arg') :
    Alike byName s dir date (targetOf cwd icloudDir arg) (targetOf cwd icloudDir arg') ↔
      (((targetOf cwd icloudDir arg).base = date ↔ (targetOf cwd icloudDir arg').base = date) ∨
          s.mac.db.sealedOf date = some 1 ∨ logStuck s dir date = true) ∧
        (byName = true ∨ ∀ f, (f, true) ∈ (listing dir).entries → snapshotFilenameRe f ≠ none →
          shown s.mac.db f (targetOf cwd icloudDir arg).path =
            shown s.mac.db f (targetOf cwd icloudDir arg').path) := by
  have hfiles : (byName = true ∨ ∀ f, (f, true) ∈ (listing dir).entries → snapshotFilenameRe f ≠ none →
      shown s.mac.db f (targetOf cwd icloudDir arg).path =
        shown s.mac.db f (targetOf cwd icloudDir arg').path) ↔
        ∀ f ∈ snapshots dir (targetOf cwd icloudDir arg).path,
          rowOf byName s.mac.db (targetOf cwd icloudDir arg).path f =
            rowOf byName s.mac.db (targetOf cwd icloudDir arg').path f := by
    cases byName with
    | true =>
      refine iff_of_true (Or.inl rfl) fun f _ => ?_
      rw [rowOf, rowOf, lookupEvent_byName]
    | false =>
      rw [or_iff_right Bool.false_ne_true]
      constructor
      · intro hsame f hf
        obtain ⟨hin, hconform⟩ := (mem_snapshots dir).mp hf
        exact (rowOf_eq_iff hconform).mpr (hsame f hin hconform)
      · intro hsame f hin hconform
        exact (rowOf_eq_iff hconform).mp (hsame f ((mem_snapshots dir).mpr ⟨hin, hconform⟩))
  have hdated : (SnapshotMover.sealDirectory ⟨targetOf cwd icloudDir arg, false, byName,
    true⟩ s dir).mac.db.sealedOf date =
        (SnapshotMover.sealDirectory ⟨targetOf cwd icloudDir arg', false, byName,
          true⟩ s dir).mac.db.sealedOf date ↔
      ((targetOf cwd icloudDir arg).base = date ↔ (targetOf cwd icloudDir arg').base = date) ∨
        s.mac.db.sealedOf date = some 1 ∨ logStuck s dir date = true := by
    rw [sealedOf_seal h hdate, sealedOf_seal h' hdate]
    cases logStuck s dir date with
    | true => simp
    | false =>
      by_cases hbase : (targetOf cwd icloudDir arg).base = date
      · by_cases hbase' : (targetOf cwd icloudDir arg').base = date
        · simp [hbase, hbase']
        · simp [hbase, hbase', eq_comm]
      · by_cases hbase' : (targetOf cwd icloudDir arg').base = date <;> simp [hbase, hbase']
  rw [hfiles, ← alike_rows_iff, ← hdated]
  exact ⟨fun a => ⟨a.date, a.rows, a.orphans⟩, fun a => ⟨a.2.1, a.1, a.2.2⟩⟩

end

/-! ## A slash at the end -/

def someDate : Text := ascii "2024-05-01"

def oneSnapshot : Folder := AList.insert someSnapshot (.file 0o444 []) ∅

def oneArchived : Disk where
  mac := ⟨∅, ∅, AList.insert someDate (.folder oneSnapshot) ∅,
    { Db.empty [] with
      readEvents := [⟨ascii "https://a.example/", ascii "2024-05-01T12:00:00Z", someSnapshot,
        ascii "/c/2024-05-01"⟩] }⟩
  elsewhere := none
  inner := ∅

def noEvent : Disk := { oneArchived with mac := { oneArchived.mac with db := Db.empty [] } }

/-- Under the date and under a path from a directory of the archive, a snapshot is an orphan where it has no event;
looked up by its name alone it has its row under both. -/
theorem date_and_path_alike :
    Alike false noEvent oneSnapshot someDate (targetOf ⟨true, [ascii "x", ascii "c"]⟩ (ascii "/c") (ascii "2024-05-01"))
        (targetOf ⟨true, [ascii "x", ascii "c"]⟩ (ascii "/c") (ascii "../2024-05-01")) ∧
      Alike true oneArchived oneSnapshot someDate
        (targetOf ⟨true, [ascii "x", ascii "c"]⟩ (ascii "/c") (ascii "2024-05-01"))
        (targetOf ⟨true, [ascii "x", ascii "c"]⟩ (ascii "/c") (ascii "../2024-05-01")) :=
  ⟨(seals_alike_iff (by decide) (by decide) (by decide)).mpr ⟨Or.inl (by decide), Or.inr fun _ _ _ => rfl⟩,
    (seals_alike_iff (by decide) (by decide) (by decide)).mpr ⟨Or.inl (by decide), Or.inl rfl⟩⟩

/-- Under the path with a slash at the end the snapshot is an orphan. -/
theorem slash_makes_orphan :
    Spells ⟨true, []⟩ (ascii "/c") someDate (ascii "/c/2024-05-01/") ∧
      ¬Alike false oneArchived oneSnapshot someDate (targetOf ⟨true, []⟩ (ascii "/c") (ascii "2024-05-01"))
        (targetOf ⟨true, []⟩ (ascii "/c") (ascii "/c/2024-05-01/")) := by
  refine ⟨by decide, fun h => ?_⟩
  have hrows := h.rows
  revert hrows
  decide

end SnapshotSealer

end VisitLogger
