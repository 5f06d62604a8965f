import VisitLogger.Rehydrate
import VisitLogger.Runs
import VisitLogger.Seal

/-!
# Runs of the server's seal pass

`seal_completed_days` takes the completed days without a manifest and gives each
to `_seal_directory`. Here it goes step by step: between any two steps files can
arrive in the archive and rows in the canonical database, a call can fail, and
the run can be killed.
-/

namespace VisitLogger

namespace SnapshotMover

/-! ## The text of a manifest -/

def manifestHeader : List Text := [ascii "filename", ascii "tag", ascii "timestamp", ascii "url", ascii "title"]

def ManifestRow.fields (r : ManifestRow) : List Text := [r.filename, r.tag, r.timestamp, r.url, r.title]

def manifestText (rows : List ManifestRow) : Text :=
  tsvText manifestHeader ManifestRow.fields rows

/-! ## Directories -/

/-- A file arrives. A name that is there keeps its entry. -/
def Listing.add (l : Listing) (name : Text) (isFile : Bool) : Listing :=
  if h : slash ∈ name then l
  else
    { entries := (Table.insertOrIgnore Prod.fst (name, isFile) l.entries).1
      noSlash := fun e he => by
        rcases (Table.mem_insertOrIgnore Prod.fst).mp he with he | ⟨rfl, -⟩
        · exact l.noSlash e he
        · exact h }

end SnapshotMover

namespace SealCompletedDays

open SnapshotMover

/-- A directory of the archive: its manifest, and what else it holds. -/
structure DayDir where
  dir : Listing
  manifest : Option Text

/-- Where `_seal_directory` is: the call it makes next. -/
inductive Phase where
  | manifest
  | list
  | lookup (files : List Text) (rows : List ManifestRow)
  | openFile (rows : List ManifestRow)
  | write (rest : Text)
  | chmod
  | moveLog
  | chmodLog
  | upsert
  | commit
  | clear
  deriving DecidableEq, Repr

/-- A run: the directories from the current one on, where it is in that, and the
transaction of its connection, if one is open. -/
structure Run where
  todo : List Text
  phase : Phase
  tx : Option Db

/-- The archive, the names in `LOG_DIR`, the canonical database, and the run under way. -/
structure State where
  days : AList fun _ : Text => DayDir
  logDir : List Text
  db : Db
  run : Option Run

structure Config where
  root : Text
  matchByFilenameOnly : Bool

/-- `recorded` says whether the statements on `mover_errors` that a step makes, and
their commit, go through. -/
inductive Act where
  | mkdir (name : Text)
  | file (day name : Text) (isFile : Bool)
  | log (name : Text)
  | row (o : Op)
  | start (today : Text)
  | next (recorded : Bool)
  | write (n : Nat)
  | fail (recorded : Bool)
  | kill
  | finish

def candidates (days : AList fun _ : Text => DayDir) (today : Text) : List Text :=
  (sortStrings days.keys).filter fun name =>
    dateDirRe name && name < today && ((days.lookup name).bind DayDir.manifest).isNone

def State.now (s : State) (r : Run) : Db := r.tx.getD s.db

def State.goOn (s : State) (r : Run) (phase : Phase) : State := { s with run := some { r with phase } }

/-- A commit takes along whatever was executed before it. -/
def State.commit (s : State) (r : Run) (phase : Phase) : State :=
  { s with db := s.now r, run := some { r with phase, tx := none } }

def State.record (s : State) (r : Run) (recorded : Bool) (phase : Phase) : State :=
  if recorded then s.commit r phase else s.goOn r phase

def State.setManifest (s : State) (name : Text) (d : DayDir) (manifest : Option Text) : State :=
  { s with days := s.days.insert name { d with manifest } }

/-- The next call of `_seal_directory` succeeds. -/
def State.next (cfg : Config) (s : State) (r : Run) (name : Text) (rest : List Text) (d : DayDir)
    (recorded : Bool) : State :=
  let dateSubdir := osPathJoin cfg.root name
  match r.phase with
  | .manifest => (s.setManifest name d none).goOn r .list
  | .list => s.goOn r (.lookup (manifestFiles dateSubdir d.dir) [])
  | .lookup (f :: files) rows =>
    match rowOf cfg.matchByFilenameOnly (s.now r) dateSubdir f with
    | some row => s.goOn r (.lookup files (rows ++ [row]))
    -- the file goes to mover_errors
    | none => s.record r recorded (.lookup files rows)
  -- the error rows are reconciled
  | .lookup [] rows => s.record r recorded (.openFile rows)
  | .openFile rows => (s.setManifest name d (some [])).goOn r (.write (manifestText rows))
  | .write text => (s.setManifest name d (some (d.manifest.getD [] ++ text))).goOn r .chmod
  | .chmod => s.goOn r .moveLog
  | .moveLog =>
    if logFilename name ∈ s.logDir then
      { s with
        logDir := s.logDir.filter (· ≠ logFilename name)
        days := s.days.insert name { d with dir := d.dir.add (logFilename name) true } }.goOn r .chmodLog
    else s.goOn r .upsert
  | .chmodLog => s.goOn r .upsert
  | .upsert => s.goOn { r with tx := some ((s.now r).upsertSnapshot name 1) } .commit
  | .commit => s.commit r .clear
  | .clear => s.record { r with todo := rest } recorded .manifest

def step (cfg : Config) (s : State) : Act → Option State
  | .mkdir name => if name ∈ s.days then none else some { s with days := s.days.insert name ⟨⟨[], nofun⟩, none⟩ }
  | .file day name isFile =>
    -- only the seal pass makes manifests
    if name = manifestFilename then none
    else (s.days.lookup day).map fun d =>
      { s with days := s.days.insert day { d with dir := d.dir.add name isFile } }
  | .log name => some { s with logDir := name :: s.logDir }
  | .row o =>
    -- a push waits for the write lock
    if (s.run.bind Run.tx).isSome then none else some { s with db := s.db.apply o }
  | .start today =>
    match s.run with
    | some _ => none
    | none => some { s with run := some ⟨candidates s.days today, .manifest, none⟩ }
  | .next recorded => do
    let r ← s.run
    match r.todo with
    | [] => none
    | name :: rest => (s.days.lookup name).map fun d => s.next cfg r name rest d recorded
  | .write n => do
    let r ← s.run
    match r.todo, r.phase with
    | name :: _, .write text =>
      (s.days.lookup name).map fun d =>
        (s.setManifest name d (some (d.manifest.getD [] ++ text.take n))).goOn r (.write (text.drop n))
    | _, _ => none
  | .fail recorded => do
    let r ← s.run
    match r.todo, r.phase with
    | [], _ => none
    | _, .clear => none
    | _ :: rest, _ => some (s.record { r with todo := rest } recorded .manifest)
  | .kill => s.run.map fun _ => { s with run := none }
  | .finish => do
    let r ← s.run
    if r.todo = [] then some { s with run := none } else none

def State.init (defaultDirectory : Text) : State := ⟨∅, [], .empty defaultDirectory, none⟩

/-- The steps of a history in which runs meet no fault: arrivals, and calls that succeed. -/
def Act.Faultless : Act → Prop
  | .fail _ | .kill => False
  | _ => True

instance : DecidablePred Act.Faultless := fun a => by unfold Act.Faultless; split <;> infer_instance

/-! ## A run that nothing disturbs -/

/-- From here the run alone leaves the directory, with this manifest and with its row sealed in `db`. -/
def Seals (cfg : Config) (s : State) (name : Text) (rest : List Text) (text : Text) (db : Db) : Prop :=
  ∃ s', Runs.Reaches (step cfg) (· = .next true) s s' ∧ s'.run = some ⟨rest, .manifest, none⟩ ∧
    s'.db = db.upsertSnapshot name 1 ∧ (s'.days.lookup name).bind DayDir.manifest = some text

section
variable {cfg : Config} {s : State} {name text : Text} {rest : List Text} {d : DayDir} {db : Db}

theorem Seals.next {r : Run} (hr : s.run = some r) (ht : r.todo = name :: rest)
    (hd : s.days.lookup name = some d)
    (h : Seals cfg (s.next cfg r name rest d true) name rest text db) : Seals cfg s name rest text db := by
  obtain ⟨s', h, hend⟩ := h
  refine ⟨s', .next ?_ rfl h, hend⟩
  simp only [step, hr, Option.bind_eq_bind, Option.bind_some, ht, hd, Option.map_some]

theorem seals_upsert (hr : s.run = some ⟨name :: rest, .upsert, none⟩) (hd : s.days.lookup name = some d)
    (hm : d.manifest = some text) : Seals cfg s name rest text s.db := by
  refine .next hr rfl hd (.next rfl rfl hd (.next rfl rfl hd ⟨_, .refl _, rfl, rfl, ?_⟩))
  simp only [State.next, State.record, State.commit, State.goOn, if_true, hd]
  exact hm

theorem seals_moveLog (hr : s.run = some ⟨name :: rest, .moveLog, none⟩) (hd : s.days.lookup name = some d)
    (hm : d.manifest = some text) : Seals cfg s name rest text s.db := by
  apply Seals.next hr rfl hd
  by_cases hlog : logFilename name ∈ s.logDir
  · have hnext : s.next cfg ⟨name :: rest, .moveLog, none⟩ name rest d true =
        State.goOn { s with
          logDir := s.logDir.filter (· ≠ logFilename name)
          days := s.days.insert name { d with dir := d.dir.add (logFilename name) true } }
          ⟨name :: rest, .moveLog, none⟩ .chmodLog := if_pos hlog
    have hd' : (s.days.insert name { d with dir := d.dir.add (logFilename name) true }).lookup name =
        some { d with dir := d.dir.add (logFilename name) true } := AList.lookup_insert s.days
    rw [hnext]
    exact .next rfl rfl hd' (seals_upsert rfl hd' hm)
  · have hnext : s.next cfg ⟨name :: rest, .moveLog, none⟩ name rest d true =
        s.goOn ⟨name :: rest, .moveLog, none⟩ .upsert := if_neg hlog
    rw [hnext]
    exact seals_upsert rfl hd hm

theorem seals_lookup (files : List Text) (rows : List ManifestRow)
    (hr : s.run = some ⟨name :: rest, .lookup files rows, none⟩)
    (hd : s.days.lookup name = some d) : Seals cfg s name rest
      (manifestText (rows ++ files.filterMap
        (rowOf cfg.matchByFilenameOnly s.db (osPathJoin cfg.root name)))) s.db := by
  induction files generalizing s rows with
  | nil =>
    rw [List.filterMap_nil, List.append_nil]
    have hset : ∀ (t : State) (d : DayDir) (m : Option Text),
        (t.setManifest name d m).days.lookup name = some { d with manifest := m } := fun t d m =>
          AList.lookup_insert t.days
    refine .next hr rfl hd (.next rfl rfl hd
      (.next rfl rfl (hset _ d (some [])) (.next rfl rfl (hset _ _ _) ?_)))
    exact seals_moveLog rfl (hset _ _ _) rfl
  | cons f files ih =>
    apply Seals.next hr rfl hd
    cases hrow : rowOf cfg.matchByFilenameOnly s.db (osPathJoin cfg.root name) f with
    | none =>
      rw [List.filterMap_cons_none hrow]
      simp only [State.next, State.now, Option.getD_none, hrow]
      exact ih rows rfl hd
    | some row =>
      rw [List.filterMap_cons_some hrow, List.append_cons]
      simp only [State.next, State.now, Option.getD_none, hrow]
      exact ih (rows ++ [row]) rfl hd

/-- **A run alone seals its directory**, with the manifest of `buildManifestRows`. -/
theorem seal_alone (hr : s.run = some ⟨name :: rest, .manifest, none⟩)
    (hd : s.days.lookup name = some d) (now : Text)
    (errors : List MoverError) : Seals cfg s name rest (manifestText
      (buildManifestRows cfg.matchByFilenameOnly s.db now
        (osPathJoin cfg.root name) d.dir errors).rows) s.db := by
  obtain ⟨hrows, -⟩ := buildManifestRows_eq cfg.matchByFilenameOnly s.db now
    (osPathJoin cfg.root name) d.dir errors
  have hd' : (s.setManifest name d none).days.lookup name = some { d with manifest := none } :=
    AList.lookup_insert s.days
  rw [hrows]
  exact .next hr rfl hd (.next rfl rfl hd' (seals_lookup _ [] rfl hd'))

end

end SealCompletedDays

end VisitLogger
