import VisitLogger.DatabaseSound
import VisitLogger.SealRuns
import VisitLogger.SealSound
import Mathlib.Data.List.ReduceOption

/-!
# What a seal pass leaves

A day's manifest and its row in `snapshots` are written one after the other, and
a directory with a manifest is never sealed again. So a run that stops between
the two leaves a day that no later run repairs (`killed_run_stays_partial`). In the histories
where none does, every manifest is the whole of one run's rows and its row says
sealed (`Inv`), and a run without faults leaves no completed day unsealed
(`sealed_after_faultless_run`).
-/

namespace VisitLogger

/-! ## The sealed column -/

theorem Db.sealedOf_apply (db : Db) (o : Op) (date : Text) : (db.apply o).sealedOf date = db.sealedOf date := by
  rw [sealedOf, snapshots_apply, sealedOf]

namespace SealCompletedDays

open SnapshotMover

/-! ## Manifests -/

def State.manifest (s : State) (name : Text) : Option Text := (s.days.lookup name).bind DayDir.manifest

section
variable {cfg : Config} {s s' s₀ : State} {r r' : Run} {name : Text} {rest : List Text} {d : DayDir}

theorem manifest_insert (s : State) (name : Text) (d : DayDir) (n : Text) :
    ((s.days.insert name d).lookup n).bind DayDir.manifest = if n = name then d.manifest else s.manifest n := by
  by_cases h : n = name
  · subst h
    rw [AList.lookup_insert, if_pos rfl]
    rfl
  · rw [AList.lookup_insert_ne h, if_neg h, State.manifest]

theorem manifest_insert_same (hd : s.days.lookup name = some d) (d' : DayDir)
    (hm : d'.manifest = d.manifest) (n : Text) :
    ((s.days.insert name d').lookup n).bind DayDir.manifest = s.manifest n := by
  rw [manifest_insert]
  by_cases h : n = name
  · subst h
    rw [if_pos rfl, hm, State.manifest, hd]
    rfl
  · rw [if_neg h]

/-! ## What a run writes -/

/-- In the history `acts` from `s₀`, after its actions `before`, a run lists the directory. -/
def Listed (cfg : Config) (s₀ : State) (acts before : List Act) (name : Text) (files : List Text) : Prop :=
  before <+: acts ∧ ∃ s r d, Runs.run (step cfg) s₀ before = some s ∧ s.run = some r ∧
    r.todo.head? = some name ∧
    r.phase = .list ∧ s.days.lookup name = some d ∧ files = manifestFiles (osPathJoin cfg.root name) d.dir

/-- After that, a file is looked up, and has a row in the manifest or none. -/
def LookedUp (cfg : Config) (s₀ : State) (acts before : List Act) (name f : Text)
    (row : Option ManifestRow) : Prop :=
  ∃ upTo s, before <+: upTo ∧ upTo <+: acts ∧ Runs.run (step cfg) s₀ upTo = some s ∧
    row = rowOf cfg.matchByFilenameOnly s.db (osPathJoin cfg.root name) f

/-- The rows of the files looked up so far; `files` are still to come. -/
def Gathered (cfg : Config) (s₀ : State) (acts : List Act) (name : Text) (files : List Text)
    (rows : List ManifestRow) : Prop :=
  ∃ before done found, Listed cfg s₀ acts before name (done ++ files) ∧
    List.Forall₂ (LookedUp cfg s₀ acts before name) done found ∧ rows = found.reduceOption

/-- The header, and one row for each conforming file that had an event row when a run looked it up. -/
def Complete (cfg : Config) (s₀ : State) (acts : List Act) (name text : Text) : Prop :=
  ∃ rows, text = manifestText rows ∧ Gathered cfg s₀ acts name [] rows

variable {acts acts' : List Act} {before : List Act} {files : List Text} {rows : List ManifestRow}

theorem LookedUp.mono {f : Text} {row : Option ManifestRow} (h : LookedUp cfg s₀ acts before name f row)
    (ha : acts <+: acts') : LookedUp cfg s₀ acts' before name f row := by
  obtain ⟨upTo, s, h₁, h₂, h⟩ := h
  exact ⟨upTo, s, h₁, h₂.trans ha, h⟩

theorem Gathered.mono (h : Gathered cfg s₀ acts name files rows) (ha : acts <+: acts') :
    Gathered cfg s₀ acts' name files rows := by
  obtain ⟨before, done, found, ⟨hb, hl⟩, hf, hr⟩ := h
  exact ⟨before, done, found, ⟨hb.trans ha, hl⟩, hf.imp fun _ _ h => h.mono ha, hr⟩

theorem Complete.mono {text : Text} (h : Complete cfg s₀ acts name text) (ha : acts <+: acts') :
    Complete cfg s₀ acts' name text := by
  obtain ⟨rows, ht, hg⟩ := h
  exact ⟨rows, ht, hg.mono ha⟩

theorem Gathered.lookup {f : Text} (h : Gathered cfg s₀ acts name (f :: files) rows)
    (hs : Runs.run (step cfg) s₀ acts = some s) :
    Gathered cfg s₀ acts name files
      (rows ++ (rowOf cfg.matchByFilenameOnly s.db (osPathJoin cfg.root name) f).toList) := by
  obtain ⟨before, done, found, hl, hf, hr⟩ := h
  have hlook : LookedUp cfg s₀ acts before name f
    (rowOf cfg.matchByFilenameOnly s.db (osPathJoin cfg.root name) f) :=
    ⟨acts, s, hl.1, List.prefix_refl acts, hs, rfl⟩
  refine ⟨before, done ++ [f], found ++ [_], by simpa using hl, List.rel_append hf (.cons hlook .nil), ?_⟩
  rw [List.reduceOption_append, hr]
  congr 1

/-! ## The invariant -/

/-- A fault here leaves a manifest whose row does not say sealed. -/
def Phase.Exposed : Phase → Prop
  | .write _ | .chmod | .moveLog | .chmodLog | .upsert | .commit => True
  | _ => False

def PhaseInv (cfg : Config) (s₀ : State) (acts : List Act) (s : State) (name : Text) : Phase → Prop
  | .manifest | .list => s.manifest name = none
  | .lookup files rows => s.manifest name = none ∧ Gathered cfg s₀ acts name files rows
  | .openFile rows => s.manifest name = none ∧ Gathered cfg s₀ acts name [] rows
  | .write rest => ∃ text, s.manifest name = some text ∧ Complete cfg s₀ acts name (text ++ rest)
  | .chmod | .moveLog | .chmodLog | .upsert | .commit => ∃ text, s.manifest name = some text ∧
      Complete cfg s₀ acts name text
  | .clear => (∃ text, s.manifest name = some text ∧ Complete cfg s₀ acts name text) ∧
      s.db.sealedOf name = some 1

/-- The connection has a transaction from the upsert to its commit. -/
def TxInv (s : State) (r : Run) : Prop :=
  match r.phase with
  | .commit => ∀ name, r.todo.head? = some name → r.tx = some (s.db.upsertSnapshot name 1)
  | _ => r.tx = none

structure RunInv (cfg : Config) (s₀ : State) (acts : List Act) (s : State) (r : Run) : Prop where
  nodup : r.todo.Nodup
  tx : TxInv s r
  later : ∀ name ∈ r.todo.tail, s.manifest name = none
  current : ∀ name, r.todo.head? = some name → PhaseInv cfg s₀ acts s name r.phase

/-- Every manifest is being written, or complete with its row sealed, or was there to begin with. -/
structure Inv (cfg : Config) (s₀ : State) (acts : List Act) (s : State) : Prop where
  days : ∀ name text, s.manifest name = some text →
    (∃ r, s.run = some r ∧ r.todo.head? = some name ∧ r.phase.Exposed) ∨
      (Complete cfg s₀ acts name text ∧ s.db.sealedOf name = some 1) ∨ s₀.manifest name = some text
  run : ∀ r, s.run = some r → RunInv cfg s₀ acts s r

theorem PhaseInv.mono {phase : Phase} (h : PhaseInv cfg s₀ acts s name phase) (ha : acts <+: acts')
    (hm : s'.manifest name = s.manifest name)
    (hs : s.db.sealedOf name = some 1 → s'.db.sealedOf name = some 1) :
    PhaseInv cfg s₀ acts' s' name phase := by
  cases phase with
  | manifest => exact hm.trans h
  | list => exact hm.trans h
  | lookup files rows => exact ⟨hm.trans h.1, h.2.mono ha⟩
  | openFile rows => exact ⟨hm.trans h.1, h.2.mono ha⟩
  | write rest =>
    obtain ⟨text, ht, hc⟩ := h
    exact ⟨text, hm.trans ht, hc.mono ha⟩
  | chmod | moveLog | chmodLog | upsert | commit =>
    obtain ⟨text, ht, hc⟩ := h
    exact ⟨text, hm.trans ht, hc.mono ha⟩
  | clear =>
    obtain ⟨⟨text, ht, hc⟩, h1⟩ := h
    exact ⟨⟨text, hm.trans ht, hc.mono ha⟩, hs h1⟩

/-- Outside the exposed phases a manifest of the current directory is complete and its row sealed. -/
theorem PhaseInv.settled {phase : Phase} (h : PhaseInv cfg s₀ acts s name phase) (he : ¬phase.Exposed)
    {text : Text}
    (ht : s.manifest name = some text) : Complete cfg s₀ acts name text ∧ s.db.sealedOf name = some 1 := by
  have hnone : s.manifest name ≠ none := by rw [ht]; exact Option.some_ne_none text
  cases phase with
  | manifest => exact absurd h hnone
  | list => exact absurd h hnone
  | lookup files rows => exact absurd h.1 hnone
  | openFile rows => exact absurd h.1 hnone
  | write | chmod | moveLog | chmodLog | upsert | commit => exact absurd trivial he
  | clear =>
    obtain ⟨⟨text', ht', hc⟩, h1⟩ := h
    obtain rfl : text' = text := Option.some.inj (ht'.symm.trans ht)
    exact ⟨hc, h1⟩

/-! ## Steps -/

theorem Inv.start_of (hrun : s₀.run = none) : Inv cfg s₀ [] s₀ where
  days _ _ h := Or.inr (Or.inr h)
  run r hr := by rw [hrun] at hr; cases hr

theorem Inv.advance (h : Inv cfg s₀ acts s) (ha : acts <+: acts') (hr : s.run = some r)
    (ht : r.todo = name :: rest)
    (hr' : s'.run = some r') (ht' : r'.todo = r.todo) (htx : TxInv s' r')
    (hm : ∀ n, n ≠ name → s'.manifest n = s.manifest n) (hs : ∀ n, s.db.sealedOf n = some 1 →
      s'.db.sealedOf n = some 1)
    (hcur : PhaseInv cfg s₀ acts' s' name r'.phase) : Inv cfg s₀ acts' s' where
  days n text hn := by
    by_cases he : n = name
    · subst he
      by_cases hx : r'.phase.Exposed
      · exact Or.inl ⟨r', hr', by rw [ht', ht]; rfl, hx⟩
      · exact Or.inr (Or.inl (hcur.settled hx hn))
    · rw [hm n he] at hn
      rcases h.days n text hn with ⟨q, hq, hhead, -⟩ | ⟨hc, h1⟩ | h0
      · obtain rfl : r = q := Option.some.inj (hr.symm.trans hq)
        rw [ht] at hhead
        exact absurd (Option.some.inj hhead).symm he
      · exact Or.inr (Or.inl ⟨hc.mono ha, hs n h1⟩)
      · exact Or.inr (Or.inr h0)
  run q hq := by
    obtain rfl : r' = q := Option.some.inj (hr'.symm.trans hq)
    obtain ⟨hnodup, -, hlater, -⟩ := h.run r hr
    have hnot : ∀ n ∈ r.todo.tail, n ≠ name := by
      rw [ht] at hnodup ⊢
      intro n hn he
      exact (List.nodup_cons.mp hnodup).1 (he ▸ hn)
    refine ⟨ht' ▸ hnodup, htx, fun n hn => ?_, fun n hn => ?_⟩
    · rw [ht'] at hn
      exact (hm n (hnot n hn)).trans (hlater n hn)
    · rw [ht', ht] at hn
      obtain rfl : name = n := Option.some.inj hn
      exact hcur

theorem Inv.leave (h : Inv cfg s₀ acts s) (ha : acts <+: acts') (hr : s.run = some r)
    (ht : r.todo = name :: rest)
    (hr' : s'.run = some ⟨rest, .manifest, none⟩) (hm : ∀ n, s'.manifest n = s.manifest n)
    (hs : ∀ n, s.db.sealedOf n = some 1 → s'.db.sealedOf n = some 1)
    (hcur : ∀ text, s.manifest name = some text → Complete cfg s₀ acts' name text ∧
      s'.db.sealedOf name = some 1) :
    Inv cfg s₀ acts' s' where
  days n text hn := by
    rw [hm] at hn
    by_cases he : n = name
    · subst he
      exact Or.inr (Or.inl (hcur text hn))
    · rcases h.days n text hn with ⟨q, hq, hhead, -⟩ | ⟨hc, h1⟩ | h0
      · obtain rfl : r = q := Option.some.inj (hr.symm.trans hq)
        rw [ht] at hhead
        exact absurd (Option.some.inj hhead).symm he
      · exact Or.inr (Or.inl ⟨hc.mono ha, hs n h1⟩)
      · exact Or.inr (Or.inr h0)
  run q hq := by
    obtain rfl : (⟨rest, .manifest, none⟩ : Run) = q := Option.some.inj (hr'.symm.trans hq)
    obtain ⟨hnodup, -, hlater, -⟩ := h.run r hr
    rw [ht] at hnodup hlater
    refine ⟨(List.nodup_cons.mp hnodup).2, rfl, fun n hn => ?_, fun n hn => ?_⟩
    · exact (hm n).trans (hlater n (List.mem_of_mem_tail hn))
    · exact (hm n).trans (hlater n (List.mem_of_mem_head? hn))

theorem manifest_setManifest (s : State) (name : Text) (d : DayDir) (m : Option Text) (n : Text) :
    (s.setManifest name d m).manifest n = if n = name then m else s.manifest n := manifest_insert s name _ n

/-- Without an open transaction the bookkeeping on errors changes nothing here. -/
theorem record_eq (h : r.tx = none) (recorded : Bool) (phase : Phase) :
    s.record r recorded phase = s.goOn r phase := by
  cases r with
  | mk todo p tx =>
    cases h
    cases recorded <;> rfl

structure Arrival (s s' : State) : Prop where
  run : s'.run = s.run
  manifest : ∀ n, s'.manifest n = s.manifest n
  sealedOf : ∀ n, s'.db.sealedOf n = s.db.sealedOf n
  db : s'.db = s.db ∨ ∀ r, s.run = some r → r.tx = none

theorem step_mkdir (h : step cfg s (.mkdir name) = some s') : Arrival s s' := by
  obtain ⟨hnew, h⟩ := Option.ite_none_left_eq_some.mp h
  cases h
  refine ⟨rfl, fun n => (manifest_insert s name _ n).trans ?_, fun _ => rfl, Or.inl rfl⟩
  by_cases he : n = name
  · subst he
    rw [if_pos rfl, State.manifest, AList.lookup_eq_none.mpr hnew]
    rfl
  · rw [if_neg he]

theorem step_file {day : Text} {isFile : Bool} (h : step cfg s (.file day name isFile) = some s') :
    Arrival s s' := by
  obtain ⟨-, h⟩ := Option.ite_none_left_eq_some.mp h
  obtain ⟨d, hd, rfl⟩ := Option.map_eq_some_iff.mp h
  exact ⟨rfl, manifest_insert_same hd _ rfl, fun _ => rfl, Or.inl rfl⟩

theorem step_log (h : step cfg s (.log name) = some s') : Arrival s s' := by
  cases h
  exact ⟨rfl, fun _ => rfl, fun _ => rfl, Or.inl rfl⟩

theorem step_row {o : Op} (h : step cfg s (.row o) = some s') : Arrival s s' := by
  obtain ⟨htx, h⟩ := Option.ite_none_left_eq_some.mp h
  cases h
  refine ⟨rfl, fun _ => rfl, fun n => Db.sealedOf_apply s.db o n, Or.inr fun r hr => ?_⟩
  rw [hr] at htx
  exact Option.not_isSome_iff_eq_none.mp htx

theorem step_start {today : Text} (h : step cfg s (.start today) = some s') :
    s.run = none ∧ s' = { s with run := some ⟨candidates s.days today, .manifest, none⟩ } := by
  unfold step at h
  cases hrun : s.run with
  | some r => rw [hrun] at h; cases h
  | none =>
    rw [hrun] at h
    cases h
    exact ⟨rfl, rfl⟩

theorem step_next {recorded : Bool} (h : step cfg s (.next recorded) = some s') :
    ∃ r name rest d, s.run = some r ∧
    r.todo = name :: rest ∧ s.days.lookup name = some d ∧ s' = s.next cfg r name rest d recorded := by
  obtain ⟨r, hr, h⟩ := Option.bind_eq_some_iff.mp h
  cases ht : r.todo with
  | nil => rw [ht] at h; cases h
  | cons name rest =>
    rw [ht] at h
    obtain ⟨d, hd, rfl⟩ := Option.map_eq_some_iff.mp h
    exact ⟨r, name, rest, d, hr, ht, hd, rfl⟩

theorem step_write {n : Nat} (h : step cfg s (.write n) = some s') : ∃ r name rest d text, s.run = some r ∧
    r.todo = name :: rest ∧ r.phase = .write text ∧ s.days.lookup name = some d ∧
    s' = (s.setManifest name d (some (d.manifest.getD [] ++ text.take n))).goOn r (.write (text.drop n)) := by
  obtain ⟨r, hr, h⟩ := Option.bind_eq_some_iff.mp h
  cases ht : r.todo with
  | nil => rw [ht] at h; cases h
  | cons name rest =>
    cases hp : r.phase with
    | write text =>
      rw [ht, hp] at h
      obtain ⟨d, hd, rfl⟩ := Option.map_eq_some_iff.mp h
      exact ⟨r, name, rest, d, text, hr, ht, hp, hd, rfl⟩
    | _ => rw [ht, hp] at h; cases h

theorem step_fail {recorded : Bool} (h : step cfg s (.fail recorded) = some s') :
    ∃ r name rest, s.run = some r ∧
    r.todo = name :: rest ∧ r.phase ≠ .clear ∧ s' = s.record { r with todo := rest } recorded .manifest := by
  obtain ⟨r, hr, h⟩ := Option.bind_eq_some_iff.mp h
  cases ht : r.todo with
  | nil => rw [ht] at h; cases h
  | cons name rest =>
    rw [ht] at h
    refine ⟨r, name, rest, hr, ht, ?_⟩
    cases hp : r.phase with
    | clear => rw [hp] at h; cases h
    | _ =>
      rw [hp] at h
      cases h
      exact ⟨nofun, rfl⟩

theorem step_finish (h : step cfg s .finish = some s') :
    ∃ r, s.run = some r ∧ r.todo = [] ∧ s' = { s with run := none } := by
  obtain ⟨r, hr, h⟩ := Option.bind_eq_some_iff.mp h
  by_cases ht : r.todo = []
  · rw [if_pos ht] at h
    cases h
    exact ⟨r, hr, ht, rfl⟩
  · rw [if_neg ht] at h
    cases h

/-- **Step.** An arrival. -/
theorem Inv.arrival (h : Inv cfg s₀ acts s) (ha : acts <+: acts') (har : Arrival s s') :
    Inv cfg s₀ acts' s' where
  days n text ht := by
    rw [har.manifest] at ht
    rcases h.days n text ht with he | ⟨hc, h1⟩ | h0
    · exact Or.inl (har.run ▸ he)
    · exact Or.inr (Or.inl ⟨hc.mono ha, (har.sealedOf n).trans h1⟩)
    · exact Or.inr (Or.inr h0)
  run r hr := by
    rw [har.run] at hr
    obtain ⟨hnodup, htx, hlater, hcur⟩ := h.run r hr
    refine ⟨hnodup, ?_, fun n hn => (har.manifest n).trans (hlater n hn), fun n hn => ?_⟩
    · unfold TxInv at htx ⊢
      rcases har.db with hdb | htx'
      · rw [hdb]
        exact htx
      · cases hp : r.phase with
        | commit =>
          rw [hp] at htx
          intro n hn
          rw [htx' r hr] at htx
          exact absurd (htx n hn) (by simp)
        | _ => exact htx' r hr
    · exact (hcur n hn).mono ha (har.manifest n) (har.sealedOf n).trans

theorem manifest_setManifest_ne (s : State) (d : DayDir) (m : Option Text) {n : Text} (hn : n ≠ name) :
    (s.setManifest name d m).manifest n = s.manifest n := by
  rw [manifest_setManifest, if_neg hn]

theorem manifest_setManifest_self (s : State) (name : Text) (d : DayDir) (m : Option Text) :
    (s.setManifest name d m).manifest name = m := by
  rw [manifest_setManifest, if_pos rfl]

/-- **Step.** A file is looked up. -/
theorem Inv.lookup (h : Inv cfg s₀ acts s) (hs : Runs.run (step cfg) s₀ acts = some s) (ha : acts <+: acts')
    (hr : s.run = some r) (ht : r.todo = name :: rest) {f : Text}
    (hp : r.phase = .lookup (f :: files) rows) (d : DayDir) (recorded : Bool) :
    Inv cfg s₀ acts' (s.next cfg r name rest d recorded) := by
  obtain ⟨-, htx, -, hcur⟩ := h.run r hr
  have hcur := hcur name (by rw [ht]; rfl)
  obtain ⟨todo, phase, tx⟩ := r
  obtain rfl : todo = name :: rest := ht
  obtain rfl : phase = .lookup (f :: files) rows := hp
  obtain rfl : tx = none := htx
  have hg := (hcur.2.lookup hs).mono ha
  cases hrow : rowOf cfg.matchByFilenameOnly s.db (osPathJoin cfg.root name) f with
  | none =>
    have hnext : s.next cfg ⟨name :: rest, .lookup (f :: files) rows, none⟩ name rest d recorded =
        s.goOn ⟨name :: rest, .lookup (f :: files) rows, none⟩ (.lookup files rows) := by
      simp only [State.next, State.now, Option.getD_none, hrow]
      exact record_eq rfl recorded _
    rw [hrow, Option.toList_none, List.append_nil] at hg
    rw [hnext]
    exact h.advance ha hr rfl rfl rfl rfl (fun _ _ => rfl) (fun _ => id) ⟨hcur.1, hg⟩
  | some row =>
    have hnext : s.next cfg ⟨name :: rest, .lookup (f :: files) rows, none⟩ name rest d recorded =
        s.goOn ⟨name :: rest, .lookup (f :: files) rows, none⟩ (.lookup files (rows ++ [row])) := by
      simp only [State.next, State.now, Option.getD_none, hrow]
    rw [hrow, Option.toList_some] at hg
    rw [hnext]
    exact h.advance ha hr rfl rfl rfl rfl (fun _ _ => rfl) (fun _ => id) ⟨hcur.1, hg⟩

/-- **Step.** The log is moved, or there is none. -/
theorem Inv.moveLog (h : Inv cfg s₀ acts s) (ha : acts <+: acts') (hr : s.run = some r)
    (ht : r.todo = name :: rest)
    (hd : s.days.lookup name = some d) (hp : r.phase = .moveLog) (recorded : Bool) :
    Inv cfg s₀ acts' (s.next cfg r name rest d recorded) := by
  obtain ⟨-, htx, -, hcur⟩ := h.run r hr
  have hcur := hcur name (by rw [ht]; rfl)
  obtain ⟨todo, phase, tx⟩ := r
  obtain rfl : todo = name :: rest := ht
  obtain rfl : phase = .moveLog := hp
  obtain rfl : tx = none := htx
  obtain ⟨text, hm, hc⟩ := hcur
  by_cases hlog : logFilename name ∈ s.logDir
  · have hnext : s.next cfg ⟨name :: rest, .moveLog, none⟩ name rest d recorded =
        State.goOn { s with
          logDir := s.logDir.filter (· ≠ logFilename name)
          days := s.days.insert name { d with dir := d.dir.add (logFilename name) true } }
          ⟨name :: rest, .moveLog, none⟩ .chmodLog := if_pos hlog
    rw [hnext]
    have hsame := manifest_insert_same hd { d with dir := d.dir.add (logFilename name) true } rfl
    exact h.advance ha hr rfl rfl rfl rfl (fun n _ => hsame n) (fun _ => id) ⟨text,
      (hsame name).trans hm, hc.mono ha⟩
  · have hnext : s.next cfg ⟨name :: rest, .moveLog, none⟩ name rest d recorded =
        s.goOn ⟨name :: rest, .moveLog, none⟩ .upsert := if_neg hlog
    rw [hnext]
    exact h.advance ha hr rfl rfl rfl rfl (fun _ _ => rfl) (fun _ => id) ⟨text, hm, hc.mono ha⟩

/-- **Step.** A call that succeeds. -/
theorem Inv.next (h : Inv cfg s₀ acts s) (hs : Runs.run (step cfg) s₀ acts = some s) (ha : acts <+: acts')
    (hr : s.run = some r) (ht : r.todo = name :: rest) (hd : s.days.lookup name = some d) (recorded : Bool) :
    Inv cfg s₀ acts' (s.next cfg r name rest d recorded) := by
  obtain ⟨-, htx, -, hcur⟩ := h.run r hr
  have hcur := hcur name (by rw [ht]; rfl)
  have hman : s.manifest name = d.manifest := by rw [State.manifest, hd]; rfl
  obtain ⟨todo, phase, tx⟩ := r
  obtain rfl : todo = name :: rest := ht
  cases phase with
  | manifest =>
    obtain rfl : tx = none := htx
    exact h.advance ha hr rfl rfl rfl rfl (fun _ => manifest_setManifest_ne s d none) (fun _ => id)
      (manifest_setManifest_self s name d none)
  | list =>
    obtain rfl : tx = none := htx
    -- the directory as it is listed now is what the manifest is to cover
    have hg : Gathered cfg s₀ acts' name (manifestFiles (osPathJoin cfg.root name) d.dir) [] :=
      ⟨acts, [], [], ⟨ha, s, _, d, hs, hr, rfl, rfl, hd, rfl⟩, .nil, rfl⟩
    exact h.advance ha hr rfl rfl rfl rfl (fun _ _ => rfl) (fun _ => id) ⟨hcur, hg⟩
  | lookup files rows =>
    cases files with
    | nil =>
      obtain rfl : tx = none := htx
      have hnext : s.next cfg ⟨name :: rest, .lookup [] rows, none⟩ name rest d recorded =
          s.goOn ⟨name :: rest, .lookup [] rows, none⟩ (.openFile rows) := record_eq rfl recorded _
      rw [hnext]
      exact h.advance ha hr rfl rfl rfl rfl (fun _ _ => rfl) (fun _ => id) ⟨hcur.1, hcur.2.mono ha⟩
    | cons f files => exact h.lookup hs ha hr rfl rfl d recorded
  | openFile rows =>
    obtain rfl : tx = none := htx
    have hc : Complete cfg s₀ acts' name ([] ++ manifestText rows) := ⟨rows, rfl, hcur.2.mono ha⟩
    exact h.advance ha hr rfl rfl rfl rfl (fun _ => manifest_setManifest_ne s d _) (fun _ => id)
      ⟨[], manifest_setManifest_self s name d _, hc⟩
  | write text =>
    obtain rfl : tx = none := htx
    obtain ⟨done, hdone, hc⟩ := hcur
    have hm : d.manifest = some done := hman.symm.trans hdone
    refine h.advance ha hr rfl rfl rfl rfl (fun _ => manifest_setManifest_ne s d _) (fun _ => id)
      ⟨done ++ text, (manifest_setManifest_self s name d (some (d.manifest.getD [] ++ text))).trans ?_,
        hc.mono ha⟩
    rw [hm]
    rfl
  | chmod | chmodLog =>
    obtain rfl : tx = none := htx
    obtain ⟨text, hm, hc⟩ := hcur
    exact h.advance ha hr rfl rfl rfl rfl (fun _ _ => rfl) (fun _ => id) ⟨text, hm, hc.mono ha⟩
  | moveLog => exact h.moveLog ha hr rfl hd rfl recorded
  | upsert =>
    obtain rfl : tx = none := htx
    obtain ⟨text, hm, hc⟩ := hcur
    have htx' : TxInv (s.next cfg ⟨name :: rest, .upsert, none⟩ name rest d recorded)
        ⟨name :: rest, .commit, some (s.db.upsertSnapshot name 1)⟩ := by
      intro n hn
      obtain rfl : name = n := Option.some.inj hn
      rfl
    exact h.advance ha hr rfl rfl rfl htx' (fun _ _ => rfl) (fun _ => id) ⟨text, hm, hc.mono ha⟩
  | commit =>
    obtain rfl : tx = some (s.db.upsertSnapshot name 1) := htx name rfl
    obtain ⟨text, hm, hc⟩ := hcur
    exact h.advance ha hr rfl rfl rfl rfl (fun _ _ => rfl) (fun _ => Db.sealed_upsertSnapshot)
      ⟨⟨text, hm, hc.mono ha⟩, Db.sealedOf_upsertSnapshot_self s.db name 1⟩
  | clear =>
    obtain rfl : tx = none := htx
    have hnext : s.next cfg ⟨name :: rest, .clear, none⟩ name rest d recorded =
        s.goOn ⟨rest, .clear, none⟩ .manifest := record_eq rfl recorded _
    rw [hnext]
    -- the directory is left with its row committed, so a manifest that is there is complete
    refine h.leave ha hr rfl rfl (fun _ => rfl) (fun _ => id) fun text hm => ?_
    obtain ⟨hc, h1⟩ := PhaseInv.settled hcur id hm
    exact ⟨hc.mono ha, h1⟩

/-- A run stops in a directory only before it has made the manifest, or after the commit. -/
def Allowed (s : State) : Act → Prop
  | .fail recorded => ∀ r, s.run = some r → ¬r.phase.Exposed ∨ r.phase = .commit ∧ recorded = true
  | .kill => ∀ r, s.run = some r → ¬r.phase.Exposed
  | _ => True

instance : DecidablePred Phase.Exposed := fun p => by unfold Phase.Exposed; split <;> infer_instance

instance (s : State) : (a : Act) → Decidable (Allowed s a)
  | .fail recorded => inferInstanceAs (Decidable (∀ r ∈ s.run, ¬r.phase.Exposed ∨
      r.phase = .commit ∧ recorded = true))
  | .kill => inferInstanceAs (Decidable (∀ r ∈ s.run, ¬r.phase.Exposed))
  | .mkdir _ | .file _ _ _ | .log _ | .row _ | .start _ | .next _ | .write _ | .finish =>
    inferInstanceAs (Decidable True)

/-- **Step.** A call that fails. -/
theorem Inv.fail (h : Inv cfg s₀ acts s) (ha : acts <+: acts') (hr : s.run = some r)
    (ht : r.todo = name :: rest)
    {recorded : Bool} (hal : ¬r.phase.Exposed ∨ r.phase = .commit ∧ recorded = true) :
    Inv cfg s₀ acts' (s.record { r with todo := rest } recorded .manifest) := by
  obtain ⟨-, htx, -, hcur⟩ := h.run r hr
  have hcur := hcur name (by rw [ht]; rfl)
  rcases hal with hexp | ⟨hp, rfl⟩
  · have hnone : r.tx = none := by
      unfold TxInv at htx
      cases hp : r.phase with
      | commit => rw [hp] at hexp; exact absurd trivial hexp
      | _ => rw [hp] at htx; exact htx
    have hrec : s.record { r with todo := rest } recorded .manifest =
      s.goOn { r with todo := rest } .manifest :=
      record_eq (r := { r with todo := rest }) hnone recorded _
    rw [hrec]
    have hrun : (s.goOn { r with todo := rest } .manifest).run = some ⟨rest, .manifest, none⟩ := by
      rw [← hnone]; rfl
    refine h.leave ha hr ht hrun (fun _ => rfl) (fun _ => id) fun text hm => ?_
    obtain ⟨hc, h1⟩ := hcur.settled hexp hm
    exact ⟨hc.mono ha, h1⟩
  · -- the commit of the error row is the upsert's too
    obtain ⟨todo, phase, tx⟩ := r
    obtain rfl : phase = .commit := hp
    obtain rfl : todo = name :: rest := ht
    obtain rfl : tx = some (s.db.upsertSnapshot name 1) := htx name rfl
    obtain ⟨text', hm', hc⟩ := hcur
    refine h.leave ha hr rfl rfl (fun _ => rfl) (fun _ => Db.sealed_upsertSnapshot) fun text hm => ?_
    obtain rfl : text' = text := Option.some.inj (hm'.symm.trans hm)
    exact ⟨hc.mono ha, Db.sealedOf_upsertSnapshot_self s.db name 1⟩

/-- The run is over, outside the exposed phases. -/
theorem Inv.stop (h : Inv cfg s₀ acts s) (ha : acts <+: acts')
    (hexp : ∀ r name, s.run = some r → r.todo.head? = some name → ¬r.phase.Exposed) :
    Inv cfg s₀ acts' { s with run := none } where
  days n text hn := by
    rcases h.days n text hn with ⟨r, hr, hhead, hx⟩ | ⟨hc, h1⟩ | h0
    · exact absurd hx (hexp r n hr hhead)
    · exact Or.inr (Or.inl ⟨hc.mono ha, h1⟩)
    · exact Or.inr (Or.inr h0)
  run r hr := by cases hr

theorem mem_candidates {days : AList fun _ : Text => DayDir} {today name : Text} :
    name ∈ candidates days today ↔
    name ∈ days ∧ dateDirRe name = true ∧ name < today ∧ (days.lookup name).bind DayDir.manifest = none := by
  simp only [candidates, List.mem_filter, mem_sortStrings, Bool.and_eq_true, decide_eq_true_eq,
    Option.isNone_iff_eq_none, AList.mem_keys, and_assoc]

theorem nodup_candidates (days : AList fun _ : Text => DayDir) (today : Text) : (candidates days today).Nodup :=
  ((sortStrings_perm _).nodup_iff.mpr days.keys_nodup).filter _

theorem Inv.start (h : Inv cfg s₀ acts s) (ha : acts <+: acts') (hrun : s.run = none) (today : Text) :
    Inv cfg s₀ acts' { s with run := some ⟨candidates s.days today, .manifest, none⟩ } where
  days n text hn := by
    rcases h.days n text hn with ⟨r, hr, -⟩ | ⟨hc, h1⟩ | h0
    · rw [hrun] at hr; cases hr
    · exact Or.inr (Or.inl ⟨hc.mono ha, h1⟩)
    · exact Or.inr (Or.inr h0)
  run r hr := by
    cases hr
    have hnone : ∀ n ∈ candidates s.days today, s.manifest n = none := fun n hn => (mem_candidates.mp hn).2.2.2
    exact ⟨nodup_candidates s.days today, rfl, fun n hn => hnone n (List.mem_of_mem_tail hn),
      fun n hn => hnone n (List.mem_of_mem_head? hn)⟩

/-- **Step.** Some bytes of the manifest reach the file. -/
theorem Inv.write (h : Inv cfg s₀ acts s) (ha : acts <+: acts') (hr : s.run = some r)
    (ht : r.todo = name :: rest)
    (hd : s.days.lookup name = some d) {text : Text} (hp : r.phase = .write text) (n : Nat) :
    Inv cfg s₀ acts' ((s.setManifest name d (some (d.manifest.getD [] ++ text.take n))).goOn r
      (.write (text.drop n))) := by
  obtain ⟨-, htx, -, hcur⟩ := h.run r hr
  obtain ⟨done, hdone, hc⟩ : ∃ done, s.manifest name = some done ∧
    Complete cfg s₀ acts name (done ++ text) := by
    have := hcur name (by rw [ht]; rfl)
    rw [hp] at this
    exact this
  have hm : d.manifest = some done := by
    rw [State.manifest, hd] at hdone
    exact hdone
  rw [TxInv, hp] at htx
  refine h.advance ha hr ht rfl rfl htx (fun _ => manifest_setManifest_ne s d _) (fun _ => id)
    ⟨done ++ text.take n, ?_, ?_⟩
  · refine (manifest_setManifest_self s name d _).trans ?_
    rw [hm]
    rfl
  · rw [List.append_assoc, List.take_append_drop]
    exact hc.mono ha

/-- **Step.** -/
theorem Inv.step {a : Act} (h : Inv cfg s₀ acts s) (hs : Runs.run (step cfg) s₀ acts = some s)
    (hal : Allowed s a)
    (hstep : s' ∈ SealCompletedDays.step cfg s a) : Inv cfg s₀ (acts ++ [a]) s' := by
  have ha : acts <+: acts ++ [a] := List.prefix_append acts [a]
  cases a with
  | mkdir name => exact h.arrival ha (step_mkdir hstep)
  | file day name isFile => exact h.arrival ha (step_file hstep)
  | log name => exact h.arrival ha (step_log hstep)
  | row o => exact h.arrival ha (step_row hstep)
  | start today =>
    obtain ⟨hrun, rfl⟩ := step_start hstep
    exact h.start ha hrun today
  | next recorded =>
    obtain ⟨r, name, rest, d, hr, ht, hd, rfl⟩ := step_next hstep
    exact h.next hs ha hr ht hd recorded
  | write n =>
    obtain ⟨r, name, rest, d, text, hr, ht, hp, hd, rfl⟩ := step_write hstep
    exact h.write ha hr ht hd hp n
  | fail recorded =>
    obtain ⟨r, name, rest, hr, ht, -, rfl⟩ := step_fail hstep
    exact h.fail ha hr ht (hal r hr)
  | kill =>
    obtain ⟨r, hr, rfl⟩ := Option.map_eq_some_iff.mp hstep
    exact h.stop ha fun r _ hr _ => hal r hr
  | finish =>
    obtain ⟨r, hr, ht, rfl⟩ := step_finish hstep
    refine h.stop ha fun q n hq hhead => ?_
    obtain rfl : r = q := Option.some.inj (hr.symm.trans hq)
    rw [ht] at hhead
    cases hhead

/-! ## A run without faults -/

/-- What a call in directory `name` does at most, when it leaves `todo` of the run. -/
structure Frame (s s' : State) (r : Run) (name : Text) (todo : List Text) : Prop where
  run : ∃ r', s'.run = some r' ∧ r'.todo = todo ∧
    ∀ db, r'.tx = some db → r.tx = some db ∨ db = (s.now r).upsertSnapshot name 1
  db : s'.db = s.db ∨ s'.db = s.now r
  days : s'.days = s.days ∨ ∃ d d', s.days.lookup name = some d ∧ s'.days = s.days.insert name d' ∧
    ∀ e ∈ d.dir.entries, e ∈ d'.dir.entries

theorem frame_goOn (s : State) (r : Run) (name : Text) (phase : Phase) :
    Frame s (s.goOn r phase) r name r.todo where
  run := ⟨_, rfl, rfl, fun _ h => Or.inl h⟩
  db := Or.inl rfl
  days := Or.inl rfl

theorem frame_insert (hd : s.days.lookup name = some d) (d' : DayDir)
    (hsub : ∀ e ∈ d.dir.entries, e ∈ d'.dir.entries)
    (logDir : List Text) (r : Run) (phase : Phase) :
    Frame s (State.goOn { s with logDir, days := s.days.insert name d' } r phase) r name r.todo where
  run := ⟨_, rfl, rfl, fun _ h => Or.inl h⟩
  db := Or.inl rfl
  days := Or.inr ⟨d, d', hd, rfl, hsub⟩

theorem frame_setManifest (hd : s.days.lookup name = some d) (m : Option Text) (r : Run) (phase : Phase) :
    Frame s ((s.setManifest name d m).goOn r phase) r name r.todo :=
  frame_insert hd { d with manifest := m } (fun _ h => h) s.logDir r phase

theorem frame_commit (s : State) (r : Run) (name : Text) (todo : List Text) (phase : Phase) :
    Frame s (s.commit { r with todo } phase) r name todo where
  run := ⟨_, rfl, rfl, nofun⟩
  db := Or.inr rfl
  days := Or.inl rfl

theorem frame_record (s : State) (r : Run) (name : Text) (todo : List Text) (recorded : Bool) (phase : Phase) :
    Frame s (s.record { r with todo } recorded phase) r name todo := by
  cases recorded with
  | false => exact ⟨⟨_, rfl, rfl, fun _ h => Or.inl h⟩, Or.inl rfl, Or.inl rfl⟩
  | true => exact frame_commit s r name todo phase

theorem mem_add {l : Listing} {e : Text × Bool} (h : e ∈ l.entries) (n : Text) (isFile : Bool) :
    e ∈ (l.add n isFile).entries := by
  unfold Listing.add
  split
  · exact h
  · exact (Table.mem_insertOrIgnore Prod.fst).mpr (Or.inl h)

theorem frame_next (hd : s.days.lookup name = some d) (hp : r.phase ≠ .clear) (recorded : Bool) :
    Frame s (s.next cfg r name rest d recorded) r name r.todo := by
  unfold State.next
  dsimp only
  cases hphase : r.phase with
  | manifest => exact frame_setManifest hd none r .list
  | openFile rows => exact frame_setManifest hd _ r _
  | write text => exact frame_setManifest hd _ r .chmod
  | lookup files rows =>
    cases files with
    | nil => exact frame_record s r name r.todo recorded _
    | cons f files =>
      cases hrow : rowOf cfg.matchByFilenameOnly (s.now r) (osPathJoin cfg.root name) f with
      | none => simp only [hrow]; exact frame_record s r name r.todo recorded _
      | some row => simp only [hrow]; exact frame_goOn s r name _
  | moveLog =>
    dsimp only
    split
    · exact frame_insert hd _ (fun _ h => mem_add h _ _) _ r .chmodLog
    · exact frame_goOn s r name .upsert
  | upsert => exact ⟨⟨_, rfl, rfl, fun _ h => Or.inr (Option.some.inj h).symm⟩, Or.inl rfl, Or.inl rfl⟩
  | commit => exact frame_commit s r name r.todo .clear
  | clear => exact absurd hphase hp
  | list | chmod | chmodLog => exact frame_goOn s r name _

theorem next_clear (hp : r.phase = .clear) (d : DayDir) (recorded : Bool) :
    s.next cfg r name rest d recorded = s.record { r with todo := rest } recorded .manifest := by
  unfold State.next
  rw [hp]

theorem exists_frame_next (cfg : Config) (hd : s.days.lookup name = some d) (ht : r.todo = name :: rest)
    (recorded : Bool) :
    ∃ todo, todo ⊆ r.todo ∧ Frame s (s.next cfg r name rest d recorded) r name todo := by
  by_cases hp : r.phase = .clear
  · refine ⟨rest, by rw [ht]; exact List.subset_cons_self name rest, ?_⟩
    rw [next_clear hp]
    exact frame_record s r name rest recorded .manifest
  · exact ⟨r.todo, List.Subset.refl r.todo, frame_next hd hp recorded⟩

theorem Frame.manifest {todo : List Text} (h : Frame s s' r name todo) {n : Text} (hn : n ≠ name) :
    s'.manifest n = s.manifest n := by
  unfold State.manifest
  rcases h.days with hdays | ⟨d, d', -, hdays, -⟩
  · rw [hdays]
  · rw [hdays, AList.lookup_insert_ne hn]

theorem manifest_record (recorded : Bool) (phase : Phase) (n : Text) :
    (s.record r recorded phase).manifest n = s.manifest n := by
  cases recorded <;> rfl

/-- Each day that was completed when the run started has its manifest, or is still to come. -/
def Due (s₁ : State) (today : Text) (s : State) : Prop :=
  ∀ name ∈ s₁.days, dateDirRe name = true → name < today → (∃ r, s.run = some r ∧ name ∈ r.todo) ∨
    s.manifest name ≠ none

theorem Due.start {s₁ : State} (today : Text) :
    Due s₁ today { s₁ with run := some ⟨candidates s₁.days today, .manifest, none⟩ } := by
  intro name hmem hdate hlt
  by_cases h : s₁.manifest name = none
  · exact Or.inl ⟨_, rfl, mem_candidates.mpr ⟨hmem, hdate, hlt, h⟩⟩
  · exact Or.inr h

/-- **Step.** -/
theorem Due.step {s₁ : State} {today : Text} (h : Due s₁ today s) (hinv : Inv cfg s₀ acts s) {a : Act}
    (hf : a.Faultless)
    (hstep : s' ∈ SealCompletedDays.step cfg s a) : Due s₁ today s' := by
  have harrival : Arrival s s' → Due s₁ today s' := by
    intro har n hmem hdate hlt
    rw [har.manifest, har.run]
    exact h n hmem hdate hlt
  -- a step that keeps the todo list touches the manifest of its head only
  have hstays : ∀ {r : Run} {name : Text} {rest : List Text}, s.run = some r → r.todo = name :: rest →
      Frame s s' r name r.todo → Due s₁ today s' := by
    intro r name rest hr ht hframe n hmem hdate hlt
    obtain ⟨r', hr', ht', -⟩ := hframe.run
    by_cases hn : n ∈ r.todo
    · exact Or.inl ⟨r', hr', ht' ▸ hn⟩
    · have hne : n ≠ name := by
        rintro rfl
        exact hn (by rw [ht]; exact List.mem_cons_self)
      rw [hframe.manifest hne]
      refine Or.inr ((h n hmem hdate hlt).resolve_left ?_)
      rintro ⟨q, hq, hmem⟩
      obtain rfl : r = q := Option.some.inj (hr.symm.trans hq)
      exact hn hmem
  cases a with
  | mkdir name => exact harrival (step_mkdir hstep)
  | file day name isFile => exact harrival (step_file hstep)
  | log name => exact harrival (step_log hstep)
  | row o => exact harrival (step_row hstep)
  | start today' =>
    obtain ⟨hrun, rfl⟩ := step_start hstep
    intro n hmem hdate hlt
    refine Or.inr ((h n hmem hdate hlt).resolve_left ?_)
    rintro ⟨r, hr, -⟩
    rw [hrun] at hr
    cases hr
  | next recorded =>
    obtain ⟨r, name, rest, d, hr, ht, hd, rfl⟩ := step_next hstep
    by_cases hp : r.phase = .clear
    · rw [next_clear hp]
      intro n hmem hdate hlt
      obtain ⟨r', hr', ht', -⟩ := (frame_record s r name rest recorded .manifest).run
      rw [manifest_record]
      rcases h n hmem hdate hlt with ⟨q, hq, hn⟩ | hn
      · obtain rfl : r = q := Option.some.inj (hr.symm.trans hq)
        rw [ht] at hn
        rcases List.mem_cons.mp hn with rfl | hn
        · -- the head leaves the todo list with its manifest written
          have hcur := (hinv.run r hr).current n (by rw [ht]; rfl)
          rw [hp] at hcur
          obtain ⟨⟨text, htext, -⟩, -⟩ := hcur
          rw [htext]
          exact Or.inr (Option.some_ne_none text)
        · exact Or.inl ⟨r', hr', ht' ▸ hn⟩
      · exact Or.inr hn
    · exact hstays hr ht (frame_next hd hp recorded)
  | write n =>
    obtain ⟨r, name, rest, d, text, hr, ht, hp, hd, rfl⟩ := step_write hstep
    exact hstays hr ht (frame_setManifest hd _ r _)
  | fail recorded => exact absurd hf id
  | kill => exact absurd hf id
  | finish =>
    obtain ⟨r, hr, ht, rfl⟩ := step_finish hstep
    intro n hmem hdate hlt
    refine Or.inr ((h n hmem hdate hlt).resolve_left ?_)
    rintro ⟨q, hq, hmem⟩
    obtain rfl : r = q := Option.some.inj (hr.symm.trans hq)
    rw [ht] at hmem
    cases hmem

theorem Act.Faultless.allowed {a : Act} (h : a.Faultless) (s : State) : Allowed s a := by
  cases a with
  | fail recorded => exact absurd h id
  | kill => exact absurd h id
  | _ => trivial

theorem run_over {more : List Act} (hr : Runs.run (step cfg) s (more ++ [.finish]) = some s') :
    s'.run = none := by
  rw [Runs.run_append] at hr
  obtain ⟨t, -, hr⟩ := Option.bind_eq_some_iff.mp hr
  obtain ⟨t', ht', hr⟩ := Option.bind_eq_some_iff.mp hr
  obtain ⟨-, -, -, rfl⟩ := step_finish ht'
  cases hr
  rfl

/-- What a run without faults leaves, in the history from `s₀` that it ends. -/
theorem faultless_run {s₀ s₁ : State} {before during : List Act} {today : Text} (hinv : Inv cfg s₀ before s₁)
    (hr₁ : Runs.run (step cfg) s₀ before = some s₁)
    (hr : Runs.run (step cfg) s₁ (.start today :: (during ++ [.finish])) = some s)
    (hf : ∀ a ∈ during, a.Faultless)
    (hmem : name ∈ s₁.days) (hdate : dateDirRe name = true) (hlt : name < today) :
    ∃ text, s.manifest name = some text ∧
      (Complete cfg s₀ (before ++ (.start today :: (during ++ [.finish]))) name text ∧
        s.db.sealedOf name = some 1 ∨
        s₀.manifest name = some text) := by
  obtain ⟨s₂, hs₂, hr⟩ := Option.bind_eq_some_iff.mp
    (show (step cfg s₁ (.start today)).bind (fun t => Runs.run (step cfg) t (during ++ [.finish])) =
      some s from hr)
  have hinv₂ : Inv cfg s₀ (before ++ [.start today]) s₂ := hinv.step hr₁ trivial hs₂
  have hdue₂ : Due s₁ today s₂ := by
    obtain ⟨-, rfl⟩ := step_start hs₂
    exact Due.start today
  have hr₂ : Runs.run (step cfg) s₀ (before ++ [.start today]) = some s₂ := by
    rw [Runs.run_append, hr₁, Option.bind_some, Runs.run, hs₂]
    rfl
  have hfree : ∀ a ∈ during ++ [.finish], a.Faultless := by
    intro a ha
    rcases List.mem_append.mp ha with ha | ha
    · exact hf a ha
    · obtain rfl := List.mem_singleton.mp ha
      trivial
  have ho : Runs.Obeys (step cfg) (fun _ a => a.Faultless) s₂ (during ++ [.finish]) :=
    Runs.obeys_of_forall (fun a ha _ => hfree a ha) s₂
  have hall : Inv cfg s₀ ((before ++ [.start today]) ++ (during ++ [.finish])) s ∧ Due s₁ today s := by
    refine Runs.run_history (fun as s => Inv cfg s₀ ((before ++ [.start today]) ++ as) s ∧ Due s₁ today s) ?_
      ⟨by rw [List.append_nil]; exact hinv₂, hdue₂⟩ ho hr
    intro as t a t' ht h ha hstep
    have hrun : Runs.run (step cfg) s₀ ((before ++ [.start today]) ++ as) = some t := by
      rw [Runs.run_append, hr₂]
      exact ht
    rw [← List.append_assoc]
    exact ⟨h.1.step hrun (ha.allowed t) hstep, h.2.step h.1 ha hstep⟩
  have hover : s.run = none := run_over hr
  have hlist : (before ++ [.start today]) ++ (during ++ [.finish]) = before ++
    (.start today :: (during ++ [.finish])) := by
    rw [List.append_assoc]
    rfl
  rw [hlist] at hall
  have hsome : s.manifest name ≠ none := by
    refine (hall.2 name hmem hdate hlt).resolve_left ?_
    rintro ⟨r, hr, -⟩
    rw [hover] at hr
    cases hr
  obtain ⟨text, htext⟩ := Option.ne_none_iff_exists'.mp hsome
  refine ⟨text, htext, (hall.1.days name text htext).resolve_left ?_⟩
  rintro ⟨r, hr, -⟩
  rw [hover] at hr
  cases hr

/-- **A run without faults seals every completed day.** In the histories where no
run stops between a manifest and its commit, each day that is completed when the
run starts has in the end a complete manifest, from this run or an earlier one,
and its row says sealed. -/
theorem sealed_after_faultless_run (cfg : Config) (defaultDirectory : Text) {before during : List Act}
    {today : Text}
    {s₁ s : State} (ho : Runs.Obeys (step cfg) Allowed (.init defaultDirectory) before)
    (hr₁ : Runs.run (step cfg) (.init defaultDirectory) before = some s₁)
    (hr : Runs.run (step cfg) s₁ (.start today :: (during ++ [.finish])) = some s)
    (hf : ∀ a ∈ during, a.Faultless) :
    ∀ name ∈ s₁.days, dateDirRe name = true → name < today →
      ∃ text, s.manifest name = some text ∧
        Complete cfg (.init defaultDirectory) (before ++ (.start today :: (during ++ [.finish]))) name text ∧
        s.db.sealedOf name = some 1 := by
  intro name hmem hdate hlt
  have hinv : Inv cfg (.init defaultDirectory) before s₁ :=
    Runs.run_history (Inv cfg (.init defaultDirectory)) (fun _ _ _ _ hs h ha hstep => h.step hs ha hstep)
      (Inv.start_of rfl) ho hr₁
  obtain ⟨text, htext, ⟨hc, h1⟩ | h0⟩ := faultless_run hinv hr₁ hr hf hmem hdate hlt
  · exact ⟨text, htext, hc, h1⟩
  · cases h0

/-! ## A run -/

def archive : Config := ⟨ascii "/mnt/gdrive-snapshots", true⟩

def someDay : Text := ascii "2024-05-01"

def nextDay : Text := ascii "2024-05-02"

/-- A snapshot comes to a completed day. A run lists it and is killed, the next one
finds no event row for it and fails when it has looked it up, and then the row comes. -/
def interrupted : List Act :=
  [.mkdir someDay, .file someDay someSnapshot true, .start nextDay, .next true, .next true, .kill,
    .start nextDay, .next true, .next true, .next true, .fail true, .finish,
    .row ⟨ascii "2024-05-01T12:00:00Z", ascii "https://a.example/", ascii "A", .event .read someSnapshot []⟩]

theorem sealed_after_faultless_run_interrupted :
    ∃ s₁ s, Runs.run (step archive) (.init []) interrupted = some s₁ ∧
      Runs.run (step archive) s₁ (.start nextDay :: (List.replicate 11 (.next true) ++ [.finish])) = some s ∧
      s.manifest someDay = some (ascii "filename\ttag\ttimestamp\turl\ttitle\n" ++ someSnapshot ++
        ascii "\tread\t2024-05-01T12:00:00Z\thttps://a.example/\tA\n") ∧
      ∀ name ∈ s₁.days, dateDirRe name = true → name < nextDay →
        ∃ text, s.manifest name = some text ∧
          Complete archive (.init []) (interrupted ++
            (.start nextDay :: (List.replicate 11 (.next true) ++ [.finish]))) name text ∧
          s.db.sealedOf name = some 1 := by
  have hf : ∀ a ∈ List.replicate 11 (Act.next true), a.Faultless := by
    intro a ha
    obtain rfl := List.eq_of_mem_replicate ha
    trivial
  exact ⟨_, _, rfl, rfl, by decide +kernel, sealed_after_faultless_run archive [] (by decide +kernel) rfl rfl hf⟩

/-- A run is killed when it has just made the manifest. The next run passes the day by. -/
theorem killed_run_stays_partial :
    ∃ s₁ s, Runs.run (step archive) (.init [])
        [.mkdir someDay, .start nextDay, .next true, .next true, .next true, .next true, .kill] = some s₁ ∧
      Runs.run (step archive) s₁ [.start nextDay, .finish] = some s ∧
      (someDay ∈ s₁.days ∧ dateDirRe someDay = true ∧ someDay < nextDay) ∧
      s.manifest someDay = some [] ∧ (∀ rows, manifestText rows ≠ []) ∧ s.db.sealedOf someDay = none :=
  ⟨_, _, rfl, rfl, by decide, rfl, fun _ => List.cons_ne_nil _ _, rfl⟩

end

end SealCompletedDays

end VisitLogger
