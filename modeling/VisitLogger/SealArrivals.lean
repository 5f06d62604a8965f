import VisitLogger.Replicas
import VisitLogger.SealRunsSound
import VisitLogger.SealSound

/-!
# Snapshots that arrive before and after their day is sealed

Files come to the archive and rows to the canonical database in any order, and a
day counts as done once it has a manifest. A run that finds no manifest lists
every snapshot whose file and row are there when it starts (`arrived_listed`).
What comes later stays out of the manifest for good (`late_snapshot_not_listed`).
-/

namespace VisitLogger

namespace SealCompletedDays

open SnapshotMover

section
variable {cfg : Config} {s s' s₀ : State} {r : Run} {name : Text} {rest : List Text} {d : DayDir} {acts : List Act}

/-! ## What only grows -/

structure Grows (s s' : State) : Prop where
  files : ∀ n d, s.days.lookup n = some d → ∃ d', s'.days.lookup n = some d' ∧
    ∀ e ∈ d.dir.entries, e ∈ d'.dir.entries
  events : ∀ t, ∀ e ∈ s.db.events t, e ∈ s'.db.events t
  stamps : ∀ u v, s.db.stamp u = some v → s'.db.stamp u = some v

theorem Grows.of_eq (hdays : s'.days = s.days) (hdb : s'.db = s.db) : Grows s s' where
  files n d hd := ⟨d, by rw [hdays]; exact hd, fun _ he => he⟩
  events t e he := by rw [hdb]; exact he
  stamps u v hv := by rw [hdb]; exact hv

theorem Grows.refl (s : State) : Grows s s := .of_eq rfl rfl

theorem Grows.trans {s'' : State} (h : Grows s s') (h' : Grows s' s'') : Grows s s'' where
  files n d hd := by
    obtain ⟨d', hd', hsub⟩ := h.files n d hd
    obtain ⟨d'', hd'', hsub'⟩ := h'.files n d' hd'
    exact ⟨d'', hd'', fun e he => hsub' e (hsub e he)⟩
  events t e he := h'.events t e (h.events t e he)
  stamps u v hv := h'.stamps u v (h.stamps u v hv)

theorem grows_insert (hd : s.days.lookup name = some d) (d' : DayDir)
    (hsub : ∀ e ∈ d.dir.entries, e ∈ d'.dir.entries)
    (n : Text) (dn : DayDir) (hn : s.days.lookup n = some dn) :
    ∃ dn', (s.days.insert name d').lookup n = some dn' ∧ ∀ e ∈ dn.dir.entries, e ∈ dn'.dir.entries := by
  by_cases he : n = name
  · subst he
    obtain rfl : d = dn := Option.some.inj (hd.symm.trans hn)
    exact ⟨d', AList.lookup_insert _, hsub⟩
  · exact ⟨dn, (AList.lookup_insert_ne he).trans hn, fun _ h => h⟩

theorem events_upsertSnapshot (db : Db) (date : Text) (n : Nat) (t : EventsTable) :
    (db.upsertSnapshot date n).events t = db.events t := by
  unfold Db.upsertSnapshot
  split <;> cases t <;> rfl

theorem stamp_upsertSnapshot (db : Db) (date : Text) (n : Nat) (u : Text) :
    (db.upsertSnapshot date n).stamp u = db.stamp u := by
  unfold Db.upsertSnapshot
  split <;> rfl

/-- What the statements of a run see is the database, or will be with the next commit. -/
theorem RunInv.now_eq (h : RunInv cfg s₀ acts s r) (ht : r.todo = name :: rest) :
    s.now r = s.db ∨ s.now r = s.db.upsertSnapshot name 1 := by
  have htx := h.tx
  unfold TxInv at htx
  unfold State.now
  cases hp : r.phase with
  | commit =>
    rw [hp] at htx
    rw [htx name (by rw [ht]; rfl)]
    exact Or.inr rfl
  | _ =>
    rw [hp] at htx
    rw [htx]
    exact Or.inl rfl

theorem Grows.of_frame {todo : List Text} (h : Inv cfg s₀ acts s) (hr : s.run = some r)
    (ht : r.todo = name :: rest)
    (hf : Frame s s' r name todo) : Grows s s' := by
  have hdb : s'.db = s.db ∨ s'.db = s.db.upsertSnapshot name 1 := by
    rcases hf.db with hdb | hdb
    · exact Or.inl hdb
    · rw [hdb]
      exact (h.run r hr).now_eq ht
  refine ⟨?_, fun t e he => ?_, fun u v hv => ?_⟩
  · rcases hf.days with hdays | ⟨d, d', hd, hdays, hsub⟩
    · rw [hdays]
      exact (Grows.refl s).files
    · rw [hdays]
      exact grows_insert hd d' hsub
  · rcases hdb with hdb | hdb
    · rw [hdb]; exact he
    · rw [hdb, events_upsertSnapshot]; exact he
  · rcases hdb with hdb | hdb
    · rw [hdb]; exact hv
    · rw [hdb, stamp_upsertSnapshot]; exact hv

/-- **Step.** -/
theorem Grows.step {a : Act} (h : Inv cfg s₀ acts s) (hf : a.Faultless)
    (hstep : s' ∈ SealCompletedDays.step cfg s a) :
    Grows s s' := by
  cases a with
  | mkdir n =>
    obtain ⟨hnew, hstep⟩ := Option.ite_none_left_eq_some.mp hstep
    cases hstep
    refine ⟨fun m d hd => ⟨d, ?_, fun _ he => he⟩, fun _ _ he => he, fun _ _ h => h⟩
    have hne : m ≠ n := by
      rintro rfl
      rw [AList.lookup_eq_none.mpr hnew] at hd
      cases hd
    exact (AList.lookup_insert_ne hne).trans hd
  | file day n isFile =>
    obtain ⟨-, hstep⟩ := Option.ite_none_left_eq_some.mp hstep
    obtain ⟨d, hd, rfl⟩ := Option.map_eq_some_iff.mp hstep
    exact ⟨grows_insert hd _ fun _ h => mem_add h _ _, fun _ _ he => he, fun _ _ h => h⟩
  | log n =>
    cases hstep
    exact .of_eq rfl rfl
  | row o =>
    obtain ⟨-, hstep⟩ := Option.ite_none_left_eq_some.mp hstep
    cases hstep
    refine ⟨(Grows.refl s).files, fun t e he => Db.mem_events_apply.mpr (Or.inl he), fun u v hv => ?_⟩
    rw [Db.stamp_apply, hv]
    rfl
  | start today =>
    obtain ⟨-, rfl⟩ := step_start hstep
    exact .of_eq rfl rfl
  | next recorded =>
    obtain ⟨r, name, rest, d, hr, ht, hd, rfl⟩ := step_next hstep
    obtain ⟨todo, -, hframe⟩ := exists_frame_next cfg hd ht recorded
    exact .of_frame h hr ht hframe
  | write n =>
    obtain ⟨r, name, rest, d, text, hr, ht, hp, hd, rfl⟩ := step_write hstep
    exact .of_frame h hr ht (frame_setManifest hd _ r _)
  | fail recorded => exact absurd hf id
  | kill => exact absurd hf id
  | finish =>
    obtain ⟨r, hr, ht, rfl⟩ := step_finish hstep
    exact .of_eq rfl rfl

/-- **Run.** -/
theorem grows_run {more : List Act} (h : Inv cfg s₀ acts s)
    (hs : Runs.run (SealCompletedDays.step cfg) s₀ acts = some s)
    (hf : ∀ a ∈ more, a.Faultless) (hr : Runs.run (SealCompletedDays.step cfg) s more = some s') :
    Inv cfg s₀ (acts ++ more) s' ∧ Grows s s' := by
  have ho : Runs.Obeys (SealCompletedDays.step cfg) (fun _ a => a.Faultless) s more :=
    Runs.obeys_of_forall (fun a ha _ => hf a ha) s
  refine Runs.run_history (fun as s' => Inv cfg s₀ (acts ++ as) s' ∧ Grows s s') ?_
    ⟨by rw [List.append_nil]; exact h, Grows.refl s⟩ ho hr
  intro as t a t' ht h ha hstep
  have hrun : Runs.run (SealCompletedDays.step cfg) s₀ (acts ++ as) = some t := by
    rw [Runs.run_append, hs]
    exact ht
  rw [← List.append_assoc]
  exact ⟨h.1.step hrun (ha.allowed t) hstep, h.2.trans (Grows.step h.1 ha hstep)⟩

/-! ## The visit of an event row -/

/-- Also what is to be committed next has a visits row for each event row. -/
def Coherent (s : State) : Prop := s.db.Coherent ∧ ∀ r db, s.run = some r → r.tx = some db → db.Coherent

theorem Coherent.now (h : Coherent s) (hr : s.run = some r) : (s.now r).Coherent := by
  unfold State.now
  cases htx : r.tx with
  | none => exact h.1
  | some db => exact h.2 r db hr htx

theorem coherent_upsertSnapshot {db : Db} (h : db.Coherent) (date : Text) (n : Nat) :
    (db.upsertSnapshot date n).Coherent :=
  h.congr (Db.rows_upsertSnapshot db date n).symm

theorem Coherent.of_frame {todo : List Text} (h : Coherent s) (hr : s.run = some r)
    (hf : Frame s s' r name todo) :
    Coherent s' := by
  obtain ⟨r', hr', -, htx⟩ := hf.run
  refine ⟨?_, fun q db hq hdb => ?_⟩
  · rcases hf.db with hdb | hdb
    · rw [hdb]; exact h.1
    · rw [hdb]; exact h.now hr
  · obtain rfl : r' = q := Option.some.inj (hr'.symm.trans hq)
    rcases htx db hdb with htx | rfl
    · exact h.2 r db hr htx
    · exact coherent_upsertSnapshot (h.now hr) name 1

/-- **Step.** Also of a step that fails. -/
theorem Coherent.step {a : Act} (h : Coherent s) (hstep : s' ∈ SealCompletedDays.step cfg s a) :
    Coherent s' := by
  cases a with
  | mkdir n =>
    obtain ⟨-, hstep⟩ := Option.ite_none_left_eq_some.mp hstep
    cases hstep
    exact h
  | file day n isFile =>
    obtain ⟨-, hstep⟩ := Option.ite_none_left_eq_some.mp hstep
    obtain ⟨d, hd, rfl⟩ := Option.map_eq_some_iff.mp hstep
    exact h
  | log n =>
    cases hstep
    exact h
  | row o =>
    obtain ⟨-, hstep⟩ := Option.ite_none_left_eq_some.mp hstep
    cases hstep
    exact ⟨h.1.apply o, h.2⟩
  | start today =>
    obtain ⟨-, rfl⟩ := step_start hstep
    refine ⟨h.1, fun r db hr hdb => ?_⟩
    cases hr
    cases hdb
  | next recorded =>
    obtain ⟨r, name, rest, d, hr, ht, hd, rfl⟩ := step_next hstep
    obtain ⟨todo, -, hframe⟩ := exists_frame_next cfg hd ht recorded
    exact h.of_frame hr hframe
  | write n =>
    obtain ⟨r, name, rest, d, text, hr, ht, hp, hd, rfl⟩ := step_write hstep
    exact h.of_frame hr (frame_setManifest hd _ r _)
  | fail recorded =>
    obtain ⟨r, name, rest, hr, ht, -, rfl⟩ := step_fail hstep
    exact h.of_frame hr (frame_record s r name rest recorded .manifest)
  | kill =>
    obtain ⟨r, hr, rfl⟩ := Option.map_eq_some_iff.mp hstep
    exact ⟨h.1, nofun⟩
  | finish =>
    obtain ⟨r, hr, ht, rfl⟩ := step_finish hstep
    exact ⟨h.1, nofun⟩

theorem stamp_of_event {db : Db} (h : db.Coherent) {t : EventsTable} {e : Event} (he : e ∈ db.events t) :
    ∃ v, db.stamp e.url = some v := by
  have hu : e.url ∈ db.urls := h.visited t (e.url, e.timestamp) (List.mem_map.mpr ⟨e, he, rfl⟩)
  obtain ⟨v, hv, hvu⟩ := List.mem_map.mp hu
  have hsome : (db.visits.find? fun v => v.url = e.url).isSome := List.find?_isSome.mpr ⟨v, hv, by simp [hvu]⟩
  obtain ⟨w, hw⟩ := Option.isSome_iff_exists.mp hsome
  exact ⟨(w.timestamp, w.title), by rw [Db.stamp, Db.row, hw]; rfl⟩

theorem titleOf_stamp (db : Db) (u : Text) : titleOf db u = ((db.stamp u).map Prod.snd).getD [] := by
  rw [titleOf, Db.stamp, Db.row, Option.map_map]
  rfl

/-! ## Manifests that stay -/

/-- The day has a manifest, and the run under way, if there is one, is not at it. -/
def Left (name text : Text) (s : State) : Prop :=
  s.manifest name = some text ∧ ∀ r, s.run = some r → name ∉ r.todo

/-- **Step.** Also of a step that fails. -/
theorem Left.step {a : Act} {n text : Text} (h : Left n text s)
    (hstep : s' ∈ SealCompletedDays.step cfg s a) : Left n text s' := by
  have harrival : Arrival s s' → Left n text s' :=
    fun har => ⟨(har.manifest n).trans h.1, fun r hr => h.2 r (har.run ▸ hr)⟩
  have hcall : ∀ {r : Run} {name : Text} {rest todo : List Text}, s.run = some r →
    r.todo = name :: rest → todo ⊆ r.todo →
      Frame s s' r name todo → Left n text s' := by
    intro r name rest todo hr ht hsub hframe
    have hne : n ≠ name := by
      rintro rfl
      exact h.2 r hr (by rw [ht]; exact List.mem_cons_self)
    refine ⟨(hframe.manifest hne).trans h.1, fun q hq hn => ?_⟩
    obtain ⟨r', hr', rfl, -⟩ := hframe.run
    obtain rfl : r' = q := Option.some.inj (hr'.symm.trans hq)
    exact h.2 r hr (hsub hn)
  cases a with
  | mkdir name => exact harrival (step_mkdir hstep)
  | file day name isFile => exact harrival (step_file hstep)
  | log name => exact harrival (step_log hstep)
  | row o => exact harrival (step_row hstep)
  | start today =>
    obtain ⟨-, rfl⟩ := step_start hstep
    refine ⟨h.1, fun r hr hn => ?_⟩
    cases hr
    have hnone := (mem_candidates.mp hn).2.2.2
    rw [← State.manifest, h.1] at hnone
    cases hnone
  | next recorded =>
    obtain ⟨r, name, rest, d, hr, ht, hd, rfl⟩ := step_next hstep
    obtain ⟨todo, hsub, hframe⟩ := exists_frame_next cfg hd ht recorded
    exact hcall hr ht hsub hframe
  | write m =>
    obtain ⟨r, name, rest, d, done, hr, ht, hp, hd, rfl⟩ := step_write hstep
    exact hcall hr ht (List.Subset.refl r.todo) (frame_setManifest hd _ r _)
  | fail recorded =>
    obtain ⟨r, name, rest, hr, ht, -, rfl⟩ := step_fail hstep
    refine hcall hr ht ?_ (frame_record s r name rest recorded .manifest)
    rw [ht]
    exact List.subset_cons_self name rest
  | kill =>
    obtain ⟨r, hr, rfl⟩ := Option.map_eq_some_iff.mp hstep
    exact ⟨h.1, fun r hr => by cases hr⟩
  | finish =>
    obtain ⟨r, hr, ht, rfl⟩ := step_finish hstep
    exact ⟨h.1, fun r hr => by cases hr⟩

/-! ## The row of a file -/

def rowFor (db : Db) (b : Text) (t : EventsTable) (e : Event) : ManifestRow :=
  ⟨SnapshotMover.tsvSanitise b, t.tag, SnapshotMover.tsvSanitise e.timestamp, SnapshotMover.tsvSanitise e.url,
    SnapshotMover.tsvSanitise (titleOf db e.url)⟩

def OnlyRow (db : Db) (b : Text) (t : EventsTable) (e : Event) : Prop :=
  ∀ t', ∀ e' ∈ db.events t', e'.filename = b → t' = t ∧ e' = e

theorem recordedEvent_eq {db : Db} {b : Text} {t : EventsTable} {e : Event} (he : e ∈ db.events t)
    (hb : e.filename = b)
    (ho : OnlyRow db b t e) : db.recordedEvent b = some (t, e) := by
  have hfound : ∀ t' e', ((db.events t').find? fun e => e.filename = b) = some e' → t' = t ∧ e' = e :=
    fun t' e' hf =>
    ho t' e' (List.mem_of_find?_eq_some hf) (by simpa using List.find?_some hf)
  have hsome : ((db.events t).find? fun e => e.filename = b).isSome :=
    List.find?_isSome.mpr ⟨e, he, by simp [hb]⟩
  obtain ⟨e₀, he₀⟩ := Option.isSome_iff_exists.mp hsome
  obtain ⟨-, rfl⟩ := hfound t e₀ he₀
  rw [Db.recordedEvent, List.findSome?_cons, List.findSome?_cons, List.findSome?_nil]
  cases hr : (db.events .read).find? fun e => e.filename = b with
  | some e' =>
    obtain ⟨rfl, rfl⟩ := hfound .read e' hr
    rfl
  | none =>
    cases t with
    | read => rw [hr] at he₀; cases he₀
    | skimmed => rw [he₀]; rfl

theorem rowOf_recorded {db : Db} {b : Text} {t : EventsTable} {e : Event} (hb : snapshotFilenameRe b ≠ none)
    (h : db.recordedEvent b = some (t, e)) (dateSubdir : Text) :
      rowOf true db dateSubdir b = some (rowFor db b t e) := by
  rw [rowOf, if_neg hb, lookupEvent_recorded, h]
  rfl

theorem exists_of_forall₂ {α β : Type*} {R : α → β → Prop} {l : List α} {m : List β}
    (h : List.Forall₂ R l m) {x : α}
    (hx : x ∈ l) : ∃ y ∈ m, R x y := by
  induction h with
  | nil => cases hx
  | cons hxy _ ih =>
    rcases List.mem_cons.mp hx with rfl | hx
    · exact ⟨_, List.mem_cons_self, hxy⟩
    · obtain ⟨y, hy, hr⟩ := ih hx
      exact ⟨y, List.mem_cons_of_mem _ hy, hr⟩

/-- What a run gathers has a row for each file whose event row was there to begin with. -/
theorem Gathered.mem_row {root b : Text} {t : EventsTable} {e : Event} {v : Text × Text}
    {rows : List ManifestRow}
    (hinv : Inv ⟨root, true⟩ s₀ [] s₀) (hr : Runs.run (SealCompletedDays.step ⟨root, true⟩) s₀ acts = some s)
    (hf : ∀ a ∈ acts, a.Faultless) (hg : Gathered ⟨root, true⟩ s₀ acts name [] rows)
    (hd : s₀.days.lookup name = some d)
    (hfile : (b, true) ∈ d.dir.entries) (hb : snapshotFilenameRe b ≠ none) (he : e ∈ s₀.db.events t)
    (hname : e.filename = b) (ho : OnlyRow s.db b t e) (hv : s₀.db.stamp e.url = some v) :
      rowFor s₀.db b t e ∈ rows := by
  obtain ⟨before, done, found, ⟨hbefore, s₁, r, d₁, hr₁, -, -, -, hd₁, hfiles⟩, hlook, rfl⟩ := hg
  rw [List.append_nil] at hfiles
  obtain ⟨-, hgrow₁⟩ := grows_run hinv rfl (fun a ha => hf a (hbefore.subset ha)) hr₁
  have hdone : b ∈ done := by
    obtain ⟨d', hd', hsub⟩ := hgrow₁.files name d hd
    obtain rfl : d₁ = d' := Option.some.inj (hd₁.symm.trans hd')
    rw [hfiles]
    exact mem_manifestFiles hb (hsub _ hfile)
  obtain ⟨row, hrow, upTo, s₂, -, ⟨more, rfl⟩, hr₂, hlooked⟩ := exists_of_forall₂ hlook hdone
  obtain ⟨hinv₂, hgrow₂⟩ := grows_run hinv rfl (fun a ha => hf a (List.mem_append_left more ha)) hr₂
  have hr₃ : Runs.run (SealCompletedDays.step ⟨root, true⟩) s₂ more = some s := by
    rw [Runs.run_append, hr₂] at hr
    exact hr
  obtain ⟨-, hgrow₃⟩ := grows_run hinv₂ hr₂ (fun a ha => hf a (List.mem_append_right upTo ha)) hr₃
  have ho₂ : OnlyRow s₂.db b t e := fun t' e' he' => ho t' e' (hgrow₃.events t' e' he')
  have hrec : s₂.db.recordedEvent b = some (t, e) := recordedEvent_eq (hgrow₂.events t e he) hname ho₂
  have htitle : titleOf s₂.db e.url = titleOf s₀.db e.url := by
    rw [titleOf_stamp, titleOf_stamp, hv, hgrow₂.stamps e.url v hv]
  have hsome : row = some (rowFor s₀.db b t e) := by
    rw [hlooked, rowOf_recorded hb hrec, rowFor, rowFor, htitle]
  rw [hsome] at hrow
  exact List.mem_filterMap.mpr ⟨_, hrow, rfl⟩

end

/-- **A snapshot is listed when its file and row are there in time.** The day has
no manifest when a run without faults starts, and by then has the file, and the
database its event row. The run's manifest lists the file with that event, and
no later step changes the manifest, of whatever run. -/
theorem arrived_listed (root defaultDirectory : Text) {before during : List Act} {today : Text} {s₁ s : State}
    (hr₁ : Runs.run (step ⟨root, true⟩) (.init defaultDirectory) before = some s₁)
    (hr : Runs.run (step ⟨root, true⟩) s₁ (.start today :: (during ++ [.finish])) = some s)
    (hf : ∀ a ∈ during, a.Faultless)
    {day b : Text} {d : DayDir} {t : EventsTable} {e : Event} (hd : s₁.days.lookup day = some d)
    (hdate : dateDirRe day = true)
    (hlt : day < today) (hnone : d.manifest = none) (hfile : (b, true) ∈ d.dir.entries)
    (hb : snapshotFilenameRe b ≠ none)
    (he : e ∈ s₁.db.events t) (hname : e.filename = b) (ho : OnlyRow s.db b t e) :
    ∃ rows, s.manifest day = some (manifestText rows) ∧ rowFor s₁.db b t e ∈ rows ∧
      ∀ after s', Runs.run (step ⟨root, true⟩) s after = some s' →
        s'.manifest day = some (manifestText rows) := by
  have hcoh : Coherent s₁ := by
    have h₀ : Coherent (.init defaultDirectory) := ⟨Db.coherent_empty defaultDirectory, nofun⟩
    exact Runs.run_invariant (fun _ _ _ h (_ : True) hs => Coherent.step h hs) h₀
      (Runs.obeys_of_forall (fun _ _ _ => trivial) _) hr₁
  obtain ⟨s₂, hs₂, hr₂⟩ := Option.bind_eq_some_iff.mp
    (show (step ⟨root, true⟩ s₁ (.start today)).bind
      (fun t => Runs.run (step ⟨root, true⟩) t (during ++ [.finish])) = some s from hr)
  have hinv : Inv ⟨root, true⟩ s₁ [] s₁ := Inv.start_of (step_start hs₂).1
  have hall : ∀ a ∈ (.start today :: (during ++ [.finish]) : List Act), a.Faultless := by
    intro a ha
    rcases List.mem_cons.mp ha with rfl | ha
    · trivial
    rcases List.mem_append.mp ha with ha | ha
    · exact hf a ha
    · obtain rfl := List.mem_singleton.mp ha
      trivial
  have hmem : day ∈ s₁.days := AList.lookup_isSome.mp (by rw [hd]; rfl)
  have hover : s.run = none := run_over hr₂
  obtain ⟨text, htext, ⟨⟨rows, rfl, hg⟩, -⟩ | h0⟩ := faultless_run hinv rfl hr hf hmem hdate hlt
  · obtain ⟨v, hv⟩ := stamp_of_event hcoh.1 he
    refine ⟨rows, htext, hg.mem_row hinv hr hall hd hfile hb he hname ho hv, fun after s' hr' => ?_⟩
    have hleft : Left day (manifestText rows) s := ⟨htext, fun r hr => by rw [hover] at hr; cases hr⟩
    have hleft' : Left day (manifestText rows) s' :=
      Runs.run_invariant (fun _ _ _ h (_ : True) hs => Left.step h hs) hleft
        (Runs.obeys_of_forall (fun _ _ _ => trivial) _) hr'
    exact hleft'.1
  · rw [State.manifest, hd] at h0
    cases hnone.symm.trans h0

/-! ## Two histories -/

def someVisit : Op := ⟨ascii "2024-05-01T12:00:00Z", ascii "https://a.example/", ascii "A",
    .event .read someSnapshot []⟩

def someEvent : Event := ⟨someVisit.url, someVisit.timestamp, someSnapshot, []⟩

def snapshotArrives : List Act := [.file someDay someSnapshot true, .row someVisit]

def sealEmptyDay : List Act := List.replicate 10 (.next true)

def sealOneFile : List Act := List.replicate 11 (.next true)

theorem arrived_listed_inTime :
    ∃ s₁ s, Runs.run (step archive) (.init []) (.mkdir someDay :: snapshotArrives) = some s₁ ∧
      Runs.run (step archive) s₁ (.start nextDay :: (sealOneFile ++ [.finish])) = some s ∧
      ∃ rows, s.manifest someDay = some (manifestText rows) ∧ rowFor s₁.db someSnapshot .read someEvent ∈ rows ∧
        ∀ after s', Runs.run (step archive) s after = some s' →
          s'.manifest someDay = some (manifestText rows) := by
  have hf : ∀ a ∈ sealOneFile, a.Faultless := by
    intro a ha
    obtain rfl := List.eq_of_mem_replicate ha
    trivial
  refine ⟨_, _, rfl, rfl, @arrived_listed (ascii "/mnt/gdrive-snapshots") []
    (.mkdir someDay :: snapshotArrives) sealOneFile
    nextDay _ _ rfl rfl hf someDay someSnapshot _ .read someEvent rfl (by decide) (by decide) rfl
      (by decide) (by decide)
    (by decide) rfl ?_⟩
  intro t' e' he' _
  cases t' with
  | read => exact ⟨rfl, List.mem_singleton.mp he'⟩
  | skimmed => cases he'

/-- The day is sealed before the snapshot arrives, and the next run passes it by. -/
theorem late_snapshot_not_listed :
    ∃ s₁ s, Runs.run (step archive) (.init [])
        (.mkdir someDay :: .start nextDay :: (sealEmptyDay ++ .finish :: snapshotArrives)) = some s₁ ∧
      Runs.run (step archive) s₁ [.start nextDay, .finish] = some s ∧
      ((∃ d, s₁.days.lookup someDay = some d ∧ (someSnapshot, true) ∈ d.dir.entries) ∧
        someEvent ∈ s₁.db.events .read ∧
        OnlyRow s.db someSnapshot .read someEvent ∧ dateDirRe someDay = true ∧ someDay < nextDay) ∧
      ¬∃ rows, s.manifest someDay = some (manifestText rows) ∧
        rowFor s₁.db someSnapshot .read someEvent ∈ rows := by
  refine ⟨_, _, rfl, rfl, ⟨⟨_, rfl, by decide⟩, by decide, ?_, by decide, by decide⟩, ?_⟩
  · intro t' e' he' _
    cases t' with
    | read => exact ⟨rfl, List.mem_singleton.mp he'⟩
    | skimmed => cases he'
  · rintro ⟨rows, hrows, hrow⟩
    have hempty : manifestText [] = manifestText rows := Option.some.inj hrows
    have hnil : Framing.unlines nl (rows.map fun r => joinTabs r.fields) = [] := by
      rw [manifestText, manifestText, tsvText, tsvText, Framing.unlines_cons, Framing.unlines_cons] at hempty
      exact (List.cons.inj (List.append_cancel_left hempty)).2.symm
    cases rows with
    | nil => cases hrow
    | cons r rows => simp at hnil

end SealCompletedDays

end VisitLogger
