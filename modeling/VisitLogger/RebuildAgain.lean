import VisitLogger.ReplayAccounts
import VisitLogger.Rehydrate

/-!
# Rebuilding again

A rebuild that keeps the tables changes a database that it has rebuilt before in nothing (`rebuild_again`). The
replay finds the visits and the keys of the events, wherever the events are now; rehydrating finds the dates
sealed as it sealed them, and no event in Downloads that the archive has a file of.
-/

namespace VisitLogger

theorem Db.ext_events {a b : Db} (hv : a.visits = b.visits) (he : ∀ t, a.events t = b.events t)
    (hs : a.snapshots = b.snapshots) (hd : a.defaultDirectory = b.defaultDirectory) : a = b := by
  have hread : a.readEvents = b.readEvents := he .read
  have hskimmed : a.skimmedEvents = b.skimmedEvents := he .skimmed
  cases a; cases b
  simp_all

/-! ## Dates again -/

/-- `upsertSnapshot`, on the rows. -/
def upsertRow (rows : List (Text × Nat)) (u : Text × Nat) : List (Text × Nat) :=
  if Table.has Prod.fst u.1 rows then (Table.updateWhere (fun s => s.1 = u.1) (fun s => (s.1, u.2)) rows).1
  else rows ++ [u]

theorem Db.snapshots_upsertSnapshot (db : Db) (date : Text) (n : Nat) :
    (db.upsertSnapshot date n).snapshots = upsertRow db.snapshots (date, n) := by
  unfold upsertSnapshot upsertRow
  split <;> rfl

def setSealed (s u : Text × Nat) : Text × Nat := if s.1 = u.1 then (s.1, u.2) else s

theorem fst_setSealed (s u : Text × Nat) : (setSealed s u).1 = s.1 := by
  unfold setSealed
  split <;> rfl

theorem fst_foldl_setSealed (us : List (Text × Nat)) (s : Text × Nat) : (us.foldl setSealed s).1 = s.1 := by
  induction us generalizing s with
  | nil => rfl
  | cons u us ih => rw [List.foldl_cons, ih, fst_setSealed]

theorem upsertRow_of_mem {rows : List (Text × Nat)} {u : Text × Nat} (h : u.1 ∈ rows.map Prod.fst) :
    upsertRow rows u = rows.map (setSealed · u) := by
  rw [upsertRow, if_pos ((Table.has_iff Prod.fst).mpr h)]
  refine List.map_congr_left fun s _ => ?_
  simp only [setSealed, decide_eq_true_eq]

theorem upsertRow_of_notMem {rows : List (Text × Nat)} {u : Text × Nat} (h : u.1 ∉ rows.map Prod.fst) :
    upsertRow rows u = rows ++ [u] := by
  rw [upsertRow, if_neg fun c => h ((Table.has_iff Prod.fst).mp c)]

theorem mem_keys_upsertRow {rows : List (Text × Nat)} {u : Text × Nat} {d : Text} :
    d ∈ (upsertRow rows u).map Prod.fst ↔ d ∈ rows.map Prod.fst ∨ d = u.1 := by
  by_cases h : u.1 ∈ rows.map Prod.fst
  · have hkeys : (rows.map (setSealed · u)).map Prod.fst = rows.map Prod.fst := by
      rw [List.map_map]
      exact List.map_congr_left fun s _ => fst_setSealed s u
    rw [upsertRow_of_mem h, hkeys]
    exact ⟨Or.inl, fun hd => hd.elim id fun e => e ▸ h⟩
  · rw [upsertRow_of_notMem h]
    simp

theorem mem_keys_foldl_upsertRow {us rows : List (Text × Nat)} {d : Text} :
    d ∈ (us.foldl upsertRow rows).map Prod.fst ↔ d ∈ rows.map Prod.fst ∨ d ∈ us.map Prod.fst := by
  induction us generalizing rows with
  | nil => simp
  | cons u us ih => rw [List.foldl_cons, ih, mem_keys_upsertRow, List.map_cons, List.mem_cons, or_assoc]

theorem foldl_upsertRow_of_mem {us rows : List (Text × Nat)} (h : ∀ u ∈ us, u.1 ∈ rows.map Prod.fst) :
    us.foldl upsertRow rows = rows.map fun s => us.foldl setSealed s := by
  induction us generalizing rows with
  | nil => simp
  | cons u us ih =>
    have hkeys : ∀ v ∈ us, v.1 ∈ (upsertRow rows u).map Prod.fst := fun v hv =>
      mem_keys_upsertRow.mpr (Or.inl (h v (List.mem_cons_of_mem _ hv)))
    rw [List.foldl_cons, ih hkeys, upsertRow_of_mem (h u (by simp)), List.map_map]
    rfl

/-- Each row has the last value of its date already. -/
theorem setSealed_of_upserted {us rows : List (Text × Nat)} {s : Text × Nat} (h : s ∈ us.foldl upsertRow rows) :
    us.foldl setSealed s = s := by
  induction us using List.reverseRecOn generalizing s with
  | nil => rfl
  | append_singleton us u ih =>
    rw [List.foldl_append, List.foldl_cons, List.foldl_nil] at h ⊢
    by_cases hu : u.1 ∈ (us.foldl upsertRow rows).map Prod.fst
    · rw [upsertRow_of_mem hu] at h
      obtain ⟨s', hs', rfl⟩ := List.mem_map.mp h
      by_cases hdate : s'.1 = u.1
      · have hs : setSealed s' u = (s'.1, u.2) := if_pos hdate
        rw [hs, setSealed, fst_foldl_setSealed, if_pos hdate]
      · have hs : setSealed s' u = s' := if_neg hdate
        rw [hs, ih hs', hs]
    · rw [upsertRow_of_notMem hu] at h
      rcases List.mem_append.mp h with hs | hs
      · have hdate : s.1 ≠ u.1 := fun e => hu (List.mem_map.mpr ⟨s, hs, e⟩)
        rw [ih hs]
        exact if_neg hdate
      · rw [List.mem_singleton.mp hs, setSealed, fst_foldl_setSealed, if_pos rfl]

/-- **Sealing the same dates again changes nothing.** -/
theorem foldl_upsertRow_again (us rows : List (Text × Nat)) :
    us.foldl upsertRow (us.foldl upsertRow rows) = us.foldl upsertRow rows := by
  have hkeys : ∀ u ∈ us, u.1 ∈ (us.foldl upsertRow rows).map Prod.fst := fun u hu =>
    mem_keys_foldl_upsertRow.mpr (Or.inr (List.mem_map_of_mem hu))
  rw [foldl_upsertRow_of_mem hkeys]
  exact (List.map_congr_left fun s hs => setSealed_of_upserted hs).trans (List.map_id _)

namespace VisitsRebuilder

/-! ## Rehydrating again -/

section
variable (icloudDir downloads : Text)

/-- The dates that rehydrating upserts, with what it finds of their manifest. -/
def sealedDates (archive : Archive) : List (Text × Nat) :=
  (archive.insertionSort fun a b => a.1 ≤ b.1).flatMap fun e =>
    match e.2 with
    | some dateDir => if dateDirRe e.1 then [(e.1,
        if manifestFilename ∈ dateDir.map Prod.fst then 1 else 0)] else []
    | none => []

theorem snapshots_rehydrateDate (s : Db × RehydrateStats) (entry : Text) (dateDir : Dir) :
    (rehydrateDate icloudDir downloads s entry dateDir).1.snapshots =
      upsertRow s.1.snapshots (entry, if manifestFilename ∈ dateDir.map Prod.fst then 1 else 0) := by
  unfold rehydrateDate
  refine List.foldlRecOn (motive := fun (x : Db × RehydrateStats) => x.1.snapshots = _) _ _ ?_ ?_
  · exact Db.snapshots_upsertSnapshot _ _ _
  · intro s' hs' fname _
    simp only [relocateFile, Db.snapshots_updateDirectory, hs']

theorem snapshots_rehydrateFilesystem (db : Db) (archive : Archive) :
    (rehydrateFilesystem icloudDir downloads db (some archive)).1.snapshots =
      (sealedDates archive).foldl upsertRow db.snapshots := by
  unfold rehydrateFilesystem sealedDates
  dsimp only
  generalize archive.insertionSort (fun a b => a.1 ≤ b.1) = entries
  suffices h : ∀ s : Db × RehydrateStats, (entries.foldl (fun s e =>
      match e.2 with
      | some dateDir => if dateDirRe e.1 then rehydrateDate icloudDir downloads s e.1 dateDir else s
      | none => s) s).1.snapshots = (entries.flatMap fun e =>
        match e.2 with
        | some dateDir => if dateDirRe e.1 then [(e.1,
            if manifestFilename ∈ dateDir.map Prod.fst then 1 else 0)] else []
        | none => []).foldl upsertRow s.1.snapshots from h (db, {})
  intro s
  induction entries generalizing s with
  | nil => rfl
  | cons e entries ih =>
    rw [List.foldl_cons, ih, List.flatMap_cons, List.foldl_append]
    obtain ⟨entry, _ | dateDir⟩ := e
    · rfl
    · dsimp only
      split
      · rw [snapshots_rehydrateDate]
        rfl
      · rfl

theorem moveEvents_again (ms : List (Text × Text)) (e : Event) :
    ms.foldl (moveEvent downloads) (ms.foldl (moveEvent downloads) e) = ms.foldl (moveEvent downloads) e := by
  have hfile : ∀ (ms : List (Text × Text)) (e : Event), (ms.foldl (moveEvent downloads) e).filename =
    e.filename := by
    intro ms
    induction ms with
    | nil => exact fun _ => rfl
    | cons m ms ih =>
      intro e
      rw [List.foldl_cons, ih]
      unfold moveEvent
      split <;> rfl
  have haway : ∀ (ms : List (Text × Text)) (e : Event), e.directory ≠ downloads →
      ms.foldl (moveEvent downloads) e = e := by
    intro ms e he
    induction ms with
    | nil => rfl
    | cons m ms ih =>
      have hm : moveEvent downloads e m = e := by simp [moveEvent, he]
      rw [List.foldl_cons, hm, ih]
  by_cases hd : (ms.foldl (moveEvent downloads) e).directory = downloads
  · refine moved_stays downloads fun m hm hf => ?_
    rw [hfile] at hf
    -- otherwise the first pass would have moved the event out of Downloads
    by_contra hne
    rw [hd] at hne
    obtain ⟨before, after, rfl⟩ := List.append_of_mem hm
    rw [List.foldl_append, List.foldl_cons] at hd
    by_cases hbefore : (before.foldl (moveEvent downloads) e).directory = downloads
    · have hmove : moveEvent downloads (before.foldl (moveEvent downloads) e) m =
          { before.foldl (moveEvent downloads) e with directory := m.1 } := by
        simp [moveEvent, hfile, hf, hbefore]
      rw [hmove, haway after _ hne] at hd
      exact hne hd
    · have hmove : moveEvent downloads (before.foldl (moveEvent downloads) e) m =
        before.foldl (moveEvent downloads) e := by
        simp [moveEvent, hbefore]
      rw [hmove, haway after _ hbefore] at hd
      exact hbefore hd
  · exact haway ms _ hd

theorem visits_rehydrateFilesystem (db : Db) (archive : Option Archive) :
    (rehydrateFilesystem icloudDir downloads db archive).1.visits = db.visits :=
  congrArg Prod.fst (rows_rehydrateFilesystem icloudDir downloads db archive)

theorem defaultDirectory_rehydrateFilesystem (db : Db) (archive : Option Archive) :
    (rehydrateFilesystem icloudDir downloads db archive).1.defaultDirectory = db.defaultDirectory := by
  refine rehydrateFilesystem_same icloudDir downloads Db.defaultDirectory ?_ ?_ db archive
  · intro db date n
    unfold Db.upsertSnapshot
    split <;> rfl
  · intro db t directory filename old
    cases t <;> rfl

theorem rehydrateFilesystem_again (db : Db) (archive : Option Archive) :
    (rehydrateFilesystem icloudDir downloads (rehydrateFilesystem icloudDir downloads db archive).1 archive).1 =
      (rehydrateFilesystem icloudDir downloads db archive).1 := by
  cases archive with
  | none => rfl
  | some archive =>
    refine Db.ext_events (visits_rehydrateFilesystem _ _ _ _) (fun t => ?_) ?_
      (defaultDirectory_rehydrateFilesystem _ _ _ _)
    · rw [events_rehydrateFilesystem, events_rehydrateFilesystem, List.map_map]
      exact List.map_congr_left fun e _ => moveEvents_again downloads _ e
    · rw [snapshots_rehydrateFilesystem, snapshots_rehydrateFilesystem, foldl_upsertRow_again]

/-! ## The replay after rehydrating -/

theorem has_of_rows {a b : Db} (h : a.rows = b.rows) {o : Op} (ho : a.Has o) : b.Has o := by
  have hv : a.visits = b.visits := congrArg Prod.fst h
  have hk : ∀ t, a.keys t = b.keys t := congrFun (congrArg Prod.snd h)
  refine ⟨?_, fun hm => ?_, fun t f d hm => ?_⟩
  · rw [Db.urls, ← hv]
    exact ho.url
  · rw [Db.HasMark, ← hv]
    exact ho.ofInterest hm
  · rw [← hk]
    exact ho.event t f d hm

theorem replayLogs_of_has {db : Db} {logDir : Option Dir} {icloudDir : Option (List (Text × Option Dir))}
    (hdates : ∀ file ∈ collectLogPaths logDir icloudDir, file.1 ∈ db.snapshots.map Prod.fst)
    (hops : ∀ o ∈ actionOps downloads (applied (logLines logDir icloudDir)), db.Has o) :
    (replayLogs downloads db logDir icloudDir).1 = db := by
  have hsame : ((collectLogPaths logDir icloudDir).map Prod.fst).foldl Db.insertSnapshot db = db := by
    generalize collectLogPaths logDir icloudDir = files at hdates ⊢
    induction files with
    | nil => rfl
    | cons file files ih =>
      rw [List.map_cons, List.foldl_cons, Db.insertSnapshot_of_mem (hdates file (by simp))]
      exact ih fun file hf => hdates file (List.mem_cons_of_mem _ hf)
  rw [replayLogs_db, hsame]
  exact Db.ops_of_has hops

theorem mem_insertSnapshots {dates : List Text} {d : Text} (h : d ∈ dates) (db : Db) :
    d ∈ (dates.foldl Db.insertSnapshot db).snapshots.map Prod.fst := by
  have hmono : ∀ (dates : List Text) (db : Db), d ∈ db.snapshots.map Prod.fst →
      d ∈ (dates.foldl Db.insertSnapshot db).snapshots.map Prod.fst := by
    intro dates
    induction dates with
    | nil => exact fun _ hd => hd
    | cons date dates ih =>
      intro db hd
      exact ih _ ((Table.mem_keys_insertOrIgnore _).mpr (Or.inl hd))
  induction dates generalizing db with
  | nil => cases h
  | cons date dates ih =>
    rw [List.foldl_cons]
    rcases List.mem_cons.mp h with rfl | h
    · exact hmono dates _ (Db.mem_insertSnapshot db d)
    · exact ih h _

/-- **A second rebuild changes nothing**, when the tables are kept. -/
theorem rebuild_again (opts : Options) (db : Db) (logDir : Option Dir) (archive : Option Archive) :
    let again := { opts with truncate := false }
    (rebuild icloudDir downloads again (rebuild icloudDir downloads again db logDir archive).1 logDir archive).1 =
      (rebuild icloudDir downloads again db logDir archive).1 := by
  intro again
  -- what a replay has done stays done, whatever is moved afterwards
  have hreplay : ∀ db' : Db, db'.rows = (replayLogs downloads db logDir archive).1.rows →
      (∀ d, d ∈ (replayLogs downloads db logDir archive).1.snapshots.map Prod.fst →
        d ∈ db'.snapshots.map Prod.fst) →
      (replayLogs downloads db' logDir archive).1 = db' := by
    intro db' hrows hsnap
    rw [replayLogs_db] at hrows hsnap
    refine replayLogs_of_has downloads (fun file hf => hsnap _ ?_) fun o ho => ?_
    · rw [Db.snapshots_ops]
      exact mem_insertSnapshots (List.mem_map_of_mem hf) db
    · exact has_of_rows hrows.symm (Db.has_ops ho _)
  have hkeys : ∀ (db' : Db) d, d ∈ db'.snapshots.map Prod.fst →
      d ∈ (rehydrateFilesystem icloudDir downloads db' archive).1.snapshots.map Prod.fst := by
    intro db' d hd
    cases archive with
    | none => exact hd
    | some archive =>
      rw [snapshots_rehydrateFilesystem]
      exact mem_keys_foldl_upsertRow.mpr (Or.inl hd)
  obtain ⟨doLog, doRehydrate, truncate⟩ := opts
  unfold rebuild
  dsimp only [again]
  cases doLog with
  | false =>
    cases doRehydrate with
    | false => rfl
    | true => exact rehydrateFilesystem_again icloudDir downloads db archive
  | true =>
    cases doRehydrate with
    | false => exact hreplay _ rfl fun _ hd => hd
    | true =>
      have hagain := hreplay (rehydrateFilesystem icloudDir downloads
        (replayLogs downloads db logDir archive).1 archive).1
        (rows_rehydrateFilesystem icloudDir downloads _ archive) (hkeys _)
      simp only [Bool.false_eq_true, if_false, if_true, Option.map_some, Option.getD_some]
      rw [hagain]
      exact rehydrateFilesystem_again icloudDir downloads _ archive

end

end VisitsRebuilder

end VisitLogger
