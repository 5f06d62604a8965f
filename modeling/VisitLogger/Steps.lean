import VisitLogger.MoverSound

/-!
# Moving and sealing, call by call

`writeManifestFile`, `sealDirectory` and `moveOne` as processes on a shared
`Mac`: a phase names the call that comes next, and `next` makes it. A call that
throws has no next state. A process that nothing disturbs ends where the pass
does (`run_writeManifestFile`, `run_sealDirectory`, `run_moveOne`).
-/

namespace VisitLogger

open SnapshotMover (ManifestRow manifestFilename ignoredNames)

namespace Seal

/-! ## Writing a manifest -/

/-- Where `writeManifestFile` is: the call it makes next. -/
inductive WritePhase where
  | fileExists
  | setAttributes
  | removeItem
  | contentsOfDirectory
  | lookupEvent (files : List Text) (rows : List ManifestRow)
  | chmod
  | done
  deriving DecidableEq, Repr

def WritePhase.next (cfg : Config) (date : Text) (m : Mac) : WritePhase → Option (Mac × WritePhase)
  | .fileExists =>
    some (m, if manifestFilename ∈ (m.folder date).getD ∅ then .setAttributes else .contentsOfDirectory)
  -- try?
  | .setAttributes => (m.folder date).map fun dir =>
    match dir.lookup manifestFilename with
    | none => (m, .removeItem)
    | some old => (m.setFolder date (dir.insert manifestFilename (old.chmod 0o644)), .removeItem)
  | .removeItem => (m.folder date).bind fun dir =>
    if manifestFilename ∈ dir then some (m.setFolder date (dir.erase manifestFilename),
      .contentsOfDirectory) else none
  | .contentsOfDirectory => (m.folder date).map fun dir =>
    (m, .lookupEvent (sortStrings (dir.files (cfg.dateSubdir date))) [])
  | .lookupEvent (f :: files) rows => some (m,
      .lookupEvent files (rows ++ (listed m.db (cfg.dateSubdir date) f).toList))
  | .lookupEvent [] rows => (m.folder date).map fun dir =>
    (m.setFolder date (dir.insert manifestFilename (.file 0o644 (manifestText rows))), .chmod)
  | .chmod => (m.folder date).bind fun dir => (dir.lookup manifestFilename).map fun manifest =>
    (m.setFolder date (dir.insert manifestFilename (manifest.chmod 0o444)), .done)
  | .done => none

/-! ## Sealing -/

inductive SealPhase where
  | write (p : WritePhase)
  | moveItem
  | chmodLog
  | markSealed
  | done
  deriving DecidableEq, Repr

def SealPhase.next (cfg : Config) (date : Text) (m : Mac) : SealPhase → Option (Mac × SealPhase)
  | .write .done => some (m, if logFilename date ∈ m.logDir then .moveItem else .markSealed)
  | .write p => (p.next cfg date m).map fun r => (r.1, .write r.2)
  | .moveItem => (m.folder date).bind fun dir => (m.logDir.lookup (logFilename date)).bind fun log =>
    if logFilename date ∈ dir then none
    else
      some ({ m with logDir := m.logDir.erase (logFilename date) }.setFolder date
        (dir.insert (logFilename date) log), .chmodLog)
  | .chmodLog => (m.folder date).bind fun dir => (dir.lookup (logFilename date)).map fun log =>
    (m.setFolder date (dir.insert (logFilename date) (log.chmod 0o444)), .markSealed)
  | .markSealed => some ({ m with db := m.db.upsertSnapshot date 1 }, .done)
  | .done => none

end Seal

namespace Archive

/-! ## Moving -/

inductive MovePhase where
  | createDirectory
  | fileExists
  | removeItem
  | copyItem
  | chmodDest
  | update (t : EventsTable)
  | querySealed
  | insertSnapshot (isStraggler : Bool)
  | removeSource (isStraggler : Bool)
  | rewrite (p : Seal.WritePhase)
  | done
  deriving DecidableEq, Repr

def MovePhase.next (cfg : Config) (basename date : Text) (m : Mac) : MovePhase → Option (Mac × MovePhase)
  | .createDirectory => (m.createDirectory date).map (·, .fileExists)
  | .fileExists => (m.folder date).map fun dir =>
    match dir.lookup basename with
    | none => (m, .copyItem)
    | some dest => (m.setFolder date (dir.insert basename (dest.chmod 0o644)), .removeItem)
  | .removeItem => (m.folder date).bind fun dir =>
    if basename ∈ dir then some (m.setFolder date (dir.erase basename), .copyItem) else none
  | .copyItem => (m.folder date).bind fun dir => (m.downloads.lookup basename).bind fun source =>
    if basename ∈ dir then none else some (m.setFolder date (dir.insert basename source), .chmodDest)
  | .chmodDest => (m.folder date).bind fun dir => (dir.lookup basename).map fun dest =>
    (m.setFolder date (dir.insert basename (dest.chmod 0o444)), .update .read)
  | .update t => some
    ({ m with db := (m.db.updateDirectory t (cfg.dateSubdir date) basename cfg.downloadsSnapshotsDir).1 },
      match t with
      | .read => .update .skimmed
      | .skimmed => .querySealed)
  | .querySealed => some (m, .insertSnapshot (m.db.sealedOf date = some 1))
  | .insertSnapshot isStraggler => some ({ m with db := m.db.insertSnapshot date }, .removeSource isStraggler)
  | .removeSource isStraggler =>
    if basename ∈ m.downloads then
      some ({ m with downloads := m.downloads.erase basename },
        if isStraggler then .rewrite .fileExists else .done)
    else none
  | .rewrite p => (p.next cfg date m).map fun r => (r.1, .rewrite r.2)
  | .done => none

end Archive

/-! ## Processes that nothing disturbs -/

theorem Folder.erase_insert (dir : Folder) (name : Text) (node : Node) :
    (dir.insert name node).erase name = dir.erase name := by
  refine AList.ext ?_
  change (dir.insert name node).entries.kerase name = dir.entries.kerase name
  rw [AList.entries_insert]
  exact List.kerase_cons_eq rfl

theorem Folder.erase_of_notMem {dir : Folder} {name : Text} (h : name ∉ dir) : dir.erase name = dir :=
  AList.ext (List.kerase_of_notMem_keys h)

section
variable {σ : Type*} (next : σ → Option σ)

def Leads (s s' : σ) : Prop := Runs.Reaches (fun s (_ : Unit) => next s) (fun _ => True) s s'

variable {next}

theorem Leads.refl (s : σ) : Leads next s s := Runs.Reaches.refl s

theorem Leads.head {s t u : σ} (hs : next s = some t) (h : Leads next t u) : Leads next s u :=
  Runs.Reaches.next (a := ()) hs trivial h

theorem Leads.trans {s t u : σ} (h : Leads next s t) (h' : Leads next t u) : Leads next s u :=
  Runs.Reaches.trans h h'

theorem Leads.map {τ : Type*} {next' : τ → Option τ} (f : σ → τ)
    (hf : ∀ s t, next s = some t → next' (f s) = some (f t))
    {s t : σ} (h : Leads next s t) : Leads next' (f s) (f t) := by
  obtain ⟨acts, -, hr⟩ := h
  induction acts generalizing s with
  | nil =>
    cases hr
    exact refl _
  | cons a acts ih =>
    obtain ⟨u, hu, hr⟩ := Option.bind_eq_some_iff.mp hr
    exact head (hf s u hu) (ih hr)

end

theorem append_filterMap_cons {α β : Type} (row : α → Option β) (rows : List β) (f : α) (files : List α) :
    rows ++ (f :: files).filterMap row = rows ++ (row f).toList ++ files.filterMap row := by
  rw [List.filterMap_cons]
  cases row f <;> simp

namespace Seal

variable {cfg : Config} {date : Text} {m : Mac} {dir : Folder}

def writeStep (cfg : Config) (date : Text) (s : Mac × WritePhase) : Option (Mac × WritePhase) :=
  s.2.next cfg date s.1

theorem leads_lookupEvent (cfg : Config) (date : Text) (m : Mac) (files : List Text) (rows : List ManifestRow) :
    Leads (writeStep cfg date) (m, .lookupEvent files rows)
      (m, .lookupEvent [] (rows ++ files.filterMap (listed m.db (cfg.dateSubdir date)))) := by
  induction files generalizing rows with
  | nil =>
    rw [List.filterMap_nil, List.append_nil]
    exact .refl _
  | cons f files ih =>
    refine .head rfl ?_
    rw [append_filterMap_cons]
    exact ih _

theorem freshDir_erase (db : Db) (dateSubdir : Text) (dir : Folder) :
    freshDir db dateSubdir (dir.erase manifestFilename) = freshDir db dateSubdir dir := by
  have hn : manifestFilename ∉ dir.erase manifestFilename := fun h => (AList.mem_erase.mp h).1 rfl
  rw [freshDir, rowsNow, Folder.erase_of_notMem hn]
  rfl

theorem leads_list (cfg : Config) (hf : m.folder date = some dir) (hn : manifestFilename ∉ dir) :
    Leads (writeStep cfg date) (m, .contentsOfDirectory)
      (m.setFolder date (freshDir m.db (cfg.dateSubdir date) dir), .done) := by
  refine .head (t := (m, .lookupEvent (sortStrings (dir.files (cfg.dateSubdir date))) [])) ?_ ?_
  · rw [writeStep, WritePhase.next, hf]
    rfl
  refine (leads_lookupEvent cfg date m _ []).trans ?_
  rw [List.nil_append]
  refine .head (t := (m.setFolder date (dir.insert manifestFilename (.file 0o644 (manifestText
    ((sortStrings (dir.files (cfg.dateSubdir date))).filterMap (listed m.db (cfg.dateSubdir date)))))),
      .chmod)) ?_ ?_
  · rw [writeStep, WritePhase.next, hf]
    rfl
  refine .head ?_ (.refl _)
  rw [writeStep, WritePhase.next, Mac.folder_setFolder, Option.bind_some, AList.lookup_insert, Option.map_some,
    Mac.setFolder_setFolder, AList.insert_insert, freshDir, rowsNow, Folder.erase_of_notMem hn]
  rfl

theorem run_writeManifestFile (hf : m.folder date = some dir) : Leads (writeStep cfg date) (m, .fileExists)
    (m.setFolder date (freshDir m.db (cfg.dateSubdir date) dir), .done) := by
  by_cases hm : manifestFilename ∈ dir
  · obtain ⟨old, hold⟩ := Option.isSome_iff_exists.mp (AList.lookup_isSome.mpr hm)
    refine .head (t := (m, .setAttributes)) ?_ ?_
    · rw [writeStep, WritePhase.next, hf]
      simp [hm]
    refine .head (t := (m.setFolder date (dir.insert manifestFilename (old.chmod 0o644)), .removeItem)) ?_ ?_
    · rw [writeStep, WritePhase.next, hf, Option.map_some, hold]
    refine .head (t := (m.setFolder date (dir.erase manifestFilename), .contentsOfDirectory)) ?_ ?_
    · rw [writeStep, WritePhase.next, Mac.folder_setFolder, Option.bind_some,
        if_pos (by simp [AList.mem_insert]), Mac.setFolder_setFolder, Folder.erase_insert]
    have hn : manifestFilename ∉ dir.erase manifestFilename := fun h => (AList.mem_erase.mp h).1 rfl
    have hlist := leads_list cfg (Mac.folder_setFolder m date (dir.erase manifestFilename)) hn
    rwa [Mac.setFolder_setFolder, Mac.db_setFolder, freshDir_erase] at hlist
  · refine .head (t := (m, .contentsOfDirectory)) ?_ (leads_list cfg hf hm)
    rw [writeStep, WritePhase.next, hf]
    simp [hm]

def sealStep (cfg : Config) (date : Text) (s : Mac × SealPhase) : Option (Mac × SealPhase) :=
  s.2.next cfg date s.1

theorem sealStep_write (cfg : Config) (date : Text) (s t : Mac × WritePhase)
    (h : writeStep cfg date s = some t) :
    sealStep cfg date (s.1, .write s.2) = some (t.1, .write t.2) := by
  obtain ⟨m, p⟩ := s
  rw [writeStep] at h
  rw [sealStep]
  cases p with
  | done => cases h
  | _ =>
    rw [SealPhase.next, h]
    · rfl
    · nofun

theorem run_sealDirectory (hf : m.folder date = some dir) (hs : ¬Split date m.logDir dir) :
    Leads (sealStep cfg date) (m, .write .fileExists) ((sealDirectory noFaults cfg m date).1, .done) := by
  refine ((run_writeManifestFile hf).map _ (sealStep_write cfg date)).trans ?_
  rw [sealDirectory_noFaults hf, if_neg hs]
  by_cases hlog : logFilename date ∈ m.logDir
  · obtain ⟨log, hl⟩ := Option.isSome_iff_exists.mp (AList.lookup_isSome.mpr hlog)
    have hn : logFilename date ∉ freshDir m.db (cfg.dateSubdir date) dir := by
      rw [← AList.lookup_isSome, lookup_freshDir_ne _ _ _ (logFilename_ne_manifest date), AList.lookup_isSome]
      exact fun h => hs ⟨hlog, h⟩
    refine .head (t := (m.setFolder date (freshDir m.db (cfg.dateSubdir date) dir), .moveItem)) ?_ ?_
    · simp [sealStep, SealPhase.next, hlog]
    refine .head (t := (({ m with logDir := m.logDir.erase (logFilename date) } : Mac).setFolder date
      ((freshDir m.db (cfg.dateSubdir date) dir).insert (logFilename date) log), .chmodLog)) ?_ ?_
    · rw [sealStep, SealPhase.next, Mac.folder_setFolder, Option.bind_some, Mac.logDir_setFolder, hl,
        Option.bind_some, if_neg hn]
      simp [Mac.setFolder]
    refine .head (t := (({ m with logDir := m.logDir.erase (logFilename date) } : Mac).setFolder date
      ((freshDir m.db (cfg.dateSubdir date) dir).insert (logFilename date) (log.chmod 0o444)),
        .markSealed)) ?_ (.head rfl ?_)
    · rw [sealStep, SealPhase.next, Mac.folder_setFolder, Option.bind_some, AList.lookup_insert,
        Option.map_some, Mac.setFolder_setFolder, AList.insert_insert]
    rw [sealedDir, hl]
    exact .refl _
  · refine .head (t := (m.setFolder date (freshDir m.db (cfg.dateSubdir date) dir), .markSealed)) ?_
      (.head rfl ?_)
    · simp [sealStep, SealPhase.next, hlog]
    have hl : m.logDir.lookup (logFilename date) = none := AList.lookup_eq_none.mpr hlog
    rw [erase_of_none hl, sealedDir, hl]
    exact .refl _

end Seal

namespace Archive

variable {cfg : Config} {date name : Text} {m : Mac} {source : Node}

def moveStep (cfg : Config) (name date : Text) (s : Mac × MovePhase) : Option (Mac × MovePhase) :=
  s.2.next cfg name date s.1

theorem moveStep_rewrite (cfg : Config) (name date : Text) (s t : Mac × Seal.WritePhase)
    (h : Seal.writeStep cfg date s = some t) :
    moveStep cfg name date (s.1, .rewrite s.2) = some (t.1, .rewrite t.2) :=
  congrArg (Option.map fun r : Mac × Seal.WritePhase => (r.1, MovePhase.rewrite r.2)) h

theorem leads_copyItem (cfg : Config) {dir : Folder} (hf : m.folder date = some dir)
    (hs : m.downloads.lookup name = some source)
    (hn : name ∉ dir) : Leads (moveStep cfg name date) (m, .copyItem)
      (if m.db.sealedOf date = some 1 then
        (Seal.rewriteManifestForStraggler noFaults cfg (landed cfg m name date source) date, .rewrite .done)
      else (landed cfg m name date source, .done)) := by
  have hsealed := sealedOf_relocated cfg m.db name date date
  have hmem : name ∈ m.downloads := AList.lookup_isSome.mp (by rw [hs]; rfl)
  have hlanded : landed cfg m name date source =
      { (m.setFolder date (dir.insert name (source.chmod 0o444))) with
        downloads := m.downloads.erase name
        db := (relocated cfg m.db name date).insertSnapshot date } := by
    rw [landed, hf, Option.getD_some, Folder.erase_of_notMem hn]
    rfl
  refine .head (t := (m.setFolder date (dir.insert name source), .chmodDest)) ?_ ?_
  · rw [moveStep, MovePhase.next, hf, Option.bind_some, hs, Option.bind_some, if_neg hn]
  refine .head (t := (m.setFolder date (dir.insert name (source.chmod 0o444)), .update .read)) ?_ ?_
  · rw [moveStep, MovePhase.next, Mac.folder_setFolder, Option.bind_some, AList.lookup_insert, Option.map_some,
      Mac.setFolder_setFolder, AList.insert_insert]
  refine .head rfl (.head rfl ?_)
  dsimp only
  refine .head (t := ({ (m.setFolder date
    (dir.insert name (source.chmod 0o444))) with db := relocated cfg m.db name date }, .insertSnapshot (m.db.sealedOf date = some 1))) ?_
      (.head rfl ?_)
  · rw [moveStep, MovePhase.next]
    rw [← hsealed]
    rfl
  dsimp only
  refine .head (t := (landed cfg m name date source,
    if m.db.sealedOf date = some 1 then .rewrite .fileExists else .done)) ?_ ?_
  · rw [moveStep, MovePhase.next, hlanded]
    simp [hmem]
  split
  · have hfolder : (landed cfg m name date source).folder date =
      some (dir.insert name (source.chmod 0o444)) := by
      rw [hlanded]
      exact Mac.folder_setFolder _ _ _
    rw [Seal.rewriteManifest_noFaults hfolder]
    exact (Seal.run_writeManifestFile hfolder).map (fun s => (s.1, MovePhase.rewrite s.2))
      (moveStep_rewrite cfg name date)
  · exact .refl _

theorem run_moveOne (h : m.archive.lookup date ≠ some .plain) (hs : m.downloads.lookup name = some source) :
    Leads (moveStep cfg name date) (m, .createDirectory)
      ((moveOne noFaults cfg m name date).1,
        if m.db.sealedOf date = some 1 then .rewrite .done else .done) := by
  have hto : ∀ m' : Mac, m'.downloads = m.downloads → m'.db = m.db →
      landed cfg m' name date source = landed cfg m name date source →
        ∀ {dir : Folder}, m'.folder date = some dir → name ∉ dir →
      Leads (moveStep cfg name date) (m', .copyItem) ((moveOne noFaults cfg m name date).1,
        if m.db.sealedOf date = some 1 then .rewrite .done else .done) := by
    intro m' hd hdb hl dir hf hn
    have hlead := leads_copyItem cfg hf (hd ▸ hs) hn
    rw [hdb, hl] at hlead
    rw [moveOne_noFaults h hs]
    split at hlead
    · rename_i h1
      rwa [if_pos h1, if_pos h1]
    · rename_i h1
      rwa [if_neg h1, if_neg h1]
  cases ha : m.archive.lookup date with
  | none =>
    have hf : m.folder date = none := by rw [Mac.folder, ha]
    refine .head (t := (m.setFolder date ∅, .fileExists)) ?_
      (.head (t := (m.setFolder date ∅, .copyItem)) ?_ ?_)
    · rw [moveStep, MovePhase.next, Mac.createDirectory, ha]
      rfl
    · rw [moveStep, MovePhase.next, Mac.folder_setFolder]
      rfl
    · refine hto _ rfl rfl ?_ (Mac.folder_setFolder _ _ _) (AList.notMem_empty _)
      rw [landed, landed, Mac.folder_setFolder, hf]
      simp [Mac.setFolder, AList.insert_insert]
  | some site =>
    cases site with
    | plain => exact absurd ha h
    | folder dir =>
      have hf : m.folder date = some dir := by rw [Mac.folder, ha]
      refine .head (t := (m, .fileExists)) ?_ ?_
      · rw [moveStep, MovePhase.next, Mac.createDirectory, ha]
        rfl
      by_cases hn : name ∈ dir
      · obtain ⟨dest, hdest⟩ := Option.isSome_iff_exists.mp (AList.lookup_isSome.mpr hn)
        refine .head (t := (m.setFolder date (dir.insert name (dest.chmod 0o644)), .removeItem)) ?_ ?_
        · rw [moveStep, MovePhase.next, hf, Option.map_some, hdest]
        refine .head (t := (m.setFolder date (dir.erase name), .copyItem)) ?_ ?_
        · rw [moveStep, MovePhase.next, Mac.folder_setFolder, Option.bind_some,
            if_pos (by simp [AList.mem_insert]), Mac.setFolder_setFolder, Folder.erase_insert]
        · have he : name ∉ dir.erase name := fun h => (AList.mem_erase.mp h).1 rfl
          refine hto _ rfl rfl ?_ (Mac.folder_setFolder _ _ _) he
          rw [landed, landed, Mac.folder_setFolder, hf, Option.getD_some, Option.getD_some,
            Folder.erase_of_notMem he]
          simp [Mac.setFolder, AList.insert_insert]
      · refine .head (t := (m, .copyItem)) ?_ (hto m rfl rfl rfl hf hn)
        rw [moveStep, MovePhase.next, hf, Option.map_some, AList.lookup_eq_none.mpr hn]

end Archive

end VisitLogger
