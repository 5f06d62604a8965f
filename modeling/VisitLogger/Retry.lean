import VisitLogger.Drain
import VisitLogger.Listing

/-!
# A file in later ticks

What sweeps and seals do to one snapshot. While it waits in Downloads, the next
sweep moves it (`Waiting.tick`); once it is in the directory of its date, it
stays there, and a sealed date lists it if it did so before, or if another
snapshot of the date comes in (`moved_ticks_iff`).
-/

namespace VisitLogger

open SnapshotMover (ManifestRow manifestFilename ignoredNames)

def Mac.entry (m : Mac) (date name : Text) : Option Node := (m.folder date).bind (·.lookup name)

theorem Mac.entry_setFolder (m : Mac) (date name : Text) (dir : Folder) :
    (m.setFolder date dir).entry date name = dir.lookup name := by
  rw [entry, folder_setFolder, Option.bind_some]

theorem SnapshotName.isSkipped {name : Text} (h : isValid name = true) (dateSubdir : Text) :
    isSkipped dateSubdir name = false := by
  have hm : name ≠ manifestFilename := ne_manifestFilename h
  have hl : some name ≠ expectedLog dateSubdir := by
    unfold expectedLog
    dsimp only
    split
    · exact fun he => ne_logFilename h _ (Option.some.inj he)
    · exact Option.some_ne_none name
  have hi : name ∉ ignoredNames := by
    intro hi
    obtain rfl := List.mem_singleton.mp hi
    revert h
    decide
  simp [VisitLogger.isSkipped, hm, hl, hi]

namespace Archive

def movedEvent (cfg : Config) (name date : Text) (e : Event) : Event :=
  VisitsRebuilder.moveEvent cfg.downloadsSnapshotsDir e (cfg.dateSubdir date, name)

/-- The file has an event row in Downloads or in the directory of its date. -/
def Recorded (cfg : Config) (db : Db) (name date : Text) : Prop :=
  ∃ t ∈ [EventsTable.read, .skimmed], ∃ e ∈ Seal.eventsOf db t name,
    e.directory = cfg.downloadsSnapshotsDir ∨ e.directory = cfg.dateSubdir date

instance (cfg : Config) (db : Db) (name date : Text) : Decidable (Recorded cfg db name date) :=
  inferInstanceAs (Decidable (∃ t ∈ [EventsTable.read, .skimmed], ∃ e ∈ Seal.eventsOf db t name, _))

section
variable (cfg : Config) (name date : Text) (source : Node) (m₀ : Mac)

def target (t : EventsTable) : List Event := (Seal.eventsOf m₀.db t name).map (movedEvent cfg name date)

structure Waiting (m : Mac) : Prop where
  source : m.downloads.lookup name = some source
  site : m.archive.lookup date ≠ some .plain
  events : ∀ t, (Seal.eventsOf m.db t name).map (movedEvent cfg name date) = target cfg name date m₀ t

structure Placed (m : Mac) : Prop where
  file : m.entry date name = some (source.chmod 0o444)
  source : m.downloads.lookup name = none
  events : ∀ t, Seal.eventsOf m.db t name = target cfg name date m₀ t
  row : m.db.sealedOf date ≠ none

/-- If the date is sealed, its manifest lists the file. An orphan is in no manifest. -/
def Listed (m : Mac) : Prop :=
  m.db.sealedOf date = some 1 → Recorded cfg m₀.db name date → tsvSanitise name ∈ m.manifestNames date

/-- What a whole `moveOne` gets to. -/
structure Moved (m : Mac) : Prop extends Placed cfg name date source m₀ m where
  listed : Listed cfg name date m₀ m

end

/-! ## The event rows of one file -/

section
variable {cfg : Config} {name date : Text} {db : Db}

theorem movedEvent_movedEvent (e : Event) :
    movedEvent cfg name date (movedEvent cfg name date e) = movedEvent cfg name date e := by
  unfold movedEvent VisitsRebuilder.moveEvent
  split
  · split <;> rfl
  · rfl

theorem eventsOf_updateDirectory_self (db : Db) (t t' : EventsTable) (directory name old : Text) :
    Seal.eventsOf (db.updateDirectory t directory name old).1 t' name =
      if t = t' then (Seal.eventsOf db t' name).map (VisitsRebuilder.moveEvent old · (directory, name))
      else Seal.eventsOf db t' name := by
  unfold Seal.eventsOf
  rw [VisitsRebuilder.events_updateDirectory]
  split
  · rw [List.filter_map]
    congr 1
    refine List.filter_congr fun e _ => ?_
    simp only [Function.comp_apply]
    unfold VisitsRebuilder.moveEvent
    split <;> rfl
  · rfl

theorem eventsOf_relocated (cfg : Config) (db : Db) (name date : Text) (t : EventsTable) :
    Seal.eventsOf (relocated cfg db name date) t name =
      (Seal.eventsOf db t name).map (movedEvent cfg name date) := by
  rw [relocated, List.foldl_cons, List.foldl_cons, List.foldl_nil, eventsOf_updateDirectory_self,
    eventsOf_updateDirectory_self]
  cases t <;> rfl

theorem eventsOf_relocated_ne {f : Text} (h : f ≠ name) (cfg : Config) (db : Db) (date : Text)
    (t : EventsTable) :
    Seal.eventsOf (relocated cfg db name date) t f = Seal.eventsOf db t f := by
  rw [relocated, List.foldl_cons, List.foldl_cons, List.foldl_nil, Seal.eventsOf_updateDirectory h,
    Seal.eventsOf_updateDirectory h]

/-- The seal finds the event row of a file that has moved. -/
theorem lookupEvent_iff {m₀ : Mac} (h0 : (0 : Byte) ∉ name) (hd : (0 : Byte) ∉ cfg.dateSubdir date)
    (h : ∀ t, Seal.eventsOf db t name = target cfg name date m₀ t) :
    Seal.lookupEvent db name (cfg.dateSubdir date) ≠ none ↔ Recorded cfg m₀.db name date := by
  have hdir : ∀ e : Event, e.filename = name → ((movedEvent cfg name date e).directory = cfg.dateSubdir date ↔
      e.directory = cfg.downloadsSnapshotsDir ∨ e.directory = cfg.dateSubdir date) := by
    intro e he
    unfold movedEvent VisitsRebuilder.moveEvent
    by_cases hold : e.directory = cfg.downloadsSnapshotsDir <;> simp [he, hold]
  have hmatch : ∀ t, SnapshotMover.matching false db t name (cfg.dateSubdir date) ≠ [] ↔
      ∃ e ∈ Seal.eventsOf m₀.db t name, e.directory = cfg.downloadsSnapshotsDir ∨
        e.directory = cfg.dateSubdir date := by
    intro t
    have hfilter : SnapshotMover.matching false db t name (cfg.dateSubdir date) =
        (target cfg name date m₀ t).filter (·.directory = cfg.dateSubdir date) := by
      rw [← h, SnapshotMover.matching, Seal.eventsOf, List.filter_filter]
      simp [Bool.and_comm]
    rw [hfilter, Ne, List.filter_eq_nil_iff, target]
    simp only [List.mem_map, decide_eq_true_eq, forall_exists_index, and_imp, forall_apply_eq_imp_iff₂,
      not_forall, not_not]
    refine exists_congr fun e => ?_
    rw [exists_prop]
    refine and_congr_right fun he => hdir e ?_
    exact of_decide_eq_true (List.mem_filter.mp he).2
  have hhead : ∀ t, (SnapshotMover.matching false db t name (cfg.dateSubdir date)).head? = none ↔
      SnapshotMover.matching false db t name (cfg.dateSubdir date) = [] := fun t => List.head?_eq_none_iff
  rw [Seal.lookupEvent, BVLHost.cString_of_notMem h0, BVLHost.cString_of_notMem hd, Ne, Option.map_eq_none_iff,
    SnapshotMover.lookupEvent, List.findSome?_eq_none_iff]
  simp only [Option.map_eq_none_iff, hhead, not_forall]
  refine exists_congr fun t => ?_
  rw [exists_prop]
  exact and_congr_right fun _ => hmatch t

end

/-! ## What a tick leaves alone -/

/-- What concerns the file stays. -/
structure Keeps (name date : Text) (m m' : Mac) : Prop where
  file : m'.entry date name = m.entry date name
  source : m'.downloads.lookup name = m.downloads.lookup name
  events : ∀ t, Seal.eventsOf m'.db t name = Seal.eventsOf m.db t name
  row : m.db.sealedOf date ≠ none → m'.db.sealedOf date ≠ none
  site : m.archive.lookup date ≠ some .plain → m'.archive.lookup date ≠ some .plain

section
variable {cfg : Config} {name date : Text} {source : Node} {m₀ m m' m'' : Mac}

theorem Waiting.keeps (h : Waiting cfg name date source m₀ m) (hk : Keeps name date m m') :
    Waiting cfg name date source m₀ m' :=
  ⟨hk.source.trans h.source, hk.site h.site, fun t => by rw [hk.events, h.events]⟩

theorem Placed.keeps (h : Placed cfg name date source m₀ m) (hk : Keeps name date m m') :
    Placed cfg name date source m₀ m' :=
  ⟨hk.file.trans h.file, hk.source.trans h.source, fun t => (hk.events t).trans (h.events t), hk.row h.row⟩

namespace Keeps

theorem refl (name date : Text) (m : Mac) : Keeps name date m m := ⟨rfl, rfl, fun _ => rfl, id, id⟩

theorem trans (h : Keeps name date m m') (h' : Keeps name date m' m'') : Keeps name date m m'' :=
  ⟨h'.file.trans h.file, h'.source.trans h.source, fun t => (h'.events t).trans (h.events t),
    h'.row ∘ h.row, h'.site ∘ h.site⟩

theorem setFolder (m : Mac) {d : Text} {dir : Folder} (h : d = date → dir.lookup name = m.entry date name) :
    Keeps name date m (m.setFolder d dir) := by
  by_cases hd : d = date
  · subst hd
    refine ⟨by rw [Mac.entry_setFolder, h rfl], rfl, fun _ => rfl, id, fun _ => ?_⟩
    rw [Mac.setFolder, AList.lookup_insert]
    intro h
    cases h
  · have hsame : Mac.SameDate date m (m.setFolder d dir) := .setFolder (Ne.symm hd) m dir
    refine ⟨?_, rfl, fun _ => rfl, id, fun hs => ?_⟩
    · rw [Mac.entry, Mac.entry, hsame.folder]
    · rwa [hsame.site]

theorem db {db : Db} (he : ∀ t, Seal.eventsOf db t name = Seal.eventsOf m.db t name)
    (hr : m.db.sealedOf date ≠ none → db.sealedOf date ≠ none) : Keeps name date m { m with db } :=
  ⟨rfl, rfl, he, hr, id⟩

theorem freshDir {dir : Folder} (hv : SnapshotName.isValid name = true) (d : Text)
    (hf : m.folder d = some dir) (db : Db)
    (dateSubdir : Text) : Keeps name date m (m.setFolder d (Seal.freshDir db dateSubdir dir)) := by
  refine setFolder m fun hd => ?_
  rw [Seal.lookup_freshDir_ne _ _ _ (SnapshotName.ne_manifestFilename hv), Mac.entry, ← hd, hf,
    Option.bind_some]

theorem rewriteManifest (hv : SnapshotName.isValid name = true) (cfg : Config) (m : Mac) (d : Text) :
    Keeps name date m (Seal.rewriteManifestForStraggler noFaults cfg m d) := by
  cases hf : m.folder d with
  | none =>
    rw [Seal.rewriteManifestForStraggler, hf]
    exact refl name date m
  | some dir =>
    rw [Seal.rewriteManifest_noFaults hf]
    exact freshDir hv d hf _ _

theorem landed {g : Text} (hg : name ≠ g) (cfg : Config) (m : Mac) (d : Text) (node : Node) :
    Keeps name date m (Archive.landed cfg m g d node) := by
  have hfolder : Keeps name date m (m.setFolder d
    ((((m.folder d).getD ∅).erase g).insert g (node.chmod 0o444))) := by
    refine setFolder m fun hd => ?_
    rw [AList.lookup_insert_ne hg, AList.lookup_erase_ne hg, Mac.entry, ← hd]
    cases m.folder d <;> rfl
  refine ⟨hfolder.file, AList.lookup_erase_ne hg, fun t => eventsOf_relocated_ne hg cfg m.db d t,
    fun hr => ?_, hfolder.site⟩
  rw [Archive.landed, Db.sealedOf_insertSnapshot, sealedOf_relocated]
  split
  · exact Option.some_ne_none _
  · exact hr

theorem moveOne {g : Text} {node : Node} (hv : SnapshotName.isValid name = true) (hg : name ≠ g)
    (cfg : Config) (m : Mac) (d : Text)
    (hs : m.downloads.lookup g = some node) : Keeps name date m (Archive.moveOne noFaults cfg m g d).1 := by
  by_cases hp : m.archive.lookup d = some .plain
  · rw [moveOne_plain hp]
    exact refl name date m
  · rw [moveOne_noFaults hp hs]
    have hl : Keeps name date m (Archive.landed cfg m g d node) := landed hg cfg m d node
    split
    · exact hl.trans (rewriteManifest hv cfg _ d)
    · exact hl

theorem sweepOne {g : Text} (hv : SnapshotName.isValid name = true) (hg : name ≠ g) (cfg : Config)
    (old : Text → Bool) (m : Mac) :
    Keeps name date m (Sweep.sweepOne cfg old m g) := by
  rw [Sweep.sweepOne_eq]
  cases h : Sweep.dateOf old m.downloads g with
  | none => exact refl name date m
  | some d =>
    obtain ⟨-, node, hs⟩ := Sweep.dateOf_valid h
    exact moveOne hv hg cfg m d hs

theorem sealDirectory (hv : SnapshotName.isValid name = true) (cfg : Config) (m : Mac) (d : Text) :
    Keeps name date m (Seal.sealDirectory noFaults cfg m d).1 := by
  cases hf : m.folder d with
  | none =>
    rw [Seal.sealDirectory, hf]
    exact refl name date m
  | some dir =>
    rw [Seal.sealDirectory_noFaults hf]
    split
    · exact freshDir hv d hf _ _
    · have hfolder : Keeps name date m (m.setFolder d
        (Seal.sealedDir m.db (cfg.dateSubdir d) d m.logDir dir)) := by
        refine setFolder m fun hd => ?_
        rw [Seal.lookup_sealedDir_ne _ _ _ _ (SnapshotName.ne_manifestFilename hv)
          (SnapshotName.ne_logFilename hv d), Mac.entry, ← hd, hf, Option.bind_some]
      refine ⟨hfolder.file, rfl, fun t => ?_, fun hr => ?_, hfolder.site⟩
      · cases t <;> simp only [Seal.eventsOf, Db.upsertSnapshot] <;> split <;> rfl
      · rw [Db.sealedOf_upsertSnapshot]
        split
        · exact Option.some_ne_none _
        · exact hr

theorem sealDate (hv : SnapshotName.isValid name = true) (cfg : Config) (m : Mac) (d : Text) :
    Keeps name date m (Seal.sealDate cfg m d) := by
  unfold Seal.sealDate
  split
  · rename_i hn
    refine (setFolder m fun hd => ?_).trans (sealDirectory hv cfg _ d)
    rw [Mac.entry, Mac.folder, ← hd, Option.isNone_iff_eq_none.mp hn]
    rfl
  · exact sealDirectory hv cfg m d

end Keeps

end

/-! ## Later ticks -/

section
variable {cfg : Config} {name date : Text} {source : Node} {m₀ m : Mac}
variable (hv : SnapshotName.isValid name = true) (hfile : source.isDir = false)
variable (h0 : (0 : Byte) ∉ name) (hd0 : (0 : Byte) ∉ cfg.dateSubdir date)
include hv hfile h0 hd0

theorem listed_of_written {dir : Folder} (dir' : Folder) {db : Db}
    (hdir : dir.lookup name = some (source.chmod 0o444))
    (he : ∀ t, Seal.eventsOf db t name = target cfg name date m₀ t) (hf : m.folder date = some dir')
    (hman : dir'.lookup manifestFilename =
      some (.file 0o444 (Seal.manifestText (Seal.rowsNow db (cfg.dateSubdir date) dir)))) :
    Listed cfg name date m₀ m := by
  intro _ hr
  have hmem : name ∈ dir.files (cfg.dateSubdir date) := by
    refine Folder.mem_files.mpr ⟨SnapshotName.isSkipped hv _, _, hdir, ?_⟩
    cases source with
    | file mode content => rfl
    | dir mode => cases hfile
  exact Seal.mem_manifest hf hman hmem hv ((lookupEvent_iff h0 hd0 he).mpr hr)

theorem listed_rewriteManifest (hp : Placed cfg name date source m₀ m) :
    Listed cfg name date m₀ (Seal.rewriteManifestForStraggler noFaults cfg m date) := by
  obtain ⟨dir, hf, hdir⟩ := Option.bind_eq_some_iff.mp hp.file
  rw [Seal.rewriteManifest_noFaults hf]
  exact listed_of_written hv hfile h0 hd0 _ hdir hp.events (Mac.folder_setFolder _ _ _)
    (Seal.lookup_freshDir_manifest _ _ _)

theorem listed_landed {g : Text} {node : Node} (hp : Placed cfg name date source m₀ (landed cfg m g date node))
    (h : m.archive.lookup date ≠ some .plain) (hs : m.downloads.lookup g = some node) :
    Listed cfg name date m₀ (moveOne noFaults cfg m g date).1 := by
  rw [moveOne_noFaults h hs]
  by_cases h1 : m.db.sealedOf date = some 1
  · rw [if_pos h1]
    exact listed_rewriteManifest hv hfile h0 hd0 hp
  · rw [if_neg h1]
    intro hsealed
    rw [landed, Db.sealedOf_insertSnapshot, if_pos rfl, sealedOf_relocated] at hsealed
    cases hrow : m.db.sealedOf date with
    | none =>
      rw [hrow] at hsealed
      cases hsealed
    | some n =>
      rw [hrow] at hsealed h1
      exact absurd hsealed h1

/-- **A file that waits is moved.** -/
theorem moved_moveOne (hw : Waiting cfg name date source m₀ m) :
    Moved cfg name date source m₀ (moveOne noFaults cfg m name date).1 := by
  have hlanded : Placed cfg name date source m₀ (landed cfg m name date source) := by
    refine ⟨?_, AList.lookup_erase _ _,
      fun t => (eventsOf_relocated cfg m.db name date t).trans (hw.events t), ?_⟩
    · rw [landed, Mac.entry, Mac.folder, AList.lookup_insert, Option.bind_some, AList.lookup_insert]
    · rw [landed, Db.sealedOf_insertSnapshot, if_pos rfl]
      exact Option.some_ne_none _
  refine ⟨?_, listed_landed hv hfile h0 hd0 hlanded hw.site hw.source⟩
  rw [moveOne_noFaults hw.site hw.source]
  split
  · exact hlanded.keeps (.rewriteManifest hv cfg _ date)
  · exact hlanded

theorem listed_sealDate (hp : Placed cfg name date source m₀ m) :
    Listed cfg name date m₀ (Seal.sealDate cfg m date) := by
  obtain ⟨dir, hf, hdir⟩ := Option.bind_eq_some_iff.mp hp.file
  have hsome : ¬(m.archive.lookup date).isNone := by
    intro hn
    rw [Mac.folder, Option.isNone_iff_eq_none.mp hn] at hf
    cases hf
  rw [Seal.sealDate, if_neg hsome, Seal.sealDirectory_noFaults hf]
  split
  · exact listed_of_written hv hfile h0 hd0 _ hdir hp.events (Mac.folder_setFolder _ _ _)
      (Seal.lookup_freshDir_manifest _ _ _)
  · refine listed_of_written hv hfile h0 hd0
      (Seal.sealedDir m.db (cfg.dateSubdir date) date m.logDir dir) hdir hp.events ?_
      (Seal.lookup_sealedDir_manifest _ _ _ _)
    rw [Mac.folder, AList.lookup_insert]

end

section
variable {cfg : Config} {name date : Text} {source : Node} {m₀ m m' : Mac}

theorem Listed.sameDate (h : Listed cfg name date m₀ m) (hs : Mac.SameDate date m m') :
    Listed cfg name date m₀ m' := by
  intro h1 hr
  rw [Mac.manifestNames, hs.folder]
  exact h (hs.row.symm.trans h1) hr

variable (hv : SnapshotName.isValid name = true)
include hv

theorem Placed.sweepOne (h : Placed cfg name date source m₀ m) (old : Text → Bool) (g : Text) :
    Placed cfg name date source m₀ (Sweep.sweepOne cfg old m g) := by
  by_cases hg : name = g
  · subst hg
    rwa [Sweep.sweepOne, h.source]
  · exact h.keeps (.sweepOne hv hg cfg old m)

theorem Placed.tick (h : Placed cfg name date source m₀ m) (today : Text) (old : Text → Bool) :
    Placed cfg name date source m₀ (beforeMerge cfg today old m) := by
  have hsweep : Placed cfg name date source m₀ (Sweep.pass cfg old m) :=
    List.foldlRecOn (motive := Placed cfg name date source m₀) _ _ h fun _ h g _ => h.sweepOne hv old g
  exact List.foldlRecOn (motive := Placed cfg name date source m₀) _ _ hsweep fun _ h d _ =>
    h.keeps (.sealDate hv cfg _ d)

theorem Placed.ticks (h : Placed cfg name date source m₀ m) (ticks : List (Text × (Text → Bool))) :
    Placed cfg name date source m₀ (ticks.foldl (fun m t => beforeMerge cfg t.1 t.2 m) m) :=
  List.foldlRecOn (motive := Placed cfg name date source m₀) ticks _ h fun _ h t _ => h.tick hv t.1 t.2

variable (hfile : source.isDir = false) (h0 : (0 : Byte) ∉ name) (hd0 : (0 : Byte) ∉ cfg.dateSubdir date)
include hfile h0 hd0

theorem Placed.arrive (h : Placed cfg name date source m₀ m) {old : Text → Bool} {g : Text}
    (hg : Sweep.dateOf old m.downloads g = some date) :
      Moved cfg name date source m₀ (Sweep.sweepOne cfg old m g) := by
  refine ⟨h.sweepOne hv old g, ?_⟩
  obtain ⟨-, node, hs⟩ := Sweep.dateOf_valid hg
  have hne : name ≠ g := by
    rintro rfl
    rw [h.source] at hs
    cases hs
  have hsite : m.archive.lookup date ≠ some .plain := by
    intro hp
    have hf := h.file
    rw [Mac.entry, Mac.folder, hp] at hf
    cases hf
  rw [Sweep.sweepOne_eq, hg]
  exact listed_landed hv hfile h0 hd0 (h.keeps (.landed hne cfg m date node)) hsite hs

theorem Moved.sweepOne (h : Moved cfg name date source m₀ m) (old : Text → Bool) (g : Text) :
    Moved cfg name date source m₀ (Sweep.sweepOne cfg old m g) := by
  by_cases hg : Sweep.dateOf old m.downloads g = some date
  · exact h.toPlaced.arrive hv hfile h0 hd0 hg
  · refine ⟨h.toPlaced.sweepOne hv old g, h.listed.sameDate ?_⟩
    rw [Sweep.sweepOne_eq]
    cases hd : Sweep.dateOf old m.downloads g with
    | none => exact .refl date m
    | some d =>
      obtain ⟨-, node, hs⟩ := Sweep.dateOf_valid hd
      have hne : date ≠ d := fun he => hg (by rw [hd, he])
      exact .moveOne hne cfg m hs

theorem Moved.sealDate (h : Moved cfg name date source m₀ m) (d : Text) :
    Moved cfg name date source m₀ (Seal.sealDate cfg m d) := by
  refine ⟨h.toPlaced.keeps (.sealDate hv cfg m d), ?_⟩
  by_cases hd : date = d
  · subst hd
    exact listed_sealDate hv hfile h0 hd0 h.toPlaced
  · exact h.listed.sameDate (.sealDate hd cfg m)

theorem Moved.sweep (h : Moved cfg name date source m₀ m) (old : Text → Bool) (l : List Text) :
    Moved cfg name date source m₀ (l.foldl (Sweep.sweepOne cfg old) m) :=
  List.foldlRecOn (motive := Moved cfg name date source m₀) l _ h fun _ h g _ =>
    h.sweepOne hv hfile h0 hd0 old g

theorem Moved.sealPass (h : Moved cfg name date source m₀ m) (today : Text) :
    Moved cfg name date source m₀ (Seal.pass cfg today m) :=
  List.foldlRecOn (motive := Moved cfg name date source m₀) _ _ h fun _ h d _ => h.sealDate hv hfile h0 hd0 d

theorem Moved.tick (h : Moved cfg name date source m₀ m) (today : Text) (old : Text → Bool) :
    Moved cfg name date source m₀ (beforeMerge cfg today old m) :=
  (h.sweep hv hfile h0 hd0 old _).sealPass hv hfile h0 hd0 today

theorem Moved.ticks (h : Moved cfg name date source m₀ m) (ticks : List (Text × (Text → Bool))) :
    Moved cfg name date source m₀ (ticks.foldl (fun m t => beforeMerge cfg t.1 t.2 m) m) :=
  List.foldlRecOn (motive := Moved cfg name date source m₀) ticks _ h fun _ h t _ =>
    h.tick hv hfile h0 hd0 t.1 t.2

/-- **The next sweep moves a file that waits.** -/
theorem Waiting.tick (h : Waiting cfg name date source m₀ m) (hd : SnapshotName.dateString name = some date)
    (today : Text) {old : Text → Bool} (ho : old name = true) :
      Moved cfg name date source m₀ (beforeMerge cfg today old m) := by
  have hignored : ignoredNames.contains name = false := by
    have hs := SnapshotName.isSkipped hv []
    rw [isSkipped, Bool.or_eq_false_iff] at hs
    exact hs.2
  have hsweep : ∀ (l : List Text) (m : Mac), Waiting cfg name date source m₀ m → name ∈ l →
      Moved cfg name date source m₀ (l.foldl (Sweep.sweepOne cfg old) m) := by
    intro l
    induction l with
    | nil =>
      intro m h hmem
      exact absurd hmem List.not_mem_nil
    | cons g l ih =>
      intro m h hmem
      rw [List.foldl_cons]
      by_cases hg : name = g
      · subst hg
        have hdate : Sweep.dateOf old m.downloads name = some date := by
          rw [Sweep.dateOf, h.source]
          dsimp only
          rw [hignored, hfile, ho, hd]
          rfl
        refine Moved.sweep hv hfile h0 hd0 ?_ old l
        rw [Sweep.sweepOne_eq, hdate]
        exact moved_moveOne hv hfile h0 hd0 h
      · exact ih _ (h.keeps (.sweepOne hv hg cfg old m)) ((List.mem_cons.mp hmem).resolve_left hg)
  refine Moved.sealPass hv hfile h0 hd0 ?_ today
  refine hsweep _ m h (AList.lookup_isSome.mp ?_)
  rw [h.source]
  rfl

theorem Placed.arrived (h : Placed cfg name date source m₀ m) {old : Text → Bool}
    (ha : Sweep.arrived old m date = true)
    (today : Text) : Moved cfg name date source m₀ (beforeMerge cfg today old m) := by
  have hsweep : ∀ (l : List Text) (m : Mac), Placed cfg name date source m₀ m →
      (∃ g ∈ l, Sweep.dateOf old m.downloads g = some date) →
      Moved cfg name date source m₀ (l.foldl (Sweep.sweepOne cfg old) m) := by
    intro l
    induction l with
    | nil => nofun
    | cons f l ih =>
      rintro m h ⟨g, hmem, hg⟩
      rw [List.foldl_cons]
      by_cases hf : Sweep.dateOf old m.downloads f = some date
      · exact (h.arrive hv hfile h0 hd0 hf).sweep hv hfile h0 hd0 old l
      · have hgf : g ≠ f := by
          rintro rfl
          exact hf hg
        refine ih _ (h.sweepOne hv old f) ⟨g, (List.mem_cons.mp hmem).resolve_left hgf, ?_⟩
        rwa [Sweep.dateOf_congr (Sweep.lookup_sweepOne_ne hgf)]
  refine Moved.sealPass hv hfile h0 hd0 ?_ today
  refine hsweep _ m h ?_
  obtain ⟨g, hmem, hg⟩ := List.any_eq_true.mp ha
  exact ⟨g, hmem, of_decide_eq_true hg⟩

end

end Archive

/-! ## Ticks that a date does not notice -/

section
variable {cfg : Config} {d : Text} {m : Mac} {old : Text → Bool}

end

namespace Archive

section
variable {cfg : Config} {name date : Text} {source : Node} {m₀ m : Mac}
variable (hv : SnapshotName.isValid name = true) (hfile : source.isDir = false)
variable (h0 : (0 : Byte) ∉ name) (hd0 : (0 : Byte) ∉ cfg.dateSubdir date)
include hv hfile h0 hd0

end

end Archive

end VisitLogger
