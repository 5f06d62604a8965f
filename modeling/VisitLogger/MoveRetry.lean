import VisitLogger.Retry
import VisitLogger.StragglerRace

/-!
# A move that does not get to its end

`moveOne` is killed at some call, or the call throws. The next sweep starts it
anew if the source is still there. After that only a manifest can be missing:
the ticks get to where the whole `moveOne` does, unless the move stops on a
sealed date between its last two effects (`moved_after_stop_iff`).
-/

namespace VisitLogger

open SnapshotMover (ManifestRow manifestFilename ignoredNames)
open Seal (WritePhase)

/-- A process after `n` of its calls; it stops at one that throws. -/
def calls {σ : Type*} (next : σ → Option σ) : Nat → σ → σ
  | 0, s => s
  | n + 1, s =>
    match next s with
    | none => s
    | some t => calls next n t

theorem calls_invariant {σ : Type*} {next : σ → Option σ} (Inv : σ → Prop)
    (hnext : ∀ s t, Inv s → next s = some t → Inv t)
    (n : Nat) {s : σ} (h : Inv s) : Inv (calls next n s) := by
  induction n generalizing s with
  | zero => exact h
  | succ n ih =>
    rw [calls]
    split
    · exact h
    · exact ih (hnext s _ h ‹_›)

namespace Archive

/-- `moveOne` after `n` calls. -/
def movedFor (cfg : Config) (name date : Text) (m : Mac) (n : Nat) : Mac × MovePhase :=
  calls (moveStep cfg name date) n (m, .createDirectory)

/-- What `moveOne` leaves when it is killed after `n` calls, or throws there. A copy that throws
can leave something under the new name. -/
def stopped (cfg : Config) (name date : Text) (m : Mac) (n : Nat) (left : Option Node) : Mac :=
  let s := movedFor cfg name date m n
  match s.2, left with
  | .copyItem, some node => s.1.setFolder date (((s.1.folder date).getD ∅).insert name node)
  | _, _ => s.1

/-- The source is gone, and the new manifest is not there yet. The old one can have the file already. -/
def Unlisted (m₀ : Mac) (name date : Text) : MovePhase → Prop
  | .rewrite .fileExists | .rewrite .setAttributes | .rewrite .removeItem =>
      tsvSanitise name ∉ m₀.manifestNames date
  | .rewrite .contentsOfDirectory | .rewrite (.lookupEvent _ _) => True
  | _ => False

section
variable (cfg : Config) (name date : Text) (source : Node) (m₀ : Mac)

/-- What a move keeps all the time. -/
structure Steady (m : Mac) : Prop where
  site : m.archive.lookup date ≠ some .plain
  keyed : (m.db.snapshots.map Prod.fst).Nodup
  events : ∀ t, (Seal.eventsOf m.db t name).map (movedEvent cfg name date) = target cfg name date m₀ t
  row : m.db.sealedOf date = some 1 ↔ m₀.db.sealedOf date = some 1

structure Unmoved (m : Mac) : Prop extends Steady cfg name date m₀ m where
  downloads : m.downloads = m₀.downloads
  manifest : m.manifestNames date = m₀.manifestNames date

structure Landed (m : Mac) : Prop extends Steady cfg name date m₀ m where
  placed : Placed cfg name date source m₀ m
  downloads : m.downloads = m₀.downloads.erase name

def Rewriting (m : Mac) : WritePhase → Prop
  | .fileExists | .setAttributes | .removeItem => m.manifestNames date = m₀.manifestNames date
  | .contentsOfDirectory | .lookupEvent _ _ => m.manifestNames date = []
  | .chmod | .done => True

def Reached (m : Mac) : MovePhase → Prop
  | .createDirectory | .fileExists | .removeItem | .copyItem => Unmoved cfg name date m₀ m
  | .chmodDest => Unmoved cfg name date m₀ m ∧ m.entry date name = some source
  | .update .read => Unmoved cfg name date m₀ m ∧ m.entry date name = some (source.chmod 0o444)
  | .update .skimmed => Unmoved cfg name date m₀ m ∧ m.entry date name = some (source.chmod 0o444) ∧
      Seal.eventsOf m.db .read name = target cfg name date m₀ .read
  | .querySealed => Unmoved cfg name date m₀ m ∧ m.entry date name = some (source.chmod 0o444) ∧
      ∀ t, Seal.eventsOf m.db t name = target cfg name date m₀ t
  | .insertSnapshot b => Unmoved cfg name date m₀ m ∧ m.entry date name = some (source.chmod 0o444) ∧
      (∀ t, Seal.eventsOf m.db t name = target cfg name date m₀ t) ∧ (b = true ↔ m₀.db.sealedOf date = some 1)
  | .removeSource b => Unmoved cfg name date m₀ m ∧ m.entry date name = some (source.chmod 0o444) ∧
      (∀ t, Seal.eventsOf m.db t name = target cfg name date m₀ t) ∧ (b = true ↔ m₀.db.sealedOf date = some 1) ∧
      m.db.sealedOf date ≠ none
  | .rewrite p => Landed cfg name date source m₀ m ∧ m₀.db.sealedOf date = some 1 ∧
      StragglerRace.RowsReadable p ∧
      (StragglerRace.Counts cfg m date name → StragglerRace.Covers m date name p) ∧ Rewriting date m₀ m p
  | .done => Landed cfg name date source m₀ m ∧ m₀.db.sealedOf date ≠ some 1

end

/-! ## The rewriting of the manifest -/

section
variable {cfg : Config} {name date : Text} {source : Node} {m₀ m m' : Mac}

/-- A call of `writeManifestFile` changes the manifest at most. -/
theorem write_next {p p' : WritePhase} (h : p.next cfg date m = some (m', p')) : m' = m ∨
    ∃ dir dir', m.folder date = some dir ∧ m' = m.setFolder date dir' ∧
      ∀ f ≠ manifestFilename, dir'.lookup f = dir.lookup f := by
  have hinsert : ∀ {dir : Folder} (node : Node), m.folder date = some dir →
      ∃ dir₁ dir', m.folder date = some dir₁ ∧
        m.setFolder date (dir.insert manifestFilename node) = m.setFolder date dir' ∧
        ∀ f ≠ manifestFilename, dir'.lookup f = dir₁.lookup f :=
    fun _ hdir => ⟨_, _, hdir, rfl, fun _ hf => AList.lookup_insert_ne hf⟩
  cases p with
  | fileExists =>
    cases h
    exact Or.inl rfl
  | setAttributes =>
    obtain ⟨dir, hdir, h⟩ := Option.map_eq_some_iff.mp h
    split at h
    · cases h
      exact Or.inl rfl
    · cases h
      exact Or.inr (hinsert _ hdir)
  | removeItem =>
    obtain ⟨dir, hdir, h⟩ := Option.bind_eq_some_iff.mp h
    split at h
    · cases h
      exact Or.inr ⟨dir, _, hdir, rfl, fun f hf => AList.lookup_erase_ne hf⟩
    · cases h
  | contentsOfDirectory =>
    obtain ⟨dir, -, h⟩ := Option.map_eq_some_iff.mp h
    cases h
    exact Or.inl rfl
  | lookupEvent files rows =>
    cases files with
    | cons f files =>
      cases h
      exact Or.inl rfl
    | nil =>
      obtain ⟨dir, hdir, h⟩ := Option.map_eq_some_iff.mp h
      cases h
      exact Or.inr (hinsert _ hdir)
  | chmod =>
    obtain ⟨dir, hdir, h⟩ := Option.bind_eq_some_iff.mp h
    obtain ⟨manifest, -, h⟩ := Option.map_eq_some_iff.mp h
    cases h
    exact Or.inr (hinsert _ hdir)
  | done => cases h

theorem manifestNames_of_notMem (h : manifestFilename ∉ (m.folder date).getD ∅) :
    m.manifestNames date = [] := by
  rw [Mac.manifestNames, Verify.manifestRows, AList.lookup_eq_none.mpr h]
  rfl

theorem manifestNames_chmod {dir : Folder} {manifest : Node} (hdir : m.folder date = some dir)
    (hman : dir.lookup manifestFilename = some manifest) (mode : Nat) :
    (m.setFolder date (dir.insert manifestFilename (manifest.chmod mode))).manifestNames date =
      m.manifestNames date := by
  rw [Mac.manifestNames, Mac.manifestNames, Mac.folder_setFolder, hdir, Option.getD_some,
    Option.getD_some, Verify.manifestRows, Verify.manifestRows, AList.lookup_insert, hman]
  cases manifest <;> rfl

theorem rewriting_next {p p' : WritePhase} (h : p.next cfg date m = some (m', p'))
    (hr : Rewriting date m₀ m p) :
    Rewriting date m₀ m' p' := by
  cases p with
  | fileExists =>
    cases h
    split
    · exact hr
    · exact manifestNames_of_notMem ‹_›
  | setAttributes =>
    obtain ⟨dir, hdir, h⟩ := Option.map_eq_some_iff.mp h
    split at h
    · cases h
      exact hr
    · rename_i manifest hman
      cases h
      exact (manifestNames_chmod hdir hman _).trans hr
  | removeItem =>
    obtain ⟨dir, hdir, h⟩ := Option.bind_eq_some_iff.mp h
    split at h
    · cases h
      refine manifestNames_of_notMem ?_
      rw [Mac.folder_setFolder, Option.getD_some, AList.mem_erase]
      exact fun hm => hm.1 rfl
    · cases h
  | contentsOfDirectory =>
    obtain ⟨dir, -, h⟩ := Option.map_eq_some_iff.mp h
    cases h
    exact hr
  | lookupEvent files rows =>
    cases files with
    | cons f files =>
      cases h
      exact hr
    | nil =>
      obtain ⟨dir, -, h⟩ := Option.map_eq_some_iff.mp h
      cases h
      trivial
  | chmod =>
    obtain ⟨dir, -, h⟩ := Option.bind_eq_some_iff.mp h
    obtain ⟨manifest, -, h⟩ := Option.map_eq_some_iff.mp h
    cases h
    trivial
  | done => cases h

/-! ## The calls of a move -/

theorem Steady.setFolder (h : Steady cfg name date m₀ m) (dir : Folder) :
    Steady cfg name date m₀ (m.setFolder date dir) := by
  refine ⟨?_, h.keyed, h.events, h.row⟩
  rw [Mac.setFolder, AList.lookup_insert]
  intro h
  cases h

theorem Unmoved.setFolder (h : Unmoved cfg name date m₀ m) {dir : Folder}
    (hm : dir.lookup manifestFilename = ((m.folder date).getD ∅).lookup manifestFilename) :
    Unmoved cfg name date m₀ (m.setFolder date dir) := by
  refine ⟨h.toSteady.setFolder dir, h.downloads, ?_⟩
  rw [← h.manifest, Mac.manifestNames, Mac.manifestNames, Mac.folder_setFolder, Option.getD_some,
    Verify.manifestRows, hm]
  rfl

theorem Unmoved.insert (h : Unmoved cfg name date m₀ m) {dir : Folder} (hdir : m.folder date = some dir)
    (hv : SnapshotName.isValid name = true) (node : Node) :
      Unmoved cfg name date m₀ (m.setFolder date (dir.insert name node)) := by
  refine h.setFolder ?_
  rw [AList.lookup_insert_ne (SnapshotName.ne_manifestFilename hv).symm, hdir]
  rfl

theorem entry_insert (m : Mac) (date name : Text) (dir : Folder) (node : Node) :
    (m.setFolder date (dir.insert name node)).entry date name = some node := by
  rw [Mac.entry_setFolder, AList.lookup_insert]

theorem Unmoved.update (h : Unmoved cfg name date m₀ m) (t : EventsTable) : Unmoved cfg name date m₀
    { m with db := (m.db.updateDirectory t (cfg.dateSubdir date) name cfg.downloadsSnapshotsDir).1 } := by
  refine ⟨⟨h.site, ?_, fun t' => ?_, ?_⟩, h.downloads, h.manifest⟩
  · dsimp only
    rw [Db.snapshots_updateDirectory]
    exact h.keyed
  · rw [← h.events, eventsOf_updateDirectory_self]
    split
    · rw [List.map_map]
      exact List.map_congr_left fun e _ => movedEvent_movedEvent e
    · rfl
  · rw [← h.row, Db.sealedOf, Db.snapshots_updateDirectory]
    rfl

theorem Unmoved.insertSnapshot (h : Unmoved cfg name date m₀ m) :
    Unmoved cfg name date m₀ { m with db := m.db.insertSnapshot date } := by
  refine ⟨⟨h.site, Table.nodup_insertOrIgnore Prod.fst h.keyed, h.events, ?_⟩, h.downloads, h.manifest⟩
  rw [← h.row, Db.sealedOf_insertSnapshot, if_pos rfl]
  cases m.db.sealedOf date with
  | none => exact iff_of_false nofun nofun
  | some n => rfl

theorem Landed.rewrite_next (h : Landed cfg name date source m₀ m)
    (hv : SnapshotName.isValid name = true) {p p' : WritePhase}
    (hp : p.next cfg date m = some (m', p')) : Landed cfg name date source m₀ m' := by
  obtain rfl | ⟨dir, dir', hdir, rfl, hlookup⟩ := write_next hp
  · exact h
  · refine ⟨h.toSteady.setFolder dir', h.placed.keeps (.setFolder m fun _ => ?_), h.downloads⟩
    rw [hlookup name (SnapshotName.ne_manifestFilename hv), Mac.entry, hdir, Option.bind_some]

/-- **The next call of a move**, as far as the source is concerned. -/
theorem reached_next (hv : SnapshotName.isValid name = true)
    (hs : m₀.downloads.lookup name = some source) {p p' : MovePhase}
    (h : Reached cfg name date source m₀ m p) (hp : p.next cfg name date m = some (m', p')) :
      Reached cfg name date source m₀ m' p' := by
  cases p with
  | createDirectory =>
    obtain ⟨m₁, hm, he⟩ := Option.map_eq_some_iff.mp hp
    cases he
    unfold Mac.createDirectory at hm
    split at hm
    · cases hm
      exact h
    · cases hm
    · rename_i hn
      cases hm
      refine Unmoved.setFolder h ?_
      rw [Mac.folder, hn]
      rfl
  | fileExists =>
    obtain ⟨dir, hdir, hp⟩ := Option.map_eq_some_iff.mp hp
    split at hp
    · cases hp
      exact h
    · cases hp
      exact Unmoved.insert h hdir hv _
  | removeItem =>
    obtain ⟨dir, hdir, hp⟩ := Option.bind_eq_some_iff.mp hp
    split at hp
    · cases hp
      refine Unmoved.setFolder h ?_
      rw [AList.lookup_erase_ne (SnapshotName.ne_manifestFilename hv).symm, hdir]
      rfl
    · cases hp
  | copyItem =>
    obtain ⟨dir, hdir, hp⟩ := Option.bind_eq_some_iff.mp hp
    obtain ⟨node, hnode, hp⟩ := Option.bind_eq_some_iff.mp hp
    have hu : Unmoved cfg name date m₀ m := h
    -- what is copied is the source as it was before the attempt
    rw [hu.downloads, hs] at hnode
    cases hnode
    split at hp
    · cases hp
    · cases hp
      exact ⟨hu.insert hdir hv _, entry_insert m date name dir source⟩
  | chmodDest =>
    obtain ⟨hu, he⟩ := h
    obtain ⟨dir, hdir, hp⟩ := Option.bind_eq_some_iff.mp hp
    obtain ⟨dest, hdest, hp⟩ := Option.map_eq_some_iff.mp hp
    cases hp
    rw [Mac.entry, hdir, Option.bind_some, hdest] at he
    cases he
    exact ⟨hu.insert hdir hv _, entry_insert m date name dir _⟩
  | update t =>
    cases t with
    | read =>
      obtain ⟨hu, he⟩ := h
      cases hp
      refine ⟨hu.update .read, he, ?_⟩
      rw [eventsOf_updateDirectory_self, if_pos rfl]
      exact hu.events .read
    | skimmed =>
      obtain ⟨hu, he, hread⟩ := h
      cases hp
      refine ⟨hu.update .skimmed, he, fun t => ?_⟩
      rw [eventsOf_updateDirectory_self]
      cases t with
      | read => exact hread
      | skimmed => exact hu.events .skimmed
  | querySealed =>
    obtain ⟨hu, he, hev⟩ := h
    cases hp
    refine ⟨hu, he, hev, ?_⟩
    rw [decide_eq_true_eq]
    exact hu.row
  | insertSnapshot b =>
    obtain ⟨hu, he, hev, hb⟩ := h
    cases hp
    refine ⟨hu.insertSnapshot, he, hev, hb, ?_⟩
    rw [Db.sealedOf_insertSnapshot, if_pos rfl]
    exact Option.some_ne_none _
  | removeSource b =>
    obtain ⟨hu, he, hev, hb, hrow⟩ := h
    rw [MovePhase.next] at hp
    split at hp
    · cases hp
      -- everything but the source is in place, and it goes now
      have hl : Landed cfg name date source m₀ { m with downloads := m.downloads.erase name } := by
        refine ⟨⟨hu.site, hu.keyed, hu.events, hu.row⟩, ⟨he, AList.lookup_erase _ _, hev, hrow⟩, ?_⟩
        rw [← hu.downloads]
      cases b with
      | true => exact ⟨hl, hb.mp rfl, trivial, fun _ => trivial, hu.manifest⟩
      | false => exact ⟨hl, fun h1 => absurd (hb.mpr h1) Bool.false_ne_true⟩
    · cases hp
  | rewrite p =>
    obtain ⟨hl, h1, hread, hcov, hrew⟩ := h
    obtain ⟨⟨m₁, q⟩, hq, hp⟩ := Option.map_eq_some_iff.mp hp
    cases hp
    -- the manifest covers what it covered, and the source is among it
    obtain ⟨hread', -, -, hcovers⟩ := StragglerRace.covers_next hq hread
    refine ⟨hl.rewrite_next hv hq, h1, hread', fun hc => ?_, rewriting_next hq hrew⟩
    obtain ⟨hc, himp⟩ := hcovers name hc
    exact himp (hcov hc)
  | done => cases hp

theorem reached_movedFor (hv : SnapshotName.isValid name = true)
    (hs : m₀.downloads.lookup name = some source) (hsite : m₀.archive.lookup date ≠ some .plain)
    (hkey : (m₀.db.snapshots.map Prod.fst).Nodup) (n : Nat) :
    Reached cfg name date source m₀ (movedFor cfg name date m₀ n).1 (movedFor cfg name date m₀ n).2 := by
  have hstart : Unmoved cfg name date m₀ m₀ := ⟨⟨hsite, hkey, fun _ => rfl, Iff.rfl⟩, rfl, rfl⟩
  have hnext : ∀ s t : Mac × MovePhase, Reached cfg name date source m₀ s.1 s.2 →
    moveStep cfg name date s = some t →
      Reached cfg name date source m₀ t.1 t.2 := fun s t h hn => reached_next hv hs h hn
  exact calls_invariant (fun s : Mac × MovePhase => Reached cfg name date source m₀ s.1 s.2) hnext n hstart

/-! ## The later ticks -/

theorem Unmoved.waiting (h : Unmoved cfg name date m₀ m) (hs : m₀.downloads.lookup name = some source) :
    Waiting cfg name date source m₀ m := ⟨by rw [h.downloads, hs], h.site, h.events⟩

theorem stopped_plain (h : m.archive.lookup date = some .plain) (n : Nat) (left : Option Node) :
    stopped cfg name date m n left = m := by
  have hnext : moveStep cfg name date (m, .createDirectory) = none := by
    rw [moveStep, MovePhase.next, Mac.createDirectory, h]
    rfl
  have hmoved : movedFor cfg name date m n = (m, .createDirectory) := by
    cases n with
    | zero => rfl
    | succ n => rw [movedFor, calls, hnext]
  unfold stopped
  rw [hmoved]

end

/-! ## Two stops -/

def sealedMac : Mac :=
  { StragglerRace.oneFile with
    archive := AList.singleton Seal.newYear
      (.folder (AList.singleton manifestFilename (.file 0o444 (Seal.manifestText []))))
    db := { StragglerRace.oneFile.db with snapshots := [(Seal.newYear, 1)] } }

end Archive

end VisitLogger
