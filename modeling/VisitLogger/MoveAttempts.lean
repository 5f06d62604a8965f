import VisitLogger.MoveRetry

/-!
# Attempts to move

Any number of moves, each of which can stop at any of its calls, and leave what it likes where it was copying. The
file stays in Downloads until all that a move does for it has come about (`gone_only_if_moved`), so there is always a
whole copy.
-/

namespace VisitLogger

open SnapshotMover (manifestFilename)

namespace Archive

/-- A `moveOne` of a file that its caller has seen in Downloads. It stops after some of its calls. -/
structure Attempt where
  basename : Text
  calls : Nat
  left : Option Node

def attempt (cfg : Config) (m : Mac) (a : Attempt) : Mac :=
  match SnapshotName.dateString a.basename with
  | none => m
  | some date => if a.basename ∈ m.downloads then stopped cfg a.basename date m a.calls a.left else m

def attempts (cfg : Config) (m : Mac) (as : List Attempt) : Mac := as.foldl (attempt cfg) m

/-! ## Moves of other files -/

section
variable {cfg : Config} {name g date d : Text} {source node : Node} {m₀ m m' : Mac}

theorem keeps_update (hg : name ≠ g) (m : Mac) (t : EventsTable) (directory old : Text) :
    Keeps name date m { m with db := (m.db.updateDirectory t directory g old).1 } := by
  refine Keeps.db (fun t' => Seal.eventsOf_updateDirectory hg _ _ _ _ _) fun hr => ?_
  rw [Db.sealedOf, Db.snapshots_updateDirectory]
  exact hr

theorem keeps_next (hv : SnapshotName.isValid name = true) (hg : name ≠ g) {p p' : MovePhase}
    (h : p.next cfg g d m = some (m', p')) :
    Keeps name date m m' := by
  -- a call on a file that is not `name` leaves the entry of `name`
  have hfolder : ∀ {dir dir' : Folder}, m.folder d = some dir → dir'.lookup name = dir.lookup name →
      Keeps name date m (m.setFolder d dir') := by
    intro dir dir' hdir hlookup
    refine Keeps.setFolder m fun hd => ?_
    rw [hlookup, Mac.entry, ← hd, hdir, Option.bind_some]
  cases p with
  | createDirectory =>
    obtain ⟨m₁, hm, he⟩ := Option.map_eq_some_iff.mp h
    cases he
    unfold Mac.createDirectory at hm
    split at hm
    · cases hm
      exact .refl name date m
    · cases hm
    · rename_i hn
      cases hm
      refine Keeps.setFolder m fun hd => ?_
      rw [Mac.entry, Mac.folder, ← hd, hn]
      rfl
  | fileExists =>
    obtain ⟨dir, hdir, h⟩ := Option.map_eq_some_iff.mp h
    split at h
    · cases h
      exact .refl name date m
    · cases h
      exact hfolder hdir (AList.lookup_insert_ne hg)
  | removeItem =>
    obtain ⟨dir, hdir, h⟩ := Option.bind_eq_some_iff.mp h
    split at h
    · cases h
      exact hfolder hdir (AList.lookup_erase_ne hg)
    · cases h
  | copyItem =>
    obtain ⟨dir, hdir, h⟩ := Option.bind_eq_some_iff.mp h
    obtain ⟨node, -, h⟩ := Option.bind_eq_some_iff.mp h
    split at h
    · cases h
    · cases h
      exact hfolder hdir (AList.lookup_insert_ne hg)
  | chmodDest =>
    obtain ⟨dir, hdir, h⟩ := Option.bind_eq_some_iff.mp h
    obtain ⟨dest, -, h⟩ := Option.map_eq_some_iff.mp h
    cases h
    exact hfolder hdir (AList.lookup_insert_ne hg)
  | update t =>
    cases h
    exact keeps_update hg m t _ _
  | querySealed =>
    cases h
    exact .refl name date m
  | insertSnapshot b =>
    cases h
    refine Keeps.db (fun _ => rfl) fun hr => ?_
    rw [Db.sealedOf_insertSnapshot]
    split
    · exact Option.some_ne_none _
    · exact hr
  | removeSource b =>
    rw [MovePhase.next] at h
    split at h
    · cases h
      exact ⟨rfl, AList.lookup_erase_ne hg, fun _ => rfl, id, id⟩
    · cases h
  | rewrite p =>
    obtain ⟨⟨m₁, q⟩, hq, h⟩ := Option.map_eq_some_iff.mp h
    cases h
    obtain rfl | ⟨dir, dir', hdir, rfl, hlookup⟩ := write_next hq
    · exact .refl name date _
    · exact hfolder hdir (hlookup name (SnapshotName.ne_manifestFilename hv))
  | done => cases h

theorem keeps_stopped (hv : SnapshotName.isValid name = true) (hg : name ≠ g) (cfg : Config) (d : Text)
    (m : Mac) (n : Nat)
    (left : Option Node) : Keeps name date m (stopped cfg g d m n left) := by
  have hmoved : Keeps name date m (movedFor cfg g d m n).1 :=
    calls_invariant (fun s : Mac × MovePhase => Keeps name date m s.1)
      (fun s t hs hn => hs.trans (keeps_next hv hg hn)) n (.refl name date m)
  unfold stopped
  dsimp only
  split
  · refine hmoved.trans (Keeps.setFolder _ fun hd => ?_)
    rw [AList.lookup_insert_ne hg, Mac.entry, ← hd]
    cases (movedFor cfg g d m n).1.folder d <;> rfl
  · exact hmoved

/-! ## Moves of the file -/

theorem stopped_spec (cfg : Config) (hv : SnapshotName.isValid name = true)
    (hs : m.downloads.lookup name = some source)
    (hsite : m.archive.lookup date ≠ some .plain) (hkey : (m.db.snapshots.map Prod.fst).Nodup) (n : Nat)
    (left : Option Node) :
    ((stopped cfg name date m n left).db.snapshots.map Prod.fst).Nodup ∧
      (Waiting cfg name date source m (stopped cfg name date m n left) ∨
        Placed cfg name date source m (stopped cfg name date m n left)) := by
  have hreached : Reached cfg name date source m (movedFor cfg name date m n).1
    (movedFor cfg name date m n).2 :=
    reached_movedFor hv hs hsite hkey n
  unfold stopped
  generalize movedFor cfg name date m n = s at hreached
  obtain ⟨m', p⟩ := s
  dsimp only at hreached ⊢
  have hunmoved : Unmoved cfg name date m m' → (m'.db.snapshots.map Prod.fst).Nodup ∧
      (Waiting cfg name date source m m' ∨ Placed cfg name date source m m') := fun h =>
        ⟨h.keyed, Or.inl (h.waiting hs)⟩
  cases p with
  | createDirectory | fileExists | removeItem => exact hunmoved hreached
  | copyItem =>
    cases left with
    | none => exact hunmoved hreached
    | some node =>
      have hw : Waiting cfg name date source m m' := Unmoved.waiting hreached hs
      exact ⟨(Unmoved.toSteady hreached).keyed,
        Or.inl ⟨hw.source, (Unmoved.toSteady hreached).setFolder _ |>.site, hw.events⟩⟩
  | chmodDest => exact hunmoved hreached.1
  | update t => cases t <;> exact hunmoved hreached.1
  | querySealed | insertSnapshot _ | removeSource _ => exact hunmoved hreached.1
  | rewrite q => exact ⟨hreached.1.keyed, Or.inr hreached.1.placed⟩
  | done => exact ⟨hreached.1.keyed, Or.inr hreached.1.placed⟩

/-- The file is in Downloads with the event rows it had, or it has moved. -/
def Safe (cfg : Config) (name date : Text) (source : Node) (m₀ m : Mac) : Prop :=
  (m.downloads.lookup name = some source ∧
      ∀ t, (Seal.eventsOf m.db t name).map (movedEvent cfg name date) = target cfg name date m₀ t) ∨
    Placed cfg name date source m₀ m

theorem Safe.keeps (h : Safe cfg name date source m₀ m) (hk : Keeps name date m m') :
    Safe cfg name date source m₀ m' := by
  obtain ⟨hs, he⟩ | hp := h
  · exact Or.inl ⟨hk.source.trans hs, fun t => by rw [hk.events, he]⟩
  · exact Or.inr (hp.keeps hk)

structure Between (cfg : Config) (name date : Text) (source : Node) (m₀ m : Mac) : Prop where
  keyed : (m.db.snapshots.map Prod.fst).Nodup
  safe : Safe cfg name date source m₀ m

theorem Between.attempt (hdate : SnapshotName.dateString name = some date)
    (h : Between cfg name date source m₀ m) (a : Attempt) :
    Between cfg name date source m₀ (attempt cfg m a) := by
  have hv : SnapshotName.isValid name = true := SnapshotName.isValid_of_dateString hdate
  unfold Archive.attempt
  split
  · exact h
  · rename_i d hd
    split
    · rename_i hmem
      have hva : SnapshotName.isValid a.basename = true := SnapshotName.isValid_of_dateString hd
      by_cases hsite : m.archive.lookup d = some .plain
      · rw [stopped_plain hsite]
        exact h
      obtain ⟨node, hnode⟩ := Option.isSome_iff_exists.mp (AList.lookup_isSome.mpr hmem)
      obtain ⟨hkeyed, hspec⟩ := stopped_spec cfg hva hnode hsite h.keyed a.calls a.left
      refine ⟨hkeyed, ?_⟩
      by_cases hname : name = a.basename
      · obtain rfl : d = date := by
          rw [← hname, hdate] at hd
          exact (Option.some.inj hd).symm
        subst hname
        obtain ⟨hs, he⟩ | hp := h.safe
        · obtain rfl : node = source := Option.some.inj (hnode.symm.trans hs)
          -- from here on as from the start
          have htarget : ∀ t, target cfg a.basename d m t = target cfg a.basename d m₀ t := he
          obtain hw | hp := hspec
          · exact Or.inl ⟨hw.source, fun t => (hw.events t).trans (htarget t)⟩
          · exact Or.inr ⟨hp.file, hp.source, fun t => (hp.events t).trans (htarget t), hp.row⟩
        · rw [hp.source] at hnode
          cases hnode
      · exact h.safe.keeps (keeps_stopped hv hname cfg d m a.calls a.left)
    · exact h

/-- **The source is gone only if all has come about**: the destination is whole and read-only, the event rows that
were in Downloads are in the directory of the date, and the date has a row. So there is always a whole copy. -/
theorem gone_only_if_moved (cfg : Config) (m : Mac) {name date content : Text} {mode : Nat}
    (hdate : SnapshotName.dateString name = some date) (hs : m.downloads.lookup name =
      some (.file mode content))
    (hkey : (m.db.snapshots.map Prod.fst).Nodup) (as : List Attempt) :
    let m' := attempts cfg m as
    (name ∉ m'.downloads → m'.entry date name = some (.file 0o444 content) ∧
        (∀ t, Seal.eventsOf m'.db t name = (Seal.eventsOf m.db t name).map (movedEvent cfg name date)) ∧
          m'.db.sealedOf date ≠ none) ∧
      (m'.downloads.lookup name = some (.file mode content) ∨
        m'.entry date name = some (.file 0o444 content)) := by
  have hstart : Between cfg name date (.file mode content) m m := ⟨hkey, Or.inl ⟨hs, fun _ => rfl⟩⟩
  have hend : Between cfg name date (.file mode content) m (attempts cfg m as) :=
    List.foldlRecOn (motive := Between cfg name date (.file mode content) m) as _ hstart fun m' h a _ =>
      h.attempt hdate a
  obtain ⟨hsource, -⟩ | hp := hend.safe
  · exact ⟨fun hgone => absurd (AList.lookup_isSome.mp (by rw [hsource]; rfl)) hgone, Or.inl hsource⟩
  · exact ⟨fun _ => ⟨hp.file, hp.events, hp.row⟩, Or.inr hp.file⟩

end

/-! ## Three attempts -/

def partMoved : Mac :=
  { StragglerRace.oneFile with
    downloads := AList.singleton Verify.snapshot (.file 0o644 (ascii "page"))
    archive := AList.singleton Seal.newYear
      (.folder (AList.singleton Verify.snapshot (.file 0o444 (ascii "pa")))) }

/-- The first attempt stops in the copy, the second before it removes the source. -/
theorem gone_only_if_moved_third :
    let as : List Attempt :=
      [⟨Verify.snapshot, 3, some (.file 0o600 (ascii "p"))⟩, ⟨Verify.snapshot, 8, none⟩,
        ⟨Verify.snapshot, 20, none⟩]
    let m' := attempts Seal.archiveConfig partMoved as
    (Verify.snapshot ∉ m'.downloads → m'.entry Seal.newYear Verify.snapshot =
      some (.file 0o444 (ascii "page")) ∧
        (∀ t, Seal.eventsOf m'.db t Verify.snapshot =
          (Seal.eventsOf partMoved.db t Verify.snapshot).map
            (movedEvent Seal.archiveConfig Verify.snapshot Seal.newYear)) ∧
        m'.db.sealedOf Seal.newYear ≠ none) ∧
      (m'.downloads.lookup Verify.snapshot = some (.file 0o644 (ascii "page")) ∨
        m'.entry Seal.newYear Verify.snapshot = some (.file 0o444 (ascii "page"))) :=
  gone_only_if_moved Seal.archiveConfig partMoved (by decide) rfl (by decide) _

example : let m' := attempts Seal.archiveConfig partMoved [⟨Verify.snapshot, 3, some (.file 0o600 (ascii "p"))⟩]
    m'.entry Seal.newYear Verify.snapshot = some (.file 0o600 (ascii "p")) := by decide

example : Verify.snapshot ∉ (attempts Seal.archiveConfig partMoved
    [⟨Verify.snapshot, 3, some (.file 0o600 (ascii "p"))⟩, ⟨Verify.snapshot, 20, none⟩]).downloads := by decide

end Archive

end VisitLogger
