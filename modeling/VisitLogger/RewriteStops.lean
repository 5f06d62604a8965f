import VisitLogger.MoveRetry
import VisitLogger.Sealer

/-!
# A manifest that is not rewritten to its end

`writeManifestFile` and `_write_manifest_file` remove the old manifest first. From then on there is no whole
manifest until the new one is written: in Swift all at once, in Python byte by byte. So a call that throws, or a
kill, leaves the old or the new one iff it comes before the removal, or after the last byte
(`intact_after_stop_iff`).
-/

namespace VisitLogger

open SnapshotMover (ManifestRow manifestFilename)

theorem calls_succ {σ : Type*} {next : σ → Option σ} {s t : σ} (h : next s = some t) (n : Nat) :
    calls next (n + 1) s = calls next n t := by
  rw [calls, h]

theorem calls_stuck {σ : Type*} {next : σ → Option σ} {s : σ} (h : next s = none) (n : Nat) :
    calls next n s = s := by
  cases n with
  | zero => rfl
  | succ n => rw [calls, h]

/-- A manifest with the one text or the other. -/
def Intact (old new : Text) : Option Node → Prop
  | some (.file _ text) => text = old ∨ text = new
  | _ => False

instance (old new : Text) : (node : Option Node) → Decidable (Intact old new node)
  | some (.file _ _) => inferInstanceAs (Decidable (_ ∨ _))
  | some (.dir _) => inferInstanceAs (Decidable False)
  | none => inferInstanceAs (Decidable False)

/-! ## `Seal.writeManifestFile` -/

namespace Seal

variable {cfg : Config} {date : Text} {m : Mac} {dir : Folder}

def rewrittenFor (cfg : Config) (date : Text) (m : Mac) (n : Nat) : Mac :=
  (calls (writeStep cfg date) n (m, .fileExists)).1

def manifestNode (rows : List ManifestRow) (closed : Bool) : Node :=
  .file (if closed then 0o444 else 0o644) (manifestText rows)

theorem calls_lookupEvent (hdir : m.folder date = some dir) (files : List Text)
    (rows : List ManifestRow) (n : Nat) :
    (calls (writeStep cfg date) n (m, .lookupEvent files rows)).1 =
      if n ≤ files.length then m
      else m.setFolder date (dir.insert manifestFilename
        (manifestNode (rows ++ files.filterMap (listed m.db (cfg.dateSubdir date)))
          (files.length + 1 < n))) := by
  induction files generalizing rows n with
  | nil =>
    cases n with
    | zero => rfl
    | succ n =>
      let written := m.setFolder date (dir.insert manifestFilename (manifestNode rows false))
      have hwrite : writeStep cfg date (m, .lookupEvent [] rows) = some (written, .chmod) := by
        rw [writeStep, WritePhase.next, hdir]
        rfl
      rw [if_neg (by simp), List.filterMap_nil, List.append_nil, calls_succ hwrite]
      cases n with
      | zero => rfl
      | succ n =>
        let closed := m.setFolder date (dir.insert manifestFilename (manifestNode rows true))
        have hchmod : writeStep cfg date (written, .chmod) = some (closed, .done) := by
          rw [writeStep, WritePhase.next, Mac.folder_setFolder, Option.bind_some, AList.lookup_insert,
            Option.map_some, Mac.setFolder_setFolder, AList.insert_insert]
          rfl
        rw [calls_succ hchmod, calls_stuck rfl]
        simp [closed]
  | cons f files ih =>
    cases n with
    | zero => exact (if_pos (Nat.zero_le _)).symm
    | succ n =>
      have hlookup : writeStep cfg date (m, .lookupEvent (f :: files) rows) =
          some (m, .lookupEvent files (rows ++ (listed m.db (cfg.dateSubdir date) f).toList)) := rfl
      rw [calls_succ hlookup, ih, append_filterMap_cons, List.length_cons]
      simp only [Nat.add_le_add_iff_right, Nat.add_lt_add_iff_right]

theorem writeStep_fileExists (hdir : m.folder date = some dir) (hman : manifestFilename ∈ dir) :
    writeStep cfg date (m, .fileExists) = some (m, .setAttributes) := by
  rw [writeStep, WritePhase.next, hdir]
  simp [hman]

theorem writeStep_setAttributes {old : Node} (hdir : m.folder date = some dir)
    (hold : dir.lookup manifestFilename = some old) :
    writeStep cfg date (m, .setAttributes) =
      some (m.setFolder date (dir.insert manifestFilename (old.chmod 0o644)), .removeItem) := by
  rw [writeStep, WritePhase.next, hdir, Option.map_some, hold]

def loopFiles (cfg : Config) (date : Text) (dir : Folder) : List Text :=
  sortStrings (Folder.files (dir.erase manifestFilename) (cfg.dateSubdir date))

theorem rewrittenFor_removed (hdir : m.folder date = some dir) (hman : manifestFilename ∈ dir) (n : Nat) :
    rewrittenFor cfg date m (n + 3) = m.setFolder date
      (if n ≤ (loopFiles cfg date dir).length + 1 then dir.erase manifestFilename
      else (dir.erase manifestFilename).insert manifestFilename
        (manifestNode (rowsNow m.db (cfg.dateSubdir date) dir) ((loopFiles cfg date dir).length + 2 < n))) := by
  obtain ⟨old, hold⟩ := Option.isSome_iff_exists.mp (AList.lookup_isSome.mpr hman)
  let removed := m.setFolder date (dir.erase manifestFilename)
  have hremove : writeStep cfg date (m.setFolder date (dir.insert manifestFilename (old.chmod 0o644)),
    .removeItem) =
      some (removed, .contentsOfDirectory) := by
    rw [writeStep, WritePhase.next, Mac.folder_setFolder, Option.bind_some, if_pos (by simp [AList.mem_insert]),
      Mac.setFolder_setFolder, Folder.erase_insert]
  have hlist : writeStep cfg date (removed, .contentsOfDirectory) =
    some (removed, .lookupEvent (loopFiles cfg date dir) []) := by
    rw [writeStep, WritePhase.next, Mac.folder_setFolder]
    rfl
  unfold rewrittenFor
  rw [calls_succ (writeStep_fileExists hdir hman), calls_succ (writeStep_setAttributes hdir hold),
    calls_succ hremove]
  cases n with
  | zero => rfl
  | succ n =>
    rw [calls_succ hlist, calls_lookupEvent (Mac.folder_setFolder m date (dir.erase manifestFilename)),
      List.nil_append, Mac.setFolder_setFolder]
    have hclosed : decide ((loopFiles cfg date dir).length + 2 < n + 1) =
      decide ((loopFiles cfg date dir).length + 1 < n) :=
      decide_eq_decide.mpr (by omega)
    rw [hclosed]
    simp only [Nat.add_le_add_iff_right]
    split <;> rfl

/-- **A call that throws stops the rewriting** after one of the calls. -/
theorem rewriteManifest_stops (io : Faults) (cfg : Config) (hdir : m.folder date = some dir)
    (hman : manifestFilename ∈ dir) :
    ∃ n, rewriteManifestForStraggler io cfg m date = rewrittenFor cfg date m n := by
  obtain ⟨old, hold⟩ := Option.isSome_iff_exists.mp (AList.lookup_isSome.mpr hman)
  have hremoved : rewrittenFor cfg date m 3 = m.setFolder date (dir.erase manifestFilename) :=
    rewrittenFor_removed hdir hman 0
  unfold rewriteManifestForStraggler
  rw [hdir]
  dsimp only
  unfold writeManifestFile
  dsimp only
  rw [hold]
  by_cases hremove : io.fails .removeManifest = true
  · refine ⟨2, ?_⟩
    unfold rewrittenFor
    rw [calls_succ (writeStep_fileExists hdir hman), calls_succ (writeStep_setAttributes hdir hold)]
    simp [hremove, calls]
  simp only [Option.isSome_some, Bool.true_and, hremove, Bool.false_eq_true, if_false]
  cases hrows : buildManifestRows io m.db (cfg.dateSubdir date) (dir.erase manifestFilename) with
  | error c => exact ⟨3, hremoved.symm⟩
  | ok rows =>
    have hnow : rows = rowsNow m.db (cfg.dateSubdir date) dir := by
      unfold buildManifestRows at hrows
      split at hrows
      · cases hrows
      · exact rowsOf_ok hrows
    dsimp only
    by_cases hwrite : io.fails .writeManifest = true
    · rw [if_pos hwrite]
      exact ⟨3, hremoved.symm⟩
    rw [if_neg hwrite]
    by_cases hchmod : io.fails .chmodManifest = true
    · refine ⟨(loopFiles cfg date dir).length + 2 + 3, ?_⟩
      rw [if_pos hchmod, rewrittenFor_removed hdir hman, if_neg (by omega), hnow]
      simp [manifestNode]
    · refine ⟨(loopFiles cfg date dir).length + 3 + 3, ?_⟩
      rw [if_neg hchmod, rewrittenFor_removed hdir hman, if_neg (by omega), hnow]
      simp [manifestNode]

theorem intact_rewrittenFor_iff {mode : Nat} {old : Text} (cfg : Config) (hdir : m.folder date = some dir)
    (hold : dir.lookup manifestFilename = some (.file mode old)) (n : Nat) :
    Intact old (manifestText (rowsNow m.db (cfg.dateSubdir date) dir))
        ((rewrittenFor cfg date m n).entry date manifestFilename) ↔
      n < 3 ∨ (loopFiles cfg date dir).length + 5 ≤ n := by
  have hman : manifestFilename ∈ dir := AList.lookup_isSome.mp (by rw [hold]; rfl)
  by_cases hn : n < 3
  · refine iff_of_true ?_ (Or.inl hn)
    -- the mode may change
    have hkept : ∃ mode', (rewrittenFor cfg date m n).entry date manifestFilename = some (.file mode' old) := by
      have hentry : m.entry date manifestFilename = some (.file mode old) := by
        rw [Mac.entry, hdir, Option.bind_some, hold]
      unfold rewrittenFor
      cases n with
      | zero => exact ⟨mode, hentry⟩
      | succ n =>
        rw [calls_succ (writeStep_fileExists hdir hman)]
        cases n with
        | zero => exact ⟨mode, hentry⟩
        | succ n =>
          obtain rfl : n = 0 := by omega
          rw [calls_succ (writeStep_setAttributes hdir hold)]
          exact ⟨0o644, by rw [calls, Mac.entry_setFolder, AList.lookup_insert]; rfl⟩
    obtain ⟨mode', h⟩ := hkept
    rw [h]
    exact Or.inl rfl
  · obtain ⟨n, rfl⟩ := Nat.exists_eq_add_of_le' (Nat.not_lt.mp hn)
    rw [rewrittenFor_removed hdir hman, Mac.entry_setFolder]
    by_cases hk : n ≤ (loopFiles cfg date dir).length + 1
    · rw [if_pos hk, AList.lookup_erase]
      exact iff_of_false id (by omega)
    · rw [if_neg hk, AList.lookup_insert]
      exact iff_of_true (Or.inr rfl) (by omega)

end Seal

/-! ## `_write_manifest_file` -/

namespace SnapshotMover

/-- Where `_write_manifest_file` is: the call it makes next. -/
inductive WritePhase where
  | pathExists
  | unlink
  | listdir
  | lookupEvent (files : List Text) (rows : List ManifestRow)
  | write (rest : Text)
  | chmod
  | done
  deriving DecidableEq, Repr

section
variable (byName : Bool) (db : Db) (dateSubdir : Text)

def WritePhase.next (dir : Folder) : WritePhase → Option (Folder × WritePhase)
  | .pathExists => some (dir, if manifestFilename ∈ dir then .unlink else .listdir)
  | .unlink => (dir.lookup manifestFilename).bind fun old =>
    if old.isDir then none else some (dir.erase manifestFilename, .listdir)
  | .listdir => some (dir, .lookupEvent (manifestFiles dateSubdir (listing dir)) [])
  | .lookupEvent (f :: files) rows => some (dir,
      .lookupEvent files (rows ++ (rowOf byName db dateSubdir f).toList))
  -- open
  | .lookupEvent [] rows => some (dir.insert manifestFilename (.file 0o644 []),
      .write (VisitLogger.Seal.manifestText rows))
  -- the file is buffered: what has come to the disk can end at any byte
  | .write (b :: rest) =>
    match dir.lookup manifestFilename with
    | some (.file mode text) => some (dir.insert manifestFilename (.file mode (text ++ [b])), .write rest)
    | _ => none
  | .write [] => some (dir, .chmod)
  | .chmod => (dir.lookup manifestFilename).map fun manifest =>
      (dir.insert manifestFilename (manifest.chmod 0o444), .done)
  | .done => none

def writeStep (s : Folder × WritePhase) : Option (Folder × WritePhase) := s.2.next byName db dateSubdir s.1

def rewrittenFor (dir : Folder) (n : Nat) : Folder :=
  (calls (writeStep byName db dateSubdir) n (dir, .pathExists)).1

end

section
variable (byName : Bool) (db : Db) (dateSubdir : Text) {dir : Folder}

/-- A manifest that is being written. Its mode is set when all of it is there. -/
def writtenNode (text rest : Text) (n : Nat) : Node :=
  .file (if rest.length + 2 ≤ n then 0o444 else 0o644) (text ++ rest.take n)

theorem calls_write (dir : Folder) (text rest : Text) (n : Nat) :
    (calls (writeStep byName db dateSubdir) n (dir.insert manifestFilename (.file 0o644 text), .write rest)).1 =
      dir.insert manifestFilename (writtenNode text rest n) := by
  induction rest generalizing text n with
  | nil =>
    match n with
    | 0 => simp [calls, writtenNode]
    | 1 => simp [calls, writeStep, WritePhase.next, writtenNode]
    | n + 2 =>
      have hclose : writeStep byName db dateSubdir (dir.insert manifestFilename (.file 0o644 text), .write []) =
          some (dir.insert manifestFilename (.file 0o644 text), .chmod) := rfl
      have hchmod : writeStep byName db dateSubdir (dir.insert manifestFilename (.file 0o644 text), .chmod) =
          some (dir.insert manifestFilename (.file 0o444 text), .done) := by
        rw [writeStep, WritePhase.next, AList.lookup_insert, Option.map_some, AList.insert_insert]
        rfl
      rw [calls_succ hclose, calls_succ hchmod, calls_stuck rfl]
      simp [writtenNode]
  | cons b rest ih =>
    cases n with
    | zero => simp [calls, writtenNode]
    | succ n =>
      have hbyte : writeStep byName db dateSubdir (dir.insert manifestFilename (.file 0o644 text),
        .write (b :: rest)) =
          some (dir.insert manifestFilename (.file 0o644 (text ++ [b])), .write rest) := by
        rw [writeStep, WritePhase.next, AList.lookup_insert]
        dsimp only
        rw [AList.insert_insert]
      have hnode : writtenNode (text ++ [b]) rest n = writtenNode text (b :: rest) (n + 1) := by
        unfold writtenNode
        rw [List.take_succ_cons, List.append_assoc, List.singleton_append, List.length_cons]
        simp only [Nat.add_right_comm rest.length 1 2, Nat.add_le_add_iff_right]
      rw [calls_succ hbyte, ih, hnode]

theorem calls_loop (dir : Folder) (files : List Text) (rows : List ManifestRow) (n : Nat) :
    (calls (writeStep byName db dateSubdir) n (dir, .lookupEvent files rows)).1 =
      if n ≤ files.length then dir
      else dir.insert manifestFilename
        (writtenNode [] (VisitLogger.Seal.manifestText (rows ++ files.filterMap (rowOf byName db dateSubdir)))
          (n - (files.length + 1))) := by
  induction files generalizing rows n with
  | nil =>
    cases n with
    | zero => rfl
    | succ n =>
      have hopen : writeStep byName db dateSubdir (dir, .lookupEvent [] rows) =
          some (dir.insert manifestFilename (.file 0o644 []),
            .write (VisitLogger.Seal.manifestText rows)) := rfl
      rw [if_neg (by simp), List.filterMap_nil, List.append_nil, calls_succ hopen, calls_write]
      rfl
  | cons f files ih =>
    cases n with
    | zero => exact (if_pos (Nat.zero_le _)).symm
    | succ n =>
      have hlookup : writeStep byName db dateSubdir (dir, .lookupEvent (f :: files) rows) =
          some (dir, .lookupEvent files (rows ++ (rowOf byName db dateSubdir f).toList)) := rfl
      rw [calls_succ hlookup, ih, append_filterMap_cons, List.length_cons]
      simp only [Nat.add_le_add_iff_right, Nat.add_sub_add_right]

def loopFiles (dateSubdir : Text) (dir : Folder) : List Text :=
  manifestFiles dateSubdir (listing (dir.erase manifestFilename))

def newText (byName : Bool) (db : Db) (dateSubdir : Text) (dir : Folder) : Text :=
  VisitLogger.Seal.manifestText ((loopFiles dateSubdir dir).filterMap (rowOf byName db dateSubdir))

theorem rewrittenFor_removed {mode : Nat} {old : Text}
    (hold : dir.lookup manifestFilename = some (.file mode old)) (n : Nat) :
    rewrittenFor byName db dateSubdir dir (n + 2) =
      if n ≤ (loopFiles dateSubdir dir).length + 1 then dir.erase manifestFilename
      else (dir.erase manifestFilename).insert manifestFilename
        (writtenNode [] (newText byName db dateSubdir dir) (n - ((loopFiles dateSubdir dir).length + 2))) := by
  have hexists : writeStep byName db dateSubdir (dir, .pathExists) = some (dir, .unlink) := by
    rw [writeStep, WritePhase.next, if_pos (AList.lookup_isSome.mp (by rw [hold]; rfl))]
  have hunlink : writeStep byName db dateSubdir (dir, .unlink) =
    some (dir.erase manifestFilename, .listdir) := by
    rw [writeStep, WritePhase.next, hold]
    rfl
  have hlist : writeStep byName db dateSubdir (dir.erase manifestFilename, .listdir) =
      some (dir.erase manifestFilename, .lookupEvent (loopFiles dateSubdir dir) []) := rfl
  unfold rewrittenFor
  rw [calls_succ hexists, calls_succ hunlink]
  cases n with
  | zero => rfl
  | succ n =>
    rw [calls_succ hlist, calls_loop, List.nil_append, ← newText]
    simp only [Nat.add_le_add_iff_right, Nat.add_sub_add_right]

/-- **A rewriting that gets to its end** leaves what `writeManifestFile` does. -/
theorem rewrittenFor_end {mode : Nat} {old : Text}
    (hold : dir.lookup manifestFilename = some (.file mode old)) {n : Nat}
    (hn : (loopFiles dateSubdir dir).length + (newText byName db dateSubdir dir).length + 6 ≤ n) :
    rewrittenFor byName db dateSubdir dir n = writeManifestFile byName db dateSubdir dir := by
  obtain ⟨n, rfl⟩ := Nat.exists_eq_add_of_le' (show 2 ≤ n by omega)
  have hlen : (newText byName db dateSubdir dir).length + 2 ≤
    n - ((loopFiles dateSubdir dir).length + 2) := by omega
  rw [rewrittenFor_removed byName db dateSubdir hold, if_neg (by omega), writtenNode, if_pos hlen,
    List.nil_append, List.take_of_length_le (by omega)]
  unfold writeManifestFile
  dsimp only
  rw [(buildManifestRows_eq ..).1]
  rfl

theorem intact_rewrittenFor_iff {mode : Nat} {old : Text}
    (hold : dir.lookup manifestFilename = some (.file mode old)) (n : Nat) :
    Intact old (newText byName db dateSubdir dir)
      ((rewrittenFor byName db dateSubdir dir n).lookup manifestFilename) ↔
      n < 2 ∨ (loopFiles dateSubdir dir).length + 4 ≤ n ∧
        ((newText byName db dateSubdir dir).take (n - ((loopFiles dateSubdir dir).length + 4)) = old ∨
          (newText byName db dateSubdir dir).length ≤ n - ((loopFiles dateSubdir dir).length + 4)) := by
  match n with
  | 0 =>
    rw [rewrittenFor, calls, hold]
    exact iff_of_true (Or.inl rfl) (Or.inl (by omega))
  | 1 =>
    have hexists : writeStep byName db dateSubdir (dir, .pathExists) = some (dir, .unlink) := by
      rw [writeStep, WritePhase.next, if_pos (AList.lookup_isSome.mp (by rw [hold]; rfl))]
    rw [rewrittenFor, calls_succ hexists, calls, hold]
    exact iff_of_true (Or.inl rfl) (Or.inl (by omega))
  | n + 2 =>
    rw [rewrittenFor_removed byName db dateSubdir hold]
    by_cases hn : n ≤ (loopFiles dateSubdir dir).length + 1
    · rw [if_pos hn, AList.lookup_erase]
      exact iff_of_false id (by omega)
    · have hsub : n + 2 - ((loopFiles dateSubdir dir).length + 4) =
        n - ((loopFiles dateSubdir dir).length + 2) := by omega
      rw [if_neg hn, AList.lookup_insert, hsub]
      refine (or_congr_right (List.take_eq_self_iff _)).trans ?_
      constructor
      · exact fun h => Or.inr ⟨by omega, h⟩
      · exact fun h => (h.resolve_left (by omega)).2

end

end SnapshotMover

/-! ## Both -/

/-- **The old or the new manifest is left iff the rewriting stops before it removes the old one**, or after it has
written the new one. In Python it can also stop where it has written what is the text of the old one. -/
theorem intact_after_stop_iff {dir : Folder} {mode : Nat} {old : Text}
    (hold : dir.lookup manifestFilename = some (.file mode old)) (n : Nat) :
    (∀ (cfg : Config) (date : Text) (m : Mac), m.folder date = some dir →
      (Intact old (Seal.manifestText (Seal.rowsNow m.db (cfg.dateSubdir date) dir))
          ((Seal.rewrittenFor cfg date m n).entry date manifestFilename) ↔
        n < 3 ∨ (Seal.loopFiles cfg date dir).length + 5 ≤ n)) ∧
    ∀ (byName : Bool) (db : Db) (dateSubdir : Text),
      (Intact old (SnapshotMover.newText byName db dateSubdir dir)
          ((SnapshotMover.rewrittenFor byName db dateSubdir dir n).lookup manifestFilename) ↔
        n < 2 ∨ (SnapshotMover.loopFiles dateSubdir dir).length + 4 ≤ n ∧
          ((SnapshotMover.newText byName db dateSubdir dir).take
              (n - ((SnapshotMover.loopFiles dateSubdir dir).length + 4)) = old ∨
            (SnapshotMover.newText byName db dateSubdir dir).length ≤
              n - ((SnapshotMover.loopFiles dateSubdir dir).length + 4))) := by
  constructor
  · intro cfg date m hdir
    exact Seal.intact_rewrittenFor_iff cfg hdir hold n
  · intro byName db dateSubdir
    exact SnapshotMover.intact_rewrittenFor_iff byName db dateSubdir hold n

/-! ## A lookup that throws -/

def lateDir : Folder :=
  (AList.singleton Verify.snapshot (.file 0o444 [])).insert manifestFilename
    (.file 0o444 (Seal.manifestText []))

def lateMac : Mac := { Archive.sealedMac with archive := AList.singleton Seal.newYear (.folder lateDir) }

theorem intact_after_stop_iff_late :
    (Intact (Seal.manifestText [])
        (Seal.manifestText (Seal.rowsNow lateMac.db (Seal.archiveConfig.dateSubdir Seal.newYear) lateDir))
        ((Seal.rewrittenFor Seal.archiveConfig Seal.newYear lateMac 4).entry Seal.newYear manifestFilename) ↔
      4 < 3 ∨ (Seal.loopFiles Seal.archiveConfig Seal.newYear lateDir).length + 5 ≤ 4) ∧
    (Intact (Seal.manifestText []) (SnapshotMover.newText false lateMac.db
      (ascii "/archive/2026-01-01") lateDir)
        ((SnapshotMover.rewrittenFor false lateMac.db
          (ascii "/archive/2026-01-01") lateDir 4).lookup manifestFilename) ↔
      4 < 2 ∨ (SnapshotMover.loopFiles (ascii "/archive/2026-01-01") lateDir).length + 4 ≤ 4 ∧
        ((SnapshotMover.newText false lateMac.db (ascii "/archive/2026-01-01") lateDir).take
            (4 - ((SnapshotMover.loopFiles (ascii "/archive/2026-01-01") lateDir).length + 4)) =
              Seal.manifestText [] ∨
          (SnapshotMover.newText false lateMac.db (ascii "/archive/2026-01-01") lateDir).length ≤
            4 - ((SnapshotMover.loopFiles (ascii "/archive/2026-01-01") lateDir).length + 4))) := by
  have hold : lateDir.lookup manifestFilename = some (.file 0o444 (Seal.manifestText [])) :=
    AList.lookup_insert _
  have h := intact_after_stop_iff hold 4
  exact ⟨h.1 Seal.archiveConfig Seal.newYear lateMac rfl, h.2 false lateMac.db (ascii "/archive/2026-01-01")⟩

/-- The events of the snapshot cannot be read: no manifest is left. -/
theorem late_manifest_lost :
    ¬Intact (Seal.manifestText []) (Seal.manifestText (Seal.rowsNow lateMac.db (Seal.archiveConfig.dateSubdir Seal.newYear) lateDir))
        ((Seal.rewriteManifestForStraggler { fails := fun c => c = .lookup Verify.snapshot } Seal.archiveConfig lateMac
          Seal.newYear).entry Seal.newYear manifestFilename) ∧
      ¬Intact (Seal.manifestText []) (SnapshotMover.newText false lateMac.db
        (ascii "/archive/2026-01-01") lateDir)
        ((SnapshotMover.rewrittenFor false lateMac.db
          (ascii "/archive/2026-01-01") lateDir 3).lookup manifestFilename) := by
  decide

end VisitLogger
