import VisitLogger.Day
import VisitLogger.MoverSound

/-!
# Two ticks

Each pass works date by date: on a date it does what `Day` says, and it leaves
the other dates alone. So two ticks drain the past dates iff each of their days
drains (`ticks_drain_iff`).
-/

namespace VisitLogger

open SnapshotMover (ManifestRow manifestFilename ignoredNames)

def Mac.day (m : Mac) (d : Text) : Day :=
  let dir := (m.folder d).getD ∅
  { row := m.db.sealedOf d
    plain := match m.archive.lookup d with
      | some .plain => true
      | _ => false
    manifest := isFile (dir.lookup manifestFilename)
    copy := dir.lookup (logFilename d)
    log := m.logDir.lookup (logFilename d) }

/-! ## One date in a pass -/

namespace Mac

variable {d : Text} {m m' : Mac} {cfg : Config} {name : Text} {source : Node}

theorem SameDate.day (h : SameDate d m m') : m'.day d = m.day d := by
  unfold Mac.day
  rw [h.folder, h.row, h.site, h.log]

theorem copy_of_plain (h : (m.day d).plain = true) : (m.day d).copy = none := by
  have ha : m.archive.lookup d = some .plain := by
    unfold Mac.day at h
    dsimp only at h
    split at h
    · assumption
    · cases h
  unfold Mac.day Mac.folder
  rw [ha]
  rfl

theorem plain_iff : (m.day d).plain = true ↔ m.archive.lookup d = some .plain := by
  unfold Mac.day
  dsimp only
  split
  · rename_i h
    simp [h]
  · rename_i h
    simp only [Bool.false_eq_true, false_iff]
    exact h

theorem plain_of_folder {dir : Folder} (hf : m.folder d = some dir) : (m.day d).plain = false := by
  rw [Bool.eq_false_iff, Ne, plain_iff]
  intro h
  rw [Mac.folder, h] at hf
  cases hf

theorem day_setFolder (m : Mac) (dir : Folder) : (m.setFolder d dir).day d =
    { m.day d with plain := false, manifest := isFile (dir.lookup manifestFilename), copy := dir.lookup (logFilename d) } := by
  unfold Mac.day Mac.setFolder Mac.folder
  simp only [AList.lookup_insert, Option.getD_some]

theorem day_landed (hv : SnapshotName.isValid name = true) : (Archive.landed cfg m name d source).day d =
    { m.day d with row := some ((m.day d).row.getD 0), plain := false } := by
  have hm : manifestFilename ≠ name := (SnapshotName.ne_manifestFilename hv).symm
  have hl : logFilename d ≠ name := (SnapshotName.ne_logFilename hv d).symm
  unfold Mac.day Archive.landed Mac.folder
  simp only [AList.lookup_insert, Option.getD_some, AList.lookup_insert_ne hm, AList.lookup_insert_ne hl,
    AList.lookup_erase_ne hm, AList.lookup_erase_ne hl, Db.sealedOf_insertSnapshot, if_true,
      Archive.sealedOf_relocated]

theorem day_rewriteManifest {dir : Folder} (hf : m.folder d = some dir) :
    (Seal.rewriteManifestForStraggler noFaults cfg m d).day d = { m.day d with manifest := true } := by
  rw [Seal.rewriteManifest_noFaults hf, day_setFolder, Seal.lookup_freshDir_manifest,
    Seal.lookup_freshDir_ne _ _ _ (Seal.logFilename_ne_manifest d), ← plain_of_folder hf]
  simp only [Mac.day, hf, isFile, Option.getD_some]

theorem day_moveOne (hv : SnapshotName.isValid name = true) (hs : m.downloads.lookup name = some source) :
    (Archive.moveOne noFaults cfg m name d).1.day d = (m.day d).arrive := by
  by_cases hp : m.archive.lookup d = some .plain
  · rw [Archive.moveOne_plain hp, Day.arrive, if_pos (plain_iff.mpr hp)]
  · have hplain : ¬(m.day d).plain = true := fun h => hp (plain_iff.mp h)
    have hrow : (m.day d).row = m.db.sealedOf d := rfl
    rw [Archive.moveOne_noFaults hp hs, Day.arrive, if_neg hplain, hrow]
    rw [Bool.not_eq_true] at hplain
    split
    · rename_i h1
      rw [day_rewriteManifest (by rw [Archive.landed, Mac.folder, AList.lookup_insert]), day_landed hv,
        hrow, ← hplain]
      simp [h1]
    · rename_i h1
      rw [day_landed hv, hrow, ← hplain]
      simp [h1]

theorem day_sealDirectory (h : m.archive.lookup d ≠ none) :
    (Seal.sealDirectory noFaults cfg m d).1.day d = (m.day d).sealDate := by
  cases ha : m.archive.lookup d with
  | none => exact absurd ha h
  | some site =>
    cases site with
    | plain =>
      have hf : m.folder d = none := by rw [Mac.folder, ha]
      rw [Seal.sealDirectory, hf, Day.sealDate, if_pos (plain_iff.mpr ha)]
    | folder dir =>
      have hf : m.folder d = some dir := by rw [Mac.folder, ha]
      have hday : m.day d = ⟨m.db.sealedOf d, false, isFile (dir.lookup manifestFilename),
        dir.lookup (logFilename d),
          m.logDir.lookup (logFilename d)⟩ := by
        unfold Mac.day
        rw [hf, ha]
        rfl
      rw [Seal.sealDirectory_noFaults hf]
      by_cases hs : Seal.Split d m.logDir dir
      · obtain ⟨log, hlog⟩ := Option.isSome_iff_exists.mp (AList.lookup_isSome.mpr hs.1)
        obtain ⟨copy, hcopy⟩ := Option.isSome_iff_exists.mp (AList.lookup_isSome.mpr hs.2)
        rw [if_pos hs, day_setFolder, Seal.lookup_freshDir_manifest,
          Seal.lookup_freshDir_ne _ _ _ (Seal.logFilename_ne_manifest d), hday, hlog, hcopy]
        rfl
      · rw [if_neg hs]
        unfold Mac.day Mac.folder
        simp only [AList.lookup_insert, AList.lookup_erase, Option.getD_some, Db.sealedOf_upsertSnapshot_self,
          Seal.lookup_sealedDir_manifest, Seal.lookup_sealedDir_log, ha]
        cases hlog : m.logDir.lookup (logFilename d) with
        | none => rfl
        | some log =>
          have hcopy : dir.lookup (logFilename d) = none :=
            AList.lookup_eq_none.mpr fun hc => hs ⟨AList.lookup_isSome.mp (by rw [hlog]; rfl), hc⟩
          rw [hcopy]
          rfl

theorem day_sealDate : (Seal.sealDate cfg m d).day d = (m.day d).sealDate := by
  unfold Seal.sealDate
  cases ha : m.archive.lookup d with
  | none =>
    have hday : (m.setFolder d ∅).day d = m.day d := by
      rw [day_setFolder]
      unfold Mac.day Mac.folder
      rw [ha]
      rfl
    have hsome : (m.setFolder d ∅).archive.lookup d ≠ none := by simp [Mac.setFolder]
    rw [← hday]
    exact day_sealDirectory hsome
  | some site =>
    have hsome : m.archive.lookup d ≠ none := by simp [ha]
    exact day_sealDirectory hsome

end Mac

/-! ## The passes -/

namespace Seal

variable {d today : Text} {cfg : Config} {m : Mac}

theorem mem_unsealed (hkey : (m.db.snapshots.map Prod.fst).Nodup) :
    d ∈ unsealed m.db today ↔ m.db.sealedOf d = some 0 ∧ d < today := by
  have hrow : m.db.sealedOf d = some 0 ↔ (d, 0) ∈ m.db.snapshots := by
    unfold Db.sealedOf
    constructor
    · intro h
      obtain ⟨s, hs, hz⟩ := Option.map_eq_some_iff.mp h
      have hd : s.1 = d := by simpa using List.find?_some hs
      have hmem := List.mem_of_find?_eq_some hs
      rwa [← hd, ← hz]
    · intro h
      obtain ⟨s, hs⟩ := Option.isSome_iff_exists.mp (List.find?_isSome.mpr ⟨_, h, by simp⟩ :
        (m.db.snapshots.find? fun s => s.1 = d).isSome)
      have hd : s.1 = d := by simpa using List.find?_some hs
      have he : s = (d, 0) := List.inj_on_of_nodup_map hkey (List.mem_of_find?_eq_some hs) h hd
      rw [hs, he]
      rfl
  simp only [hrow, unsealed, mem_sortStrings, List.mem_map, List.mem_filter, Bool.and_eq_true,
    decide_eq_true_eq]
  constructor
  · rintro ⟨⟨e, n⟩, ⟨hmem, rfl, hlt⟩, rfl⟩
    exact ⟨hmem, hlt⟩
  · rintro ⟨hmem, hlt⟩
    exact ⟨(d, 0), ⟨hmem, rfl, hlt⟩, rfl⟩

theorem nodup_unsealed (hkey : (m.db.snapshots.map Prod.fst).Nodup) : (unsealed m.db today).Nodup := by
  rw [unsealed, (sortStrings_perm _).nodup_iff]
  exact (List.filter_sublist.map Prod.fst).nodup hkey

theorem downloads_sealDate (cfg : Config) (m : Mac) (date : Text) :
    (sealDate cfg m date).downloads = m.downloads := by
  have hseal : ∀ m : Mac, (sealDirectory noFaults cfg m date).1.downloads = m.downloads := by
    intro m
    cases hf : m.folder date with
    | none => rw [sealDirectory, hf]
    | some dir =>
      rw [sealDirectory_noFaults hf]
      split <;> rfl
  unfold sealDate
  rw [hseal]
  split <;> rfl

theorem lookup_sealDate_ne {e : Text} (h : ∀ date, e ≠ logFilename date) (m : Mac) (date : Text) :
    (sealDate cfg m date).logDir.lookup e = m.logDir.lookup e := by
  have hseal : ∀ m : Mac, (sealDirectory noFaults cfg m date).1.logDir.lookup e = m.logDir.lookup e := by
    intro m
    cases hf : m.folder date with
    | none => rw [sealDirectory, hf]
    | some dir =>
      rw [sealDirectory_noFaults hf]
      split
      · rfl
      · exact AList.lookup_erase_ne (h date)
  unfold sealDate
  rw [hseal]
  split <;> rfl

theorem lookup_foldl_ne {e : Text} (h : ∀ date, e ≠ logFilename date) (l : List Text) (m : Mac) :
    (l.foldl (sealDate cfg) m).logDir.lookup e = m.logDir.lookup e := by
  induction l generalizing m with
  | nil => rfl
  | cons date l ih => rw [List.foldl_cons, ih, lookup_sealDate_ne h]

theorem day_foldl_sealDate {l : List Text} (hl : l.Nodup) (m : Mac) :
    (l.foldl (sealDate cfg) m).day d = if d ∈ l then (m.day d).sealDate else m.day d := by
  induction l generalizing m with
  | nil => rfl
  | cons e l ih =>
    rw [List.nodup_cons] at hl
    rw [List.foldl_cons, ih hl.2]
    by_cases he : d = e
    · subst he
      rw [if_neg hl.1, if_pos (by simp), Mac.day_sealDate]
    · rw [(Mac.SameDate.sealDate he cfg m).day]
      simp [he]

theorem day_pass (hkey : (m.db.snapshots.map Prod.fst).Nodup) (hpast : d < today) :
    (pass cfg today m).day d = if (m.day d).row = some 0 then (m.day d).sealDate else m.day d := by
  rw [pass, day_foldl_sealDate (nodup_unsealed hkey)]
  simp only [mem_unsealed hkey, hpast, and_true]
  rfl

end Seal

theorem Seal.downloads_rewriteManifest (cfg : Config) (m : Mac) (date : Text) :
    (rewriteManifestForStraggler noFaults cfg m date).downloads = m.downloads := by
  unfold rewriteManifestForStraggler
  cases m.folder date <;> rfl

theorem Seal.logDir_rewriteManifest (cfg : Config) (m : Mac) (date : Text) :
    (rewriteManifestForStraggler noFaults cfg m date).logDir = m.logDir := by
  unfold rewriteManifestForStraggler
  cases m.folder date <;> rfl

namespace Sweep

variable {d : Text} {cfg : Config} {old : Text → Bool} {m : Mac}

def dateOf (old : Text → Bool) (downloads : Folder) (name : Text) : Option Text :=
  match downloads.lookup name with
  | none => none
  | some node => if ignoredNames.contains name || node.isDir || !old name then none else SnapshotName.dateString name

theorem dateOf_valid {downloads : Folder} {name : Text} (h : dateOf old downloads name = some d) :
    SnapshotName.isValid name = true ∧ ∃ source, downloads.lookup name = some source := by
  unfold dateOf at h
  split at h
  · cases h
  · rename_i node hn
    split at h
    · cases h
    · exact ⟨SnapshotName.isValid_of_dateString h, node, hn⟩

theorem dateString_of_dateOf {downloads : Folder} {name : Text} (h : dateOf old downloads name = some d) :
    SnapshotName.dateString name = some d := by
  unfold dateOf at h
  split at h
  · cases h
  · split at h
    · cases h
    · exact h

theorem sweepOne_eq (cfg : Config) (old : Text → Bool) (m : Mac) (name : Text) : sweepOne cfg old m name =
    match dateOf old m.downloads name with
    | none => m
    | some date => (Archive.moveOne noFaults cfg m name date).1 := by
  unfold sweepOne dateOf
  cases hn : m.downloads.lookup name with
  | none => rfl
  | some node =>
    dsimp only
    generalize (ignoredNames.contains name || node.isDir) = skipped
    cases skipped <;> cases old name <;> cases SnapshotName.dateString name <;> rfl

theorem day_sweepOne (cfg : Config) (old : Text → Bool) (m : Mac) (name : Text) :
    (sweepOne cfg old m name).day d =
    if dateOf old m.downloads name = some d then (m.day d).arrive else m.day d := by
  rw [sweepOne_eq]
  cases h : dateOf old m.downloads name with
  | none => rfl
  | some date =>
    obtain ⟨hv, source, hs⟩ := dateOf_valid h
    by_cases hd : d = date
    · subst hd
      rw [if_pos rfl]
      exact Mac.day_moveOne hv hs
    · rw [if_neg fun he => hd (Option.some.inj he).symm]
      exact (Mac.SameDate.moveOne hd cfg m hs).day

theorem dateOf_congr {downloads downloads' : Folder} {name : Text}
    (h : downloads'.lookup name = downloads.lookup name) :
    dateOf old downloads' name = dateOf old downloads name := by
  rw [dateOf, dateOf, h]

theorem downloads_sweepOne (cfg : Config) (old : Text → Bool) (m : Mac) (name : Text) :
    (sweepOne cfg old m name).downloads = m.downloads ∨
      (dateOf old m.downloads name ≠ none ∧ (sweepOne cfg old m name).downloads = m.downloads.erase name) := by
  rw [sweepOne_eq]
  cases h : dateOf old m.downloads name with
  | none => exact Or.inl rfl
  | some date =>
    obtain ⟨-, source, hs⟩ := dateOf_valid h
    dsimp only
    by_cases hp : m.archive.lookup date = some .plain
    · rw [Archive.moveOne_plain hp]
      exact Or.inl rfl
    · refine Or.inr ⟨Option.some_ne_none _, ?_⟩
      rw [Archive.moveOne_noFaults hp hs]
      split
      · exact Seal.downloads_rewriteManifest cfg _ date
      · rfl

theorem logDir_sweepOne (cfg : Config) (old : Text → Bool) (m : Mac) (name : Text) :
    (sweepOne cfg old m name).logDir = m.logDir := by
  rw [sweepOne_eq]
  cases h : dateOf old m.downloads name with
  | none => rfl
  | some date =>
    obtain ⟨-, source, hs⟩ := dateOf_valid h
    dsimp only
    by_cases hp : m.archive.lookup date = some .plain
    · rw [Archive.moveOne_plain hp]
    · rw [Archive.moveOne_noFaults hp hs]
      split
      · exact Seal.logDir_rewriteManifest cfg _ date
      · rfl

theorem lookup_sweepOne_ne {name name' : Text} (h : name' ≠ name) :
    (sweepOne cfg old m name).downloads.lookup name' = m.downloads.lookup name' := by
  obtain he | ⟨-, he⟩ := downloads_sweepOne cfg old m name
  · rw [he]
  · rw [he, AList.lookup_erase_ne h]

/-- **A sweep, seen from a date**: some snapshot of the date came in, or none. -/
theorem day_foldl {l : List Text} (hl : l.Nodup) (m : Mac) : (l.foldl (sweepOne cfg old) m).day d =
    if l.any (dateOf old m.downloads · = some d) then (m.day d).arrive else m.day d := by
  induction l generalizing m with
  | nil => rfl
  | cons name l ih =>
    rw [List.nodup_cons] at hl
    have hany : l.any (dateOf old (sweepOne cfg old m name).downloads · = some d) =
      l.any (dateOf old m.downloads · = some d) := by
      rw [Bool.eq_iff_iff, List.any_eq_true, List.any_eq_true]
      refine exists_congr fun name' => and_congr_right fun hmem => ?_
      have hne : name' ≠ name := fun he => hl.1 (by rwa [← he])
      rw [dateOf_congr (lookup_sweepOne_ne hne)]
    rw [List.foldl_cons, ih hl.2, hany, day_sweepOne, List.any_cons]
    by_cases h : dateOf old m.downloads name = some d
    · simp [h, Day.arrive_arrive]
    · simp [h]

theorem lookup_foldl (cfg : Config) (old : Text → Bool) (l : List Text) (m : Mac) (name : Text) :
    (l.foldl (sweepOne cfg old) m).downloads.lookup name = m.downloads.lookup name ∨
      (dateOf old m.downloads name ≠ none ∧ (l.foldl (sweepOne cfg old) m).downloads.lookup name = none) := by
  induction l generalizing m with
  | nil => exact Or.inl rfl
  | cons name' l ih =>
    rw [List.foldl_cons]
    have hone : (sweepOne cfg old m name').downloads.lookup name = m.downloads.lookup name ∨
        (dateOf old m.downloads name ≠ none ∧ (sweepOne cfg old m name').downloads.lookup name = none) := by
      by_cases hn : name = name'
      · subst hn
        refine (downloads_sweepOne cfg old m name).imp (fun h => by rw [h]) fun h => ⟨h.1, ?_⟩
        rw [h.2, AList.lookup_erase]
      · exact Or.inl (lookup_sweepOne_ne hn)
    obtain h | ⟨hd, h⟩ := hone
    · have hih := ih (sweepOne cfg old m name')
      rwa [h, dateOf_congr h] at hih
    · refine Or.inr ⟨hd, ?_⟩
      obtain h' | ⟨-, h'⟩ := ih (sweepOne cfg old m name')
      · rw [h', h]
      · exact h'

theorem logDir_foldl (l : List Text) (m : Mac) : (l.foldl (sweepOne cfg old) m).logDir = m.logDir := by
  induction l generalizing m with
  | nil => rfl
  | cons name l ih => rw [List.foldl_cons, ih, logDir_sweepOne]

def arrived (old : Text → Bool) (m : Mac) (d : Text) : Bool :=
  m.downloads.keys.any (dateOf old m.downloads · = some d)

theorem day_pass (cfg : Config) (old : Text → Bool) (m : Mac) (d : Text) :
    (pass cfg old m).day d = if arrived old m d then (m.day d).arrive else m.day d :=
  day_foldl m.downloads.keys_nodup m

theorem arrived_iff : arrived old m d = true ↔ ∃ name, dateOf old m.downloads name = some d := by
  rw [arrived, List.any_eq_true]
  constructor
  · rintro ⟨name, -, h⟩
    exact ⟨name, of_decide_eq_true h⟩
  · rintro ⟨name, h⟩
    obtain ⟨-, source, hs⟩ := dateOf_valid h
    exact ⟨name, AList.lookup_isSome.mp (by rw [hs]; rfl), decide_eq_true h⟩

/-- A sweep that takes no snapshot of a date leaves them all. -/
theorem dateOf_pass {old₁ old₂ : Text → Bool} (h₁ : arrived old₁ m d = false) (name : Text) :
    dateOf old₂ (pass cfg old₁ m).downloads name = some d ↔ dateOf old₂ m.downloads name = some d := by
  obtain h | ⟨hd, h⟩ := lookup_foldl cfg old₁ m.downloads.keys m name
  · rw [pass, dateOf_congr h]
  · -- taken by the sweep, so not for this date
    obtain ⟨date, hdate⟩ := Option.ne_none_iff_exists'.mp hd
    refine iff_of_false (fun h' => ?_) fun h' => ?_
    · obtain ⟨-, source, hs⟩ := dateOf_valid h'
      rw [pass, h] at hs
      cases hs
    · have he : some date = some d := (dateString_of_dateOf hdate).symm.trans (dateString_of_dateOf h')
      rw [he] at hdate
      rw [arrived_iff.mpr ⟨name, hdate⟩] at h₁
      cases h₁

end Sweep

namespace OrphanLog

/-! ## Merging, date by date -/

variable {d today : Text} {m : Mac} {entry : Text}

def counterpart (m : Mac) (d entry : Text) : Option Node := (m.folder d).bind (·.lookup entry)

/-- A log of the date that is not under the name of its day log, and has no counterpart. -/
def fills (m : Mac) (d entry : Text) : Bool :=
  entry ≠ logFilename d && extractDate entry = some d && (counterpart m d entry).isNone

theorem counterpart_some {dir : Folder} (hf : m.folder d = some dir) (entry : Text) :
    counterpart m d entry = dir.lookup entry := by
  rw [counterpart, hf, Option.bind_some]

theorem counterpart_none (hf : m.folder d = none) (entry : Text) : counterpart m d entry = none := by
  rw [counterpart, hf, Option.bind_none]

theorem counterpart_log (m : Mac) (d : Text) : counterpart m d (logFilename d) = (m.day d).copy := by
  unfold counterpart Mac.day
  cases m.folder d with
  | none => rfl
  | some dir => rfl

theorem mergeOne_other (h : extractDate entry ≠ some d) (he : entry ≠ logFilename d) (today : Text) (m : Mac) :
    Mac.SameDate d m (mergeOne today m entry) := by
  unfold mergeOne
  cases hx : extractDate entry with
  | none => exact .refl d m
  | some date =>
    have hd : d ≠ date := by
      rintro rfl
      exact h hx
    dsimp only
    split
    · split
      · refine ⟨?_, rfl, rfl⟩
        rw [Db.sealedOf_insertSnapshot, if_neg hd.symm]
      · split
        · split
          · exact ⟨rfl, AList.lookup_insert_ne hd, AList.lookup_erase_ne he.symm⟩
          · exact .setFolder hd m _
        · exact .setFolder hd m _
    · exact .refl d m

theorem ne_manifestFilename (h : extractDate entry = some d) : entry ≠ manifestFilename := by
  rintro rfl
  rw [show extractDate manifestFilename = none by decide] at h
  cases h

theorem mergeOne_fresh (h : extractDate entry = some d) (hpast : d < today)
    (hc : counterpart m d entry = none) :
    mergeOne today m entry = { m with db := m.db.insertSnapshot d } := by
  have hb : (m.folder d).bind (fun dir => (dir.lookup entry).map (dir, ·)) = none := by
    unfold counterpart at hc
    cases hf : m.folder d with
    | none => rfl
    | some dir =>
      rw [hf, Option.bind_some] at hc
      rw [Option.bind_some, hc]
      rfl
  unfold mergeOne
  rw [h]
  dsimp only
  rw [if_pos hpast, hb]

theorem lookup_of_erase {logDir logDir' : Folder} (h : logDir' = logDir ∨ logDir' = logDir.erase entry)
    {e : Text}
    (he : e ≠ entry) : logDir'.lookup e = logDir.lookup e := by
  obtain rfl | rfl := h
  · rfl
  · exact AList.lookup_erase_ne he

theorem mergeOne_copy (h : extractDate entry = some d) (hpast : d < today) {dir : Folder} {dst : Node}
    (hf : m.folder d = some dir) (hc : dir.lookup entry = some dst) : ∃ logDir node,
      mergeOne today m entry = { m with logDir }.setFolder d (dir.insert entry node) ∧
      (logDir = m.logDir ∨ logDir = m.logDir.erase entry) ∧
      ∀ s : Day, s.log ≠ none → s.log = m.logDir.lookup entry → s.copy = some dst →
        s.merge = { s with log := logDir.lookup entry, copy := some node } := by
  have hb : (m.folder d).bind (fun dir => (dir.lookup entry).map (dir, ·)) = some (dir, dst) := by
    rw [hf, Option.bind_some, hc]
    rfl
  unfold mergeOne
  rw [h]
  dsimp only
  rw [if_pos hpast, hb]
  dsimp only
  cases hl : m.logDir.lookup entry with
  | none => exact ⟨m.logDir, dst.chmod 0o644, rfl, Or.inl rfl, fun s hs hs' => absurd hs' hs⟩
  | some log =>
    have hstay : ∀ s : Day, s.log = some log → s.copy = some dst →
        s.merge = { s with copy := some (dst.chmod 0o644) } →
        s.merge = { s with log := m.logDir.lookup entry, copy := some (dst.chmod 0o644) } := by
      intro s hs _ hm
      rw [hm, hl, ← hs]
    cases log with
    | dir mode =>
      refine ⟨m.logDir, dst.chmod 0o644, rfl, Or.inl rfl, fun s _ hs hs' => hstay s hs hs' ?_⟩
      rw [Day.merge, hs, hs']
      cases dst <;> rfl
    | file mode body =>
      cases dst with
      | dir mode' =>
        refine ⟨m.logDir, Node.chmod 0o644 (.dir mode'), rfl, Or.inl rfl, fun s _ hs hs' => hstay s hs hs' ?_⟩
        rw [Day.merge, hs, hs']
      | file mode' content =>
        dsimp only
        by_cases hu : isUtf8 body = true
        · refine ⟨m.logDir.erase entry, .file 0o444 (content ++ body), by rw [if_pos hu], Or.inr rfl, ?_⟩
          intro s _ hs hs'
          rw [Day.merge, hs, hs', AList.lookup_erase]
          exact if_pos hu
        · refine ⟨m.logDir, Node.chmod 0o644 (.file mode' content), by rw [if_neg hu], Or.inl rfl,
            fun s _ hs hs' => hstay s hs hs' ?_⟩
          rw [Day.merge, hs, hs']
          exact if_neg hu

theorem day_insertSnapshot (m : Mac) (d : Text) :
    ({ m with db := m.db.insertSnapshot d } : Mac).day d = (m.day d).backfill := by
  unfold Mac.day Day.backfill
  simp only [Db.sealedOf_insertSnapshot, if_true]
  rfl

theorem day_mergeOne_log (h : extractDate (logFilename d) = some d) (hpast : d < today)
    (hl : (m.day d).log ≠ none) :
    (mergeOne today m (logFilename d)).day d = (m.day d).merge := by
  cases hc : counterpart m d (logFilename d) with
  | none =>
    rw [mergeOne_fresh h hpast hc, day_insertSnapshot]
    rw [counterpart_log] at hc
    exact (Day.merge_noCopy hl hc).symm
  | some dst =>
    obtain ⟨dir, hf, hdst⟩ := Option.bind_eq_some_iff.mp hc
    obtain ⟨log, hlog⟩ := Option.ne_none_iff_exists'.mp hl
    have hlog : m.logDir.lookup (logFilename d) = some log := hlog
    have hplain := Mac.plain_of_folder hf
    have hman : manifestFilename ≠ logFilename d := (Seal.logFilename_ne_manifest d).symm
    obtain ⟨logDir, node, he, -, hmerge⟩ := mergeOne_copy h hpast hf hdst
    rw [he, Mac.day_setFolder, hmerge (m.day d) hl rfl (by rw [← counterpart_log, hc]), AList.lookup_insert,
      AList.lookup_insert_ne hman]
    unfold Mac.day at hplain ⊢
    rw [hf] at hplain ⊢
    dsimp only at hplain
    simp only [Option.getD_some, hplain]

theorem day_mergeOne_entry (h : extractDate entry = some d) (hpast : d < today) (he : entry ≠ logFilename d) :
    (mergeOne today m entry).day d = if fills m d entry then (m.day d).backfill else m.day d := by
  unfold fills
  cases hc : counterpart m d entry with
  | none =>
    rw [mergeOne_fresh h hpast hc, day_insertSnapshot]
    simp [he, h]
  | some dst =>
    obtain ⟨dir, hf, hdst⟩ := Option.bind_eq_some_iff.mp hc
    have hplain := Mac.plain_of_folder hf
    obtain ⟨logDir, node, hm, hother, -⟩ := mergeOne_copy h hpast hf hdst
    rw [hm, Mac.day_setFolder, AList.lookup_insert_ne he.symm,
      AList.lookup_insert_ne (ne_manifestFilename h).symm]
    unfold Mac.day at hplain ⊢
    rw [hf] at hplain ⊢
    dsimp only at hplain
    simp only [Option.getD_some, hplain, lookup_of_erase hother he.symm]
    simp

/-- What a merge can do. -/
theorem mergeOne_cases (today : Text) (m : Mac) (entry : Text) :
    mergeOne today m entry = m ∨ (∃ date, mergeOne today m entry = { m with db := m.db.insertSnapshot date }) ∨
      ∃ date dir logDir node, m.folder date = some dir ∧ (dir.lookup entry).isSome ∧
        mergeOne today m entry = { m with logDir }.setFolder date (dir.insert entry node) ∧
        (logDir = m.logDir ∨ logDir = m.logDir.erase entry) := by
  cases h : extractDate entry with
  | none =>
    refine Or.inl ?_
    rw [mergeOne, h]
  | some date =>
    by_cases hpast : date < today
    · refine Or.inr ?_
      cases hc : counterpart m date entry with
      | none => exact Or.inl ⟨date, mergeOne_fresh h hpast hc⟩
      | some dst =>
        obtain ⟨dir, hf, hdst⟩ := Option.bind_eq_some_iff.mp hc
        obtain ⟨logDir, node, hm, hother, -⟩ := mergeOne_copy h hpast hf hdst
        exact Or.inr ⟨date, dir, logDir, node, hf, by rw [hdst]; rfl, hm, hother⟩
    · refine Or.inl ?_
      rw [mergeOne, h]
      exact if_neg hpast

theorem downloads_mergeOne (today : Text) (m : Mac) (entry : Text) :
    (mergeOne today m entry).downloads = m.downloads := by
  obtain h | ⟨date, h⟩ | ⟨date, dir, logDir, node, -, -, h, -⟩ := mergeOne_cases today m entry <;> rw [h]
  rfl

theorem lookup_mergeOne_ne {e : Text} (he : e ≠ entry) (today : Text) (m : Mac) :
    (mergeOne today m entry).logDir.lookup e = m.logDir.lookup e := by
  obtain h | ⟨date, h⟩ | ⟨date, dir, logDir, node, -, -, h, hother⟩ := mergeOne_cases today m entry
  · rw [h]
  · rw [h]
  · rw [h]
    exact lookup_of_erase hother he

theorem counterpart_setFolder (m : Mac) (d date : Text) (dir : Folder) (e : Text) :
    counterpart (m.setFolder date dir) d e = if d = date then dir.lookup e else counterpart m d e := by
  unfold counterpart
  split
  · rename_i h
    rw [h, Mac.folder, Mac.setFolder, AList.lookup_insert]
    rfl
  · rename_i h
    rw [(Mac.SameDate.setFolder h m dir).folder]

theorem counterpart_mergeOne_ne {e : Text} (he : e ≠ entry) (today : Text) (m : Mac) (d : Text) :
    counterpart (mergeOne today m entry) d e = counterpart m d e := by
  obtain h | ⟨date, h⟩ | ⟨date, dir, logDir, node, hf, -, h, -⟩ := mergeOne_cases today m entry
  · rw [h]
  · rw [h]
    rfl
  · rw [h, counterpart_setFolder, AList.lookup_insert_ne he]
    split
    · rename_i hd
      rw [hd, counterpart_some hf]
    · rfl

/-- **The merge pass, seen from a date.** -/
theorem day_foldl {l : List Text} (hl : l.Nodup) (hd : extractDate (logFilename d) = some d)
    (hpast : d < today) (m : Mac)
    (hlog : logFilename d ∈ l → (m.day d).log ≠ none) : (l.foldl (mergeOne today) m).day d =
      let s := if logFilename d ∈ l then (m.day d).merge else m.day d
      if l.any (fills m d) then s.backfill else s := by
  induction l generalizing m with
  | nil => rfl
  | cons e l ih =>
    rw [List.nodup_cons] at hl
    have hne : ∀ e' ∈ l, e' ≠ e := fun e' h he => hl.1 (by rwa [← he])
    have hfills : l.any (fills (mergeOne today m e) d) = l.any (fills m d) := by
      rw [Bool.eq_iff_iff, List.any_eq_true, List.any_eq_true]
      refine exists_congr fun e' => and_congr_right fun h => ?_
      rw [fills, fills, counterpart_mergeOne_ne (hne e' h)]
    have hlog' : logFilename d ∈ l → ((mergeOne today m e).day d).log ≠ none := by
      intro h
      have hsame : ((mergeOne today m e).day d).log = (m.day d).log := lookup_mergeOne_ne (hne _ h) today m
      rw [hsame]
      exact hlog (List.mem_cons_of_mem _ h)
    rw [List.foldl_cons, ih hl.2 _ hlog', hfills, List.any_cons]
    by_cases he : e = logFilename d
    · subst he
      have hf : fills m d (logFilename d) = false := by simp [fills]
      rw [day_mergeOne_log hd hpast (hlog (by simp)), hf]
      simp [hl.1]
    · have hmem : logFilename d ∈ e :: l ↔ logFilename d ∈ l := by simp [Ne.symm he]
      simp only [hmem]
      by_cases hx : extractDate e = some d
      · rw [day_mergeOne_entry hx hpast he]
        cases hf : fills m d e with
        | false => simp
        | true =>
          simp only [if_true, Bool.true_or]
          split <;> split <;> simp [Day.merge_backfill, Day.backfill_backfill]
      · have hf : fills m d e = false := by simp [fills, hx]
        rw [(mergeOne_other hx he today m).day, hf]
        simp

/-- Whether a merge brings the row of a date by another entry than its day log. -/
def filled (m : Mac) (d : Text) : Bool := m.logDir.keys.any (fills m d)

theorem filled_iff : filled m d = true ↔ ∃ e ∈ m.logDir, fills m d e = true := by
  rw [filled, List.any_eq_true]; rfl

theorem day_mergePass (hd : extractDate (logFilename d) = some d) (hpast : d < today) (m : Mac) :
    (mergePass today m).day d = if filled m d then (m.day d).merge.backfill else (m.day d).merge := by
  have hmem : logFilename d ∈ sortStrings m.logDir.keys ↔ (m.day d).log ≠ none := by
    rw [mem_sortStrings, ← AList.mem_keys, ← AList.lookup_isSome, Option.isSome_iff_ne_none]
    rfl
  have hany : (sortStrings m.logDir.keys).any (fills m d) = filled m d := by
    rw [Bool.eq_iff_iff, filled, List.any_eq_true, List.any_eq_true]
    simp only [mem_sortStrings]
  have hmerge : (if logFilename d ∈ sortStrings m.logDir.keys then (m.day d).merge else m.day d) =
    (m.day d).merge := by
    split
    · rfl
    · rename_i h
      rw [hmem, ne_eq, not_not] at h
      exact (Day.merge_noLog h).symm
  rw [mergePass, day_foldl ((sortStrings_perm _).nodup_iff.mpr m.logDir.keys_nodup) hd hpast m hmem.mp,
    hany, hmerge]

end OrphanLog

/-! ## What every pass keeps -/

theorem Db.keyed_upsertSnapshot {db : Db} (date : Text) (n : Nat) (h : (db.snapshots.map Prod.fst).Nodup) :
    ((db.upsertSnapshot date n).snapshots.map Prod.fst).Nodup := by
  unfold upsertSnapshot
  by_cases hd : date ∈ db.snapshots.map Prod.fst
  · rw [if_pos ((Table.has_iff Prod.fst).mpr hd)]
    dsimp only
    rwa [Table.keys_updateWhere Prod.fst _ (fun s => (s.1, n)) _ fun _ => rfl]
  · rw [if_neg fun c => hd ((Table.has_iff Prod.fst).mp c)]
    dsimp only
    rw [List.map_append, List.map_singleton, ← List.concat_eq_append]
    exact h.concat hd

open OrphanLog (extractDate counterpart counterpart_some counterpart_none fills mergeOne)

/-- `date` is a primary key, no log comes to `LOG_DIR`, and none goes from the archive. -/
structure Mac.Later (m m' : Mac) : Prop where
  keyed : (m.db.snapshots.map Prod.fst).Nodup → (m'.db.snapshots.map Prod.fst).Nodup
  logs : ∀ e ∈ m'.logDir, e ∈ m.logDir
  copies : ∀ d e, extractDate e ≠ none → counterpart m d e ≠ none → counterpart m' d e ≠ none

namespace Mac.Later

variable {m m' m'' : Mac}

theorem refl (m : Mac) : Later m m := ⟨id, fun _ h => h, fun _ _ _ h => h⟩

theorem trans (h : Later m m') (h' : Later m' m'') : Later m m'' :=
  ⟨fun hk => h'.keyed (h.keyed hk), fun e he => h.logs e (h'.logs e he),
    fun d e hx hc => h'.copies d e hx (h.copies d e hx hc)⟩

theorem foldl {ι : Type*} {step : Mac → ι → Mac} (h : ∀ m x, Later m (step m x)) (l : List ι) (m : Mac) :
    Later m (l.foldl step m) := by
  induction l generalizing m with
  | nil => exact refl m
  | cons x l ih => exact (h m x).trans (ih _)

theorem setFolder {dir : Folder} (m : Mac) (date : Text)
    (h : ∀ e, extractDate e ≠ none → counterpart m date e ≠ none → dir.lookup e ≠ none) :
      Later m (m.setFolder date dir) := by
  refine ⟨id, fun _ h => h, fun d e hx hc => ?_⟩
  rw [OrphanLog.counterpart_setFolder]
  split
  · rename_i hd
    exact h e hx (hd ▸ hc)
  · exact hc

theorem insertSnapshot (m : Mac) (date : Text) : Later m { m with db := m.db.insertSnapshot date } :=
  ⟨Table.nodup_insertOrIgnore Prod.fst, fun _ h => h, fun _ _ _ h => h⟩

theorem freshDir (m : Mac) {date : Text} {dir : Folder} (hf : m.folder date = some dir) (db : Db)
    (dateSubdir : Text) :
    Later m (m.setFolder date (Seal.freshDir db dateSubdir dir)) := by
  refine setFolder m date fun e hx hc => ?_
  obtain ⟨d, hd⟩ := Option.ne_none_iff_exists'.mp hx
  rw [Seal.lookup_freshDir_ne _ _ _ (OrphanLog.ne_manifestFilename hd)]
  rwa [counterpart_some hf] at hc

theorem rewriteManifest (cfg : Config) (m : Mac) (date : Text) :
    Later m (Seal.rewriteManifestForStraggler noFaults cfg m date) := by
  cases hf : m.folder date with
  | none =>
    rw [Seal.rewriteManifestForStraggler, hf]
    exact refl m
  | some dir =>
    rw [Seal.rewriteManifest_noFaults hf]
    exact freshDir m hf _ _

theorem landed (cfg : Config) (m : Mac) {name : Text} (hv : SnapshotName.isValid name = true)
    (date : Text) (source : Node) :
    Later m (Archive.landed cfg m name date source) := by
  have hfolder : Later m (m.setFolder date
    ((((m.folder date).getD ∅).erase name).insert name (source.chmod 0o444))) := by
    refine setFolder m date fun e hx hc => ?_
    have he : e ≠ name := SnapshotName.ne_log hv hx
    rw [AList.lookup_insert_ne he, AList.lookup_erase_ne he]
    cases hf : m.folder date with
    | none => exact absurd (counterpart_none hf e) hc
    | some dir => rwa [counterpart_some hf] at hc
  refine ⟨fun hk => Table.nodup_insertOrIgnore Prod.fst ?_, hfolder.logs, hfolder.copies⟩
  rw [Archive.relocated, List.foldl_cons, List.foldl_cons, List.foldl_nil, Db.snapshots_updateDirectory,
    Db.snapshots_updateDirectory]
  exact hk

theorem sweepOne (cfg : Config) (old : Text → Bool) (m : Mac) (name : Text) :
    Later m (Sweep.sweepOne cfg old m name) := by
  rw [Sweep.sweepOne_eq]
  cases h : Sweep.dateOf old m.downloads name with
  | none => exact refl m
  | some date =>
    obtain ⟨hv, source, hs⟩ := Sweep.dateOf_valid h
    dsimp only
    by_cases hp : m.archive.lookup date = some .plain
    · rw [Archive.moveOne_plain hp]
      exact refl m
    · rw [Archive.moveOne_noFaults hp hs]
      split
      · exact (landed cfg m hv date source).trans (rewriteManifest cfg _ date)
      · exact landed cfg m hv date source

theorem sealDirectory (cfg : Config) (m : Mac) (date : Text) :
    Later m (Seal.sealDirectory noFaults cfg m date).1 := by
  cases hf : m.folder date with
  | none =>
    rw [Seal.sealDirectory, hf]
    exact refl m
  | some dir =>
    rw [Seal.sealDirectory_noFaults hf]
    split
    · exact freshDir m hf _ _
    · have hfolder : Later m (m.setFolder date
        (Seal.sealedDir m.db (cfg.dateSubdir date) date m.logDir dir)) := by
        refine setFolder m date fun e hx hc => ?_
        obtain ⟨d, hd⟩ := Option.ne_none_iff_exists'.mp hx
        rw [counterpart_some hf] at hc
        by_cases he : e = logFilename date
        · rw [he, Seal.lookup_sealedDir_log]
          rw [he] at hc
          cases m.logDir.lookup (logFilename date) with
          | none => exact hc
          | some log => exact Option.some_ne_none _
        · rwa [Seal.lookup_sealedDir_ne _ _ _ _ (OrphanLog.ne_manifestFilename hd) he]
      refine ⟨Db.keyed_upsertSnapshot date 1, fun e he => ?_, hfolder.copies⟩
      exact (AList.mem_erase.mp he).2

theorem sealDate (cfg : Config) (m : Mac) (date : Text) : Later m (Seal.sealDate cfg m date) := by
  unfold Seal.sealDate
  split
  · rename_i hn
    refine (setFolder m date fun e _ hc => ?_).trans (sealDirectory cfg _ date)
    exact absurd (counterpart_none (by rw [Mac.folder, Option.isNone_iff_eq_none.mp hn]) e) hc
  · exact sealDirectory cfg m date

theorem mergeOne (today : Text) (m : Mac) (entry : Text) : Later m (OrphanLog.mergeOne today m entry) := by
  obtain h | ⟨date, h⟩ | ⟨date, dir, logDir, node, hf, hsome, h,
    hother⟩ := OrphanLog.mergeOne_cases today m entry
  · rw [h]
    exact refl m
  · rw [h]
    exact insertSnapshot m date
  · have hfolder : Later m (m.setFolder date (dir.insert entry node)) := by
      refine setFolder m date fun e _ hc => ?_
      rw [counterpart_some hf] at hc
      by_cases he : e = entry
      · rw [he, AList.lookup_insert]
        exact Option.some_ne_none _
      · rwa [AList.lookup_insert_ne he]
    rw [h]
    refine ⟨hfolder.keyed, fun e he => ?_, hfolder.copies⟩
    obtain rfl | rfl := hother
    · exact he
    · exact (AList.mem_erase.mp he).2

end Mac.Later

/-! ## Two ticks -/

section
variable {cfg : Config} {today d : Text} {old old₁ old₂ : Text → Bool} {m : Mac}

def beforeMerge (cfg : Config) (today : Text) (old : Text → Bool) (m : Mac) : Mac :=
  Seal.pass cfg today (Sweep.pass cfg old m)

theorem later_beforeMerge (cfg : Config) (today : Text) (old : Text → Bool) (m : Mac) :
    Mac.Later m (beforeMerge cfg today old m) :=
  (Mac.Later.foldl (Mac.Later.sweepOne cfg old) _ m).trans (Mac.Later.foldl (Mac.Later.sealDate cfg) _ _)

theorem later_mergePass (today : Text) (m : Mac) : Mac.Later m (OrphanLog.mergePass today m) :=
  Mac.Later.foldl (Mac.Later.mergeOne today) _ m

theorem downloads_beforeMerge (cfg : Config) (today : Text) (old : Text → Bool) (m : Mac) :
    (beforeMerge cfg today old m).downloads = (Sweep.pass cfg old m).downloads := by
  unfold beforeMerge Seal.pass
  refine List.foldlRecOn (motive := fun m' : Mac => m'.downloads = _) _ _ rfl ?_
  intro m' h date _
  rw [← h]
  exact Seal.downloads_sealDate cfg m' date

theorem downloads_tick (cfg : Config) (today : Text) (old : Text → Bool) (m : Mac) :
    (tick cfg today old m).downloads = (Sweep.pass cfg old m).downloads := by
  unfold tick OrphanLog.mergePass
  refine List.foldlRecOn (motive := fun m' : Mac => m'.downloads = _) _ _
    (downloads_beforeMerge cfg today old m) ?_
  intro m' h entry _
  rw [← h]
  exact OrphanLog.downloads_mergeOne today m' entry

/-- **A tick, seen from a date.** -/
theorem day_tick (hkey : (m.db.snapshots.map Prod.fst).Nodup)
    (hd : extractDate (logFilename d) = some d) (hpast : d < today) :
    (tick cfg today old m).day d =
      (m.day d).tick (Sweep.arrived old m d) (OrphanLog.filled (beforeMerge cfg today old m) d) := by
  have hsweep : Mac.Later m (Sweep.pass cfg old m) := Mac.Later.foldl (Mac.Later.sweepOne cfg old) _ m
  rw [tick, OrphanLog.day_mergePass hd hpast, Seal.day_pass (hsweep.keyed hkey) hpast, Sweep.day_pass]
  rfl

theorem filled_of_filled (h : OrphanLog.filled (beforeMerge cfg today old₂ (tick cfg today old₁ m)) d = true) :
    OrphanLog.filled (beforeMerge cfg today old₁ m) d = true := by
  have hlater : Mac.Later (beforeMerge cfg today old₁ m) (beforeMerge cfg today old₂ (tick cfg today old₁ m)) :=
    (later_mergePass today _).trans (later_beforeMerge cfg today old₂ _)
  obtain ⟨e, he, hf⟩ := OrphanLog.filled_iff.mp h
  refine OrphanLog.filled_iff.mpr ⟨e, hlater.logs e he, ?_⟩
  simp only [fills, Bool.and_eq_true, decide_eq_true_eq, Option.isNone_iff_eq_none] at hf ⊢
  refine ⟨hf.1, ?_⟩
  by_contra hc
  exact hlater.copies d e (by rw [hf.1.2]; exact Option.some_ne_none _) hc hf.2

theorem arrived_or : (Sweep.arrived old₁ m d || Sweep.arrived old₂ (tick cfg today old₁ m) d) =
    (Sweep.arrived old₁ m d || Sweep.arrived old₂ m d) := by
  cases h₁ : Sweep.arrived old₁ m d with
  | true => rfl
  | false =>
    rw [Bool.false_or, Bool.false_or, Bool.eq_iff_iff, Sweep.arrived_iff, Sweep.arrived_iff, downloads_tick]
    exact exists_congr fun name => Sweep.dateOf_pass h₁ name

theorem filled_plain (hplain : (m.day d).plain = true) (hd : extractDate (logFilename d) = some d)
    (hpast : d < today)
    (hkey : (m.db.snapshots.map Prod.fst).Nodup) :
    (OrphanLog.filled (beforeMerge cfg today old m) d || (m.day d).log.isSome) =
      m.logDir.keys.any (extractDate · = some d) := by
  have hday : (beforeMerge cfg today old m).day d = m.day d := by
    have hsweep : Mac.Later m (Sweep.pass cfg old m) := Mac.Later.foldl (Mac.Later.sweepOne cfg old) _ m
    rw [beforeMerge, Seal.day_pass (hsweep.keyed hkey) hpast, Sweep.day_pass]
    simp [Day.arrive, Day.sealDate, hplain]
  have hnone : ∀ e, counterpart (beforeMerge cfg today old m) d e = none := by
    intro e
    rw [← hday, Mac.plain_iff] at hplain
    exact counterpart_none (by rw [Mac.folder, hplain]) e
  rw [Bool.eq_iff_iff, Bool.or_eq_true, OrphanLog.filled_iff, List.any_eq_true]
  constructor
  · rintro (⟨e, he, hf⟩ | hl)
    · simp only [fills, Bool.and_eq_true] at hf
      exact ⟨e, (later_beforeMerge cfg today old m).logs e he, hf.1.2⟩
    · exact ⟨logFilename d, AList.lookup_isSome.mp hl, decide_eq_true hd⟩
  · rintro ⟨e, he, hx⟩
    by_cases hlog : e = logFilename d
    · exact Or.inr (AList.lookup_isSome.mpr (hlog ▸ he))
    · refine Or.inl ⟨e, ?_, by simp [fills, hnone, hlog, of_decide_eq_true hx]⟩
      refine AList.lookup_isSome.mp ?_
      have hne : ∀ date, e ≠ logFilename date := by
        rintro date rfl
        rw [OrphanLog.extractDate_logFilename (of_decide_eq_true hx)] at hlog
        exact hlog rfl
      rw [beforeMerge, Seal.pass, Seal.lookup_foldl_ne hne, Sweep.pass, Sweep.logDir_foldl]
      exact AList.lookup_isSome.mpr he

theorem drained_iff (hkey : (m.db.snapshots.map Prod.fst).Nodup)
    (hd : extractDate (logFilename d) = some d) (hpast : d < today) :
    ((tick cfg today old₂ (tick cfg today old₁ m)).day d).Drained ↔
      (m.day d).drains (Sweep.arrived old₁ m d || Sweep.arrived old₂ m d)
        (m.logDir.keys.any (extractDate · = some d)) = true := by
  have hlater : Mac.Later m (tick cfg today old₁ m) :=
    (later_beforeMerge cfg today old₁ m).trans (later_mergePass today _)
  rw [day_tick (hlater.keyed hkey) hd hpast, day_tick hkey hd hpast,
    Day.drained_tick_tick _ Mac.copy_of_plain _ _ filled_of_filled, arrived_or]
  by_cases hplain : (m.day d).plain = true
  · rw [filled_plain hplain hd hpast hkey]
  · -- elsewhere nothing depends on it
    rw [Bool.not_eq_true] at hplain
    unfold Day.drains
    simp only [hplain, Bool.false_and]

end

/-- **Two ticks drain the past dates iff each of them meets `Day.drains`.** `date` is
the primary key of `snapshots`. -/
theorem ticks_drain_iff (cfg : Config) (today : Text) (old₁ old₂ : Text → Bool) (m : Mac)
    (hkey : (m.db.snapshots.map Prod.fst).Nodup) :
    (∀ d, extractDate (logFilename d) = some d → d < today →
      ((tick cfg today old₂ (tick cfg today old₁ m)).day d).Drained) ↔
      ∀ d, extractDate (logFilename d) = some d → d < today →
        (m.day d).drains (Sweep.arrived old₁ m d || Sweep.arrived old₂ m d)
          (m.logDir.keys.any (extractDate · = some d)) = true :=
  forall_congr' fun _ => forall_congr' fun hd => forall_congr' fun hpast => drained_iff hkey hd hpast

/-! ## A log that comes after the seal -/

def loggedMac (row : Nat) : Mac :=
  { downloads := ∅
    logDir := AList.singleton Verify.dayLog (.file 0o644 [])
    archive := AList.singleton Seal.newYear (.folder (AList.singleton manifestFilename (.file 0o444 [])))
    db := { Db.empty [] with snapshots := [(Seal.newYear, row)] } }

theorem ticks_drain_iff_newYear :
    (∀ d, extractDate (logFilename d) = some d → d < ascii "2026-01-02" →
      ((tick Seal.archiveConfig (ascii "2026-01-02") (fun _ => true)
        (tick Seal.archiveConfig (ascii "2026-01-02") (fun _ => true) (loggedMac 0))).day d).Drained) ↔
      ∀ d, extractDate (logFilename d) = some d → d < ascii "2026-01-02" →
        ((loggedMac 0).day d).drains (Sweep.arrived (fun _ => true) (loggedMac 0) d || Sweep.arrived
          (fun _ => true) (loggedMac 0) d)
          ((loggedMac 0).logDir.keys.any (extractDate · = some d)) = true :=
  ticks_drain_iff Seal.archiveConfig (ascii "2026-01-02") (fun _ => true) (fun _ => true) (loggedMac 0)
    (by decide)

/-- The day is sealed and holds no log: what comes to `LOG_DIR` stays there. -/
theorem late_log_stays :
    (((loggedMac 1).db.snapshots.map Prod.fst).Nodup ∧
      extractDate (logFilename Seal.newYear) = some Seal.newYear ∧
      Seal.newYear < ascii "2026-01-02") ∧
    ¬((tick Seal.archiveConfig (ascii "2026-01-02") (fun _ => true)
      (tick Seal.archiveConfig (ascii "2026-01-02") (fun _ => true) (loggedMac 1))).day Seal.newYear).Drained :=
  ⟨by decide, fun h => absurd h.1 (by decide)⟩

end VisitLogger
