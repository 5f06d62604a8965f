import VisitLogger.Mover
import VisitLogger.VerifySound

/-!
# A sealed directory is valid

The sealer writes a manifest and the verifier reads it back. They agree but for
the day log: the sealer does without one, the verifier does not
(`sealed_valid_iff`).
-/

namespace VisitLogger

open SnapshotMover (ManifestRow EventInfo manifestFilename ignoredNames)

/-! ## Reading a manifest back -/

/-- CR and LF stand only in pairs. -/
inductive Whole : Text → Prop
  | nil : Whole []
  | cons {b : Byte} {s : Text} (hcr : b ≠ cr) (hnl : b ≠ nl) (h : Whole s) : Whole (b :: s)
  | crlf {s : Text} (h : Whole s) : Whole (cr :: nl :: s)

namespace Whole

theorem append {a b : Text} (ha : Whole a) (hb : Whole b) : Whole (a ++ b) := by
  induction ha with
  | nil => exact hb
  | cons hcr hnl _ ih => exact .cons hcr hnl ih
  | crlf _ ih => exact .crlf ih

theorem of_clean {s : Text} (h : Clean s) : Whole s := by
  induction s with
  | nil => exact .nil
  | cons b s ih =>
    obtain ⟨⟨-, hnl, hcr⟩, hs⟩ := clean_cons.mp h
    exact .cons hcr hnl (ih hs)

theorem tsvSanitise (s : Text) : Whole (tsvSanitise s) := by
  have hkeep : ∀ b : Byte, ¬b = cr → ∀ {s : Text}, Whole s →
    Whole ((if b = tab ∨ b = nl then space else b) :: s) := by
    intro b hb s hs
    obtain ⟨-, hnl, hcr⟩ := clean_of_ne hb
    exact .cons hcr hnl hs
  fun_induction VisitLogger.tsvSanitise s with
  | case1 => exact .nil
  | case2 => exact .nil
  | case3 b hb => exact hkeep b hb .nil
  | case4 t ih => exact .crlf ih
  | case5 c t hc ih => exact ih
  | case6 b c t hb ih => exact hkeep b hb ih

theorem joinTabs {fields : List Text} (h : ∀ f ∈ fields, Whole f) : Whole (joinTabs fields) := by
  induction fields with
  | nil => exact .nil
  | cons f fields ih =>
    have ih := ih fun g hg => h g (List.mem_cons_of_mem _ hg)
    have hf := h f (by simp)
    cases fields with
    | nil => simpa [VisitLogger.joinTabs] using hf
    | cons g gs =>
      rw [VisitLogger.joinTabs, List.intercalate_cons_cons, List.append_assoc]
      exact hf.append (.cons (by decide) (by decide) ih)

theorem splitNl {s : Text} (h : Whole s) (t : Text) :
    Verify.splitNl (s ++ nl :: t) = s :: Verify.splitNl t := by
  induction h with
  | nil =>
    cases t with
    | nil => rfl
    | cons c t => rw [List.nil_append, Verify.splitNl, if_neg fun h => absurd h.1 (by decide), if_pos rfl]
  | @cons b s hcr hnl _ ih =>
    cases hs : s ++ nl :: t with
    | nil => exact absurd hs (by simp)
    | cons c u =>
      rw [List.cons_append, hs, Verify.splitNl, if_neg (fun h => hcr h.1), if_neg hnl, ← hs, ih]
      rfl
  | @crlf s _ ih =>
    rw [List.cons_append, List.cons_append, Verify.splitNl, if_pos ⟨rfl, rfl⟩, ih]
    rfl

end Whole

theorem splitNl_unlines {ls : List Text} (h : ∀ l ∈ ls, Whole l) :
    Verify.splitNl (Framing.unlines nl ls) = ls ++ [[]] := by
  induction ls with
  | nil => rfl
  | cons l ls ih =>
    rw [Framing.unlines_cons, (h l (by simp)).splitNl, ih fun m hm => h m (List.mem_cons_of_mem _ hm)]
    rfl

theorem manifestLines_unlines {ls : List Text} (h : ∀ l ∈ ls, Whole l) :
    Verify.manifestLines (Framing.unlines nl ls) = ls := by
  simp [Verify.manifestLines, splitNl_unlines h]

def Readable (m : ManifestRow) : Prop := ∀ f ∈ m.fields, Whole f ∧ tab ∉ f

theorem manifestLines_text {rows : List ManifestRow} (h : ∀ m ∈ rows, Readable m) :
    Verify.manifestLines (Seal.manifestText rows) =
      joinTabs Seal.manifestHeader :: rows.map fun m => joinTabs m.fields := by
  refine manifestLines_unlines fun l hl => ?_
  rcases List.mem_cons.mp hl with rfl | hl
  · refine Whole.joinTabs fun f hf => .of_clean ?_
    revert f
    decide
  · obtain ⟨m, hm, rfl⟩ := List.mem_map.mp hl
    exact Whole.joinTabs fun f hf => (h m hm f hf).1

theorem splitTabs_fields {rows : List ManifestRow} (h : ∀ m ∈ rows, Readable m) :
    (rows.map fun m => joinTabs m.fields).map splitTabs = rows.map ManifestRow.fields := by
  rw [List.map_map]
  exact List.map_congr_left fun m hm => splitTabs_join (fun f hf => (h m hm f hf).2) (List.cons_ne_nil _ _)

/-! ## The directory of a sealed date -/

theorem lastPathComponent_slash {b : Text} (a : Text) (h : slash ∉ b) (hne : b ≠ []) :
    lastPathComponent (a ++ slash :: b) = b := by
  have hb : [b].filter (· ≠ []) = [b] := by simp [hne]
  unfold lastPathComponent
  rw [List.splitOn_append_cons_self, List.splitOn_eq_singleton h, List.filter_append, hb]
  cases (a.splitOn slash).filter (· ≠ []) with
  | nil => rfl
  | cons c cs => exact List.getLastD_concat (a := []) (b := b) (l := c :: cs)

theorem lastPathComponent_osPathJoin {b : Text} (a : Text) (h : slash ∉ b) (hne : b ≠ []) :
    lastPathComponent (osPathJoin a b) = b := by
  have hb : b.head? ≠ some slash := fun he => h (List.mem_of_mem_head? he)
  rw [osPathJoin, if_neg hb]
  split
  · rename_i ha
    rcases ha with rfl | ha
    · rw [List.nil_append, lastPathComponent, List.splitOn_eq_singleton h]
      simp [hne]
    · obtain ⟨a, rfl⟩ := List.getLast?_eq_some_iff.mp ha
      rw [List.append_assoc]
      exact lastPathComponent_slash a h hne
  · exact lastPathComponent_slash a h hne

theorem Folder.mem_files {dir : Folder} {dateSubdir f : Text} :
    f ∈ dir.files dateSubdir ↔ isSkipped dateSubdir f = false ∧ ∃ node, dir.lookup f = some node ∧
      node.isDir = false := by
  simp only [Folder.files, List.mem_map, List.mem_filter, Bool.and_eq_true, Bool.not_eq_true']
  constructor
  · rintro ⟨⟨g, node⟩, ⟨hmem, hskip, hdir⟩, rfl⟩
    exact ⟨hskip, node, AList.mem_lookup_iff.mpr hmem, hdir⟩
  · rintro ⟨hskip, node, hl, hdir⟩
    exact ⟨⟨f, node⟩, ⟨AList.mem_lookup_iff.mp hl, hskip, hdir⟩, rfl⟩

theorem Folder.nodup_files (dir : Folder) (dateSubdir : Text) : (dir.files dateSubdir).Nodup :=
  (List.filter_sublist.map Sigma.fst).nodup dir.keys_nodup

theorem SnapshotName.ne_manifestFilename {name : Text} (h : isValid name = true) : name ≠ manifestFilename := by
  rintro rfl
  revert h
  decide

namespace Seal

def listed (db : Db) (dateSubdir f : Text) : Option ManifestRow :=
  if SnapshotName.isValid f then rowOf db dateSubdir f else none

def rowsNow (db : Db) (dateSubdir : Text) (dir : Folder) : List ManifestRow :=
  (sortStrings (Folder.files (dir.erase manifestFilename) dateSubdir)).filterMap (listed db dateSubdir)

def freshDir (db : Db) (dateSubdir : Text) (dir : Folder) : Folder :=
  (dir.erase manifestFilename).insert manifestFilename (.file 0o444 (manifestText (rowsNow db dateSubdir dir)))

variable {io : Faults} {cfg : Config} {db : Db} {dateSubdir date : Text} {m : Mac} {dir logDir : Folder}

theorem rowsOf_ok {files : List Text} {rows : List ManifestRow} (h : rowsOf io db dateSubdir files = .ok rows) :
    rows = files.filterMap (listed db dateSubdir) := by
  induction files generalizing rows with
  | nil => cases h; rfl
  | cons f files ih =>
    rw [rowsOf] at h
    by_cases hv : SnapshotName.isValid f = true
    · rw [hv, Bool.not_true, if_neg Bool.false_ne_true] at h
      split at h
      · cases h
      · split at h
        · cases h
        · rename_i hr
          cases h
          rw [ih hr, List.filterMap_cons, listed, if_pos hv]
          cases rowOf db dateSubdir f <;> rfl
    · rw [Bool.not_eq_true] at hv
      rw [hv, Bool.not_false, if_pos rfl] at h
      rw [ih h, List.filterMap_cons, listed, hv, if_neg Bool.false_ne_true]

/-- **What `writeManifestFile` leaves** when nothing throws. -/
theorem writeManifestFile_ok (h : (writeManifestFile io db dateSubdir dir).2 = none) :
    (writeManifestFile io db dateSubdir dir).1 = freshDir db dateSubdir dir := by
  unfold writeManifestFile at h ⊢
  dsimp only at h ⊢
  split at h
  · cases h
  · rename_i hrm
    rw [if_neg hrm]
    unfold buildManifestRows at h ⊢
    split at h
    · rename_i hb
      cases h
    · rename_i rows hb
      split at hb
      · cases hb
      · split at h
        · cases h
        · rename_i hw
          rw [if_neg hw]
          split at h
          · cases h
          · rename_i hc
            rw [if_neg hc, rowsOf_ok hb]
            rfl

theorem moveLogIntoSealedDir_ok (h : (moveLogIntoSealedDir io date logDir dir).2.2 = none) :
    match logDir.lookup (logFilename date) with
    | none => moveLogIntoSealedDir io date logDir dir = (logDir, dir, none)
    | some log => logFilename date ∉ dir ∧ moveLogIntoSealedDir io date logDir dir =
        (logDir.erase (logFilename date), dir.insert (logFilename date) (log.chmod 0o444), none) := by
  unfold moveLogIntoSealedDir at h ⊢
  cases hl : logDir.lookup (logFilename date) with
  | none => rfl
  | some log =>
    simp only [hl] at h ⊢
    split at h
    · cases h
    · rename_i hm
      rw [if_neg hm]
      split at h
      · cases h
      · rename_i hc
        rw [if_neg hc]
        simp only [Bool.or_eq_true, decide_eq_true_eq, not_or] at hm
        exact ⟨hm.1, rfl⟩

def sealedDir (db : Db) (dateSubdir date : Text) (logDir dir : Folder) : Folder :=
  match logDir.lookup (logFilename date) with
  | none => freshDir db dateSubdir dir
  | some log => (freshDir db dateSubdir dir).insert (logFilename date) (log.chmod 0o444)

theorem erase_of_none (h : logDir.lookup (logFilename date) = none) :
    logDir.erase (logFilename date) = logDir := by
  refine AList.ext (List.kerase_of_notMem_keys ?_)
  exact AList.lookup_eq_none.mp h

/-- **What a seal leaves** when nothing throws. -/
theorem sealDirectory_ok (h : (sealDirectory io cfg m date).2 = none) : ∃ dir, m.folder date = some dir ∧
    ((m.logDir.lookup (logFilename date)).isSome → logFilename date ∉ dir) ∧
    (sealDirectory io cfg m date).1 =
      { m with
        logDir := m.logDir.erase (logFilename date)
        archive := m.archive.insert date (.folder (sealedDir m.db (cfg.dateSubdir date) date m.logDir dir))
        db := m.db.upsertSnapshot date 1 } := by
  unfold sealDirectory at h ⊢
  cases hf : m.folder date with
  | none => rw [hf] at h; cases h
  | some dir =>
    simp only [hf] at h ⊢
    have hdir : (writeManifestFile io m.db (cfg.dateSubdir date) dir).2 = none → _ := writeManifestFile_ok
    cases hw : writeManifestFile io m.db (cfg.dateSubdir date) dir with
    | mk dir₁ c₁ =>
      rw [hw] at hdir
      cases c₁ with
      | some c => rw [hw] at h; cases h
      | none =>
        replace hdir : dir₁ = _ := hdir rfl
        have hlog : (moveLogIntoSealedDir io date m.logDir dir₁).2.2 = none → _ := moveLogIntoSealedDir_ok
        rw [hw] at h
        dsimp only at h ⊢
        cases hm : moveLogIntoSealedDir io date m.logDir dir₁ with
        | mk logDir₁ r =>
          obtain ⟨dir₂, c₂⟩ := r
          rw [hm] at h hlog
          cases c₂ with
          | some c => cases h
          | none =>
            replace hlog := hlog rfl
            dsimp only at h ⊢
            split at h
            · cases h
            · rename_i hs
              rw [if_neg hs]
              refine ⟨dir, rfl, ?_⟩
              cases hl : m.logDir.lookup (logFilename date) with
              | none =>
                rw [hl] at hlog
                cases hlog
                refine ⟨nofun, ?_⟩
                rw [erase_of_none hl, sealedDir, hl, ← hdir]
                rfl
              | some log =>
                rw [hl] at hlog
                obtain ⟨hn, he⟩ := hlog
                cases he
                refine ⟨fun _ hmem => hn ?_, ?_⟩
                · rw [hdir, freshDir, AList.mem_insert, AList.mem_erase]
                  by_cases hman : logFilename date = manifestFilename
                  · exact Or.inl hman
                  · exact Or.inr ⟨hman, hmem⟩
                · rw [sealedDir, hl, ← hdir]
                  rfl

/-! ## The verifier on it -/

theorem lookupEvent_upsertSnapshot (db : Db) (date' : Text) (n : Nat) (f directory : Text) :
    lookupEvent (db.upsertSnapshot date' n) f directory = lookupEvent db f directory := by
  unfold Db.upsertSnapshot
  split <;> rfl

theorem readable_listed {f : Text} {row : ManifestRow} (h : listed db dateSubdir f = some row) :
    Readable row := by
  unfold listed at h
  split at h
  · obtain ⟨info, hinfo, rfl⟩ := Option.map_eq_some_iff.mp h
    have htag : info.tag = ascii "read" ∨ info.tag = ascii "skimmed" := by
      rw [lookupEvent_eq] at hinfo
      have hmem := List.mem_of_mem_head? hinfo
      simp only [eventInfos, List.mem_flatMap, List.mem_map] at hmem
      obtain ⟨t, -, e, -, rfl⟩ := hmem
      cases t
      · exact Or.inl rfl
      · exact Or.inr rfl
    have hclean : Clean info.tag := by
      rcases htag with ht | ht
      · rw [ht]; decide
      · rw [ht]; decide
    intro g hg
    simp only [ManifestRow.fields, List.mem_cons, List.not_mem_nil, or_false] at hg
    obtain rfl | rfl | rfl | rfl | rfl := hg
    case inr.inl => exact ⟨.of_clean hclean, hclean.1⟩
    all_goals exact ⟨.tsvSanitise _, tab_notMem_tsvSanitise _⟩
  · cases h

def DayLog (date : Text) (logDir dir : Folder) : Prop :=
  match logDir.lookup (logFilename date) with
  | some log => log.isDir = false
  | none => ∃ content, dir.lookup (logFilename date) = some (.file 0o444 content)

section
variable (db : Db) (cfg : Config) (logDir dir : Folder)

theorem expectedLog_dateSubdir (hslash : slash ∉ date) (hdate : isDateDirName date = true) :
    expectedLog (cfg.dateSubdir date) = some (logFilename date) := by
  have hne : date ≠ [] := by
    intro he
    rw [he] at hdate
    revert hdate
    decide
  rw [expectedLog, Config.dateSubdir, lastPathComponent_osPathJoin _ hslash hne]
  exact if_pos hdate

theorem logFilename_ne_manifest (date : Text) : logFilename date ≠ manifestFilename := by
  intro h
  exact absurd (congrArg List.head? h) (by simp [logFilename, manifestFilename, ascii])

@[simp] theorem lookup_freshDir_manifest
  (dateSubdir : Text) : (freshDir db dateSubdir dir).lookup manifestFilename =
    some (.file 0o444 (manifestText (rowsNow db dateSubdir dir))) := AList.lookup_insert _

theorem lookup_freshDir_ne (dateSubdir : Text) {f : Text} (h : f ≠ manifestFilename) :
    (freshDir db dateSubdir dir).lookup f = dir.lookup f := by
  rw [freshDir, AList.lookup_insert_ne h, AList.lookup_erase_ne h]

theorem lookup_sealedDir_manifest (dateSubdir : Text) :
    (sealedDir db dateSubdir date logDir dir).lookup manifestFilename =
    some (.file 0o444 (manifestText (rowsNow db dateSubdir dir))) := by
  unfold sealedDir
  cases logDir.lookup (logFilename date) with
  | none => exact lookup_freshDir_manifest db dir dateSubdir
  | some log =>
    dsimp only
    rw [AList.lookup_insert_ne (logFilename_ne_manifest date).symm, lookup_freshDir_manifest]

theorem lookup_sealedDir_log (dateSubdir : Text) :
    (sealedDir db dateSubdir date logDir dir).lookup (logFilename date) =
    ((logDir.lookup (logFilename date)).map (Node.chmod 0o444)).or (dir.lookup (logFilename date)) := by
  unfold sealedDir
  cases logDir.lookup (logFilename date) with
  | none => exact lookup_freshDir_ne db dir dateSubdir (logFilename_ne_manifest date)
  | some log => exact AList.lookup_insert _

theorem lookup_sealedDir_ne (dateSubdir : Text) {f : Text} (hm : f ≠ manifestFilename)
    (hl : f ≠ logFilename date) :
    (sealedDir db dateSubdir date logDir dir).lookup f = dir.lookup f := by
  unfold sealedDir
  cases logDir.lookup (logFilename date) with
  | none => exact lookup_freshDir_ne db dir dateSubdir hm
  | some log => rw [AList.lookup_insert_ne hl, lookup_freshDir_ne db dir dateSubdir hm]

theorem dayLog_iff : DayLog date logDir dir ↔
    ∃ content, (sealedDir db (cfg.dateSubdir date) date logDir dir).lookup (logFilename date) =
      some (.file 0o444 content) := by
  rw [lookup_sealedDir_log, DayLog]
  cases logDir.lookup (logFilename date) with
  | none => rfl
  | some log =>
    cases log with
    | file mode content => simp [Node.isDir, Node.chmod]
    | dir mode => simp [Node.isDir, Node.chmod]

section
variable {dateSubdir : Text}

theorem mem_files_sealedDir (hlog : expectedLog dateSubdir = some (logFilename date)) {f : Text} :
    f ∈ (sealedDir db dateSubdir date logDir dir).files dateSubdir ↔ f ∈ dir.files dateSubdir := by
  rw [Folder.mem_files, Folder.mem_files, and_congr_right_iff]
  intro hs
  simp only [isSkipped, hlog, Bool.or_eq_false_iff, decide_eq_false_iff_not, Option.some.injEq] at hs
  rw [lookup_sealedDir_ne _ _ _ _ hs.1.1 hs.1.2]

theorem mem_files_erase {f : Text} :
    f ∈ Folder.files (dir.erase manifestFilename) dateSubdir ↔ f ∈ dir.files dateSubdir := by
  rw [Folder.mem_files, Folder.mem_files, and_congr_right_iff]
  intro hs
  simp only [isSkipped, Bool.or_eq_false_iff, decide_eq_false_iff_not] at hs
  rw [AList.lookup_erase_ne hs.1.1]

theorem listed_of_event {f : Text} (hv : SnapshotName.isValid f = true) (hc : Clean f)
    (hl : lookupEvent db f dateSubdir ≠ none) :
    ∃ row, listed db dateSubdir f = some row ∧ row.filename = f ∧ Verify.Matches db dateSubdir .bytes row := by
  obtain ⟨info, hinfo⟩ := Option.ne_none_iff_exists'.mp hl
  have hf : tsvSanitise f = f := tsvSanitise_of_clean hc
  refine ⟨⟨f, info.tag, tsvSanitise info.timestamp, tsvSanitise info.url, tsvSanitise info.title⟩, ?_,
    rfl, info, hinfo, ?_⟩
  · rw [listed, if_pos hv, rowOf, hinfo, hf]
    rfl
  · simp only [StringEq.same_bytes, and_self]

theorem names_filterMap {g : Text → Option ManifestRow} {files : List Text}
    (h : ∀ f ∈ files, ∃ row, g f = some row ∧ row.filename = f) :
    (files.filterMap g).map ManifestRow.filename = files := by
  induction files with
  | nil => rfl
  | cons f files ih =>
    obtain ⟨row, hrow, hf⟩ := h f (by simp)
    rw [List.filterMap_cons, hrow, List.map_cons, hf, ih fun f hf => h f (List.mem_cons_of_mem _ hf)]

/-- A manifest that lists every file of its directory has no issue but with the day log. -/
theorem issues_sealedDir (hlog : expectedLog dateSubdir = some (logFilename date))
    (hfiles : ∀ f ∈ dir.files dateSubdir, SnapshotName.isValid f = true ∧ Clean f ∧
      lookupEvent db f dateSubdir ≠ none) :
    Verify.issues {} (db.upsertSnapshot date 1) dateSubdir (sealedDir db dateSubdir date logDir dir) = [] ↔
      ∃ content, (sealedDir db dateSubdir date logDir dir).lookup (logFilename date) =
        some (.file 0o444 content) := by
  -- each file has its event, so it has its row in the manifest
  have hlisted : ∀ f ∈ sortStrings (Folder.files (dir.erase manifestFilename) dateSubdir),
      ∃ row, listed db dateSubdir f = some row ∧ row.filename = f ∧ Verify.Matches db dateSubdir .bytes row := by
    intro f hf
    obtain ⟨hv, hc, hl⟩ := hfiles f ((mem_files_erase dir).mp (mem_sortStrings.mp hf))
    exact listed_of_event db hv hc hl
  have hnames : (rowsNow db dateSubdir dir).map ManifestRow.filename =
      sortStrings (Folder.files (dir.erase manifestFilename) dateSubdir) :=
    names_filterMap fun f hf => (hlisted f hf).imp fun row h => ⟨h.1, h.2.1⟩
  have hmem : ∀ f, f ∈ (rowsNow db dateSubdir dir).map ManifestRow.filename ↔ f ∈ dir.files dateSubdir := by
    intro f
    rw [hnames, mem_sortStrings, mem_files_erase]
  have hnodup : ((rowsNow db dateSubdir dir).map ManifestRow.filename).Nodup := by
    rw [hnames]
    exact (sortStrings_perm _).nodup_iff.mpr (Folder.nodup_files _ _)
  have hmatch : ∀ row ∈ rowsNow db dateSubdir dir,
      Verify.Matches (db.upsertSnapshot date 1) dateSubdir .bytes row := by
    intro row hrow
    obtain ⟨f, hf, he⟩ := List.mem_filterMap.mp hrow
    obtain ⟨row', hrow', -, hm⟩ := hlisted f hf
    obtain rfl : row = row' := Option.some.inj (he.symm.trans hrow')
    rw [Verify.Matches, lookupEvent_upsertSnapshot]
    exact hm
  have hread : ∀ row ∈ rowsNow db dateSubdir dir, Readable row := by
    intro row hrow
    obtain ⟨f, -, he⟩ := List.mem_filterMap.mp hrow
    exact readable_listed he
  -- the rows read back as they were written, as no two have one name
  have hdistinct := Verify.distinct_bytes.mpr hnodup
  have hparse : Verify.parseRows .bytes ((rowsNow db dateSubdir dir).map fun row => joinTabs row.fields) =
      (rowsNow db dateSubdir dir, []) := Verify.parseRows_keeps (splitTabs_fields hread) hdistinct
  have hfilesNow : ∀ f, f ∈ Verify.files .bytes dateSubdir (sealedDir db dateSubdir date logDir dir) ↔
      f ∈ dir.files dateSubdir := by
    intro f
    rw [Verify.files_bytes, mem_files_sealedDir db logDir dir hlog]
  rw [Verify.issues_eq_nil]
  constructor
  · intro h
    obtain ⟨content, header, lines, hman, -, hlines, -, -, hcmp⟩ := h
    rw [lookup_sealedDir_manifest, Option.some.injEq, Node.file.injEq] at hman
    rw [← hman.2, manifestLines_text hread, List.cons.injEq] at hlines
    rw [← hlines.2, hparse] at hcmp
    exact ((Verify.compare_eq_nil _ _ _ _ hdistinct).mp hcmp).2.2.2.2.2 _ hlog
  · intro hday
    refine ⟨_, _, _, lookup_sealedDir_manifest db logDir dir dateSubdir, rfl, manifestLines_text hread,
      StringEq.bytes.refl _, by rw [hparse], ?_⟩
    rw [hparse, Verify.compare_eq_nil _ _ _ _ hdistinct]
    refine ⟨rfl, ?_, ?_, ?_, ?_, ?_⟩
    · intro f hf
      exact (hfiles f ((hfilesNow f).mp hf)).1
    · intro row hrow hn
      have hf := (hmem _).mp (List.mem_map_of_mem hrow)
      exact absurd ((Verify.contains_conformingOnDisk _ _).mpr
        ⟨_, (hfilesNow _).mpr hf, (hfiles _ hf).1, StringEq.bytes.refl _⟩) hn
    · intro f hf
      exact StringEq.contains_bytes.mpr ((hmem f).mpr ((hfilesNow f).mp (Verify.mem_conformingOnDisk _ _ hf).1))
    · intro row hrow _
      exact ⟨rfl, hmatch row hrow⟩
    · intro name hname
      obtain rfl : logFilename date = name := Option.some.inj (hlog.symm.trans hname)
      exact hday

end

end

/-- **A sealed directory is valid iff it has got its day log.** -/
theorem sealed_valid_iff (io : Faults) (cfg : Config) (m : Mac) {date : Text} {dir : Folder}
    (hslash : slash ∉ date)
    (hdate : isDateDirName date = true) (hdir : m.folder date = some dir)
    (hfiles : ∀ f ∈ dir.files (cfg.dateSubdir date), SnapshotName.isValid f = true ∧ Clean f ∧
      lookupEvent m.db f (cfg.dateSubdir date) ≠ none)
    (h : (sealDirectory io cfg m date).2 = none) :
    (∃ dir' ∈ (sealDirectory io cfg m date).1.folder date,
      (Verify.directory {} (sealDirectory io cfg m date).1.db (cfg.dateSubdir date) dir').isValid = true) ↔
        DayLog date m.logDir dir := by
  obtain ⟨dir₀, hdir₀, -, hseal⟩ := sealDirectory_ok h
  obtain rfl : dir = dir₀ := Option.some.inj (hdir.symm.trans hdir₀)
  have hfolder : (sealDirectory io cfg m date).1.folder date =
      some (sealedDir m.db (cfg.dateSubdir date) date m.logDir dir) := by
    rw [hseal, Mac.folder, AList.lookup_insert]
  have hdb : (sealDirectory io cfg m date).1.db = m.db.upsertSnapshot date 1 := by rw [hseal]
  rw [dayLog_iff m.db cfg, ← issues_sealedDir m.db m.logDir dir
    (expectedLog_dateSubdir cfg hslash hdate) hfiles, hfolder, hdb]
  simp [Verify.directory]

/-! ## A day with its log, and one without -/

def archiveConfig : Config := ⟨ascii "/downloads", ascii "/archive"⟩

def newYear : Text := ascii "2026-01-01"

def newYearMac (logDir : Folder) : Mac :=
  { downloads := ∅
    logDir
    archive := AList.singleton newYear (.folder (AList.singleton Verify.snapshot (.file 0o444 [])))
    db := Verify.oneRead }

theorem sealed_valid_iff_newYear :
    (∃ dir' ∈ (sealDirectory noFaults archiveConfig
      (newYearMac (AList.singleton Verify.dayLog (.file 0o644 []))) newYear).1.folder newYear,
        (Verify.directory {} (sealDirectory noFaults archiveConfig
        (newYearMac (AList.singleton Verify.dayLog (.file 0o644 []))) newYear).1.db
          (archiveConfig.dateSubdir newYear) dir').isValid =
          true) ↔
        DayLog newYear (AList.singleton Verify.dayLog (.file 0o644 []))
          (AList.singleton Verify.snapshot (.file 0o444 [])) :=
  sealed_valid_iff noFaults archiveConfig (newYearMac (AList.singleton Verify.dayLog (.file 0o644 [])))
    (by decide) (by decide) rfl
    (by decide) (by decide)

/-- Without a log the seal goes through, and the verifier misses it. -/
theorem sealed_without_log :
    isDateDirName newYear = true ∧
    (∀ f ∈ Folder.files (AList.singleton Verify.snapshot (.file 0o444 [])) (archiveConfig.dateSubdir newYear),
      SnapshotName.isValid f = true ∧ Clean f ∧
        lookupEvent (newYearMac ∅).db f (archiveConfig.dateSubdir newYear) ≠ none) ∧
    (sealDirectory noFaults archiveConfig (newYearMac ∅) newYear).2 = none ∧
    ∃ dir' ∈ (sealDirectory noFaults archiveConfig (newYearMac ∅) newYear).1.folder newYear,
      Verify.directory {} (sealDirectory noFaults archiveConfig (newYearMac ∅) newYear).1.db
        (archiveConfig.dateSubdir newYear) dir' =
        ⟨false, [ascii "Per-day log file not found at /archive/2026-01-01/browser-visits-2026-01-01.log"]⟩ :=
  ⟨by decide, by decide +kernel, by decide +kernel, _, rfl, by decide +kernel⟩

end Seal

end VisitLogger
