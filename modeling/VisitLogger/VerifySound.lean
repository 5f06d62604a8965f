import VisitLogger.SealRuns
import VisitLogger.Verify

/-!
# What a valid directory has

A directory in which no check has an issue meets the documented conditions,
except that a manifest row may name a file that is not there, when the name does
not conform (`documented_iff`).
-/

namespace VisitLogger

open SnapshotMover (ManifestRow EventInfo manifestFilename ignoredNames)

namespace Seal

def eventInfos (db : Db) (filename directory : Text) : List EventInfo :=
  [EventsTable.read, EventsTable.skimmed].flatMap fun t =>
    (SnapshotMover.matching false db t (BVLHost.cString filename) (BVLHost.cString directory)).map fun e =>
      ⟨t.tag, BVLHost.cString e.url, BVLHost.cString e.timestamp,
        BVLHost.cString (SnapshotMover.titleOf db e.url)⟩

theorem lookupEvent_eq (db : Db) (filename directory : Text) :
    lookupEvent db filename directory = (eventInfos db filename directory).head? := by
  unfold lookupEvent eventInfos SnapshotMover.lookupEvent
  cases hr : SnapshotMover.matching false db .read (BVLHost.cString filename) (BVLHost.cString directory) <;>
    cases hs : SnapshotMover.matching false db .skimmed (BVLHost.cString filename)
      (BVLHost.cString directory) <;>
      simp [List.findSome?, hr, hs]

end Seal

namespace StringEq

variable {strings : StringEq} {l : List Text} {s t : Text}

theorem contains_iff : strings.contains l s ↔ ∃ t ∈ l, strings.same s t := List.any_eq_true

theorem mem_foldl_insert (l : List Text) (acc : List Text) :
    (∀ s ∈ l.foldl strings.insert acc, s ∈ acc ∨ s ∈ l) ∧
      ∀ s, strings.contains (l.foldl strings.insert acc) s ↔ strings.contains (acc ++ l) s := by
  induction l generalizing acc with
  | nil => exact ⟨fun s hs => Or.inl hs, fun s => by rw [List.append_nil, List.foldl_nil]⟩
  | cons a l ih =>
    obtain ⟨hsub, hcontains⟩ := ih (strings.insert acc a)
    rw [List.foldl_cons]
    by_cases ha : strings.contains acc a
    · rw [insert, if_pos ha] at hsub hcontains ⊢
      refine ⟨fun s hs => (hsub s hs).imp_right (List.mem_cons_of_mem _), fun s => ?_⟩
      rw [hcontains, contains_iff, contains_iff]
      constructor
      · rintro ⟨t, ht, hst⟩
        exact ⟨t, by simp only [List.mem_append, List.mem_cons] at ht ⊢; tauto, hst⟩
      · rintro ⟨t, ht, hst⟩
        by_cases hta : t = a
        · -- the one that is there already stands for it
          obtain ⟨u, hu, hau⟩ := contains_iff.mp ha
          exact ⟨u, List.mem_append_left _ hu, strings.trans _ _ _ hst (hta ▸ hau)⟩
        · exact ⟨t, by simp only [List.mem_append, List.mem_cons] at ht ⊢; tauto, hst⟩
    · rw [insert, if_neg ha] at hsub hcontains ⊢
      refine ⟨fun s hs => ?_, fun s => by rw [hcontains, List.append_assoc, List.singleton_append]⟩
      rcases hsub s hs with hs | hs
      · rcases List.mem_append.mp hs with hs | hs
        · exact Or.inl hs
        · exact Or.inr (List.mem_cons.mpr (Or.inl (List.mem_singleton.mp hs)))
      · exact Or.inr (List.mem_cons_of_mem _ hs)

/-! ### Strings of one spelling -/

@[simp] theorem same_bytes : bytes.same s t = true ↔ s = t := decide_eq_true_iff

@[simp] theorem contains_bytes : bytes.contains l s = true ↔ s ∈ l := by
  rw [contains_iff]
  exact ⟨fun ⟨t, ht, hst⟩ => same_bytes.mp hst ▸ ht, fun h => ⟨s, h, bytes.refl s⟩⟩

end StringEq

namespace Verify

variable {strings : StringEq}

/-! ## Rows -/

theorem fields_five {fields : List Text} :
    fields.length = 5 ↔ ∃ m : ManifestRow, fields = m.fields := by
  constructor
  · intro h
    match fields, h with
    | [filename, tag, ts, url, title], _ => exact ⟨⟨filename, tag, ts, url, title⟩, rfl⟩
  · rintro ⟨m, rfl⟩
    rfl

theorem parseRow_fields (acc : List ManifestRow × List Issue) {line : Nat × Text} {m : ManifestRow}
    (h : splitTabs line.2 = m.fields) :
    parseRow strings acc line = if strings.contains (acc.1.map ManifestRow.filename) m.filename then (acc.1,
      acc.2 ++ [.duplicateFilename line.1 m.filename])
      else (acc.1 ++ [m], acc.2) := by
  rw [parseRow, h]
  rfl

theorem parseRow_columns (acc : List ManifestRow × List Issue) {line : Nat × Text}
    (h : (splitTabs line.2).length ≠ 5) :
    parseRow strings acc line = (acc.1, acc.2 ++ [.columnCount line.1 (splitTabs line.2).length]) := by
  unfold parseRow
  split
  · rename_i he
    rw [he] at h
    exact absurd rfl h
  · rfl

/-- No name is there twice, in whatever spelling. -/
def Distinct (strings : StringEq) (names : List Text) : Prop := names.Pairwise fun s t => ¬ strings.same s t

theorem distinct_bytes {names : List Text} : Distinct .bytes names ↔ names.Nodup := by
  simp only [Distinct, StringEq.same_bytes]
  rfl

theorem distinct_snoc {acc : List ManifestRow} {m : ManifestRow}
    (h : Distinct strings (acc.map ManifestRow.filename))
    (hm : ¬ strings.contains (acc.map ManifestRow.filename) m.filename) :
    Distinct strings ((acc ++ [m]).map ManifestRow.filename) := by
  rw [List.map_append, Distinct, List.pairwise_append]
  refine ⟨h, List.pairwise_singleton _ _, fun s hs t ht hst => hm ?_⟩
  obtain rfl := List.mem_singleton.mp ht
  exact strings.contains_iff.mpr ⟨s, hs, strings.symm _ _ hst⟩

theorem parseRow_keeps (lines : List (Nat × Text)) (acc rows : List ManifestRow)
    (h : lines.map (fun l => splitTabs l.2) = rows.map ManifestRow.fields)
    (hn : Distinct strings ((acc ++ rows).map ManifestRow.filename)) :
      lines.foldl (parseRow strings) (acc, []) = (acc ++ rows, []) := by
  induction lines generalizing acc rows with
  | nil =>
    obtain rfl : rows = [] := by simpa using h.symm
    simp
  | cons line lines ih =>
    cases rows with
    | nil => cases h
    | cons m rows =>
      rw [List.map_cons, List.map_cons, List.cons.injEq] at h
      have hm : ¬ strings.contains (acc.map ManifestRow.filename) m.filename := by
        intro hm
        obtain ⟨s, hs, hsame⟩ := strings.contains_iff.mp hm
        rw [List.map_append, Distinct, List.pairwise_append] at hn
        exact hn.2.2 s hs m.filename (by simp) (strings.symm _ _ hsame)
      rw [List.append_cons] at hn ⊢
      rw [List.foldl_cons, parseRow_fields _ h.1, if_neg hm]
      exact ih _ _ h.2 hn

theorem parseRow_nil (lines : List (Nat × Text)) (acc : List ManifestRow) (es : List Issue)
    (hacc : Distinct strings (acc.map ManifestRow.filename))
    (h : (lines.foldl (parseRow strings) (acc, es)).2 = []) :
    es = [] ∧ ∃ rows : List ManifestRow, lines.map (fun l => splitTabs l.2) = rows.map ManifestRow.fields ∧
      Distinct strings ((acc ++ rows).map ManifestRow.filename) := by
  induction lines generalizing acc es with
  | nil => exact ⟨h, [], rfl, by simpa using hacc⟩
  | cons line lines ih =>
    rw [List.foldl_cons] at h
    by_cases hf : (splitTabs line.2).length = 5
    · obtain ⟨m, hm⟩ := fields_five.mp hf
      rw [parseRow_fields _ hm] at h
      split at h
      · exact absurd (ih _ _ hacc h).1 (by simp)
      · rename_i hd
        obtain ⟨hes, rows, hrows, hn⟩ := ih _ _ (distinct_snoc hacc hd) h
        exact ⟨hes, m :: rows, by rw [List.map_cons, List.map_cons, hm, hrows], by rwa [List.append_cons]⟩
    · rw [parseRow_columns _ hf] at h
      exact absurd (ih _ _ hacc h).1 (by simp)

theorem numbered_fields (lines : List Text) :
    ((List.range' 2 lines.length).zip lines).map (fun l => splitTabs l.2) = lines.map splitTabs := by
  have h : ((List.range' 2 lines.length).zip lines).map Prod.snd = lines :=
    List.map_snd_zip (by simp)
  rw [← h, List.map_map, h]
  rfl

theorem parseRows_keeps {lines : List Text} {rows : List ManifestRow}
    (h : lines.map splitTabs = rows.map ManifestRow.fields)
    (hn : Distinct strings (rows.map ManifestRow.filename)) : parseRows strings lines = (rows, []) :=
  parseRow_keeps _ [] rows ((numbered_fields lines).trans h) hn

theorem parseRows_nil {lines : List Text} (h : (parseRows strings lines).2 = []) :
    ∃ rows : List ManifestRow, lines.map splitTabs = rows.map ManifestRow.fields ∧
      Distinct strings (rows.map ManifestRow.filename) ∧
      parseRows strings lines = (rows, []) := by
  obtain ⟨-, rows, hrows, hn⟩ := parseRow_nil _ [] [] List.Pairwise.nil h
  rw [numbered_fields] at hrows
  exact ⟨rows, hrows, hn, parseRows_keeps hrows hn⟩

/-! ## The checks without an issue -/

section
variable (io : VerifyIo) (db : Db) (dateSubdir : Text) (dir : Folder)

theorem contains_conformingOnDisk {f : Text} : strings.contains (conformingOnDisk strings dateSubdir dir) f ↔
    ∃ g ∈ files strings dateSubdir dir, SnapshotName.isValid g = true ∧ strings.same f g := by
  rw [conformingOnDisk, (StringEq.mem_foldl_insert _ []).2, List.nil_append, StringEq.contains_iff]
  simp only [List.mem_filter, and_assoc]

theorem files_bytes : files .bytes dateSubdir dir = dir.files dateSubdir := by
  have hskips : ∀ name, skips .bytes dateSubdir name = isSkipped dateSubdir name := by
    intro name
    rw [Bool.eq_iff_iff, skips, isSkipped]
    cases expectedLog dateSubdir <;> simp [List.contains_iff_mem]
  rw [files, Folder.files]
  simp only [hskips]

theorem mem_conformingOnDisk {f : Text} (h : f ∈ conformingOnDisk strings dateSubdir dir) :
    f ∈ files strings dateSubdir dir ∧ SnapshotName.isValid f = true :=
  List.mem_filter.mp (((StringEq.mem_foldl_insert _ []).1 f h).resolve_left List.not_mem_nil)

/-- A row has the values of the event row that the lookup finds. -/
def Matches (strings : StringEq) (m : ManifestRow) : Prop :=
  ∃ info, Seal.lookupEvent db m.filename dateSubdir = some info ∧ strings.same m.tag info.tag ∧
    strings.same m.timestamp (tsvSanitise info.timestamp) ∧ strings.same m.url (tsvSanitise info.url) ∧
    strings.same m.title (tsvSanitise info.title)

theorem rowIssues_eq_nil {rows : List ManifestRow}
    (hrows : Distinct io.strings (rows.map ManifestRow.filename)) {m : ManifestRow} (hm : m ∈ rows) :
    rowIssues io db dateSubdir rows m.filename = [] ↔
      io.lookup m.filename = none ∧ Matches db dateSubdir io.strings m := by
  unfold rowIssues
  cases hio : io.lookup m.filename with
  | some e => simp
  | none =>
    have hkey : ∀ m' ∈ rows, io.strings.same m'.filename m.filename → m' = m := by
      intro m' hm' hsame
      by_contra hne
      have hsymm : Std.Symm fun r r' : ManifestRow => ¬ io.strings.same r.filename r'.filename :=
        ⟨fun _ _ hn hs => hn (io.strings.symm _ _ hs)⟩
      exact (List.pairwise_map.mp hrows).forall hm' hm hne hsame
    cases hl : Seal.lookupEvent db m.filename dateSubdir with
    | none =>
      refine iff_of_false (by simp) ?_
      rintro ⟨-, info, hi, -⟩
      rw [hl] at hi
      cases hi
    | some info =>
      simp only [List.flatMap_eq_nil_iff, List.mem_filter, and_imp, true_and]
      rw [Matches, hl]
      constructor
      · intro h
        have h := h m hm (io.strings.refl _)
        split at h
        · rename_i hsame
          simp only [Bool.and_eq_true, and_assoc] at hsame
          exact ⟨info, rfl, hsame⟩
        · cases h
      · rintro ⟨info', hi, hsame⟩ m' hm' hs
        cases hi
        obtain rfl := hkey m' hm' hs
        rw [if_pos]
        simp only [Bool.and_eq_true, and_assoc]
        exact hsame

theorem logIssues_eq_nil : logIssues dateSubdir dir = [] ↔
    ∀ name ∈ expectedLog dateSubdir, ∃ content, dir.lookup name = some (.file 0o444 content) := by
  unfold logIssues
  cases expectedLog dateSubdir with
  | none => simp
  | some name =>
    simp only [Option.mem_def, Option.some.injEq, forall_eq']
    cases dir.lookup name with
    | none => simp
    | some node =>
      cases node with
      | dir mode => simp
      | file mode content => simp

theorem fileIssues_eq_nil {listed : List Text} {f : Text} :
    fileIssues strings listed f = [] ↔ SnapshotName.isValid f = true := by
  unfold fileIssues
  split <;> simp_all

theorem compare_eq_nil {rows : List ManifestRow}
    (hdistinct : Distinct io.strings (rows.map ManifestRow.filename)) :
    compare io db dateSubdir dir rows = [] ↔
    io.list = none ∧ (∀ f ∈ files io.strings dateSubdir dir, SnapshotName.isValid f = true) ∧
      (∀ m ∈ rows, ¬ io.strings.contains (conformingOnDisk io.strings dateSubdir dir) m.filename →
        SnapshotName.isValid m.filename = false) ∧
      (∀ f ∈ conformingOnDisk io.strings dateSubdir dir,
        io.strings.contains (rows.map ManifestRow.filename) f) ∧
      (∀ m ∈ rows, io.strings.contains (conformingOnDisk io.strings dateSubdir dir) m.filename →
        io.lookup m.filename = none ∧ Matches db dateSubdir io.strings m) ∧
      ∀ name ∈ expectedLog dateSubdir, ∃ content, dir.lookup name = some (.file 0o444 content) := by
  unfold compare
  cases io.list with
  | some e => simp
  | none =>
    generalize hc : conformingOnDisk io.strings dateSubdir dir = conforming
    have hsort : ∀ l : List Text, sortStrings l = [] ↔ l = [] := by
      intro l
      rw [← List.isEmpty_iff, (sortStrings_perm l).isEmpty_eq, List.isEmpty_iff]
    have hmissing : ((sortStrings ((rows.map ManifestRow.filename).filter fun f =>
      !io.strings.contains conforming f)).filter SnapshotName.isValid) = [] ↔
          ∀ m ∈ rows, ¬ io.strings.contains conforming m.filename → SnapshotName.isValid m.filename = false := by
      simp only [List.filter_eq_nil_iff, mem_sortStrings, List.mem_filter, Bool.not_eq_true', and_imp,
        Bool.not_eq_true, List.forall_mem_map]
    have hunlisted : (conforming.filter fun f => !io.strings.contains (rows.map ManifestRow.filename) f) = [] ↔
        ∀ f ∈ conforming, io.strings.contains (rows.map ManifestRow.filename) f := by
      simp only [List.filter_eq_nil_iff, Bool.not_eq_true', Bool.not_eq_false]
    have hrows : (∀ f ∈ sortStrings ((rows.map ManifestRow.filename).filter (io.strings.contains conforming)),
        rowIssues io db dateSubdir rows f = []) ↔ ∀ m ∈ rows, io.strings.contains conforming m.filename →
          io.lookup m.filename = none ∧ Matches db dateSubdir io.strings m := by
      simp only [mem_sortStrings, List.mem_filter, and_imp, List.forall_mem_map]
      exact forall_congr' fun m => forall_congr' fun hm => forall_congr' fun _ =>
        rowIssues_eq_nil io db dateSubdir hdistinct hm
    simp only [List.append_eq_nil_iff, List.map_eq_nil_iff, List.flatMap_eq_nil_iff, logIssues_eq_nil,
      fileIssues_eq_nil, hmissing, hsort, hunlisted, hrows]
    constructor
    · intro h
      obtain ⟨⟨⟨⟨⟨hf, hm⟩, hu⟩, hr⟩, -⟩, hlog⟩ := h
      exact ⟨trivial, hf, hm, hu, hr, hlog⟩
    · intro h
      obtain ⟨-, hf, hm, hu, hr, hlog⟩ := h
      refine ⟨⟨⟨⟨⟨hf, hm⟩, hu⟩, hr⟩, fun f hf => ?_⟩, hlog⟩
      -- a file that is not listed has had its issue
      rw [mem_sortStrings, hunlisted.mpr hu] at hf
      cases hf

theorem issues_eq_nil : issues io db dateSubdir dir = [] ↔
    ∃ content header lines, dir.lookup manifestFilename = some (.file 0o444 content) ∧ io.read = none ∧
      manifestLines content = header :: lines ∧ io.strings.same header (joinTabs Seal.manifestHeader) ∧
      (parseRows io.strings lines).2 = [] ∧
      compare io db dateSubdir dir (parseRows io.strings lines).1 = [] := by
  unfold issues
  cases hm : dir.lookup manifestFilename with
  | none => simp
  | some node =>
    cases node with
    | dir mode => simp [readManifest]
    | file mode content =>
      cases hr : io.read with
      | some e => simp [readManifest, hr]
      | none =>
        cases hl : manifestLines content with
        | nil => simp [readManifest, hr, hl]
        | cons header lines =>
          by_cases hh : io.strings.same header (joinTabs Seal.manifestHeader)
          · by_cases hmode : mode = 0o444 <;> simp [readManifest, hr, hl, hh, hmode, Node.mode]
          · simp [readManifest, hr, hl, hh]

end

/-! ## The documented conditions -/

def manifestRows (dir : Folder) : List (List Text) :=
  match dir.lookup manifestFilename with
  | some (.file _ content) => (manifestLines content).tail.map splitTabs
  | _ => []

def rowFilename (row : List Text) : Text := row.headD []

/-- What the README says of a sealed directory. Names and values are the same when
they are for Swift. -/
structure Documented (strings : StringEq) (db : Db) (dateSubdir : Text) (dir : Folder) : Prop where
  manifest : ∃ content header, dir.lookup manifestFilename = some (.file 0o444 content) ∧
    (manifestLines content).head? = some header ∧ strings.same header (joinTabs Seal.manifestHeader)
  columns : ∀ row ∈ manifestRows dir, row.length = 5
  noDuplicate : Distinct strings ((manifestRows dir).map rowFilename)
  conforming : ∀ f ∈ files strings dateSubdir dir, SnapshotName.isValid f = true
  there : ∀ row ∈ manifestRows dir, ∃ f ∈ files strings dateSubdir dir, SnapshotName.isValid f = true ∧
    strings.same (rowFilename row) f
  listed : ∀ f ∈ files strings dateSubdir dir, SnapshotName.isValid f = true →
    ∃ row ∈ manifestRows dir, strings.same (rowFilename row) f
  inDb : ∀ row ∈ manifestRows dir, ∃ info ∈ Seal.eventInfos db (rowFilename row) dateSubdir,
    row.tail.Forall₂ (fun s t => strings.same s t)
      [info.tag, tsvSanitise info.timestamp, tsvSanitise info.url, tsvSanitise info.title]
  log : ∀ name ∈ expectedLog dateSubdir, ∃ content, dir.lookup name = some (.file 0o444 content)

/-- **A valid directory meets the documented conditions iff its manifest lists only
names that conform.** -/
theorem documented_iff (io : VerifyIo) (db : Db) (dateSubdir : Text) (dir : Folder)
    (h : (directory io db dateSubdir dir).isValid = true) :
    Documented io.strings db dateSubdir dir ↔
      ∀ row ∈ manifestRows dir, SnapshotName.isValid (rowFilename row) = true := by
  have h : issues io db dateSubdir dir = [] := List.isEmpty_iff.mp h
  obtain ⟨content, header, lines, hman, -, hlines, hheader, hparse, hcmp⟩ :=
    (issues_eq_nil io db dateSubdir dir).mp h
  obtain ⟨rows, hfields, hdistinct, hrows⟩ := parseRows_nil hparse
  rw [hrows] at hcmp
  obtain ⟨-, hfiles, hmissing, hunlisted, hmatch, hlog⟩ := (compare_eq_nil io db dateSubdir dir hdistinct).mp hcmp
  have hmr : manifestRows dir = rows.map ManifestRow.fields := by
    rw [manifestRows, hman]
    simp only [hlines, List.tail_cons, hfields]
  have hnames : (manifestRows dir).map rowFilename = rows.map ManifestRow.filename := by
    rw [hmr, List.map_map]
    rfl
  constructor
  · intro hdoc row hrow
    obtain ⟨f, -, hvalid, hsame⟩ := hdoc.there row hrow
    rw [io.strings.names _ _ hsame]
    exact hvalid
  · intro hvalid
    have hon : ∀ m ∈ rows, io.strings.contains (conformingOnDisk io.strings dateSubdir dir) m.filename := by
      intro m hm
      by_contra hn
      have hv := hvalid m.fields (hmr ▸ List.mem_map_of_mem hm)
      rw [show rowFilename m.fields = m.filename from rfl, hmissing m hm hn] at hv
      cases hv
    refine ⟨⟨content, header, hman, by rw [hlines]; rfl, hheader⟩, ?_, hnames ▸ hdistinct, hfiles, ?_, ?_, ?_, hlog⟩
    · intro row hrow
      obtain ⟨m, -, rfl⟩ := List.mem_map.mp (hmr ▸ hrow)
      rfl
    · intro row hrow
      obtain ⟨m, hm, rfl⟩ := List.mem_map.mp (hmr ▸ hrow)
      exact (contains_conformingOnDisk dateSubdir dir).mp (hon m hm)
    · intro f hf hv
      -- the spelling of it that the set holds is listed
      have hin : io.strings.contains (conformingOnDisk io.strings dateSubdir dir) f :=
        (contains_conformingOnDisk dateSubdir dir).mpr ⟨f, hf, hv, io.strings.refl f⟩
      obtain ⟨g, hg, hfg⟩ := StringEq.contains_iff.mp hin
      obtain ⟨name, hname, hgn⟩ := StringEq.contains_iff.mp (hunlisted g hg)
      obtain ⟨row, hrow, rfl⟩ := List.mem_map.mp (hnames ▸ hname)
      exact ⟨row, hrow, io.strings.symm _ _ (io.strings.trans _ _ _ hfg hgn)⟩
    · intro row hrow
      obtain ⟨m, hm, rfl⟩ := List.mem_map.mp (hmr ▸ hrow)
      obtain ⟨-, info, hinfo, htag, hts, hurl, htitle⟩ := hmatch m hm (hon m hm)
      rw [Seal.lookupEvent_eq] at hinfo
      exact ⟨info, List.mem_of_mem_head? hinfo, .cons htag (.cons hts (.cons hurl (.cons htitle .nil)))⟩

/-! ## Two directories -/

def day : Text := ascii "/archive/2026-01-01"

def dayLog : Text := ascii "browser-visits-2026-01-01.log"

def snapshot : Text := ascii "2026-01-01T10-00-00Z-a.mhtml"

def sealedDay (manifest : Text) (files : List Text) : Folder :=
  files.foldl (fun dir f => dir.insert f (.file 0o444 []))
    ((AList.singleton manifestFilename (.file 0o444 (joinTabs Seal.manifestHeader ++ [nl] ++ manifest))).insert
      dayLog (.file 0o444 []))

def oneRead : Db :=
  { Db.empty [] with readEvents := [⟨ascii "u", ascii "t", snapshot, day⟩] }

def oneRow : Folder :=
  sealedDay (joinTabs [snapshot, ascii "read", ascii "t", ascii "u", []] ++ [nl]) [snapshot]

theorem documented_iff_oneRow : Documented .bytes oneRead day oneRow :=
  (documented_iff {} oneRead day oneRow (by decide)).mpr (by decide)

/-- A row for a file that is neither there nor in the database, under a name that does not conform. -/
theorem ghost_row_valid :
    (directory {} (Db.empty []) day (sealedDay (joinTabs [ascii "ghost", [], [], [], []] ++
      [nl]) [])).isValid = true ∧
      ¬Documented .bytes (Db.empty []) day (sealedDay (joinTabs [ascii "ghost", [], [], [], []] ++ [nl]) []) := by
  refine ⟨by decide, fun h => ?_⟩
  obtain ⟨f, hf, -⟩ := h.there [ascii "ghost", [], [], [], []] (by decide)
  exact absurd hf (by decide +revert)

end Verify

end VisitLogger
