import VisitLogger.Seal

/-!
# A snapshot on its way from the log to the manifest

The extension names a snapshot by its path below Downloads,
`browser-visit-snapshots/<basename>`, and the host logs that path. The live
writers and the rebuilder store its basename; the server's replay stores it as
it stands, and the seal pass on the server looks for the basename. So replaying
the action never makes the file known (`recordedEvent_replayLine`).
-/

namespace VisitLogger

open SnapshotMover (Manifest Listing EventInfo MoverError buildManifestRows manifestFiles lookupEvent rowOf isOrphan)

def snapshotPath (b : Text) : Text := ascii "browser-visit-snapshots/" ++ b

/-- The row under which a database records a file, when the name alone counts. -/
def Db.recordedEvent (db : Db) (b : Text) : Option (EventsTable × Event) :=
  [EventsTable.read, EventsTable.skimmed].findSome? fun t =>
    ((db.events t).find? fun e => e.filename = b).map (Prod.mk t)

/-- The manifest has `b` under the tag, timestamp and URL of an action, and the
seal pass does not take it for an orphan. -/
def SnapshotMover.Manifest.Lists (m : Manifest) (dateSubdir b : Text) (a : Action) : Prop :=
  (∃ r ∈ m.rows, r.filename = SnapshotMover.tsvSanitise b ∧ r.tag = a.tag ∧
      r.timestamp = SnapshotMover.tsvSanitise a.timestamp ∧ r.url = SnapshotMover.tsvSanitise a.url) ∧
    osPathJoin dateSubdir b ∉ m.currentOrphan

instance (m : Manifest) (dateSubdir b : Text) (a : Action) : Decidable (m.Lists dateSubdir b a) :=
  inferInstanceAs (Decidable (_ ∧ _))

/-! ## Names -/

theorem mem_manifestFiles {b dateSubdir : Text} {dir : Listing} (h : snapshotFilenameRe b ≠ none)
    (hb : (b, true) ∈ dir.entries) : b ∈ manifestFiles dateSubdir dir := by
  have h₁ : b ≠ SnapshotMover.manifestFilename := by rintro rfl; exact h (by decide)
  have h₂ : b ∉ SnapshotMover.ignoredNames := by
    intro hi
    rw [SnapshotMover.ignoredNames, List.mem_singleton] at hi
    subst hi; exact h (by decide)
  have h₃ : ∀ d, b ≠ logFilename d := ne_logFilename h
  refine mem_sortStrings.mpr (List.mem_map.mpr ⟨(b, true), List.mem_filter.mpr ⟨hb, ?_⟩, rfl⟩)
  have h₄ : ∀ c : Prop, [Decidable c] → ∀ d, some b ≠ if c then some (logFilename d) else none := by
    intro c _ d hc
    split at hc
    · exact h₃ d (Option.some.inj hc)
    · cases hc
  simp [h₁, h₂, h₄]

theorem osPathJoin_inj {d a b : Text} (ha : slash ∉ a) (hb : slash ∉ b) (h : osPathJoin d a = osPathJoin d b) :
    a = b := by
  have hs : ∀ t : Text, slash ∉ t → t.head? ≠ some slash := by
    intro t ht he
    exact ht (List.mem_of_mem_head? he)
  unfold osPathJoin at h
  rw [if_neg (hs a ha), if_neg (hs b hb)] at h
  split at h
  · exact List.append_cancel_left h
  · exact (List.cons.inj (List.append_cancel_left h)).2

/-! ## The line and the row it leaves -/

theorem tsvSanitise_snapshotPath (b : Text) : (tsvSanitise (snapshotPath b)).head? = some 98 := rfl

theorem lineOp_snapshot {t : EventsTable} {a : Action} (ht : a.tag = t.tag) (recordId directory : Text) :
    Store.lineOp directory (VisitLog.actionLine recordId a) =
      some ⟨tsvSanitise a.timestamp, tsvSanitise a.url, tsvSanitise a.title,
        .event t (tsvSanitise a.filename) directory⟩ := by
  have hf : (VisitLog.actionFields recordId a).map tsvSanitise =
      [tsvSanitise recordId, tsvSanitise a.timestamp, tsvSanitise a.url, tsvSanitise a.title, t.tag,
        tsvSanitise a.filename] := by
    have hr : t.tag = ascii "read" ∨ t.tag = ascii "skimmed" := by cases t <;> simp [EventsTable.tag]
    have hc : tsvSanitise t.tag = t.tag := by cases t <;> decide
    simp [VisitLog.actionFields, ht, t.tag_ne.1, hr, hc]
  have hs : splitTabs (VisitLog.actionLine recordId a) =
    (VisitLog.actionFields recordId a).map tsvSanitise := by
    refine splitTabs_join (fun f hf => ?_) (by simp [VisitLog.actionFields])
    obtain ⟨g, -, rfl⟩ := List.mem_map.mp hf
    exact tab_notMem_tsvSanitise g
  unfold Store.lineOp
  rw [hs, hf]
  simp

theorem Db.find_addEvent {db : Db} {t : EventsTable} {e : Event} {b : Text} (h : e.filename ≠ b)
    (t' : EventsTable) :
    ((db.addEvent t e).events t').find? (fun e => e.filename = b) =
      (db.events t').find? fun e => e.filename = b := by
  have hi : ((db.insertEvent t e).1.events t').find? (fun e => e.filename = b) =
      (db.events t').find? fun e => e.filename = b := by
    rw [events_insertEvent]
    by_cases ht : t = t'
    · subst ht
      simp only [if_true, Table.insertOrIgnore]
      split
      · rfl
      · simp [List.find?_append, h]
    · simp [ht]
  unfold addEvent
  dsimp only
  split
  · exact hi
  · simpa using hi

/-- **Replaying a snapshot action does not record the snapshot.** -/
theorem recordedEvent_replayLine {t : EventsTable} {a : Action} {b : Text} (ht : a.tag = t.tag)
    (hf : a.filename = snapshotPath b) (hb : snapshotFilenameRe b ≠ none) (db : Db) (recordId : Text) :
    (Store.replayLine Store.noFault db (VisitLog.actionLine recordId a)).1.recordedEvent b =
      db.recordedEvent b := by
  have hn : tsvSanitise a.filename ≠ b := by
    intro he
    have hh : (tsvSanitise a.filename).head? = some 98 := by rw [hf]; exact tsvSanitise_snapshotPath b
    exact snapshotFilenameRe_head hb (he ▸ hh)
  rw [Store.replayLine_eq, lineOp_snapshot ht]
  let e : Event := ⟨tsvSanitise a.url, tsvSanitise a.timestamp, tsvSanitise a.filename, db.defaultDirectory⟩
  let db' := db.insertVisit (tsvSanitise a.timestamp) (tsvSanitise a.url) (tsvSanitise a.title)
  have hfind : ∀ t', ((db'.addEvent t e).events t').find? (fun e => e.filename = b) =
      (db'.events t').find? fun e => e.filename = b := Db.find_addEvent hn
  change (db'.addEvent t e).recordedEvent b = db.recordedEvent b
  simp only [Db.recordedEvent, hfind, db', Db.events_insertVisit]

theorem lookupEvent_recorded (db : Db) (b dateSubdir : Text) :
    lookupEvent true db b dateSubdir = (db.recordedEvent b).map fun r =>
      ⟨r.1.tag, r.2.url, r.2.timestamp, SnapshotMover.titleOf db r.2.url⟩ := by
  have hm : ∀ t, (SnapshotMover.matching true db t b dateSubdir).head? =
      (db.events t).find? fun e => e.filename = b := by
    intro t
    rw [SnapshotMover.matching, List.head?_filter]
    simp
  simp only [lookupEvent, Db.recordedEvent, List.findSome?_cons, List.findSome?_nil, hm]
  cases (db.events .read).find? fun e => e.filename = b with
  | some e => rfl
  | none => cases (db.events .skimmed).find? fun e => e.filename = b <;> rfl

/-! ## What the manifest says of the snapshot -/

/-- The manifest lists `b` in every directory that holds it exactly when the
database records `b` with the action's tag, timestamp and URL. -/
theorem lists_iff {db : Db} {a : Action} {b dateSubdir : Text} (hb : snapshotFilenameRe b ≠ none)
    (hs : slash ∉ b) :
    (∀ now dir errors, (b, true) ∈ dir.entries →
        (buildManifestRows true db now dateSubdir dir errors).Lists dateSubdir b a) ↔
      ∃ t e, db.recordedEvent b = some (t, e) ∧ a.tag = t.tag ∧
        SnapshotMover.tsvSanitise e.timestamp = SnapshotMover.tsvSanitise a.timestamp ∧
        SnapshotMover.tsvSanitise e.url = SnapshotMover.tsvSanitise a.url := by
  constructor
  · intro h
    -- in a directory that holds nothing else, the row can only be that of `b`
    let dir : Listing := ⟨[(b, true)], by simpa using hs⟩
    obtain ⟨⟨r, hr, -, h₁, h₂, h₃⟩, -⟩ := h [] dir [] (by simp [dir])
    rw [(SnapshotMover.buildManifestRows_eq ..).1, List.mem_filterMap] at hr
    obtain ⟨f, hf, hr⟩ := hr
    have hfb : f = b := by
      obtain ⟨x, hx, rfl⟩ := List.mem_map.mp (mem_sortStrings.mp hf)
      have hx := (List.mem_filter.mp hx).1
      simp only [dir, List.mem_singleton] at hx
      rw [hx]
    subst hfb
    rw [rowOf, if_neg hb, lookupEvent_recorded] at hr
    simp only [Option.map_map, Option.map_eq_some_iff] at hr
    obtain ⟨⟨t, e⟩, he, rfl⟩ := hr
    exact ⟨t, e, he, h₁.symm, h₂, h₃⟩
  · rintro ⟨t, e, he, ht, h₁, h₂⟩ now dir errors hd
    have hl : lookupEvent true db b dateSubdir =
      some ⟨t.tag, e.url, e.timestamp, SnapshotMover.titleOf db e.url⟩ := by
      rw [lookupEvent_recorded, he]; rfl
    obtain ⟨hrows, horphan⟩ := SnapshotMover.buildManifestRows_eq true db now dateSubdir dir errors
    have hr : rowOf true db dateSubdir b =
      some ⟨SnapshotMover.tsvSanitise b, t.tag, SnapshotMover.tsvSanitise e.timestamp,
        SnapshotMover.tsvSanitise e.url, SnapshotMover.tsvSanitise (SnapshotMover.titleOf db e.url)⟩ := by
      rw [rowOf, if_neg hb, hl]; rfl
    refine ⟨⟨_, hrows ▸ List.mem_filterMap.mpr ⟨b, mem_manifestFiles hb hd, hr⟩, rfl, ht.symm, h₁, h₂⟩, ?_⟩
    · rw [horphan, List.mem_map]
      rintro ⟨f, hf, hj⟩
      obtain ⟨hf, ho⟩ := List.mem_filter.mp hf
      obtain ⟨x, hx, rfl⟩ := List.mem_map.mp (mem_sortStrings.mp hf)
      have := osPathJoin_inj (dir.noSlash x (List.mem_filter.mp hx).1) hs hj
      simp [this, isOrphan, hl] at ho

/-- **The server's seal pass lists a replayed snapshot only if it knew it before.** -/
theorem replayed_snapshot_listed_iff {db : Db} {t : EventsTable} {a : Action} {recordId b dateSubdir : Text}
    (ht : a.tag = t.tag) (hf : a.filename = snapshotPath b) (hb : snapshotFilenameRe b ≠ none)
    (hs : slash ∉ b) :
    (∀ now dir errors, (b, true) ∈ dir.entries →
        (buildManifestRows true (Store.replayLine Store.noFault db
          (VisitLog.actionLine recordId a)).1 now dateSubdir
          dir errors).Lists dateSubdir b a) ↔
      ∃ e, db.recordedEvent b = some (t, e) ∧
        SnapshotMover.tsvSanitise e.timestamp = SnapshotMover.tsvSanitise a.timestamp ∧
        SnapshotMover.tsvSanitise e.url = SnapshotMover.tsvSanitise a.url := by
  rw [lists_iff hb hs, recordedEvent_replayLine ht hf hb]
  constructor
  · rintro ⟨t', e, he, ht', h⟩
    have : t' = t := by
      have := congrArg EventsTable.forTag (ht'.symm.trans ht)
      simpa using this
    exact ⟨e, this ▸ he, h⟩
  · rintro ⟨e, he, h⟩; exact ⟨t, e, he, ht, h⟩

def someSnapshot : Text := ascii "2024-05-01T12-00-00Z-0a1b.mhtml"

/-- On an empty database the snapshot becomes an orphan. -/
theorem replayed_snapshot_orphan :
    let a : Action := ⟨ascii "2024-05-01T12:00:00Z", ascii "https://a.example/", ascii "A", ascii "read",
      snapshotPath someSnapshot⟩
    let db := (Store.replayLine Store.noFault (Db.empty [])
      (VisitLog.actionLine (ascii "0123456789abcdef0123456789abcdef") a)).1
    let dir := ascii "/mnt/gdrive-snapshots/2024-05-01"
    let m := buildManifestRows true db [] dir ⟨[(someSnapshot, true)], by decide⟩ []
    snapshotFilenameRe someSnapshot = some (ascii "2024-05-01") ∧ ¬m.Lists dir someSnapshot a ∧
      m.currentOrphan = [osPathJoin dir someSnapshot] := by
  decide

theorem replayed_snapshot_listed_iff_somewhere :
    let a : Action := ⟨ascii "2024-05-01T12:00:00Z", ascii "https://a.example/", ascii "A", ascii "read",
      snapshotPath someSnapshot⟩
    let e : Event := ⟨a.url, a.timestamp, someSnapshot, []⟩
    let db := (Db.empty []).addEvent .read e
    ∀ now dir errors, (someSnapshot, true) ∈ dir.entries →
      (buildManifestRows true (Store.replayLine Store.noFault db
        (VisitLog.actionLine [] a)).1 now [] dir errors).Lists
        [] someSnapshot a :=
  (replayed_snapshot_listed_iff (t := .read) rfl rfl (by decide) (by decide)).mpr ⟨_, rfl, rfl, rfl⟩

end VisitLogger
