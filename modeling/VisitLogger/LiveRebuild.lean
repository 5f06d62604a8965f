import Mathlib.Data.List.TakeWhile
import VisitLogger.SealSound
import VisitLogger.Writers

/-!
# The rebuilt database against the live one

The host commits an action to the live database, or reports it as failed; the
rebuilder applies the actions whose result line says success. What a log does
not carry is forgotten (`Db.forget`), and then an invocation and the replay of
its two lines are one operation, or none (`forget_handle`, `db_replayOneFile_chunk`).
-/

namespace VisitLogger

open Framing

/-! ## What a log carries -/

/-- A database without its marks, the directories of its events, and its
snapshots table, none of which an action line carries. -/
def Db.forget (db : Db) : Db where
  visits := db.visits.map fun v => { v with ofInterest := none }
  readEvents := db.readEvents.map fun e => { e with directory := [] }
  skimmedEvents := db.skimmedEvents.map fun e => { e with directory := [] }
  snapshots := []
  defaultDirectory := []

def Op.forget (o : Op) : Op :=
  { o with mark := match o.mark with
      | .event t f _ => .event t f []
      | _ => .visit }

namespace Db

variable (db : Db)

theorem events_forget (t : EventsTable) :
    db.forget.events t = (db.events t).map fun e => { e with directory := [] } := by
  cases t <;> rfl

theorem forget_setEvents (t : EventsTable) (es : List Event) :
    (db.setEvents t es).forget = db.forget.setEvents t (es.map fun e => { e with directory := [] }) := by
  cases t <;> rfl

theorem forget_insertVisit (ts u ti : Text) :
    (db.insertVisit ts u ti).forget = db.forget.insertVisit ts u ti := by
  have h := Table.map_insertOrIgnore Visit.url (f := fun v : Visit => { v with ofInterest := none })
    (fun _ => rfl)
    ⟨u, ts, ti, none, 0, 0⟩ db.visits
  simp only [insertVisit, forget]
  rw [h]

theorem forget_setOfInterest (u : Text) : (db.setOfInterest u).1.forget = db.forget := by
  simp only [setOfInterest, forget, Table.updateWhere, List.map_map]
  congr 1
  refine List.map_congr_left fun v _ => ?_
  simp only [Function.comp]
  split <;> rfl

theorem forget_increment (t : EventsTable) (u : Text) :
    (db.increment t u).forget = db.forget.increment t u := by
  simp only [increment, forget, Table.updateWhere, List.map_map]
  congr 1
  refine List.map_congr_left fun v _ => ?_
  simp only [Function.comp]
  split
  · cases t <;> rfl
  · rfl

theorem forget_insertEvent (t : EventsTable) (e : Event) :
    db.forget.insertEvent t { e with directory := [] } =
      ((db.insertEvent t e).1.forget, (db.insertEvent t e).2) := by
  have h := Table.map_insertOrIgnore (fun e : Event => (e.url, e.timestamp))
    (f := fun e : Event => { e with directory := [] }) (fun _ => rfl) e (db.events t)
  unfold insertEvent
  rw [events_forget, h]
  dsimp only
  rw [forget_setEvents]

theorem forget_addEvent (t : EventsTable) (e : Event) :
    (db.addEvent t e).forget = db.forget.addEvent t { e with directory := [] } := by
  unfold addEvent
  rw [forget_insertEvent]
  dsimp only
  split
  · rfl
  · exact forget_increment ..

/-- **Forgetting commutes with an operation.** -/
theorem forget_apply (o : Op) : (db.apply o).forget = db.forget.apply o.forget := by
  unfold apply Op.forget
  cases o.mark with
  | visit => exact forget_insertVisit ..
  | ofInterest => exact (forget_setOfInterest _ _).trans (forget_insertVisit ..)
  | event t f d =>
    dsimp only
    rw [forget_addEvent, forget_insertVisit]

theorem forget_insertSnapshot (date : Text) : (db.insertSnapshot date).forget = db.forget := rfl

theorem forget_upsertSnapshot (date : Text) (isSealed : Nat) :
    (db.upsertSnapshot date isSealed).forget = db.forget := by
  unfold upsertSnapshot
  split <;> rfl

theorem forget_updateDirectory (t : EventsTable) (directory filename old : Text) :
    (db.updateDirectory t directory filename old).1.forget = db.forget := by
  have hmap : ∀ es : List Event, (Table.updateWhere (fun e => e.filename = filename && e.directory = old)
      (fun e => { e with directory }) es).1.map (fun e => { e with directory := [] }) =
        es.map fun e => { e with directory := [] } := by
    intro es
    simp only [Table.updateWhere, List.map_map]
    refine List.map_congr_left fun e _ => ?_
    simp only [Function.comp]
    split <;> rfl
  rw [updateDirectory, forget_setEvents, hmap, ← events_forget]
  cases t <;> rfl

end Db

theorem VisitsRebuilder.forget_rehydrateFilesystem (icloudDir downloads : Text) (db : Db)
    (archive : Option Archive) :
    (rehydrateFilesystem icloudDir downloads db archive).1.forget = db.forget :=
  rehydrateFilesystem_same icloudDir downloads Db.forget Db.forget_upsertSnapshot Db.forget_updateDirectory db archive

/-! ## Replaying the lines of one invocation -/

namespace VisitsRebuilder

variable (downloads : Text)

theorem replayOneFile_append (s : State) (a b : Text) :
    replayOneFile downloads s (a ++ nl :: b) =
      replayOneFile downloads (replayOneFile downloads s (a ++ [nl])) b := by
  unfold replayOneFile
  rw [fileLines_append, List.foldl_append]

theorem db_replayLine_noTab (s : State) {line : Text} (h : tab ∉ line) :
    (replayLine downloads s line).db = s.db := by
  have hsplit : splitTabs line = [line] := List.splitOn_eq_singleton h
  unfold replayLine
  rw [hsplit]
  dsimp only
  split
  · rfl
  · split
    · rfl
    · rfl

theorem db_replayResult_error (s : State) (i : Text) {p : Text} (h : p ≠ ascii "success") :
    (replayResult downloads s i p).db = s.db := by
  unfold replayResult
  split
  · rfl
  · rw [if_neg h]

theorem db_replayLine_error (s : State) {i p : Text} (hi : tab ∉ i) (hp : tab ∉ p) :
    (replayLine downloads s (i ++ tab :: (ascii "error: " ++ p))).db = s.db := by
  have hp : tab ∉ ascii "error: " ++ p := by
    rw [List.mem_append, not_or]; exact ⟨by decide, hp⟩
  have hsplit : splitTabs (i ++ tab :: (ascii "error: " ++ p)) = [i, ascii "error: " ++ p] := by
    rw [splitTabs, List.splitOn_append_cons_self_of_not_mem hi, List.splitOn_eq_singleton hp]
  have hne : ascii "error: " ++ p ≠ ascii "success" := by
    intro h
    exact absurd (congrArg List.head? h) (by simp [ascii])
  unfold replayLine
  rw [hsplit]
  dsimp only
  split
  · rfl
  · split
    · rfl
    · split
      · exact db_replayResult_error downloads s i hne
      · rfl

/-- The line of an error is no action, and neither is what follows a newline in its text. -/
theorem db_replayOneFile_error (s : State) {i p : Text} (hi : Clean i) (hp : tab ∉ p) :
    (replayOneFile downloads s (i ++ tab :: (ascii "error: " ++ p) ++ [nl])).db = s.db := by
  have hhead : cr ∉ i ++ tab :: ascii "error: " ∧ nl ∉ i ++ tab :: ascii "error: " := by
    simp only [List.mem_append, not_or]
    exact ⟨⟨hi.2.2, by decide⟩, hi.2.1, by decide⟩
  have htab : tab ∉ universalNewlines (p ++ [nl]) := by
    intro h
    rcases mem_universalNewlines h with h | h
    · exact absurd h (by decide)
    · rcases List.mem_append.mp h with h | h
      · exact hp h
      · exact absurd h (by decide)
  obtain ⟨⟨v, hv⟩, -⟩ := universalNewlines_append p []
  obtain ⟨w, z, hwz, hw⟩ := List.eq_append_cons_of_mem (show nl ∈ universalNewlines (p ++ [nl]) by simp [hv])
  have hnl : nl ∉ i ++ tab :: ascii "error: " ++ w := by
    rw [List.mem_append, not_or]; exact ⟨hhead.2, hw⟩
  have htext : universalNewlines (i ++ tab :: (ascii "error: " ++ p) ++ [nl]) =
      (i ++ tab :: ascii "error: " ++ w) ++ nl :: z := by
    rw [show i ++ tab :: (ascii "error: " ++ p) ++ [nl] = (i ++ tab :: ascii "error: ") ++ (p ++ [nl]) by simp,
      universalNewlines_prefix hhead.1, hwz]
    simp
  rw [hwz] at htab
  simp only [List.mem_append, List.mem_cons, not_or] at htab
  have hrest : ∀ (s : State) (lines : List Text), (∀ l ∈ lines, tab ∉ l) →
      (lines.foldl (replayLine downloads) s).db = s.db := by
    intro s lines hl
    induction lines generalizing s with
    | nil => rfl
    | cons l lines ih =>
      rw [List.foldl_cons, ih _ fun m hm => hl m (List.mem_cons_of_mem _ hm),
        db_replayLine_noTab downloads s (hl l (by simp))]
  unfold replayOneFile fileLines
  rw [htext]
  dsimp only
  rw [closed_line nl hnl, tail_line nl hnl, List.cons_append, List.foldl_cons, hrest]
  · have := db_replayLine_error downloads s hi.1 htab.1
    simpa using this
  · intro l hl
    rcases List.mem_append.mp hl with hl | hl
    · exact fun h => htab.2.2 (mem_of_closed nl hl h)
    · split at hl
      · cases hl
      · rw [List.mem_singleton.mp hl]
        exact fun h => htab.2.2 (mem_of_tail nl h)

end VisitsRebuilder

namespace BVLHost

open VisitsRebuilder (replayOneFile replayAction replayResult parsed)

def Invocation.Commits (inv : Invocation) : Prop := inv.Accepted ∧ inv.faults.db = none

/-- The two lines that an invocation leaves in the log of its day. -/
def Invocation.chunk (inv : Invocation) : Text :=
  VisitLog.actionLine inv.recordId inv.message.request ++
    nl :: (VisitLog.resultLine inv.recordId (resultText inv.errors) ++ [nl])

def Invocation.op (inv : Invocation) (downloads : Text) : Op := inv.message.request.op osPathBasename downloads

theorem sanitised_op {i : Text} {a : Action} (ht : a.tag = [] ∨ a.tag ∈ validTags)
    (hc : ∀ f ∈ VisitLog.actionFields i a, Clean f) (store : Text → Text) (directory : Text) :
    (VisitLog.sanitised a).op store directory = a.op store directory := by
  have h₁ := hc a.timestamp (by simp [VisitLog.actionFields])
  have h₂ := hc a.url (by simp [VisitLog.actionFields])
  have h₃ := hc a.title (by simp [VisitLog.actionFields])
  have hs : VisitLog.sanitised a = { a with filename := tsvSanitise a.filename } := by
    simp only [VisitLog.sanitised, tsvSanitise_of_clean h₁, tsvSanitise_of_clean h₂, tsvSanitise_of_clean h₃]
  rw [hs]
  rcases actionFields_cases (i := i) ht store directory with ⟨-, -, htag⟩ | ⟨-, -, htag⟩ | ⟨t, hf, -, htag⟩
  · have : EventsTable.forTag [] = none := rfl
    simp [Action.op, htag, this]
  · simp [Action.op, htag]
  · have hfile : Clean a.filename := hc _ (by rw [hf]; simp)
    rw [tsvSanitise_of_clean hfile]

variable {inv : Invocation} (hacc : inv.Accepted) (hu : looksLikeUuid inv.recordId = true)
variable (hlog : inv.faults.action = none)

include hlog in
theorem errors_eq_nil (h : inv.faults.db = none) : resultText inv.errors = ascii "success" := by
  simp [Invocation.errors, hlog, h, resultText]

include hlog in
theorem errors_ne_nil (h : inv.faults.db ≠ none) : ∃ e, resultText inv.errors = ascii "error: " ++ e := by
  obtain ⟨f, hf⟩ := Option.ne_none_iff_exists'.mp h
  refine ⟨ascii "db: " ++ f.2, ?_⟩
  simp [Invocation.errors, hlog, hf, resultText]

include hacc hu hlog in
/-- **Replaying the two lines of an invocation** applies its operation if it committed. -/
theorem db_replayOneFile_chunk (hc : ∀ f ∈ VisitLog.actionFields inv.recordId inv.message.request, Clean f)
    (downloads : Text) (s : VisitsRebuilder.State) :
    (replayOneFile downloads s inv.chunk).db =
      if inv.faults.db = none then s.db.apply (inv.op downloads) else s.db := by
  have hwf := Entry.wf_action hu hacc.tag fun f hf => (hc f hf).noCrLf
  have haction : replayOneFile downloads s (VisitLog.actionLine inv.recordId inv.message.request ++ [nl]) =
      replayAction s inv.recordId (parsed (VisitLog.sanitised inv.message.request)) := by
    rw [Entry.line_action hu hacc.tag, VisitsRebuilder.replayOneFile, fileLines_line (Entry.line_noNl hwf)]
    exact VisitsRebuilder.replayLine_entry downloads hwf s
  have hclean := looksLikeUuid_clean hu
  unfold Invocation.chunk
  rw [VisitsRebuilder.replayOneFile_append, haction]
  by_cases hdb : inv.faults.db = none
  · have hres := Entry.wf_success hu
    have hline : VisitLog.resultLine inv.recordId (ascii "success") =
        (Entry.result inv.recordId (ascii "success")).line := by
      rw [Entry.line_result hu]; rfl
    rw [errors_eq_nil hlog hdb, if_pos hdb, hline, VisitsRebuilder.replayOneFile,
      fileLines_line (Entry.line_noNl hres), List.foldl_cons, List.foldl_nil,
      VisitsRebuilder.replayLine_entry downloads hres, VisitsRebuilder.replayEntry, replayResult]
    simp only [replayAction, AList.lookup_insert, if_true]
    rw [VisitsRebuilder.applyAction_db, VisitsRebuilder.parsed_op, sanitised_op hacc.tag hc, Invocation.op]
  · obtain ⟨e, he⟩ := errors_ne_nil hlog hdb
    have hline : VisitLog.resultLine inv.recordId (ascii "error: " ++ e) =
        inv.recordId ++ tab :: (ascii "error: " ++ tsvSanitise e) := by
      rw [VisitLog.resultLine, tsvSanitise_of_clean hclean, tsvSanitise_append (by decide)]
      simp [joinTabs, List.intercalate]
    rw [he, if_neg hdb, hline, VisitsRebuilder.db_replayOneFile_error downloads _ hclean
      (tab_notMem_tsvSanitise e)]
    rfl

/-! ## The live database -/

/-- An event names the snapshot that background.js downloaded for it, or none. -/
def Invocation.Named (inv : Invocation) : Prop :=
  isEventTag inv.message.request.tag = true → inv.message.request.filename = [] ∨
    ∃ b, inv.message.request.filename = snapshotPath b ∧ b ≠ [] ∧ slash ∉ b

/-- The statements of a write bind its texts whole. -/
def Invocation.NoNul (inv : Invocation) : Prop :=
  ∀ f ∈ VisitLog.actionFields inv.recordId inv.message.request, (0 : Byte) ∉ f

instance (inv : Invocation) : Decidable inv.NoNul := inferInstanceAs (Decidable (∀ f ∈ _, _))

theorem basename_snapshotPath {b : Text} (hne : b ≠ []) (hb : slash ∉ b) :
    lastPathComponent (snapshotPath b) = b ∧ osPathBasename (snapshotPath b) = b := by
  have hsplit : (snapshotPath b).splitOn slash = [ascii "browser-visit-snapshots", b] := by
    have : snapshotPath b = ascii "browser-visit-snapshots" ++ slash :: b := by simp [snapshotPath, ascii]
    rw [this, List.splitOn_append_cons_self_of_not_mem (by decide), List.splitOn_eq_singleton hb]
  constructor
  · have h : ascii "browser-visit-snapshots" ≠ [] := by decide
    simp [lastPathComponent, hsplit, h, hne]
  · simp [osPathBasename, hsplit]

theorem stored_filename {f : Text} (h : f = [] ∨ ∃ b, f = snapshotPath b ∧ b ≠ [] ∧ slash ∉ b)
    (hn : (0 : Byte) ∉ f) :
    cString (lastPathComponent f) = osPathBasename f := by
  rcases h with rfl | ⟨b, rfl, hne, hb⟩
  · rfl
  · obtain ⟨h₁, h₂⟩ := basename_snapshotPath hne hb
    rw [h₁, h₂]
    exact cString_of_notMem fun h => hn (List.mem_append_right _ h)

include hacc in
/-- The host and the rebuilder store an action alike. -/
theorem bound_op (hn : inv.NoNul) (hs : inv.Named) (directory : Text) :
    (bound inv.message.request).op (fun f => cString (lastPathComponent f)) directory = inv.op directory := by
  have h₁ := cString_of_notMem (hn inv.message.request.timestamp (by simp [VisitLog.actionFields]))
  have h₂ := cString_of_notMem (hn inv.message.request.url (by simp [VisitLog.actionFields]))
  have h₃ := cString_of_notMem (hn inv.message.request.title (by simp [VisitLog.actionFields]))
  have hb : bound inv.message.request = inv.message.request := by rw [bound, h₁, h₂, h₃]
  rw [hb, Invocation.op]
  have hcases := fun store : Text → Text => actionFields_cases (i := inv.recordId) hacc.tag store directory
  rcases hcases osPathBasename with ⟨-, ho, htag⟩ | ⟨-, ho, htag⟩ | ⟨t, hf, ho, htag⟩
  · rw [ho]
    have h₄ : EventsTable.forTag [] = none := rfl
    have h₅ : ascii "of_interest" ≠ [] := by decide
    simp [Action.op, htag, h₄, h₅.symm]
  · rw [ho]; simp [Action.op, htag]
  · have hevent : isEventTag inv.message.request.tag = true := by rw [htag]; exact isEventTag_tag t
    have hfile := stored_filename (hs hevent) (hn _ (by rw [hf]; simp))
    simp only [Action.op, hfile]

theorem relocate_eq (db : Db) (dateSubdir basename downloads : Text) :
    relocate db dateSubdir basename downloads =
      ((db.updateDirectory .read dateSubdir basename downloads).1.updateDirectory .skimmed dateSubdir basename
        downloads).1 := rfl

theorem forget_archived (downloads filename : Text) (db : Db) (moved : Option (Text × Text)) :
    (archived downloads filename db moved).forget = db.forget := by
  cases moved with
  | none => rfl
  | some m =>
    obtain ⟨date, dateSubdir⟩ := m
    rw [archived, Db.forget_insertSnapshot, relocate_eq, Db.forget_updateDirectory, Db.forget_updateDirectory]

include hacc in
theorem forget_writes (hn : inv.NoNul) (hs : inv.Named) (downloads : Text) (db : Db) :
    (writes downloads inv.message.request inv.message.alsoOfInterest db).forget =
      db.forget.apply (inv.op downloads).forget := by
  rw [writes_eq downloads hacc.tag, ops, bound_op hacc hn hs]
  generalize inv.op downloads = o
  split
  · -- the second operation finds the visits row, and its mark is forgotten
    have hin : o.url ∈ (db.forget.apply o.forget).urls := by
      have h := (db.forget.urls_ops [o.forget] (u := o.url)).mpr (Or.inr ⟨_, List.mem_singleton_self _, rfl⟩)
      exact h
    rw [Db.ops, List.foldl_cons, List.foldl_cons, List.foldl_nil, Db.forget_apply, Db.forget_apply]
    exact Db.insertVisit_of_mem _ hin _ _
  · rw [Db.ops, List.foldl_cons, List.foldl_nil, Db.forget_apply]

/-- **An invocation is its operation, or nothing**, on a database that forgets. -/
theorem forget_handle (h : inv.Commits → inv.NoNul ∧ inv.Named) (downloads : Text) (s : State) :
    (inv.Commits → (handle downloads s inv).1.db.forget = s.db.forget.apply (inv.op downloads).forget) ∧
      (¬inv.Commits → (handle downloads s inv).1.db.forget = s.db.forget) := by
  constructor
  · intro hc
    obtain ⟨hn, hs⟩ := h hc
    rw [handle_accepted hc.1]
    simp only [dbWrites, hc.2]
    split
    · rw [forget_archived, forget_writes hc.1 hn hs, Db.forget_insertSnapshot]
    · rw [forget_writes hc.1 hn hs, Db.forget_insertSnapshot]
  · intro hc
    by_cases hacc : inv.Accepted
    · obtain ⟨f, hf⟩ := Option.ne_none_iff_exists'.mp fun hdb => hc ⟨hacc, hdb⟩
      rw [handle_accepted hacc]
      simp only [dbWrites, hf]
      obtain ⟨_ | _, e⟩ := f <;> rfl
    · rw [handle_refused hacc]

end BVLHost

end VisitLogger
