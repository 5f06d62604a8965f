import VisitLogger.Host
import VisitLogger.RebuildSound

/-!
# The live database and its replicas

A run of successful invocations leaves the live database and the day logs.
`LogsOf` says what the logs hold: for each invocation its two entries. A
replica sees the URLs that an of_interest action names in the log; the live
database also has those marked together with a read or skimmed action
(`alsoOfInterest`), which no log line carries (`of_interest_agrees_iff`).
-/

namespace VisitLogger

namespace BVLHost

open Framing

/-! ## Marks -/

def Invocation.Marks (inv : Invocation) (u : Text) : Prop :=
  cString inv.message.request.url = u ∧ (inv.message.request.tag = ascii "of_interest" ∨
    inv.message.alsoOfInterest = true ∧ isEventTag inv.message.request.tag = true)

def Invocation.LogsMark (inv : Invocation) (u : Text) : Prop :=
  tsvSanitise inv.message.request.url = u ∧ inv.message.request.tag = ascii "of_interest"

theorem isEventTag_tag (t : EventsTable) : isEventTag t.tag = true := by cases t <;> rfl

theorem rows_relocate (db : Db) (dateSubdir basename downloads : Text) :
    (relocate db dateSubdir basename downloads).rows = db.rows := by
  have hkeys : ∀ es : List Event, (Table.updateWhere (fun e => e.filename = basename && e.directory = downloads)
      (fun e => { e with directory := dateSubdir }) es).1.map (fun e => (e.url, e.timestamp)) =
        es.map fun e => (e.url, e.timestamp) := fun es => Table.keys_updateWhere _ _ _ _ fun _ => rfl
  refine Prod.ext rfl (funext fun t => ?_)
  cases t <;> exact hkeys _

theorem rows_archived (downloads filename : Text) (db : Db) (moved : Option (Text × Text)) :
    (archived downloads filename db moved).rows = db.rows := by
  cases moved with
  | none => rfl
  | some m => obtain ⟨date, dateSubdir⟩ := m; exact rows_relocate db dateSubdir _ downloads

theorem isOfInterest_archived (downloads filename : Text) (db : Db) (moved : Option (Text × Text)) (u : Text) :
    (archived downloads filename db moved).isOfInterest u = db.isOfInterest u :=
  Db.isOfInterest_congr (congrArg Prod.fst (rows_archived ..)) u

theorem insertEvent_eq (downloads : Text) {db : Db} {url : Text} (h : cString url ∈ db.urls) (t : EventsTable)
    (timestamp filename : Text) :
    (Events.insertEvent downloads db t url timestamp filename).1 =
      db.addEvent t ⟨cString url, cString timestamp, cString (lastPathComponent filename), downloads⟩ := by
  simp only [Events.insertEvent, Db.hasVisit, (Table.has_iff Visit.url).mpr h, if_true, Db.addEvent, gt_iff_lt,
    Nat.pos_iff_ne_zero, ne_eq, ite_not]

def bound (a : Action) : Action :=
  { a with timestamp := cString a.timestamp, url := cString a.url, title := cString a.title }

def ops (downloads : Text) (a : Action) (alsoOfInterest : Bool) : List Op :=
  let o := (bound a).op (fun f => cString (lastPathComponent f)) downloads
  o :: if alsoOfInterest && isEventTag a.tag then [{ o with mark := .ofInterest }] else []

/-- **The write transaction is its operations.** -/
theorem writes_eq (downloads : Text) {a : Action} (ha : a.tag = [] ∨ a.tag ∈ validTags) (also : Bool)
    (db : Db) :
    writes downloads a also db = db.ops (ops downloads a also) := by
  have hu : cString a.url ∈ (Events.insertVisit db a.timestamp a.url a.title).urls :=
    (Db.mem_urls_insertVisit db).mpr (Or.inr rfl)
  have hevent : ∀ t : EventsTable, a.tag = t.tag →
      writes downloads a also db = db.ops (ops downloads a also) := by
    intro t ht
    have hw : (Events.tagVisit downloads
      (Events.insertVisit db a.timestamp a.url a.title) a.url t.tag a.timestamp
        a.filename).1 = db.apply ⟨cString a.timestamp, cString a.url, cString a.title,
          .event t (cString (lastPathComponent a.filename)) downloads⟩ := by
      simp only [Events.tagVisit, t.tag_ne.2, if_false, EventsTable.forTag_tag]
      exact insertEvent_eq downloads hu t a.timestamp a.filename
    unfold writes
    simp only [ht, t.tag_ne.1, if_false, hw, isEventTag_tag, Bool.and_true]
    cases also with
    | false => simp [Db.ops, ops, bound, Action.op, ht, t.tag_ne.2]
    | true =>
      -- the mark finds the visits row of its event
      have hin : cString a.url ∈ (db.apply ⟨cString a.timestamp, cString a.url, cString a.title,
          .event t (cString (lastPathComponent a.filename)) downloads⟩).urls := by
        simp only [Db.apply, Db.urls_addEvent]; exact hu
      simp only [if_true, Events.tagVisit, Db.ops, ops, bound, Action.op, ht, t.tag_ne.2, if_false,
        isEventTag_tag, Bool.and_true, EventsTable.forTag_tag, List.foldl_cons, List.foldl_nil]
      conv_rhs => rw [Db.apply]
      dsimp only
      rw [Db.insertVisit_of_mem _ hin]
  rcases ha with ha | ha
  · have h₁ : ([] : Text) ≠ ascii "of_interest" := by decide
    have h₂ : isEventTag [] = false := rfl
    have h₃ : EventsTable.forTag [] = none := rfl
    simp [writes, ops, bound, Action.op, Db.ops, Db.apply, Events.insertVisit, ha, h₁, h₂, h₃]
  · rcases mem_validTags ha with ha | ha | ha
    · have h₁ : isEventTag (ascii "of_interest") = false := rfl
      have h₂ : ascii "of_interest" ≠ [] := by decide
      simp [writes, ops, bound, Action.op, Db.ops, Db.apply, Events.insertVisit, Events.tagVisit, ha, h₁, h₂]
    · exact hevent _ ha
    · exact hevent _ ha

theorem isOfInterest_writes (downloads : Text) {a : Action} (ha : a.tag = [] ∨ a.tag ∈ validTags) (also : Bool)
    (db : Db) (u : Text) :
    (writes downloads a also db).isOfInterest u = true ↔ db.isOfInterest u = true ∨
      cString a.url = u ∧ (a.tag = ascii "of_interest" ∨ also = true ∧ isEventTag a.tag = true) := by
  have hmark : ((bound a).op (fun f => cString (lastPathComponent f)) downloads).mark = .ofInterest ↔
      a.tag = ascii "of_interest" := by
    simp only [Action.op, bound]
    by_cases h : a.tag = ascii "of_interest"
    · simp [h]
    · cases EventsTable.forTag a.tag <;> simp [h]
  rw [writes_eq downloads ha, Db.isOfInterest_ops]
  refine or_congr_right ?_
  by_cases h : (also && isEventTag a.tag) = true
  · simp only [ops, h, if_true, List.mem_cons, List.not_mem_nil, or_false, exists_eq_or_imp, hmark,
      exists_eq_left]
    simp only [Bool.and_eq_true] at h
    simp only [h, and_self, or_true, and_true, true_and]
    exact or_iff_right_of_imp And.right
  · have hn : ¬(also = true ∧ isEventTag a.tag = true) := fun c => h (by simp [c])
    simp only [ops, h, Bool.false_eq_true, if_false, List.mem_singleton, exists_eq_left, hmark, hn, or_false]
    exact and_comm

/-- **Step.** A successful invocation marks its URL and no other. -/
theorem isOfInterest_committed {inv : Invocation} (h : inv.Succeeds) (downloads : Text) (db : Db) (u : Text) :
    (committed downloads inv db).isOfInterest u = true ↔ db.isOfInterest u = true ∨ inv.Marks u := by
  have hw : (committed downloads inv db).isOfInterest u =
      (writes downloads inv.message.request inv.message.alsoOfInterest
        (db.insertSnapshot inv.todayISO)).isOfInterest u := by
    unfold committed
    dsimp only
    split
    · exact isOfInterest_archived ..
    · rfl
  rw [hw, isOfInterest_writes downloads h.tag]
  exact Iff.rfl

/-! ## Writes that pass the checks -/

structure Invocation.Accepted (inv : Invocation) : Prop where
  write : trim inv.message.action ≠ ascii "query"
  url : inv.message.request.url ≠ []
  timestamp : inv.message.request.timestamp ≠ []
  tag : inv.message.request.tag = [] ∨ inv.message.request.tag ∈ validTags

instance (inv : Invocation) : Decidable inv.Accepted :=
  decidable_of_iff (trim inv.message.action ≠ ascii "query" ∧ inv.message.request.url ≠ [] ∧
      inv.message.request.timestamp ≠ [] ∧
      (inv.message.request.tag = [] ∨ inv.message.request.tag ∈ validTags))
    ⟨fun ⟨h₁, h₂, h₃, h₄⟩ => ⟨h₁, h₂, h₃, h₄⟩, fun h => ⟨h.write, h.url, h.timestamp, h.tag⟩⟩

theorem Invocation.Succeeds.accepted {inv : Invocation} (h : inv.Succeeds) : inv.Accepted :=
  ⟨h.write, h.url, h.timestamp, h.tag⟩

def Invocation.errors (inv : Invocation) : List Text :=
  (inv.faults.action.map (ascii "log: " ++ ·)).toList ++ (inv.faults.db.map fun f => ascii "db: " ++ f.2).toList

theorem handle_accepted {inv : Invocation} (h : inv.Accepted) (downloads : Text) (s : State) :
    (handle downloads s inv).1 =
      ⟨(dbWrites downloads inv inv.message.request s.db).1,
        let logs := if inv.faults.action.isSome then s.logs
          else VisitLog.appendLine s.logs inv.todayISO (VisitLog.actionLine inv.recordId inv.message.request)
        if inv.faults.result then logs
        else VisitLog.appendLine logs inv.todayISO
          (VisitLog.resultLine inv.recordId (resultText inv.errors))⟩ := by
  have ht : ¬(inv.message.request.tag ≠ [] ∧ inv.message.request.tag ∉ validTags) := by
    rintro ⟨h₁, h₂⟩; exact h.tag.elim h₁ h₂
  have herr : (dbWrites downloads inv inv.message.request s.db).2 = inv.faults.db.map Prod.snd := by
    unfold dbWrites
    cases inv.faults.db with
    | none => rfl
    | some f => obtain ⟨_ | _, e⟩ := f <;> rfl
  unfold handle write
  simp only [h.write, h.url, h.timestamp, ht, if_false, herr, Invocation.errors, Option.map_map]
  rfl

theorem handle_refused {inv : Invocation} (h : ¬inv.Accepted) (downloads : Text) (s : State) :
    (handle downloads s inv).1 = s := by
  unfold handle write
  dsimp only
  split_ifs with h₁ h₂ h₃ h₄ h₅ <;> try rfl
  · cases inv.faults.db <;> rfl
  all_goals exact absurd ⟨h₁, h₃, h₄, by by_contra hc; exact h₅ (not_or.mp hc)⟩ h

theorem rows_dbWrites (downloads : Text) {inv : Invocation} (h : inv.Accepted) (db : Db) :
    (dbWrites downloads inv inv.message.request db).1.rows =
      (db.ops (if inv.faults.db = none then ops downloads inv.message.request inv.message.alsoOfInterest
        else [])).rows := by
  unfold dbWrites
  cases hf : inv.faults.db with
  | some f => obtain ⟨_ | _, e⟩ := f <;> rfl
  | none =>
    have hops : (writes downloads inv.message.request inv.message.alsoOfInterest
        (db.insertSnapshot inv.todayISO)).rows =
          (db.ops (ops downloads inv.message.request inv.message.alsoOfInterest)).rows := by
      rw [writes_eq downloads h.tag]
      exact Db.rows_ops (db.rows_insertSnapshot _) (List.forall₂_same.mpr fun o _ => Op.Same.refl o)
    rw [if_pos rfl, ← hops]
    dsimp only
    split
    · exact rows_archived ..
    · rfl

/-! ## The day logs of a run -/

def Invocation.entries (inv : Invocation) : List Entry :=
  [.action inv.recordId (VisitLog.sanitised inv.message.request), .result inv.recordId (ascii "success")]

def entriesOf (date : Text) (invs : List Invocation) : List Entry :=
  (invs.filter fun inv => inv.todayISO = date).flatMap Invocation.entries

/-- The logs hold the entries of the invocations, by date. -/
structure LogsOf (invs : List Invocation) (logs : List (Text × Text)) : Prop where
  nodup : (logs.map Prod.fst).Nodup
  dates : ∀ d, d ∈ logs.map Prod.fst ↔ ∃ inv ∈ invs, inv.todayISO = d
  text : ∀ f ∈ logs, f.2 = content (entriesOf f.1 invs)

theorem mem_appendLine {logs : List (Text × Text)} {date line : Text} {f : Text × Text}
    (h : f ∈ VisitLog.appendLine logs date line) :
    f.1 ≠ date ∧ f ∈ logs ∨
      f.1 = date ∧ ∃ c, (c = [] ∧ date ∉ logs.map Prod.fst ∨ (date, c) ∈ logs) ∧ f.2 = c ++ line ++ [nl] := by
  simp only [VisitLog.appendLine, Table.updateWhere, List.mem_map] at h
  obtain ⟨g, hg, rfl⟩ := h
  have hg : g ∈ logs ∨ g = (date, []) ∧ date ∉ logs.map Prod.fst := by
    simp only [Table.insertOrIgnore] at hg
    split at hg
    · exact Or.inl hg
    · rename_i hh
      rcases List.mem_append.mp hg with hg | hg
      · exact Or.inl hg
      · exact Or.inr ⟨List.mem_singleton.mp hg, fun hm => hh ((Table.has_iff _).mpr hm)⟩
  by_cases hd : g.1 = date
  · right
    rw [decide_eq_true hd, if_pos rfl]
    refine ⟨hd, g.2, ?_, rfl⟩
    rcases hg with hg | ⟨rfl, hn⟩
    · exact Or.inr (hd ▸ hg)
    · exact Or.inl ⟨rfl, hn⟩
  · left
    rw [decide_eq_false hd, if_neg (by simp)]
    rcases hg with hg | ⟨rfl, -⟩
    · exact ⟨hd, hg⟩
    · exact absurd rfl hd

theorem keys_appendLine (logs : List (Text × Text)) (date line : Text) :
    (VisitLog.appendLine logs date line).map Prod.fst =
      (Table.insertOrIgnore Prod.fst (date, []) logs).1.map Prod.fst :=
  Table.keys_updateWhere _ _ _ _ fun _ => rfl

theorem entriesOf_snoc (date : Text) (invs : List Invocation) (inv : Invocation) :
    entriesOf date (invs ++ [inv]) =
      entriesOf date invs ++ if inv.todayISO = date then inv.entries else [] := by
  unfold entriesOf
  rw [List.filter_append, List.filter_singleton, List.flatMap_append]
  by_cases h : inv.todayISO = date <;> simp [h]

theorem content_append (es fs : List Entry) : content (es ++ fs) = content es ++ content fs := by
  simp [content]

/-- **Step.** A successful invocation adds its two entries to the log of its date. -/
theorem LogsOf.step {invs : List Invocation} {logs : List (Text × Text)} (h : LogsOf invs logs)
    {inv : Invocation}
    (hs : inv.Succeeds) (hi : looksLikeUuid inv.recordId = true) :
    LogsOf (invs ++ [inv]) (VisitLog.appendLine (VisitLog.appendLine logs inv.todayISO
      (VisitLog.actionLine inv.recordId inv.message.request)) inv.todayISO
      (VisitLog.resultLine inv.recordId (ascii "success"))) := by
  have hdate : inv.todayISO ∈ (Table.insertOrIgnore Prod.fst (inv.todayISO, ([] : Text)) logs).1.map Prod.fst :=
    (Table.mem_keys_insertOrIgnore _).mpr (Or.inr rfl)
  have hkeys : ∀ l l', (VisitLog.appendLine
    (VisitLog.appendLine logs inv.todayISO l) inv.todayISO l').map Prod.fst =
      (Table.insertOrIgnore Prod.fst (inv.todayISO, ([] : Text)) logs).1.map Prod.fst := by
    intro l l'
    rw [keys_appendLine, Table.keys_insertOrIgnore, keys_appendLine, if_pos hdate]
  refine ⟨?_, fun d => ?_, fun f hf => ?_⟩
  · rw [hkeys]; exact Table.nodup_insertOrIgnore _ h.nodup
  · rw [hkeys, Table.mem_keys_insertOrIgnore, h.dates]
    simp [or_and_right, exists_or, eq_comm]
  · rw [entriesOf_snoc, content_append]
    rcases mem_appendLine hf with ⟨hne, hf⟩ | ⟨heq, c, hc, hf⟩
    · rcases mem_appendLine hf with ⟨-, hf⟩ | ⟨heq, -⟩
      · rw [h.text f hf, if_neg (Ne.symm hne), show content [] = [] from rfl, List.append_nil]
      · exact absurd heq hne
    · have hold : ∃ c', c = c' ++ VisitLog.actionLine inv.recordId inv.message.request ++ [nl] ∧
          c' = content (entriesOf inv.todayISO invs) := by
        rcases hc with ⟨-, hn⟩ | hc
        · exact absurd (by rw [keys_appendLine]; exact hdate) hn
        · rcases mem_appendLine hc with ⟨hne, -⟩ | ⟨-, c', hc', hcc⟩
          · exact absurd rfl hne
          · refine ⟨c', hcc, ?_⟩
            rcases hc' with ⟨rfl, hn⟩ | hc'
            · -- the first entries of their date
              have : entriesOf inv.todayISO invs = [] := by
                have : invs.filter (fun x => x.todayISO = inv.todayISO) = [] := by
                  rw [List.filter_eq_nil_iff]
                  intro x hx hd
                  exact hn ((h.dates _).mpr ⟨x, hx, by simpa using hd⟩)
                rw [entriesOf, this]; rfl
              rw [this]; rfl
            · exact h.text _ hc'
      obtain ⟨c', rfl, rfl⟩ := hold
      rw [hf, if_pos heq.symm, heq, Entry.line_action hi hs.tag, Entry.line_result hi]
      have : tsvSanitise (ascii "success") = ascii "success" := by decide
      simp [content, Invocation.entries, this]

/-! ## Runs -/

/-- A run of successful write invocations, none with a CR LF pair in a field. -/
structure Run where
  downloads : Text
  invs : List Invocation
  succeeds : ∀ inv ∈ invs, inv.Succeeds
  uuid : ∀ inv ∈ invs, looksLikeUuid inv.recordId = true
  distinct : (invs.map Invocation.recordId).Nodup
  isDate : ∀ inv ∈ invs, IsDate inv.todayISO
  noCrLf : ∀ inv ∈ invs, ∀ f ∈ VisitLog.actionFields inv.recordId inv.message.request, NoCrLf f

def Run.final (r : Run) : State := run r.downloads r.invs

theorem run_snoc (downloads : Text) (invs : List Invocation) (inv : Invocation) :
    run downloads (invs ++ [inv]) = (handle downloads (run downloads invs) inv).1 := by
  simp [run, List.foldl_append]

theorem run_logs {invs : List Invocation} (hs : ∀ inv ∈ invs, inv.Succeeds)
    (hi : ∀ inv ∈ invs, looksLikeUuid inv.recordId = true) (downloads : Text) :
    LogsOf invs (run downloads invs).logs := by
  induction invs using List.reverseRecOn with
  | nil => exact ⟨List.nodup_nil, by simp [run], by simp [run]⟩
  | append_singleton invs inv ih =>
    have := (ih (fun x hx => hs x (by simp [hx])) fun x hx => hi x (by simp [hx])).step (hs inv (by simp))
      (hi inv (by simp))
    rwa [run_snoc, handle_succeeds (hs inv (by simp))]

theorem run_isOfInterest {invs : List Invocation} (hs : ∀ inv ∈ invs, inv.Succeeds) (downloads u : Text) :
    (run downloads invs).db.isOfInterest u = true ↔ ∃ inv ∈ invs, inv.Marks u := by
  induction invs using List.reverseRecOn with
  | nil => simp [run, Db.empty, Db.isOfInterest]
  | append_singleton invs inv ih =>
    rw [run_snoc, handle_succeeds (hs inv (by simp)), isOfInterest_committed (hs inv (by simp)),
      ih fun x hx => hs x (by simp [hx])]
    simp [or_and_right, exists_or]

/-! ## The log of a run -/

theorem mem_entriesOf {date : Text} {invs : List Invocation} {e : Entry} :
    e ∈ entriesOf date invs ↔ ∃ inv ∈ invs, inv.todayISO = date ∧ e ∈ inv.entries := by
  simp [entriesOf, and_assoc]

theorem entries_wf {inv : Invocation} (hs : inv.Succeeds) (hi : looksLikeUuid inv.recordId = true)
    (hc : ∀ f ∈ VisitLog.actionFields inv.recordId inv.message.request, NoCrLf f) :
      ∀ e ∈ inv.entries, e.Wf := by
  intro e he
  simp only [Invocation.entries, List.mem_cons, List.not_mem_nil, or_false] at he
  rcases he with rfl | rfl
  · exact Entry.wf_action hi hs.tag hc
  · exact Entry.wf_success hi

theorem filter_entriesOf {invs : List Invocation} (h : (invs.map Invocation.recordId).Nodup) {inv : Invocation}
    (hinv : inv ∈ invs) (date : Text) :
    (entriesOf date invs).filter (fun e => e.recordId = inv.recordId) =
      if inv.todayISO = date then inv.entries else [] := by
  have hone : ∀ x : Invocation, x.entries.filter (fun e => e.recordId = inv.recordId) =
      if x.recordId = inv.recordId then x.entries else [] := by
    intro x
    by_cases hx : x.recordId = inv.recordId <;> simp [Invocation.entries, Entry.recordId, hx]
  have hall : ∀ l : List Invocation, (entriesOf date l).filter (fun e => e.recordId = inv.recordId) =
      entriesOf date (l.filter fun x => x.recordId = inv.recordId) := by
    intro l
    induction l using List.reverseRecOn with
    | nil => rfl
    | append_singleton l x ih =>
      rw [entriesOf_snoc, List.filter_append, ih]
      by_cases hx : x.recordId = inv.recordId
      · have : (l ++ [x]).filter (fun x => x.recordId = inv.recordId) =
            l.filter (fun x => x.recordId = inv.recordId) ++ [x] := by simp [hx]
        rw [this, entriesOf_snoc]
        by_cases hd : x.todayISO = date <;> simp [hd, hone, hx]
      · have : (l ++ [x]).filter (fun x => x.recordId = inv.recordId) =
            l.filter (fun x => x.recordId = inv.recordId) := by simp [hx]
        rw [this]
        by_cases hd : x.todayISO = date <;> simp [hd, hone, hx]
  rw [hall, Table.filter_key _ h hinv]
  simpa [entriesOf] using entriesOf_snoc date [] inv

theorem flatMap_ite {α β : Type*} [DecidableEq α] {l : List α} (h : l.Nodup) {a : α} (ha : a ∈ l)
    (bs : List β) :
    l.flatMap (fun x => if a = x then bs else []) = bs := by
  have hf : ∀ l : List α, l.flatMap (fun x => if a = x then bs else []) =
    (l.filter fun x => x = a).flatMap fun _ => bs := by
    intro l
    induction l with
    | nil => rfl
    | cons x l ih =>
      rw [List.flatMap_cons, ih]
      by_cases hx : x = a
      · simp [hx]
      · simp [hx, Ne.symm hx]
  have := Table.filter_key id (by simpa using h) ha
  simp only [id] at this
  rw [hf, this]; simp

namespace Run

variable (r : Run)

theorem logsOf : LogsOf r.invs r.final.logs := run_logs r.succeeds r.uuid r.downloads

def dates : List Text := sortStrings (r.final.logs.map Prod.fst)

theorem mem_dates {d : Text} : d ∈ r.dates ↔ ∃ inv ∈ r.invs, inv.todayISO = d :=
  mem_sortStrings.trans (r.logsOf.dates d)

theorem mem_days {e : Entry} : e ∈ r.dates.flatMap (entriesOf · r.invs) ↔ ∃ inv ∈ r.invs, e ∈ inv.entries := by
  simp only [List.mem_flatMap, mem_entriesOf]
  constructor
  · rintro ⟨d, -, inv, hinv, -, he⟩; exact ⟨inv, hinv, he⟩
  · rintro ⟨inv, hinv, he⟩; exact ⟨_, r.mem_dates.mpr ⟨inv, hinv, rfl⟩, inv, hinv, rfl, he⟩

def log : MachineLog where
  days := r.dates.map fun d => (d, entriesOf d r.invs)
  isDate d hd := by
    obtain ⟨date, hdate, rfl⟩ := List.mem_map.mp hd
    obtain ⟨inv, hinv, rfl⟩ := r.mem_dates.mp hdate
    exact r.isDate inv hinv
  sorted := List.pairwise_map.mpr (sortStrings_strict r.logsOf.nodup)
  paired := by
    rw [List.flatMap_map]
    refine ⟨fun e he => ?_, fun e he => ?_⟩
    · obtain ⟨inv, hinv, he⟩ := r.mem_days.mp he
      exact entries_wf (r.succeeds inv hinv) (r.uuid inv hinv) (r.noCrLf inv hinv) e he
    · obtain ⟨inv, hinv, he⟩ := r.mem_days.mp he
      have hid : e.recordId = inv.recordId := by
        simp only [Invocation.entries, List.mem_cons, List.not_mem_nil, or_false] at he
        rcases he with rfl | rfl <;> rfl
      refine ⟨VisitLog.sanitised inv.message.request, ascii "success", ?_⟩
      have hnodup : r.dates.Nodup := (sortStrings_perm _).nodup_iff.mpr r.logsOf.nodup
      rw [hid, List.filter_flatMap]
      simp only [filter_entriesOf r.distinct hinv]
      exact flatMap_ite hnodup (r.mem_dates.mpr ⟨inv, hinv, rfl⟩) _

theorem log_dir {files : List (Text × Text)} (h : files.Perm r.final.logs) :
    (files.map fun f => (logFilename f.1, some f.2)).Perm r.log.dir := by
  have hlogs : r.final.logs = (r.final.logs.map Prod.fst).map fun d => (d, content (entriesOf d r.invs)) := by
    rw [List.map_map]
    conv_lhs => rw [← List.map_id r.final.logs]
    refine List.map_congr_left fun f hf => ?_
    simp only [Function.comp, id, ← r.logsOf.text f hf]
  have hdir : r.log.dir = (r.dates.map fun d => (d, content (entriesOf d r.invs))).map
      fun f => (logFilename f.1, some f.2) := by
    simp [MachineLog.dir, log]
  rw [hdir]
  refine (h.trans ?_).map _
  rw [hlogs]
  exact ((sortStrings_perm _).map _).symm

theorem mem_settled {a : Action} :
    a ∈ settled r.log.entries ↔ ∃ inv ∈ r.invs, a = VisitLog.sanitised inv.message.request := by
  have hentries : ∀ e, e ∈ r.log.entries ↔ ∃ inv ∈ r.invs, e ∈ inv.entries := by
    intro e
    rw [← r.mem_days, MachineLog.entries, log, List.flatMap_map]
  rw [VisitLogger.mem_settled]
  simp only [hentries, Invocation.entries, List.mem_cons, List.not_mem_nil, or_false, reduceCtorEq, false_or,
    Entry.action.injEq, Entry.result.injEq, and_true]
  constructor
  · rintro ⟨i, ⟨inv, hinv, -, ha⟩, -⟩; exact ⟨inv, hinv, ha⟩
  · rintro ⟨inv, hinv, ha⟩; exact ⟨_, ⟨inv, hinv, rfl, ha⟩, inv, hinv, rfl⟩

theorem lines_eq {files : List (Text × Text)} (h : files.Perm r.final.logs) :
    files.flatMap (fun f => fileLines f.2) = (files.flatMap fun f => entriesOf f.1 r.invs).map Entry.line := by
  rw [List.map_flatMap]
  refine List.flatMap_congr fun f hf => ?_
  rw [r.logsOf.text f (h.mem_iff.mp hf), fileLines_content]
  intro e he
  obtain ⟨inv, hinv, -, he⟩ := mem_entriesOf.mp he
  exact entries_wf (r.succeeds inv hinv) (r.uuid inv hinv) (r.noCrLf inv hinv) e he

theorem mem_files {files : List (Text × Text)} (h : files.Perm r.final.logs) {e : Entry} :
    e ∈ files.flatMap (fun f => entriesOf f.1 r.invs) ↔ ∃ inv ∈ r.invs, e ∈ inv.entries := by
  simp only [List.mem_flatMap, mem_entriesOf]
  constructor
  · rintro ⟨f, -, inv, hinv, -, he⟩; exact ⟨inv, hinv, he⟩
  · rintro ⟨inv, hinv, he⟩
    obtain ⟨f, hf, hd⟩ := List.mem_map.mp ((r.logsOf.dates inv.todayISO).mpr ⟨inv, hinv, rfl⟩)
    exact ⟨f, h.mem_iff.mpr hf, inv, hinv, hd.symm, he⟩

theorem mem_ofInterest {l : List Action}
    (h : ∀ a, a ∈ l ↔ ∃ inv ∈ r.invs, a = VisitLog.sanitised inv.message.request)
    {u : Text} : u ∈ (GrowOnly.total Action.effect l).2.1 ↔ ∃ inv ∈ r.invs, inv.LogsMark u := by
  rw [mem_total_ofInterest]
  constructor
  · rintro ⟨a, ha, ht, hu⟩
    obtain ⟨inv, hinv, rfl⟩ := (h a).mp ha
    exact ⟨inv, hinv, hu.symm, ht⟩
  · rintro ⟨inv, hinv, hu, ht⟩
    exact ⟨_, (h _).mpr ⟨inv, hinv, rfl⟩, ht, hu.symm⟩

/-- **A replica marks the URLs of the logged of_interest actions**, in each of the three ways. -/
theorem replica_isOfInterest {files : List (Text × Text)} (h : files.Perm r.final.logs) (directory u : Text) :
    ((VisitsRebuilder.replayLogs r.downloads (Db.empty r.downloads)
        (some (files.map fun f => (logFilename f.1, some f.2))) none).1.isOfInterest u = true ↔
      ∃ inv ∈ r.invs, inv.LogsMark u) ∧
    ((Store.replayLines (Db.empty directory) (files.flatMap fun f => fileLines f.2)).isOfInterest u = true ↔
      ∃ inv ∈ r.invs, inv.LogsMark u) ∧
    ((SyncClient.replayLines (Db.empty directory) (files.flatMap fun f =>
      fileLines f.2)).isOfInterest u = true ↔
      ∃ inv ∈ r.invs, inv.LogsMark u) := by
  have hset : ∀ db : Db, db.isOfInterest u = true ↔ u ∈ db.view.2.1 := fun _ => Iff.rfl
  have hwf : ∀ e ∈ files.flatMap (fun f => entriesOf f.1 r.invs), e.Wf := by
    intro e he
    obtain ⟨inv, hinv, he⟩ := (r.mem_files h).mp he
    exact entries_wf (r.succeeds inv hinv) (r.uuid inv hinv) (r.noCrLf inv hinv) e he
  have hact : ∀ a, a ∈ actions (files.flatMap fun f => entriesOf f.1 r.invs) ↔
      ∃ inv ∈ r.invs, a = VisitLog.sanitised inv.message.request := by
    intro a
    simp only [mem_actions, r.mem_files h, Invocation.entries, List.mem_cons, List.not_mem_nil, or_false,
      reduceCtorEq, Entry.action.injEq]
    constructor
    · rintro ⟨i, inv, hinv, -, ha⟩; exact ⟨inv, hinv, ha⟩
    · rintro ⟨inv, hinv, ha⟩; exact ⟨_, inv, hinv, rfl, ha⟩
  refine ⟨?_, ?_, ?_⟩
  · rw [hset, (VisitsRebuilder.replayLogs_log r.log (r.log_dir h) r.downloads r.downloads).1]
    exact r.mem_ofInterest fun a => r.mem_settled
  · rw [hset, r.lines_eq h, (view_replayLines hwf directory).1]
    exact r.mem_ofInterest hact
  · rw [hset, r.lines_eq h, (view_replayLines hwf directory).2]
    exact r.mem_ofInterest hact

end Run

/-- **The replicas show the live of_interest state exactly when the log lines
carry every mark**: the URLs marked live are those of the logged of_interest
actions. -/
theorem of_interest_agrees_iff (r : Run) {files : List (Text × Text)} (h : files.Perm r.final.logs)
    (vmDirectory peerDirectory : Text) :
    (∀ u,
        (VisitsRebuilder.replayLogs r.downloads (Db.empty r.downloads)
          (some (files.map fun f => (logFilename f.1, some f.2))) none).1.isOfInterest u =
            r.final.db.isOfInterest u ∧
        (Store.replayLines (Db.empty vmDirectory) (files.flatMap fun f => fileLines f.2)).isOfInterest u =
          r.final.db.isOfInterest u ∧
        (SyncClient.replayLines (Db.empty peerDirectory) (files.flatMap fun f =>
          fileLines f.2)).isOfInterest u =
          r.final.db.isOfInterest u) ↔
      ∀ u, (∃ inv ∈ r.invs, inv.Marks u) ↔ ∃ inv ∈ r.invs, inv.LogsMark u := by
  refine forall_congr' fun u => ?_
  have hlive : r.final.db.isOfInterest u = true ↔ ∃ inv ∈ r.invs, inv.Marks u :=
    run_isOfInterest r.succeeds r.downloads u
  obtain ⟨hr, hv, -⟩ := r.replica_isOfInterest h vmDirectory u
  obtain ⟨-, -, hp⟩ := r.replica_isOfInterest h peerDirectory u
  have heq : ∀ {a : Bool}, (a = true ↔ ∃ inv ∈ r.invs, inv.LogsMark u) → (a = r.final.db.isOfInterest u ↔
      ((∃ inv ∈ r.invs, inv.LogsMark u) ↔ ∃ inv ∈ r.invs, inv.Marks u)) :=
    fun ha => Bool.eq_iff_iff.trans (iff_congr ha hlive)
  refine (and_congr (heq hr) (and_congr (heq hv) (heq hp))).trans ?_
  rw [and_self, and_self]
  exact Iff.comm

def readOfInterest : Invocation where
  recordId := ascii "0123456789abcdef0123456789abcdef"
  todayISO := ascii "2024-05-01"
  message := ⟨[], ascii "https://a.example/", ascii "2024-05-01T12:00:00Z", ascii "A", ascii "read", [], true⟩
  faults := {}
  moved := none

def readOfInterestRun : Run where
  downloads := []
  invs := [readOfInterest]
  succeeds inv h := by
    rw [List.mem_singleton.mp h]
    exact ⟨by decide, by decide, by decide, by decide, rfl⟩
  uuid inv h := by rw [List.mem_singleton.mp h]; decide
  distinct := by decide
  isDate inv h := by rw [List.mem_singleton.mp h]; decide
  noCrLf inv h := by rw [List.mem_singleton.mp h]; decide

set_option maxRecDepth 8000 in
/-- The live database marks it, no replica does. -/
theorem ofInterest_lost :
    let logs := readOfInterestRun.final.logs
    let u := ascii "https://a.example/"
    readOfInterestRun.final.db.isOfInterest u = true ∧
      (VisitsRebuilder.replayLogs [] (Db.empty [])
        (some (logs.map fun f => (logFilename f.1, some f.2))) none).1.isOfInterest
        u = false ∧
      (Store.replayLines (Db.empty []) (logs.flatMap fun f => fileLines f.2)).isOfInterest u = false ∧
      (SyncClient.replayLines (Db.empty []) (logs.flatMap fun f => fileLines f.2)).isOfInterest u = false := by
  decide

theorem of_interest_agrees_iff_readOfInterest :
    ¬∀ u,
      (VisitsRebuilder.replayLogs [] (Db.empty [])
          (some (readOfInterestRun.final.logs.map fun f =>
            (logFilename f.1, some f.2))) none).1.isOfInterest u =
        readOfInterestRun.final.db.isOfInterest u ∧
      (Store.replayLines (Db.empty []) (readOfInterestRun.final.logs.flatMap fun f =>
        fileLines f.2)).isOfInterest u =
        readOfInterestRun.final.db.isOfInterest u ∧
      (SyncClient.replayLines (Db.empty [])
          (readOfInterestRun.final.logs.flatMap fun f => fileLines f.2)).isOfInterest u =
        readOfInterestRun.final.db.isOfInterest u := by
  intro h
  have := (of_interest_agrees_iff readOfInterestRun (List.Perm.refl _) [] []).mp h (ascii "https://a.example/")
  obtain ⟨inv, hinv, -, ht⟩ := this.mp ⟨readOfInterest, List.mem_singleton_self _, by decide,
    Or.inr (by decide)⟩
  rw [List.mem_singleton.mp hinv] at ht
  exact absurd ht (by decide)

end BVLHost

end VisitLogger
