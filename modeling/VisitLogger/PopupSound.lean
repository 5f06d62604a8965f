import VisitLogger.Popup

/-!
# What a click leaves behind

However the callbacks, the downloads, the host and the other writers interleave,
and whatever fails, there is at most one click under way, its write is sent at
most once, and a popup that closes itself has its page marked and its event
recorded (`tagged`).
-/

namespace VisitLogger

open BVLHost

namespace Arrival

variable {db : Db} {u : Text}

/-- **What is marked stays marked.** -/
theorem isOfInterest_receive (a : Arrival) (downloads : Text) (h : db.isOfInterest u = true) :
    (a.receive downloads db).isOfInterest u = true := by
  rw [Db.isOfInterest_congr (congrArg Prod.fst (a.rows_asks downloads rfl)), Db.isOfInterest_ops]
  exact Or.inl h

/-- **What is recorded stays recorded.** -/
theorem keys_receive (a : Arrival) (downloads : Text) {t : EventsTable} {k : Text × Text} (h : k ∈ db.keys t) :
    k ∈ (a.receive downloads db).keys t := by
  have hkeys : (a.receive downloads db).keys t = (db.ops a.asks).keys t :=
    congrFun (congrArg Prod.snd (a.rows_asks downloads rfl)) t
  rw [hkeys, Db.keys_ops]
  exact Or.inl h

end Arrival

namespace Popup

section
variable {cfg : Config} {db : Db} {s s' : State} {c : Click} {clicks : List (Tag × Text)}

def page (cfg : Config) : Text := cString (trim cfg.tab.url)

structure Recorded (cfg : Config) (db : Db) (c : Click) : Prop where
  marked : db.isOfInterest (page cfg) = true
  event : ∀ t, c.tag = .event t → (page cfg, cString (trim c.timestamp)) ∈ db.keys t

theorem Recorded.receive (h : Recorded cfg db c) (a : Arrival) : Recorded cfg (a.receive cfg.downloads db) c :=
  ⟨a.isOfInterest_receive _ h.marked, fun t ht => a.keys_receive _ (h.event t ht)⟩

theorem handle_db (inv : Invocation) : (handle cfg.downloads ⟨db, []⟩ inv).1.db =
    (Arrival.written inv).receive cfg.downloads db := rfl

/-- **A write that is answered `ok` is in the database.** -/
theorem handle_ok {downloads : Text} {inv : Invocation} (h : (handle downloads ⟨db, []⟩ inv).2 = .ok) :
    inv.Accepted ∧ inv.faults.db = none := by
  unfold handle at h
  split at h
  · split at h
    · cases h
    · cases hd : inv.faults.db <;> simp [hd] at h
  · rename_i hw
    unfold write at h
    dsimp only at h
    split at h
    · cases h
    · rename_i hu
      split at h
      · cases h
      · rename_i hts
        split at h
        · cases h
        · rename_i ht
          dsimp only at h
          split at h
          · rename_i he
            refine ⟨⟨hw, hu, hts, by_contra fun hc => ht (not_or.mp hc)⟩, ?_⟩
            have hd := (List.append_eq_nil_iff.mp he).2
            cases hd' : inv.faults.db with
            | none => rfl
            | some f => obtain ⟨_ | _, e⟩ := f <;> simp [dbWrites, hd'] at hd
          · cases h

theorem handle_toAnswer {downloads : Text} {inv : Invocation} (hw : trim inv.message.action ≠ ascii "query")
    (h : toAnswer (handle downloads ⟨db, []⟩ inv).2 = .ok) : (handle downloads ⟨db, []⟩ inv).2 = .ok := by
  rw [handle, if_neg hw] at h ⊢
  unfold write at h ⊢
  dsimp only at h ⊢
  split_ifs at h ⊢ <;> first | rfl | cases h

theorem trim_text (tag : Tag) : trim tag.text = tag.text := by
  cases tag with
  | ofInterest => decide
  | event t => cases t <;> decide

theorem recorded_of_ok {inv : Invocation} {filename : Text} (hm : inv.message = message cfg c filename)
    (hc : ∀ t, c.tag = .event t → c.alsoOfInterest = true ∨ db.isOfInterest (page cfg) = true)
    (h : (handle cfg.downloads ⟨db, []⟩ inv).2 = .ok) :
    Recorded cfg (handle cfg.downloads ⟨db, []⟩ inv).1.db c := by
  have hok := handle_ok h
  have htag : inv.message.request.tag = c.tag.text := by
    rw [hm]
    exact trim_text c.tag
  have hurl : cString inv.message.request.url = page cfg := by rw [hm]; rfl
  have hts : cString inv.message.request.timestamp = cString (trim c.timestamp) := by rw [hm]; rfl
  have hops : (Arrival.written inv).asks =
      BVLHost.ops [] inv.message.request inv.message.alsoOfInterest := if_pos hok
  have hrows := (Arrival.written inv).rows_asks cfg.downloads (rfl : db.rows = db.rows)
  rw [hops] at hrows
  rw [handle_db]
  have hmark := Db.isOfInterest_congr (congrArg Prod.fst hrows) (page cfg)
  constructor
  · rw [hmark, Db.isOfInterest_ops]
    cases htag' : c.tag with
    | ofInterest =>
      right
      refine ⟨_, List.mem_cons_self, ?_, hurl⟩
      rw [htag'] at htag
      simp only [bound, Action.op, htag, Tag.text, if_true]
    | event t =>
      refine (hc t htag').symm.imp_right fun halso => ?_
      have hevent : isEventTag inv.message.request.tag = true := by
        rw [htag, htag']
        exact isEventTag_tag t
      have halso' : inv.message.alsoOfInterest = true := by
        rw [hm]
        exact halso
      rw [BVLHost.ops, halso', hevent]
      exact ⟨_, List.mem_cons_of_mem _ (List.mem_singleton.mpr rfl), rfl, hurl⟩
  · intro t ht
    have hkeys : ((Arrival.written inv).receive cfg.downloads db).keys t =
        (db.ops (BVLHost.ops [] inv.message.request inv.message.alsoOfInterest)).keys t :=
      congrFun (congrArg Prod.snd hrows) t
    rw [hkeys, Db.keys_ops]
    refine Or.inr ⟨_, List.mem_cons_self,
      ⟨cString (lastPathComponent inv.message.request.filename), [], ?_⟩, ?_⟩
    · rw [ht] at htag
      simp only [bound, Action.op, htag, Tag.text, t.tag_ne.2, if_false, EventsTable.forTag_tag]
    · exact Prod.ext hurl.symm hts.symm

/-! ## The invariant -/

def Request.unsent (r : Request) : Bool :=
  match r.stage with
  | .capture => true
  | .download _ => true
  | .watch _ _ => true
  | _ => false

def filename (cfg : Config) (c : Click) : Text :=
  match c.tag with
  | .ofInterest => []
  | .event _ => snapshotFilename cfg.sha256 cfg.tab.url c.timestamp

def Stage.Named (cfg : Config) (c : Click) : Stage → Prop
  | .capture => c.tag ≠ .ofInterest
  | .download f => f = filename cfg c
  | .watch f _ => f = filename cfg c
  | .native m => m = message cfg c (filename cfg c)
  | _ => True

structure Settled (cfg : Config) (db : Db) (sent : List Message) (c : Click) : Prop where
  recorded : Recorded cfg db c
  sent : message cfg c (filename cfg c) ∈ sent

structure Request.Sound (cfg : Config) (db : Db) (sent : List Message) (r : Request) : Prop where
  flag : ∀ t, r.click.tag = .event t → r.click.alsoOfInterest = true ∨ db.isOfInterest (page cfg) = true
  named : r.stage.Named cfg r.click
  native : ∀ m, r.stage = .native m → m ∈ sent
  ok : r.stage = .answer .ok ∨ r.stage = .refresh → Settled cfg db sent r.click

def asked (m : Message) : Text × Text × Text := (m.tag, m.timestamp, m.filename)

def Click.asked (cfg : Config) (c : Click) : Text × Text × Text := (c.tag.text, c.timestamp, filename cfg c)

structure Inv (cfg : Config) (clicks : List (Tag × Text)) (s : State) : Prop where
  one : s.requests.length ≤ 1
  idle : s.closed = false → (s.disabled = true ↔ s.requests ≠ [])
  already : s.alreadyOfInterest = true → s.db.isOfInterest (page cfg) = true
  sound : ∀ r ∈ s.requests, r.Sound cfg s.db s.sent
  done : ∀ c, s.done = some c → Settled cfg s.db s.sent c
  sent : (s.sent.map asked ++ (s.requests.filter Request.unsent).map fun r => r.click.asked cfg).Sublist
    (clicks.map fun k => Click.asked cfg ⟨k.1, k.2, false⟩)

theorem Inv.single (h : Inv cfg clicks s) {i : Nat} {r : Request} (hr : s.requests[i]? = some r) :
    s.requests = [r] ∧ i = 0 := by
  obtain ⟨hi, hr⟩ := List.getElem?_eq_some_iff.mp hr
  have hone := h.one
  obtain rfl : i = 0 := by omega
  obtain ⟨x, hx⟩ := List.length_eq_one_iff.mp (show s.requests.length = 1 by omega)
  refine ⟨?_, rfl⟩
  simp only [hx, List.getElem_cons_zero] at hr
  rw [hx, hr]

structure Grows (cfg : Config) (db db' : Db) : Prop where
  marked : db.isOfInterest (page cfg) = true → db'.isOfInterest (page cfg) = true
  keys : ∀ t, ∀ k ∈ db.keys t, k ∈ db'.keys t

theorem Grows.refl (cfg : Config) (db : Db) : Grows cfg db db := ⟨id, fun _ _ => id⟩

theorem grows_receive (a : Arrival) : Grows cfg db (a.receive cfg.downloads db) :=
  ⟨a.isOfInterest_receive _, fun _ _ => a.keys_receive _⟩

theorem Recorded.grows {db' : Db} (h : Recorded cfg db c) (hg : Grows cfg db db') : Recorded cfg db' c :=
  ⟨hg.marked h.marked, fun t ht => hg.keys t _ (h.event t ht)⟩

theorem Settled.grows {db' : Db} {sent sent' : List Message} (h : Settled cfg db sent c) (hg : Grows cfg db db')
    (hs : sent ⊆ sent') : Settled cfg db' sent' c :=
  ⟨h.recorded.grows hg, hs h.sent⟩

theorem Request.Sound.grows {r : Request} {db' : Db} {sent : List Message} (h : r.Sound cfg db sent)
    (hg : Grows cfg db db') : r.Sound cfg db' sent :=
  ⟨fun t ht => (h.flag t ht).imp_right hg.marked, h.named, h.native,
    fun hs => (h.ok hs).grows hg (List.Subset.refl _)⟩

theorem Inv.arrive (h : Inv cfg clicks s) {db' : Db} (hg : Grows cfg s.db db') :
    Inv cfg clicks { s with db := db' } :=
  ⟨h.one, h.idle, fun ha => hg.marked (h.already ha), fun r hr => (h.sound r hr).grows hg,
    fun c hc => (h.done c hc).grows hg (List.Subset.refl _), h.sent⟩

/-- **A request goes on to its next stage.** -/
theorem Inv.next (h : Inv cfg clicks s) {i : Nat} {r : Request} (hr : s.requests[i]? = some r) {stage : Stage}
    (hsound : Request.Sound cfg s.db s.sent { r with stage })
    (hunsent : Request.unsent { r with stage } = true → r.unsent = true) :
    Inv cfg clicks { s with requests := s.requests.set i { r with stage } } := by
  obtain ⟨hreqs, rfl⟩ := h.single hr
  have hsent := h.sent
  rw [hreqs] at hsent
  refine ⟨?_, fun hc => ?_, h.already, fun x hx => ?_, h.done, ?_⟩
  · simp [hreqs]
  · rw [h.idle hc]
    simp [hreqs]
  · simp only [hreqs, List.set_cons_zero, List.mem_singleton] at hx
    rw [hx]
    exact hsound
  · simp only [hreqs, List.set_cons_zero]
    refine List.Sublist.trans ?_ hsent
    refine (List.Sublist.refl _).append ?_
    by_cases hu : Request.unsent { r with stage } = true
    · simp [hu, hunsent hu]
    · simp [hu]

/-- **A request ends.** -/
theorem Inv.drop (h : Inv cfg clicks s) {i : Nat} {r : Request} (hr : s.requests[i]? = some r)
    {closed disabled : Bool}
    {status : Text} {done : Option Click} (hidle : closed = false → disabled = false)
    (hdone : ∀ c, done = some c → Settled cfg s.db s.sent c) :
    Inv cfg clicks { s with requests := s.requests.eraseIdx i, closed, disabled, status, done } := by
  obtain ⟨hreqs, rfl⟩ := h.single hr
  have hsent := h.sent
  refine ⟨?_, fun hc => ?_, h.already, fun x hx => ?_, hdone, ?_⟩
  · simp [hreqs]
  · simp [hreqs, hidle hc]
  · simp [hreqs] at hx
  · simp only [hreqs, List.eraseIdx_cons_zero, List.filter_nil, List.map_nil, List.append_nil]
    exact (List.sublist_append_left _ _).trans hsent

/-! ## Steps -/

theorem advance_eq {i : Nat} {f : Request → Option Stage} (h : advance s i f = some s') :
    ∃ r stage, s.requests[i]? = some r ∧ f r = some stage ∧
      s' = { s with requests := s.requests.set i { r with stage } } := by
  simp only [advance, Option.bind_eq_bind, Option.bind_eq_some_iff, Option.some.injEq] at h
  obtain ⟨r, hr, stage, hf, rfl⟩ := h
  exact ⟨r, stage, hr, hf, rfl⟩

theorem Inv.advance (h : Inv cfg clicks s) {i : Nat} {f : Request → Option Stage}
    (hf : ∀ r stage, f r = some stage →
      r.unsent = true ∧ Request.unsent { r with stage } = true ∧
        (r.stage.Named cfg r.click → stage.Named cfg r.click) ∨
        ∃ a, stage = .answer a ∧ a ≠ .ok)
    (hs : Popup.advance s i f = some s') : Inv cfg clicks s' := by
  obtain ⟨r, stage, hr, hstage, rfl⟩ := advance_eq hs
  have hold := h.sound r (List.mem_of_getElem? hr)
  rcases hf r stage hstage with ⟨hu, hu', hnamed⟩ | ⟨a, rfl, ha⟩
  · refine h.next hr ⟨hold.flag, hnamed hold.named, fun m hm => ?_, fun ho => ?_⟩ fun _ => hu
    · rw [show stage = .native m from hm] at hu'
      cases hu'
    · rcases ho with rfl | rfl <;> cases hu'
  · refine h.next hr ⟨hold.flag, trivial, nofun, fun ho => ?_⟩ (by simp [Request.unsent])
    rcases ho with ho | ho
    · exact absurd (Stage.answer.inj ho) ha
    · cases ho

theorem Inv.click (h : Inv cfg clicks s) {tag : Tag} {timestamp : Text} (hd : s.disabled = false)
    (hc : s.closed = false) : Inv cfg (clicks ++ [(tag, timestamp)]) (onClick cfg s tag timestamp) := by
  have hnone : s.requests = [] := by
    by_contra hne
    rw [(h.idle hc).mpr hne] at hd
    cases hd
  have hsent := h.sent
  rw [hnone] at hsent
  rw [List.filter_nil, List.map_nil, List.append_nil] at hsent
  have hmore := hsent.append (List.Sublist.refl [Click.asked cfg ⟨tag, timestamp, false⟩])
  cases tag with
  | ofInterest =>
    refine ⟨by simp [onClick, hnone], by simp [onClick], h.already, fun r hr => ?_,
      fun c hc => (h.done c hc).grows (Grows.refl cfg s.db) (List.subset_append_left _ _), ?_⟩
    · simp only [onClick, hnone, List.nil_append, List.mem_singleton] at hr
      rw [hr]
      refine ⟨nofun, rfl, fun m hm => ?_, fun ho => ?_⟩
      · obtain rfl := Stage.native.inj hm
        exact List.mem_append_right _ (List.mem_singleton.mpr rfl)
      rcases ho with ho | ho <;> cases ho
    · simp only [onClick, hnone, List.nil_append, List.map_append]
      rw [show List.filter Request.unsent [⟨⟨.ofInterest, timestamp, false⟩, .native _⟩] = [] from rfl,
        List.map_nil, List.append_nil]
      exact hmore
  | event t =>
    refine ⟨by simp [onClick, hnone], by simp [onClick], h.already, fun r hr => ?_, h.done, ?_⟩
    · simp only [onClick, hnone, List.nil_append, List.mem_singleton] at hr
      rw [hr]
      refine ⟨fun _ _ => ?_, nofun, nofun, fun ho => ?_⟩
      · cases halready : s.alreadyOfInterest with
        | true => exact Or.inr (h.already halready)
        | false => exact Or.inl rfl
      · rcases ho with ho | ho <;> cases ho
    · simp only [onClick, hnone, List.nil_append, List.map_append]
      exact hmore

theorem onChanged_cases (cfg : Config) (downloadId : Nat) (current : DownloadState) (r : Request) :
    onChanged cfg downloadId current r = (r, []) ∨
      (∃ a, a ≠ .ok ∧ onChanged cfg downloadId current r = ({ r with stage := .answer a }, [])) ∨
      ∃ filename d, r.stage = .watch filename d ∧ onChanged cfg downloadId current r =
        ({ r with stage := .native (message cfg r.click filename) }, [message cfg r.click filename]) := by
  unfold onChanged
  split
  · rename_i filename d hstage
    split
    · cases current with
      | complete => exact Or.inr (Or.inr ⟨filename, d, hstage, rfl⟩)
      | interrupted =>
        exact Or.inr (Or.inl ⟨.error (some (ascii "Snapshot download was interrupted")), nofun, rfl⟩)
      | inProgress => exact Or.inl rfl
    · exact Or.inl rfl
  · exact Or.inl rfl

theorem Inv.changed (h : Inv cfg clicks s) (downloadId : Nat) (current : DownloadState) :
    Inv cfg clicks { s with
      requests := (s.requests.map (onChanged cfg downloadId current)).map Prod.fst
      sent := s.sent ++ (s.requests.map (onChanged cfg downloadId current)).flatMap Prod.snd } := by
  rcases hreqs : s.requests with _ | ⟨r, _ | ⟨r', rs⟩⟩
  · rw [List.map_nil, List.map_nil, List.flatMap_nil, List.append_nil, ← hreqs]
    exact h
  · have hsent := h.sent
    have hsound := h.sound r (by simp [hreqs])
    simp only [List.map_cons, List.map_nil, List.flatMap_cons, List.flatMap_nil, List.append_nil]
    rcases onChanged_cases cfg downloadId current r with hr | ⟨a, ha, hr⟩ | ⟨f, d, hstage, hr⟩
    · rw [hr, List.append_nil, ← hreqs]
      exact h
    · rw [hr, List.append_nil]
      have hnext : Inv cfg clicks { s with requests := s.requests.set 0 { r with stage := .answer a } } := by
        refine h.next (by rw [hreqs]; rfl) ⟨hsound.flag, trivial, nofun,
          fun ho => ?_⟩ (by simp [Request.unsent])
        rcases ho with ho | ho
        · exact absurd (Stage.answer.inj ho) ha
        · cases ho
      rwa [hreqs] at hnext
    · -- the write of the click is sent now
      have hnamed : f = filename cfg r.click := by
        have hn := hsound.named
        rwa [hstage] at hn
      rw [hr]
      refine ⟨by simp, fun hc => ?_, h.already, fun x hx => ?_,
        fun c hc => (h.done c hc).grows (Grows.refl cfg s.db) (List.subset_append_left _ _), ?_⟩
      · rw [h.idle hc, hreqs]
        simp
      · obtain rfl := List.mem_singleton.mp hx
        refine ⟨hsound.flag, congrArg _ hnamed, fun m hm => ?_, fun ho => ?_⟩
        · obtain rfl := Stage.native.inj hm
          exact List.mem_append_right _ (List.mem_singleton.mpr rfl)
        · rcases ho with ho | ho <;> cases ho
      · rw [hreqs] at hsent
        have hu : r.unsent = true := by rw [Request.unsent, hstage]
        rw [List.filter_cons_of_pos hu] at hsent
        subst hnamed
        simp only [List.map_append]
        rw [show List.filter Request.unsent [⟨r.click, .native _⟩] = [] from rfl, List.map_nil, List.append_nil]
        exact hsent
  · have hone := h.one
    rw [hreqs] at hone
    simp at hone

theorem Inv.answered (h : Inv cfg clicks s) {i : Nat} {r : Request} {a : Answer} (hr : s.requests[i]? = some r)
    (ha : r.stage = .answer a) : Inv cfg clicks (onAnswer s i r a) := by
  have hold := h.sound r (List.mem_of_getElem? hr)
  unfold onAnswer
  split
  · rename_i hclosed
    exact h.drop hr (fun hc => absurd hclosed (by rw [hc]; nofun)) h.done
  · split
    · rename_i hok
      rw [hok] at ha
      exact h.next hr ⟨hold.flag, trivial, nofun, fun _ => hold.ok (Or.inl ha)⟩ (by simp [Request.unsent])
    · exact h.drop hr (fun _ => rfl) h.done

theorem Inv.handled (h : Inv cfg clicks s) {i : Nat} {r : Request} {inv : Invocation}
    (hr : s.requests[i]? = some r) (hstage : r.stage = .native inv.message) :
    let e := handle cfg.downloads ⟨s.db, []⟩ inv
    Inv cfg clicks { s with
      db := e.1.db
      requests := s.requests.set i { r with stage := .answer (toAnswer e.2) } } := by
  intro e
  have hold := h.sound r (List.mem_of_getElem? hr)
  have hgrows : Grows cfg s.db (handle cfg.downloads ⟨s.db, []⟩ inv).1.db := grows_receive (.written inv)
  refine (h.arrive hgrows).next hr ⟨(hold.grows hgrows).flag, trivial, nofun,
    fun ho => ?_⟩ (by simp [Request.unsent])
  have hm : inv.message = message cfg r.click (filename cfg r.click) := by
    have hn := hold.named
    rwa [hstage] at hn
  refine ⟨recorded_of_ok hm hold.flag ?_, hm ▸ hold.native _ hstage⟩
  rcases ho with ho | ho
  · have hwrite : trim inv.message.action ≠ ascii "query" := by
      rw [hm]
      exact show trim [] ≠ ascii "query" by decide
    exact handle_toAnswer hwrite (Stage.answer.inj ho)
  · cases ho

/-- The host's reply to a click is lost, whether it has handled the write or not. -/
theorem Inv.unhandled (h : Inv cfg clicks s) {i : Nat} {r : Request} {inv : Option Invocation} {m : Text}
    (hr : s.requests[i]? = some r) :
    Inv cfg clicks { s with
      db := (inv.map fun x => (handle cfg.downloads ⟨s.db, []⟩ x).1.db).getD s.db
      requests := s.requests.set i { r with stage := .answer (lost r.click m) } } := by
  have hold := h.sound r (List.mem_of_getElem? hr)
  have hgrows : Grows cfg s.db ((inv.map fun x => (handle cfg.downloads ⟨s.db, []⟩ x).1.db).getD s.db) := by
    cases inv with
    | none => exact Grows.refl cfg s.db
    | some x => exact grows_receive (.written x)
  refine (h.arrive hgrows).next hr ⟨(hold.grows hgrows).flag, trivial, nofun,
    fun ho => ?_⟩ (by simp [Request.unsent])
  rcases ho with ho | ho
  · cases hc : r.click.tag <;> simp [lost, hc] at ho
  · cases ho

theorem Inv.refreshed (h : Inv cfg clicks s) {i : Nat} {r : Request} (hr : s.requests[i]? = some r)
    (hstage : r.stage = .refresh) :
    Inv cfg clicks (if s.closed then { s with requests := s.requests.eraseIdx i }
      else { s with requests := s.requests.eraseIdx i, closed := true, done := some r.click }) := by
  have hold := h.sound r (List.mem_of_getElem? hr)
  split
  · rename_i hclosed
    exact h.drop hr (fun hc => absurd hclosed (by rw [hc]; nofun)) h.done
  · refine h.drop hr nofun fun c hc => ?_
    rw [← Option.some.inj hc]
    exact hold.ok (Or.inr hstage)

theorem queried_marked {inv : Invocation} (hm : inv.message = queryMessage cfg)
    (h : isMarked (handle cfg.downloads ⟨db, []⟩ inv).2 = true) : db.isOfInterest (page cfg) = true := by
  have hquery : trim inv.message.action = ascii "query" := by
    rw [hm]
    exact show trim (ascii "query") = ascii "query" by decide
  rw [handle, if_pos hquery] at h
  split at h
  · cases h
  · split at h
    · cases h
    · cases hv : db.visits.find? fun v => v.url = cString (trim inv.message.url) with
      | none =>
        rw [query, hv] at h
        cases h
      | some v =>
        rw [query, hv] at h
        rw [Db.isOfInterest, List.any_eq_true]
        refine ⟨v, List.mem_of_find?_eq_some hv, ?_⟩
        have hu := List.find?_some hv
        rw [hm] at hu
        exact Bool.and_eq_true_iff.mpr ⟨hu, h⟩

def clickOf : Act → List (Tag × Text)
  | .click tag timestamp => [(tag, timestamp)]
  | _ => []

theorem Inv.quiet (h : Inv cfg clicks s) : Inv cfg (clicks ++ []) s := by
  rwa [List.append_nil]

theorem Inv.step (h : Inv cfg clicks s) {a : Act} (hs : Popup.step cfg s a = some s') :
    Inv cfg (clicks ++ clickOf a) s' := by
  cases a with
  | arrive a =>
    obtain rfl := Option.some.inj hs
    exact (h.arrive (grows_receive a)).quiet
  | queried inv =>
    simp only [Popup.step, Option.ite_none_right_eq_some, Option.some.injEq] at hs
    obtain ⟨⟨-, hm⟩, rfl⟩ := hs
    -- the query is an invocation too, and its answer holds of the rows that it leaves
    have hgrows : Grows cfg s.db (handle cfg.downloads ⟨s.db, []⟩ inv).1.db := grows_receive (.written inv)
    have harrive := h.arrive hgrows
    have hinv : Inv cfg clicks { s with
        db := (handle cfg.downloads ⟨s.db, []⟩ inv).1.db
        ready := true
        alreadyOfInterest := isMarked (handle cfg.downloads ⟨s.db, []⟩ inv).2 } :=
      ⟨harrive.one, harrive.idle, fun ha => hgrows.marked (queried_marked hm ha), harrive.sound, harrive.done,
        harrive.sent⟩
    exact hinv.quiet
  | queryFailed =>
    simp only [Popup.step, Option.ite_none_right_eq_some, Option.some.injEq] at hs
    obtain ⟨-, rfl⟩ := hs
    have hinv : Inv cfg clicks { s with ready := true } := ⟨h.one, h.idle, h.already, h.sound, h.done, h.sent⟩
    exact hinv.quiet
  | click tag timestamp =>
    simp only [Popup.step, Option.ite_none_right_eq_some, Option.some.injEq] at hs
    obtain ⟨⟨-, hd, hc⟩, rfl⟩ := hs
    exact h.click hd hc
  | captured i content =>
    refine (h.advance (fun r stage hf => ?_) hs).quiet
    rcases r with ⟨click, _ | _ | _ | _ | _ | _⟩ <;> rcases content with e | u <;> cases hf
    · exact Or.inr ⟨_, rfl, nofun⟩
    · -- only a tag other than of_interest has a file to name
      refine Or.inl ⟨rfl, rfl, fun hn => ?_⟩
      cases hc : click.tag with
      | ofInterest => exact absurd hc hn
      | event t => simp only [Stage.Named, filename, hc]
  | downloaded i downloadId =>
    refine (h.advance (fun r stage hf => ?_) hs).quiet
    rcases r with ⟨click, _ | _ | _ | _ | _ | _⟩ <;> rcases downloadId with e | d <;> cases hf
    · exact Or.inr ⟨_, rfl, nofun⟩
    · exact Or.inl ⟨rfl, rfl, id⟩
  | changed downloadId current =>
    obtain rfl := Option.some.inj hs
    exact (h.changed downloadId current).quiet
  | handled i inv =>
    simp only [Popup.step, Option.bind_eq_bind, Option.bind_eq_some_iff, Option.ite_none_right_eq_some,
      Option.some.injEq] at hs
    obtain ⟨r, hr, hstage, rfl⟩ := hs
    exact (h.handled hr hstage).quiet
  | unhandled i inv m =>
    simp only [Popup.step, Option.bind_eq_bind, Option.bind_eq_some_iff] at hs
    obtain ⟨r, hr, hs⟩ := hs
    split at hs
    · simp only [Option.ite_none_right_eq_some, Option.some.injEq] at hs
      obtain ⟨-, rfl⟩ := hs
      exact (h.unhandled hr).quiet
    · cases hs
  | portClosed i m =>
    refine (h.advance (fun r stage hf => ?_) hs).quiet
    split_ifs at hf
    refine Or.inr ⟨.lastError m, ?_, nofun⟩
    rcases r with ⟨click, _ | _ | _ | _ | _ | _⟩ <;> cases hf <;> rfl
  | answered i =>
    simp only [Popup.step, Option.bind_eq_bind, Option.bind_eq_some_iff] at hs
    obtain ⟨r, hr, hs⟩ := hs
    split at hs
    · rename_i ha
      obtain rfl := Option.some.inj hs
      exact (h.answered hr ha).quiet
    · cases hs
  | refreshed i =>
    simp only [Popup.step, Option.bind_eq_bind, Option.bind_eq_some_iff, Option.ite_none_right_eq_some,
      Option.some.injEq] at hs
    obtain ⟨r, hr, hstage, rfl⟩ := hs
    exact (h.refreshed hr hstage).quiet
  | dismiss =>
    simp only [Popup.step] at hs
    split_ifs at hs
    obtain rfl := Option.some.inj hs
    have hinv : Inv cfg clicks { s with closed := true } := ⟨h.one, nofun, h.already, h.sound, h.done, h.sent⟩
    exact hinv.quiet

theorem Inv.init (cfg : Config) (db : Db) : Inv cfg [] (State.init db) :=
  ⟨by simp [State.init], by simp [State.init], nofun, nofun, nofun, by simp [State.init]⟩

theorem Inv.run {acts : List Act} (hrun : Runs.run (Popup.step cfg) (State.init db) acts = some s) :
    Inv cfg (acts.flatMap clickOf) s := by
  have hobeys : Runs.Obeys (Popup.step cfg) (fun _ _ => True) (State.init db) acts :=
    Runs.obeys_of_forall (fun _ _ _ => trivial) _
  refine Runs.run_history (fun acts s => Inv cfg (acts.flatMap clickOf) s) (fun as s a s' _ hs _ hstep => ?_)
    (Inv.init cfg db) hobeys hrun
  rw [List.flatMap_append, List.flatMap_singleton]
  exact hs.step hstep

/-- **The popup over whole runs**: at most one click is under way, and the buttons
are disabled just as long; each click sends its write at most once, in order; and
a popup that has closed itself leaves its page marked and its event recorded. -/
theorem tagged {acts : List Act} (hrun : Runs.run (Popup.step cfg) (State.init db) acts = some s) :
    s.requests.length ≤ 1 ∧ (s.closed = false → (s.disabled = true ↔ s.requests ≠ [])) ∧
      (s.sent.map asked).Sublist ((acts.flatMap clickOf).map fun k => Click.asked cfg ⟨k.1, k.2, false⟩) ∧
      ∀ c, s.done = some c → Settled cfg s.db s.sent c := by
  have hinv := Inv.run hrun
  exact ⟨hinv.one, hinv.idle, (List.sublist_append_left _ _).trans hinv.sent, hinv.done⟩

/-! ## A run -/

def savedDigest : List Byte :=
  [102, 152, 12, 131, 2, 208, 41, 83, 86, 9, 54, 80, 69, 100, 208, 145, 129, 170, 82, 149, 68, 122, 198,
    108, 134, 5, 140, 120, 21, 109, 152, 0]

def savedConfig : Config := ⟨⟨ascii "https://a.org/", ascii "A"⟩, fun _ => savedDigest, ascii "/d"⟩

def savedClick : Click := ⟨.event .read, ascii "2026-04-30T14:35:22.123Z", true⟩

def savedWrite : Message :=
  message savedConfig savedClick (snapshotFilename savedConfig.sha256 savedConfig.tab.url savedClick.timestamp)

/-- A page is marked read. The first capture fails, and another download is
complete before the page's own. -/
def savedActs : List Act :=
  [.queryFailed, .click savedClick.tag savedClick.timestamp, .captured 0 (.error (ascii "no data")),
    .answered 0, .click savedClick.tag savedClick.timestamp, .captured 0 (.ok ()),
      .downloaded 0 (.ok 4), .changed 3 .complete,
    .changed 4 .inProgress, .changed 4 .complete,
      .handled 0 ⟨ascii "r", ascii "2026-04-30", savedWrite, {}, none⟩,
    .answered 0, .refreshed 0]

theorem tagged_saved : ∃ s, Runs.run (Popup.step savedConfig)
    (State.init (Db.empty (ascii "/d"))) savedActs = some s ∧
    s.closed = true ∧ Settled savedConfig s.db s.sent savedClick := by
  have hdone : ((Runs.run (Popup.step savedConfig) (State.init (Db.empty (ascii "/d"))) savedActs).map
      fun s => (s.closed, s.done)) = some (true, some savedClick) := by decide +kernel
  obtain ⟨s, hrun, hs⟩ := Option.map_eq_some_iff.mp hdone
  exact ⟨s, hrun, congrArg Prod.fst hs, (tagged hrun).2.2.2 _ (congrArg Prod.snd hs)⟩

end

end Popup

end VisitLogger
