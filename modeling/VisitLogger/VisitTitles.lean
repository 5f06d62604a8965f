import VisitLogger.BackgroundSound

/-!
# The titles of the visits

A visit that waits takes the next title of its tab. When the page that the tab
went on to had a title at once, the visit is left waiting and takes a later title
of that page (`titles_wrong`). In the runs in which a visit takes a title only
from a page with its URL, each message has a title of its page, or its URL
(`titles_right`).
-/

namespace VisitLogger

namespace Background

/-! ## Titles that were reported -/

/-- The title was reported for a page with that URL. -/
def ReportedFor (navigations : List Navigation) (url title : Text) : Prop :=
  ∃ v ∈ navigations, v.url = url ∧ v.Reported title

/-- Each message has a title of a page with its URL, or its URL. -/
def TitlesRight (s : Visits) : Prop := ∀ m ∈ s.sent, m.title = m.url ∨ ReportedFor s.navigations m.url m.title

namespace Visits

variable {hostname : Text → Option Text} {s s' : Visits} {tabId : Nat} {e : Entry} {title : Text}

theorem reportedFor_keeps {l l' : List Navigation} {url : Text} (hk : Keeps l l')
    (h : ReportedFor l url title) :
    ReportedFor l' url title := by
  obtain ⟨v, hv, hu, hr⟩ := h
  obtain ⟨n, hn⟩ := List.getElem?_of_mem hv
  obtain ⟨v', hv', hkept⟩ := hk n v hn
  exact ⟨v', List.mem_of_getElem? hv', hkept.url.trans hu, hkept.reported hr⟩

theorem titlesRight_keeps (h : TitlesRight s) (hk : Keeps s.navigations s'.navigations)
    (hs : s'.sent = s.sent) :
    TitlesRight s' := by
  intro m hm
  rw [hs] at hm
  exact (h m hm).imp_right (reportedFor_keeps hk)

theorem titlesRight_send {m : Message} (h : TitlesRight s)
    (hm : m.title = m.url ∨ ReportedFor s.navigations m.url m.title) :
    TitlesRight (s.send m) := by
  intro m' hm'
  rcases List.mem_append.mp hm' with hm' | hm'
  · exact h m' hm'
  · obtain rfl := List.mem_singleton.mp hm'
    exact hm

theorem titlesRight_flushes (h : TitlesRight s) (hf : Flushes s s' tabId e title)
    (ht : title = e.url ∨ ReportedFor s.navigations e.url title) : TitlesRight s' := by
  intro m hm
  rw [hf.sent] at hm
  rw [hf.navigations]
  rcases List.mem_append.mp hm with hm | hm
  · exact h m hm
  · obtain rfl := List.mem_singleton.mp hm
    exact ht

def currentUrl (s : Visits) (tabId : Nat) : Option Text :=
  (s.current tabId).bind fun n => s.navigations[n]?.map Navigation.url

theorem noteTitle_reportedFor {url : Text} (hu : s.currentUrl tabId = some url) (title : Text) :
    ReportedFor (s.noteTitle tabId title).navigations url title := by
  obtain ⟨n, hn, hu⟩ := Option.bind_eq_some_iff.mp hu
  obtain ⟨v, hv, hvu⟩ := Option.map_eq_some_iff.mp hu
  refine ⟨{ v with updates := v.updates ++ [title] }, List.mem_of_getElem? (i := n) ?_, hvu, Or.inr (by simp)⟩
  rw [noteTitle, hn]
  dsimp only
  rw [List.getElem?_modify_eq, hv]
  rfl

end Visits

/-! ## Runs -/

/-- A title that a visit takes is one of a page with its URL. -/
def OwnTitle (hostname : Text → Option Text) (s : State) : Act → Prop
  | .updated tabId title => ∀ e ∈ s.visits.pendingVisits.lookup tabId,
    title ≠ [] → Visits.isTitleMeaningful hostname title e.url = true → s.visits.currentUrl tabId = some e.url
  | _ => True

instance decidableOwnTitle (hostname : Text → Option Text) (s : State) : ∀ a, Decidable (OwnTitle hostname s a)
  | .updated tabId title => inferInstanceAs (Decidable (∀ e ∈ s.visits.pendingVisits.lookup tabId,
    title ≠ [] → Visits.isTitleMeaningful hostname title e.url = true → s.visits.currentUrl tabId = some e.url))
  | .navigate .. | .gotTab .. | .timeout _ | .activated .. | .refreshIcon .. | .queried .. | .retryDue _ =>
    inferInstanceAs (Decidable True)

variable {hostname : Text → Option Text} {s s' : State}

theorem noteTitle_rest (s : Visits) (tabId : Nat) (title : Text) :
    (s.noteTitle tabId title).pendingVisits = s.pendingVisits ∧ (s.noteTitle tabId title).sent = s.sent := by
  unfold Visits.noteTitle
  split <;> exact ⟨rfl, rfl⟩

theorem titlesRight_updated {tabId : Nat} {title : Text} (h : TitlesRight s.visits)
    (ho : OwnTitle hostname s (.updated tabId title)) :
    TitlesRight ((s.visits.noteTitle tabId title).onUpdated hostname tabId title) := by
  obtain ⟨hp, hs⟩ := noteTitle_rest s.visits tabId title
  have hn : TitlesRight (s.visits.noteTitle tabId title) :=
    Visits.titlesRight_keeps h (Visits.keeps_noteTitle _ _ _) hs
  rcases Visits.onUpdated_cases hostname (s.visits.noteTitle tabId title) tabId title with he | ⟨e, he, hm, hf⟩
  · rw [he]
    exact hn
  · rw [hp] at he
    have hne : title ≠ [] := by
      rintro rfl
      cases hm
    exact Visits.titlesRight_flushes hn hf (Or.inr (Visits.noteTitle_reportedFor (ho e he hne hm) title))

/-- A timeout sends the URL: the title that the visit waits with is not one. -/
theorem titlesRight_timeout {visits : Visits} {timerId : Nat} (h : TitlesRight s.visits)
    (hi : Visits.Inv hostname none s.visits) (hs : s.visits.timeout hostname timerId = some visits) :
    TitlesRight visits := by
  obtain ⟨tabId, e, he, hf⟩ := hi.timeout hs
  obtain ⟨v, -, -, -, hu, hp⟩ := hi.parked tabId e he
  have hm : Visits.isTitleMeaningful hostname e.title e.url = false := hu ▸ hp.2
  rw [hm] at hf
  exact Visits.titlesRight_flushes h hf (Or.inl rfl)

theorem titlesRight_gotTab {visits : Visits} {n : Nat} {title : Option Text} (h : TitlesRight s.visits)
    (hs : s.visits.gotTab hostname n title = some visits) : TitlesRight visits := by
  obtain ⟨v, hv, hr, ⟨rfl, rfl⟩ | ⟨t, rfl, ⟨hm, rfl⟩ | ⟨hm, rfl⟩⟩⟩ := Visits.gotTab_cases hs
  · exact Visits.titlesRight_keeps h (Visits.keeps_answer hv hr _) rfl
  · have ha : TitlesRight { s.visits with navigations := s.visits.answer n (some t) } :=
      Visits.titlesRight_keeps h (Visits.keeps_answer hv hr _) rfl
    exact Visits.titlesRight_send ha
      (Or.inr ⟨_, List.mem_of_getElem? (Visits.answer_self hv _), rfl, Or.inl rfl⟩)
  · exact Visits.titlesRight_keeps h (Visits.keeps_answer hv hr _) rfl

theorem titlesRight_step {a : Act} (h : TitlesRight s.visits) (hi : Visits.Inv hostname none s.visits)
    (ho : OwnTitle hostname s a) (hs : s' ∈ step hostname s a) : TitlesRight s'.visits := by
  cases a with
  | navigate frameId tabId url timestamp =>
    rw [step] at hs
    split at hs
    · cases hs
      exact h
    · cases hs
      exact Visits.titlesRight_keeps h (Visits.keeps_navigate _ _ _ _) rfl
  | gotTab n title =>
    obtain ⟨visits, hv, rfl⟩ := Option.map_eq_some_iff.mp hs
    exact titlesRight_gotTab h hv
  | updated tabId title =>
    cases hs
    exact titlesRight_updated h ho
  | timeout timerId =>
    obtain ⟨visits, hv, rfl⟩ := Option.map_eq_some_iff.mp hs
    exact titlesRight_timeout h hi hv
  | activated tabId url =>
    cases hs
    exact h
  | refreshIcon tabId url =>
    cases hs
    exact h
  | queried n response =>
    obtain ⟨icons, -, rfl⟩ := Option.map_eq_some_iff.mp hs
    exact h
  | retryDue n =>
    obtain ⟨icons, -, rfl⟩ := Option.map_eq_some_iff.mp hs
    exact h

/-- **A visit has a title of its page.** In the runs in which a visit takes a title
only from a page with its URL. -/
theorem titles_right (hostname : Text → Option Text) (acts : List Act) (s : State)
    (ho : Runs.Obeys (step hostname) (OwnTitle hostname) State.init acts)
    (hr : Runs.run (step hostname) State.init acts = some s) :
    ∀ m ∈ s.visits.sent, m.title = m.url ∨ ∃ v ∈ s.visits.navigations, v.url = m.url ∧ v.Reported m.title := by
  have hinit : TitlesRight State.init.visits := by
    intro m hm
    cases hm
  have hstep : ∀ t a t', (TitlesRight t.visits ∧ Visits.Inv hostname none t.visits) → OwnTitle hostname t a →
      t' ∈ step hostname t a → TitlesRight t'.visits ∧ Visits.Inv hostname none t'.visits :=
    fun t a t' ht hal hs => ⟨titlesRight_step ht.1 ht.2 hal hs, visits_step ht.2 hs⟩
  exact (Runs.run_invariant hstep ⟨hinit, Visits.inv_init hostname⟩ ho hr).1

theorem titles_right_two_pages : ∃ s, Runs.run (step hostOf) State.init twoPages = some s ∧
    ∀ m ∈ s.visits.sent, m.title = m.url ∨ ∃ v ∈ s.visits.navigations, v.url = m.url ∧ v.Reported m.title :=
  ⟨_, rfl, titles_right hostOf twoPages _ (by decide) rfl⟩

def lateTitle : List Act :=
  [.navigate 0 1 (ascii "https://a.example/") (ascii "10:00"), .gotTab 0 (some []),
    .navigate 0 1 (ascii "https://b.example/") (ascii "10:01"), .gotTab 1 (some (ascii "B")),
      .updated 1 (ascii "(1) B")]

/-- The first page is logged with the title of the second. -/
theorem titles_wrong : ¬ ∀ (hostname : Text → Option Text) (acts : List Act) (s : State),
    Runs.run (step hostname) State.init acts = some s →
    ∀ m ∈ s.visits.sent, m.title = m.url ∨ ∃ v ∈ s.visits.navigations, v.url = m.url ∧ v.Reported m.title := by
  intro h
  have hm := h hostOf lateTitle _ rfl ⟨0, ascii "10:00", ascii "https://a.example/", ascii "(1) B"⟩ (by decide)
  exact absurd hm (by decide)

end Background

end VisitLogger
