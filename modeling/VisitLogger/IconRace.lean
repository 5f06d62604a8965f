import VisitLogger.BackgroundSound

/-!
# The icon of a tab

Each refresh sets the icon when its reply comes, whichever refreshes the tab had
in the meantime. A late reply for an earlier page therefore stays
(`icon_overwritten`); the icon is that of the page in the runs without one
(`icon_current`).
-/

namespace VisitLogger

namespace Background

/-! ## The latest refresh of a tab -/

def latest (refreshes : List Refresh) (tabId : Nat) : Option Refresh :=
  (refreshes.filter fun r => r.tabId = tabId).getLast?

/-- No refresh of the tab comes after number `n`. -/
def IsLast (refreshes : List Refresh) (n tabId : Nat) : Prop := ∀ r ∈ refreshes.drop (n + 1), r.tabId ≠ tabId

instance decidableIsLast (refreshes : List Refresh) (n tabId : Nat) : Decidable (IsLast refreshes n tabId) :=
  inferInstanceAs (Decidable (∀ r ∈ refreshes.drop (n + 1), r.tabId ≠ tabId))

variable {l : List Refresh} {n tabId : Nat} {r : Refresh}

theorem latest_split (before after : List Refresh) (r : Refresh) (tabId : Nat) :
    latest (before ++ r :: after) tabId =
      (latest after tabId).or (if r.tabId = tabId then some r else latest before tabId) := by
  unfold latest
  rw [List.filter_append, List.getLast?_append, List.filter_cons]
  by_cases hr : r.tabId = tabId
  · rw [if_pos hr, if_pos (decide_eq_true hr), List.getLast?_cons]
    cases (List.filter (fun r => decide (r.tabId = tabId)) after).getLast? <;> rfl
  · rw [if_neg hr, if_neg (by simp [hr])]

theorem latest_concat (l : List Refresh) (r : Refresh) (tabId : Nat) :
    latest (l ++ [r]) tabId = if r.tabId = tabId then some r else latest l tabId := by
  rw [latest_split]
  exact Option.none_or

theorem latest_eq_none (h : ∀ r ∈ l, r.tabId ≠ tabId) : latest l tabId = none := by
  rw [latest, List.filter_eq_nil_iff.mpr (by simpa using h), List.getLast?_nil]

theorem latest_ne_none (h : ¬ ∀ r ∈ l, r.tabId ≠ tabId) : ∃ r, latest l tabId = some r := by
  refine Option.ne_none_iff_exists'.mp fun hn => h fun r hr => ?_
  have := List.filter_eq_nil_iff.mp (List.getLast?_eq_none_iff.mp hn) r hr
  simpa using this

theorem eq_take_cons_drop (hn : l[n]? = some r) : l = l.take n ++ r :: l.drop (n + 1) := by
  obtain ⟨hlt, rfl⟩ := List.getElem?_eq_some_iff.mp hn
  rw [← List.drop_eq_getElem_cons hlt, List.take_append_drop]

theorem latest_modify (hn : l[n]? = some r) {f : Refresh → Refresh} (hf : (f r).tabId = r.tabId) (tabId : Nat) :
    latest (l.modify n f) tabId =
      if r.tabId = tabId ∧ IsLast l n tabId then some (f r) else latest l tabId := by
  obtain ⟨hlt, hr⟩ := List.getElem?_eq_some_iff.mp hn
  have hm : l.modify n f = l.take n ++ f r :: l.drop (n + 1) := by
    rw [List.modify_eq_take_cons_drop hlt, hr]
  rw [hm, latest_split, hf]
  conv => rhs; rw [eq_take_cons_drop hn, latest_split]
  rw [← eq_take_cons_drop hn]
  by_cases hl : IsLast l n tabId
  · rw [latest_eq_none hl]
    by_cases ht : r.tabId = tabId
    · rw [if_pos ht, if_pos ⟨ht, hl⟩, Option.none_or]
    · rw [if_neg ht, if_neg fun h => ht h.1, if_neg ht]
  · obtain ⟨r', hr'⟩ := latest_ne_none hl
    have hno : ¬ (r.tabId = tabId ∧ IsLast l n tabId) := fun h => hl h.2
    rw [if_neg hno, hr', Option.some_or, Option.some_or]

/-! ## The icon after the latest refresh -/

def Phase.isDone : Phase → Bool
  | .done _ => true
  | _ => false

/-- The icon of a tab whose latest refresh is done is the one that it set, or was
there before it. -/
def Fresh (s : Icons) : Prop :=
  ∀ tabId r color, latest s.refreshes tabId = some r → r.phase = .done color →
    s.icon.lookup tabId = color.or r.before

/-- A reply is for the latest refresh of its tab, or that one is still to be done,
or the icon has the colour already. The latest refresh fails only where the icon
is as it was. -/
def InTurn (s : State) : Act → Prop
  | .queried n response => ∀ r ∈ s.icons.refreshes[n]?,
    if nativeQueryError response = none then
      IsLast s.icons.refreshes n r.tabId ∨
        (∀ r' ∈ latest s.icons.refreshes r.tabId, r'.phase.isDone = false) ∨
        s.icons.icon.lookup r.tabId = some (pickIconColor response.record)
    else r.phase = .retry → IsLast s.icons.refreshes n r.tabId → s.icons.icon.lookup r.tabId = r.before
  | _ => True

instance decidableInTurn (s : State) : ∀ a, Decidable (InTurn s a)
  | .queried n response => inferInstanceAs (Decidable (∀ r ∈ s.icons.refreshes[n]?,
    if nativeQueryError response = none then
      IsLast s.icons.refreshes n r.tabId ∨
        (∀ r' ∈ latest s.icons.refreshes r.tabId, r'.phase.isDone = false) ∨
        s.icons.icon.lookup r.tabId = some (pickIconColor response.record)
    else r.phase = .retry → IsLast s.icons.refreshes n r.tabId → s.icons.icon.lookup r.tabId = r.before))
  | .navigate .. | .gotTab .. | .updated .. | .timeout _ | .activated .. | .refreshIcon .. | .retryDue _ =>
    inferInstanceAs (Decidable True)

namespace Icons

variable {s s' : Icons} {color : Option Color}

theorem fresh_refresh (h : Fresh s) (tabId : Nat) (url : Option Text) (phase : Phase)
    (hp : ∀ color, phase ≠ .done color) :
    Fresh { s with refreshes := s.refreshes ++ [⟨tabId, url, s.icon.lookup tabId, phase⟩] } := by
  intro t r color hr hd
  rw [latest_concat] at hr
  split at hr
  · cases hr
    exact absurd hd (hp color)
  · exact h t r color hr hd

theorem fresh_set (h : Fresh s) (tabId : Nat) (url : Option Text) (c : Color) :
    Fresh ((⟨s.icon, s.refreshes ++ [⟨tabId, url, s.icon.lookup tabId,
      .done (some c)⟩]⟩ : Icons).setIconForTab tabId c) := by
  intro t r color hr hd
  rw [setIconForTab] at hr ⊢
  rw [latest_concat] at hr
  split at hr
  · rename_i ht
    cases hr
    cases hd
    dsimp only at ht ⊢
    rw [ht, AList.lookup_insert]
    rfl
  · rename_i ht
    dsimp only at ht ⊢
    rw [AList.lookup_insert_ne (Ne.symm ht)]
    exact h t r color hr hd

theorem fresh_refreshIconForTab (h : Fresh s) (tabId : Nat) (url : Option Text) :
    Fresh (s.refreshIconForTab tabId url) := by
  cases url with
  | none => exact fresh_set h tabId none .gray
  | some u =>
    simp only [refreshIconForTab]
    split
    · exact fresh_refresh h tabId (some u) .query fun _ hc => by cases hc
    · exact fresh_set h tabId (some u) .gray

theorem fresh_setPhase (h : Fresh s) {n : Nat} {r : Refresh} (hn : s.refreshes[n]? = some r) {phase : Phase}
    (hp : ∀ color, phase = .done color → IsLast s.refreshes n r.tabId →
      s.icon.lookup r.tabId = color.or r.before) :
    Fresh (s.setPhase n phase) := by
  intro t r' color hr hd
  rw [setPhase, latest_modify hn rfl] at hr
  split at hr
  · rename_i ht
    obtain ⟨rfl, hl⟩ := ht
    cases hr
    exact hp color hd hl
  · exact h t r' color hr hd

theorem fresh_done (h : Fresh s) {n : Nat} {r : Refresh} (hn : s.refreshes[n]? = some r) (c : Color)
    (ho : IsLast s.refreshes n r.tabId ∨ (∀ r' ∈ latest s.refreshes r.tabId, r'.phase.isDone = false) ∨
      s.icon.lookup r.tabId = some c) :
    Fresh ((s.setPhase n (.done (some c))).setIconForTab r.tabId c) := by
  intro t r' color hr hd
  rw [setIconForTab] at hr ⊢
  rw [setPhase, latest_modify hn rfl] at hr
  dsimp only at hr ⊢
  split at hr
  · rename_i ht
    obtain ⟨rfl, hl⟩ := ht
    cases hr
    cases hd
    exact AList.lookup_insert _
  · rename_i ht
    by_cases htab : t = r.tabId
    · rw [htab] at hr ht ⊢
      rw [AList.lookup_insert, ← h r.tabId r' color hr hd]
      rcases ho with hl | hw | hc
      · exact absurd ⟨rfl, hl⟩ ht
      · have := hw r' hr
        rw [hd] at this
        cases this
      · exact hc.symm
    · rw [setPhase, AList.lookup_insert_ne htab]
      exact h t r' color hr hd

theorem fresh_queried {n : Nat} {response : Response} {visits : Visits} (h : Fresh s)
    (ho : InTurn ⟨visits, s⟩ (.queried n response)) (hs : s.queried n response = some s') : Fresh s' := by
  obtain ⟨r, hn, hs⟩ := Option.bind_eq_some_iff.mp hs
  have ho := ho r hn
  dsimp only at ho hs
  split at hs
  · rename_i hp he
    rw [if_pos he] at ho
    cases hs
    exact fresh_done h hn _ ho
  · rename_i hp he
    rw [if_pos he] at ho
    cases hs
    exact fresh_done h hn _ ho
  · cases hs
    exact fresh_setPhase h hn fun _ hc => by cases hc
  · rename_i hp he
    rw [if_neg (by rw [he]; exact Option.some_ne_none _)] at ho
    cases hs
    refine fresh_setPhase h hn fun color hc hl => ?_
    cases hc
    exact ho hp hl
  · cases hs

theorem fresh_retryDue {n : Nat} (h : Fresh s) (hs : s.retryDue n = some s') : Fresh s' := by
  obtain ⟨r, hn, hs⟩ := Option.bind_eq_some_iff.mp hs
  split at hs
  · cases hs
    exact fresh_setPhase h hn fun _ hc => by cases hc
  · cases hs

end Icons

/-! ## Runs -/

variable {hostname : Text → Option Text} {s s' : State}

theorem fresh_step {a : Act} (h : Fresh s.icons) (ho : InTurn s a) (hs : s' ∈ step hostname s a) :
    Fresh s'.icons := by
  cases a with
  | navigate frameId tabId url timestamp =>
    rw [step] at hs
    split at hs
    · cases hs
      exact h
    · cases hs
      exact Icons.fresh_refreshIconForTab h tabId (some url)
  | gotTab n title =>
    obtain ⟨visits, -, rfl⟩ := Option.map_eq_some_iff.mp hs
    exact h
  | updated tabId title =>
    cases hs
    exact h
  | timeout timerId =>
    obtain ⟨visits, -, rfl⟩ := Option.map_eq_some_iff.mp hs
    exact h
  | activated tabId url =>
    cases hs
    exact Icons.fresh_refreshIconForTab h tabId url
  | refreshIcon tabId url =>
    cases hs
    exact Icons.fresh_refreshIconForTab h tabId url
  | queried n response =>
    obtain ⟨icons, hq, rfl⟩ := Option.map_eq_some_iff.mp hs
    exact Icons.fresh_queried h ho hq
  | retryDue n =>
    obtain ⟨icons, hq, rfl⟩ := Option.map_eq_some_iff.mp hs
    exact Icons.fresh_retryDue h hq

/-- **The icon is that of the page.** In the runs in which each reply comes in turn,
when the refreshes of a tab are done, its icon is the one of the latest of them. -/
theorem icon_current (hostname : Text → Option Text) (acts : List Act) (s : State)
    (ho : Runs.Obeys (step hostname) InTurn State.init acts)
    (hr : Runs.run (step hostname) State.init acts = some s)
    (tabId : Nat) (hd : ∀ r ∈ s.icons.refreshes, r.tabId = tabId → ∃ color, r.phase = .done color) :
    ∀ r ∈ latest s.icons.refreshes tabId, ∃ color, r.phase = .done color ∧
      s.icons.icon.lookup tabId = color.or r.before := by
  have hinit : Fresh State.init.icons := by
    intro t r color hr
    cases hr
  have hf : Fresh s.icons := Runs.run_invariant (fun _ _ _ h hi hs => fresh_step h hi hs) hinit ho hr
  intro r hl
  obtain ⟨hmem, ht⟩ := List.mem_filter.mp (List.mem_of_getLast? hl)
  obtain ⟨color, hc⟩ := hd r hmem (of_decide_eq_true ht)
  exact ⟨color, hc, hf tabId r color hl hc⟩

def notRead : Response := .message (ascii "ok") none none

def isRead : Response := .message (ascii "ok") none (some ⟨some [ascii "10:00"], some [], false⟩)

def twoRefreshes : List Act :=
  [.navigate 0 1 (ascii "https://a.example/") (ascii "10:00"),
    .navigate 0 1 (ascii "https://b.example/") (ascii "10:01")]

theorem icon_current_in_order :
    ∃ s, Runs.run (step hostOf) State.init (twoRefreshes ++ [.queried 0 notRead, .queried 1 isRead]) = some s ∧
      ∀ r ∈ latest s.icons.refreshes 1, ∃ color, r.phase = .done color ∧
        s.icons.icon.lookup 1 = color.or r.before := by
  have ho : Runs.Obeys (step hostOf) InTurn State.init (twoRefreshes ++
    [.queried 0 notRead, .queried 1 isRead]) := by decide
  refine ⟨_, rfl, icon_current hostOf _ _ ho rfl 1 fun r hr _ => ?_⟩
  rcases List.mem_cons.mp hr with rfl | hr
  · exact ⟨some .gray, rfl⟩
  · rcases List.mem_singleton.mp hr with rfl
    exact ⟨some .green, rfl⟩

/-- The reply for the first page comes last: the tab shows the second page, which is
read, with the gray icon of the first. -/
theorem icon_overwritten : ¬ ∀ (hostname : Text → Option Text) (acts : List Act) (s : State),
    Runs.run (step hostname) State.init acts = some s →
    ∀ tabId, (∀ r ∈ s.icons.refreshes, r.tabId = tabId → ∃ color, r.phase = .done color) →
      ∀ r ∈ latest s.icons.refreshes tabId, ∃ color, r.phase = .done color ∧
        s.icons.icon.lookup tabId = color.or r.before := by
  intro h
  have hrun : ∃ s, Runs.run (step hostOf) State.init (twoRefreshes ++
    [.queried 1 isRead, .queried 0 notRead]) = some s ∧
      s.icons.refreshes = [⟨1, some (ascii "https://a.example/"), none, .done (some .gray)⟩,
        ⟨1, some (ascii "https://b.example/"), none, .done (some .green)⟩] ∧
      s.icons.icon.lookup 1 = some .gray := ⟨_, rfl, rfl, rfl⟩
  obtain ⟨s, hs, hrs, hicon⟩ := hrun
  have hdone : ∀ r ∈ s.icons.refreshes, r.tabId = 1 → ∃ color, r.phase = .done color := by
    intro r hr _
    rw [hrs] at hr
    rcases List.mem_cons.mp hr with rfl | hr
    · exact ⟨some .gray, rfl⟩
    · rcases List.mem_singleton.mp hr with rfl
      exact ⟨some .green, rfl⟩
  have hlatest : latest s.icons.refreshes 1 =
    some ⟨1, some (ascii "https://b.example/"), none, .done (some .green)⟩ := by
    rw [hrs]
    rfl
  obtain ⟨color, hc, hl⟩ := h hostOf _ s hs 1 hdone _ hlatest
  cases hc
  rw [hicon] at hl
  exact absurd hl (by decide)

end Background

end VisitLogger
