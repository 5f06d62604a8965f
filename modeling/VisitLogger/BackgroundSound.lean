import VisitLogger.Background

/-!
# What becomes of a navigation

Each navigation that `tabs.get` answered for is sent, or waits with a timeout of
its own, or was replaced while it waited, by one that was parked after it
(`one_message_each`).
-/

namespace VisitLogger

namespace Background

/-- The title was reported for the page: by its own `tabs.get`, or by an update
before the next navigation of the tab. -/
def Navigation.Reported (v : Navigation) (title : Text) : Prop :=
  v.reply = some (some title) ∨ title ∈ v.updates

instance decidableReported (v : Navigation) (title : Text) : Decidable (v.Reported title) :=
  inferInstanceAs (Decidable (v.reply = some (some title) ∨ title ∈ v.updates))

/-- Its `tabs.get` returned a title that is not one yet. -/
def Navigation.Parked (hostname : Text → Option Text) (v : Navigation) (title : Text) : Prop :=
  v.reply = some (some title) ∧ Visits.isTitleMeaningful hostname title v.url = false

namespace Visits

variable {hostname : Text → Option Text} {s s' : Visits} {n tabId : Nat} {e : Entry} {v : Navigation} {title : Text}

/-! ## The record of the navigations -/

/-- An answer is kept, and at most title updates are added. -/
structure Kept (v v' : Navigation) : Prop where
  tabId : v'.tabId = v.tabId
  url : v'.url = v.url
  timestamp : v'.timestamp = v.timestamp
  reply : v.reply ≠ none → v'.reply = v.reply
  updates : v.updates ⊆ v'.updates

theorem Kept.refl (v : Navigation) : Kept v v := ⟨rfl, rfl, rfl, fun _ => rfl, List.Subset.refl _⟩

theorem Kept.reported {v' : Navigation} (h : Kept v v') (hr : v.Reported title) : v'.Reported title := by
  rcases hr with hr | hr
  · exact Or.inl ((h.reply (by rw [hr]; exact Option.some_ne_none _)).trans hr)
  · exact Or.inr (h.updates hr)

theorem Kept.parked {v' : Navigation} (h : Kept v v') (hp : v.Parked hostname title) :
    v'.Parked hostname title := by
  refine ⟨(h.reply (by rw [hp.1]; exact Option.some_ne_none _)).trans hp.1, ?_⟩
  rw [h.url]
  exact hp.2

def Keeps (l l' : List Navigation) : Prop :=
  ∀ (n : Nat) (v : Navigation), l[n]? = some v → ∃ v', l'[n]? = some v' ∧ Kept v v'

def Answers (l l' : List Navigation) : Prop :=
  ∀ (n : Nat) (v' : Navigation) title, l'[n]? = some v' → v'.reply = some (some title) →
    ∃ v : Navigation, l[n]? = some v ∧ v.tabId = v'.tabId ∧ v.reply = some (some title)

theorem keeps_refl (l : List Navigation) : Keeps l l := fun _ v hn => ⟨v, hn, Kept.refl v⟩

theorem keeps_modify (l : List Navigation) (n : Nat) (f : Navigation → Navigation)
    (hf : ∀ v, l[n]? = some v → Kept v (f v)) : Keeps l (l.modify n f) := by
  intro k v hk
  rw [List.getElem?_modify, hk]
  by_cases hn : n = k
  · rw [hn] at hf
    exact ⟨f v, by simp [hn], hf v hk⟩
  · exact ⟨v, by simp [hn], Kept.refl v⟩

theorem keeps_navigate (s : Visits) (tabId : Nat) (url timestamp : Text) :
    Keeps s.navigations (s.navigate tabId url timestamp).navigations := by
  intro n v hn
  have hlt : n < s.navigations.length := (List.getElem?_eq_some_iff.mp hn).1
  refine ⟨v, ?_, Kept.refl v⟩
  rw [navigate, List.getElem?_append_left hlt, hn]

theorem answers_navigate (s : Visits) (tabId : Nat) (url timestamp : Text) :
    Answers s.navigations (s.navigate tabId url timestamp).navigations := by
  intro n v' title hn hr
  rw [navigate, List.getElem?_append] at hn
  split at hn
  · exact ⟨v', hn, rfl, hr⟩
  · obtain rfl : v' = _ := List.mem_singleton.mp (List.mem_of_getElem? hn)
    cases hr

theorem keeps_noteTitle (s : Visits) (tabId : Nat) (title : Text) :
    Keeps s.navigations (s.noteTitle tabId title).navigations := by
  unfold noteTitle
  split
  · exact keeps_refl _
  · exact keeps_modify _ _ _ fun v _ => ⟨rfl, rfl, rfl, fun _ => rfl, List.subset_append_left _ _⟩

theorem answers_noteTitle (s : Visits) (tabId : Nat) (title : Text) :
    Answers s.navigations (s.noteTitle tabId title).navigations := by
  intro n v' t hn hr
  unfold noteTitle at hn
  split at hn
  · exact ⟨v', hn, rfl, hr⟩
  · rw [List.getElem?_modify] at hn
    obtain ⟨v, hv, rfl⟩ := Option.map_eq_some_iff.mp hn
    refine ⟨v, hv, ?_, ?_⟩
    · split <;> rfl
    · split at hr <;> exact hr

def answer (s : Visits) (n : Nat) (title : Option Text) : List Navigation :=
  s.navigations.modify n fun v => { v with reply := some title }

theorem answer_self (hn : s.navigations[n]? = some v) (title : Option Text) :
    (s.answer n title)[n]? = some { v with reply := some title } := by
  rw [answer, List.getElem?_modify_eq, hn]
  rfl

theorem answer_ne {k : Nat} (hk : n ≠ k) (title : Option Text) : (s.answer n title)[k]? = s.navigations[k]? :=
  List.getElem?_modify_ne _ _ hk

theorem keeps_answer (hn : s.navigations[n]? = some v) (hr : v.reply = none) (title : Option Text) :
    Keeps s.navigations (s.answer n title) := by
  refine keeps_modify _ _ _ fun w hw => ⟨rfl, rfl, rfl, fun h => ?_, List.Subset.refl _⟩
  rw [hn] at hw
  cases hw
  exact absurd hr h

/-! ## The invariant -/

/-- The navigations that are sent or replaced. -/
def settled (s : Visits) : List Nat := s.sent.map Message.navigation ++ s.superseded.map Prod.fst

/-- `now` is the navigation that was answered last and is neither sent nor parked yet. -/
structure Inv (hostname : Text → Option Text) (now : Option Nat) (s : Visits) : Prop where
  own : ∀ tabId e, s.pendingVisits.lookup tabId = some e → s.timers.lookup e.timerId = some tabId
  timed : ∀ id tabId, s.timers.lookup id = some tabId → ∃ e, s.pendingVisits.lookup tabId = some e ∧
    e.timerId = id
  fresh : ∀ id tabId, s.timers.lookup id = some tabId → id < s.nextTimer
  parked : ∀ tabId e, s.pendingVisits.lookup tabId = some e → ∃ v, s.navigations[e.navigation]? = some v ∧
    v.tabId = tabId ∧ v.timestamp = e.timestamp ∧ v.url = e.url ∧ v.Parked hostname e.title
  sent : ∀ m ∈ s.sent, ∃ v, s.navigations[m.navigation]? = some v ∧ v.timestamp = m.timestamp ∧ v.url = m.url ∧
    ∃ title, v.reply = some (some title)
  replaced : ∀ r ∈ s.superseded, ∃ v w, s.navigations[r.1]? = some v ∧ s.navigations[r.2]? = some w ∧
    r.1 ≠ r.2 ∧ v.tabId = w.tabId ∧ (∃ title, v.Parked hostname title) ∧ ∃ title, w.Parked hostname title
  once : s.settled.Nodup
  waits : ∀ tabId e, s.pendingVisits.lookup tabId = some e → e.navigation ∉ s.settled
  now_settled : ∀ n, now = some n → n ∉ s.settled
  now_parked : ∀ n, now = some n → ∀ tabId e, s.pendingVisits.lookup tabId = some e → e.navigation ≠ n
  all : ∀ n v title, s.navigations[n]? = some v → v.reply = some (some title) →
    now = some n ∨ n ∈ s.settled ∨ ∃ e, s.pendingVisits.lookup v.tabId = some e ∧ e.navigation = n

theorem inv_init (hostname : Text → Option Text) : Inv hostname none State.init.visits where
  own _ _ h := by cases h
  timed _ _ h := by cases h
  fresh _ _ h := by cases h
  parked _ _ h := by cases h
  sent _ h := by cases h
  replaced _ h := by cases h
  once := List.nodup_nil
  waits _ _ h := by cases h
  now_settled _ h := by cases h
  now_parked _ h := by cases h
  all _ _ _ h := by cases h

variable {now : Option Nat}

theorem Inv.settled_answered (h : Inv hostname now s) (hn : n ∈ s.settled) :
    ∃ v title, s.navigations[n]? = some v ∧ v.reply = some (some title) := by
  rcases List.mem_append.mp hn with hn | hn
  · obtain ⟨m, hm, rfl⟩ := List.mem_map.mp hn
    obtain ⟨v, hv, -, -, title, hr⟩ := h.sent m hm
    exact ⟨v, title, hv, hr⟩
  · obtain ⟨r, hr, rfl⟩ := List.mem_map.mp hn
    obtain ⟨v, -, hv, -, -, -, ⟨title, ht, -⟩, -⟩ := h.replaced r hr
    exact ⟨v, title, hv, ht⟩

theorem Inv.keeps (h : Inv hostname none s) {navigations : List Navigation}
    (hk : Keeps s.navigations navigations)
    (hs : ∀ n, now = some n → n ∉ s.settled)
    (hp : ∀ n, now = some n → ∀ tabId e, s.pendingVisits.lookup tabId = some e → e.navigation ≠ n)
    (hall : ∀ n v title, navigations[n]? = some v → v.reply = some (some title) →
      now = some n ∨ n ∈ s.settled ∨ ∃ e, s.pendingVisits.lookup v.tabId = some e ∧ e.navigation = n) :
    Inv hostname now { s with navigations } where
  own := h.own
  timed := h.timed
  fresh := h.fresh
  parked tabId e he := by
    obtain ⟨v, hv, ht, hs, hu, hp⟩ := h.parked tabId e he
    obtain ⟨v', hv', hk'⟩ := hk _ v hv
    exact ⟨v', hv', hk'.tabId.trans ht, hk'.timestamp.trans hs, hk'.url.trans hu, hk'.parked hp⟩
  sent m hm := by
    obtain ⟨v, hv, hs, hu, title, hr⟩ := h.sent m hm
    obtain ⟨v', hv', hk'⟩ := hk _ v hv
    refine ⟨v', hv', hk'.timestamp.trans hs, hk'.url.trans hu, title, ?_⟩
    rw [hk'.reply (by rw [hr]; exact Option.some_ne_none _), hr]
  replaced r hr := by
    obtain ⟨v, w, hv, hw, hne, ht, ⟨title, hp⟩, title', hq⟩ := h.replaced r hr
    obtain ⟨v', hv', hk'⟩ := hk _ v hv
    obtain ⟨w', hw', hk''⟩ := hk _ w hw
    exact ⟨v', w', hv', hw', hne, hk'.tabId.trans (ht.trans hk''.tabId.symm), ⟨title, hk'.parked hp⟩, title',
      hk''.parked hq⟩
  once := h.once
  waits := h.waits
  now_settled := hs
  now_parked := hp
  all := hall

theorem Inv.answers (h : Inv hostname none s) {navigations : List Navigation}
    (hk : Keeps s.navigations navigations)
    (ha : Answers s.navigations navigations) : Inv hostname none { s with navigations } := by
  refine h.keeps hk h.now_settled h.now_parked fun n v' title hn hr => ?_
  obtain ⟨v, hv, ht, hr'⟩ := ha n v' title hn hr
  rw [← ht]
  exact h.all n v title hv hr'

theorem Inv.answer (h : Inv hostname none s) (hn : s.navigations[n]? = some v) (hr : v.reply = none)
    (title : Text) :
    Inv hostname (some n) { s with navigations := s.answer n (some title) } := by
  refine h.keeps (keeps_answer hn hr _) ?_ ?_ ?_
  · intro k hk hset
    cases hk
    obtain ⟨w, t, hw, hwr⟩ := h.settled_answered hset
    rw [hn] at hw
    cases hw
    rw [hr] at hwr
    cases hwr
  · intro k hk tabId e he hek
    cases hk
    obtain ⟨w, hw, -, -, -, hwr, -⟩ := h.parked tabId e he
    rw [hek, hn] at hw
    cases hw
    rw [hr] at hwr
    cases hwr
  · intro k w t hk hw
    by_cases hkn : n = k
    · exact Or.inl (congrArg some hkn)
    · right
      rw [answer_ne hkn] at hk
      exact (h.all k w t hk hw).resolve_left (Option.some_ne_none k ∘ Eq.symm)

theorem Inv.answer_none (h : Inv hostname none s) (hn : s.navigations[n]? = some v) (hr : v.reply = none) :
    Inv hostname none { s with navigations := s.answer n none } := by
  refine h.keeps (keeps_answer hn hr _) h.now_settled h.now_parked fun k w t hk hw => ?_
  by_cases hkn : n = k
  · rw [← hkn, answer_self hn] at hk
    cases hk
    cases hw
  · rw [answer_ne hkn] at hk
    exact h.all k w t hk hw

/-! ## Sending, flushing and parking -/

theorem Inv.send (h : Inv hostname (some n) s) {title : Text} (hn : s.navigations[n]? = some v)
    (hr : v.reply = some (some title)) : Inv hostname none (s.send ⟨n, v.timestamp, v.url, title⟩) := by
  have hperm : (s.send ⟨n, v.timestamp, v.url, title⟩).settled.Perm (n :: s.settled) := by
    rw [settled, settled, Visits.send, List.map_append, List.append_assoc]
    exact List.perm_middle
  exact {
    own := h.own
    timed := h.timed
    fresh := h.fresh
    parked := h.parked
    sent m hm := by
      rcases List.mem_append.mp hm with hm | hm
      · exact h.sent m hm
      · obtain rfl := List.mem_singleton.mp hm
        exact ⟨v, hn, rfl, rfl, title, hr⟩
    replaced := h.replaced
    once := hperm.nodup_iff.mpr (List.nodup_cons.mpr ⟨h.now_settled n rfl, h.once⟩)
    waits tabId e he := by
      rw [hperm.mem_iff, List.mem_cons, not_or]
      exact ⟨h.now_parked n rfl tabId e he, h.waits tabId e he⟩
    now_settled _ hk := by cases hk
    now_parked _ hk := by cases hk
    all k w t hk hw := by
      rw [hperm.mem_iff, List.mem_cons]
      rcases h.all k w t hk hw with he | hs | he
      · exact Or.inr (Or.inl (Or.inl (Option.some.inj he).symm))
      · exact Or.inr (Or.inl (Or.inr hs))
      · exact Or.inr (Or.inr he) }

/-- The visit that waits in the tab leaves, with its timeout. -/
structure Drops (s s' : Visits) (tabId : Nat) (e : Entry) : Prop where
  navigations : s'.navigations = s.navigations
  pending : ∀ t, s'.pendingVisits.lookup t = if t = tabId then none else s.pendingVisits.lookup t
  timers : ∀ id, s'.timers.lookup id = if id = e.timerId then none else s.timers.lookup id
  nextTimer : s'.nextTimer = s.nextTimer

structure Flushes (s s' : Visits) (tabId : Nat) (e : Entry)
  (title : Text) : Prop extends Drops s s' tabId e where
  sent : s'.sent = s.sent ++ [⟨e.navigation, e.timestamp, e.url, title⟩]
  superseded : s'.superseded = s.superseded

theorem lookup_erase_ite {β : Type} (m : AList fun _ : Nat => β) (a k : Nat) :
    (m.erase a).lookup k = if k = a then none else m.lookup k := by
  by_cases hk : k = a
  · rw [hk, if_pos rfl, AList.lookup_erase]
  · rw [if_neg hk, AList.lookup_erase_ne hk]

theorem lookup_insert_ite {β : Type} (m : AList fun _ : Nat => β) (a : Nat) (b : β) (k : Nat) :
    (m.insert a b).lookup k = if k = a then some b else m.lookup k := by
  by_cases hk : k = a
  · rw [hk, if_pos rfl, AList.lookup_insert]
  · rw [if_neg hk, AList.lookup_insert_ne hk]

theorem Inv.entry_tab (h : Inv hostname now s) {t t' : Nat} {e' : Entry}
    (he : s.pendingVisits.lookup t = some e)
    (he' : s.pendingVisits.lookup t' = some e') (hn : e.navigation = e'.navigation) : t = t' := by
  obtain ⟨v, hv, ht, -⟩ := h.parked t e he
  obtain ⟨v', hv', ht', -⟩ := h.parked t' e' he'
  rw [hn, hv'] at hv
  cases hv
  exact ht.symm.trans ht'

theorem Inv.drops (h : Inv hostname now s) (he : s.pendingVisits.lookup tabId = some e)
    (hd : Drops s s' tabId e)
    (hperm : s'.settled.Perm (e.navigation :: s.settled))
    (hsent : ∀ m ∈ s'.sent, ∃ v, s.navigations[m.navigation]? = some v ∧ v.timestamp = m.timestamp ∧
      v.url = m.url ∧
      ∃ title, v.reply = some (some title))
    (hrep : ∀ r ∈ s'.superseded, ∃ v w, s.navigations[r.1]? = some v ∧ s.navigations[r.2]? = some w ∧
      r.1 ≠ r.2 ∧ v.tabId = w.tabId ∧ (∃ title, v.Parked hostname title) ∧ ∃ title, w.Parked hostname title) :
    Inv hostname now s' where
  own t e' h' := by
    rw [hd.pending] at h'
    split at h'
    · cases h'
    · rename_i ht
      -- the timer of the dropped entry goes, and no other entry has that timer
      rw [hd.timers, if_neg, h.own t e' h']
      intro hid
      have h₁ := h.own t e' h'
      rw [hid, h.own tabId e he] at h₁
      exact ht (Option.some.inj h₁).symm
  timed id t h' := by
    rw [hd.timers] at h'
    split at h'
    · cases h'
    · rename_i hid
      obtain ⟨e', he', rfl⟩ := h.timed id t h'
      refine ⟨e', ?_, rfl⟩
      rw [hd.pending, if_neg, he']
      rintro rfl
      rw [he] at he'
      cases he'
      exact hid rfl
  fresh id t h' := by
    rw [hd.timers] at h'
    split at h'
    · cases h'
    · rw [hd.nextTimer]
      exact h.fresh id t h'
  parked t e' h' := by
    rw [hd.pending] at h'
    split at h'
    · cases h'
    · rw [hd.navigations]
      exact h.parked t e' h'
  sent := by
    rw [hd.navigations]
    exact hsent
  replaced := by
    rw [hd.navigations]
    exact hrep
  once := hperm.nodup_iff.mpr (List.nodup_cons.mpr ⟨h.waits tabId e he, h.once⟩)
  -- an entry that still waits is another one, as a navigation waits in one tab only
  waits t e' h' := by
    rw [hd.pending] at h'
    split at h'
    · cases h'
    · rename_i ht
      rw [hperm.mem_iff, List.mem_cons, not_or]
      exact ⟨fun hn => ht (h.entry_tab h' he hn), h.waits t e' h'⟩
  now_settled k hk := by
    rw [hperm.mem_iff, List.mem_cons, not_or]
    exact ⟨(h.now_parked k hk tabId e he).symm, h.now_settled k hk⟩
  now_parked k hk t e' h' := by
    rw [hd.pending] at h'
    split at h'
    · cases h'
    · exact h.now_parked k hk t e' h'
  all k v t hk hr := by
    rw [hd.navigations] at hk
    rw [hperm.mem_iff, List.mem_cons]
    -- each navigation parked is settled, waits, or is the one dropped
    rcases h.all k v t hk hr with hn | hs | ⟨e', he', rfl⟩
    · exact Or.inl hn
    · exact Or.inr (Or.inl (Or.inr hs))
    · by_cases ht : v.tabId = tabId
      · rw [ht, he] at he'
        cases he'
        exact Or.inr (Or.inl (Or.inl rfl))
      · refine Or.inr (Or.inr ⟨e', ?_, rfl⟩)
        rw [hd.pending, if_neg ht, he']

theorem Inv.flushes (h : Inv hostname now s) (he : s.pendingVisits.lookup tabId = some e)
    (hf : Flushes s s' tabId e title) : Inv hostname now s' := by
  refine h.drops he hf.toDrops ?_ (fun m hm => ?_) (fun r hr => ?_)
  · rw [settled, settled, hf.sent, hf.superseded, List.map_append, List.append_assoc]
    exact List.perm_middle
  · rw [hf.sent] at hm
    rcases List.mem_append.mp hm with hm | hm
    · exact h.sent m hm
    · obtain rfl := List.mem_singleton.mp hm
      obtain ⟨v, hv, -, hs, hu, hr, -⟩ := h.parked tabId e he
      exact ⟨v, hv, hs, hu, _, hr⟩
  · rw [hf.superseded] at hr
    exact h.replaced r hr

def replace (s : Visits) (tabId : Nat) (e : Entry) (n : Nat) : Visits :=
  { s with
    pendingVisits := s.pendingVisits.erase tabId
    timers := s.timers.erase e.timerId
    superseded := s.superseded ++ [(e.navigation, n)] }

theorem Inv.replace (h : Inv hostname (some n) s) (hn : s.navigations[n]? = some v)
    (hp : v.Parked hostname title)
    (he : s.pendingVisits.lookup v.tabId = some e) : Inv hostname (some n) (s.replace v.tabId e n) := by
  refine h.drops he ⟨rfl, lookup_erase_ite _ _, lookup_erase_ite _ _, rfl⟩ ?_ h.sent (fun r hr => ?_)
  · rw [settled, settled, Visits.replace, List.map_append, ← List.append_assoc]
    exact List.perm_append_singleton _ _
  · rcases List.mem_append.mp hr with hr | hr
    · exact h.replaced r hr
    · obtain rfl := List.mem_singleton.mp hr
      obtain ⟨w, hw, ht, -, -, hwp⟩ := h.parked v.tabId e he
      exact ⟨w, v, hw, hn, h.now_parked n rfl v.tabId e he, ht, ⟨_, hwp⟩, _, hp⟩

/-- The visit of navigation `n` waits in its tab, where no other one does. -/
structure Parks (s s' : Visits) (n : Nat) (v : Navigation) (title : Text) : Prop where
  navigations : s'.navigations = s.navigations
  pending : ∀ t, s'.pendingVisits.lookup t =
    if t = v.tabId then some ⟨n, v.url, title, v.timestamp, s.nextTimer⟩ else s.pendingVisits.lookup t
  timers : ∀ id, s'.timers.lookup id = if id = s.nextTimer then some v.tabId else s.timers.lookup id
  nextTimer : s'.nextTimer = s.nextTimer + 1
  sent : s'.sent = s.sent
  superseded : s'.superseded = s.superseded

theorem Inv.parks (h : Inv hostname (some n) s) (hn : s.navigations[n]? = some v) (hp : v.Parked hostname title)
    (he : s.pendingVisits.lookup v.tabId = none) (hs : Parks s s' n v title) : Inv hostname none s' := by
  have hset : s'.settled = s.settled := by rw [settled, settled, hs.sent, hs.superseded]
  exact {
    own t e' h' := by
      rw [hs.pending] at h'
      split at h'
      · rename_i ht
        cases h'
        rw [hs.timers, if_pos rfl, ht]
      · have h₁ := h.own t e' h'
        rw [hs.timers, if_neg (h.fresh _ _ h₁).ne, h₁]
    timed id t h' := by
      rw [hs.timers] at h'
      split at h'
      · rename_i hid
        cases h'
        exact ⟨_, (hs.pending _).trans (if_pos rfl), hid.symm⟩
      · obtain ⟨e', he', rfl⟩ := h.timed id t h'
        refine ⟨e', ?_, rfl⟩
        rw [hs.pending, if_neg, he']
        rintro rfl
        rw [he] at he'
        cases he'
    fresh id t h' := by
      rw [hs.timers] at h'
      rw [hs.nextTimer]
      split at h'
      · omega
      · -- the old timers are below the new one
        exact (h.fresh id t h').trans (Nat.lt_succ_self _)
    parked t e' h' := by
      rw [hs.pending] at h'
      rw [hs.navigations]
      split at h'
      · rename_i ht
        cases h'
        exact ⟨v, hn, ht.symm, rfl, rfl, hp⟩
      · exact h.parked t e' h'
    sent := by
      rw [hs.sent, hs.navigations]
      exact h.sent
    replaced := by
      rw [hs.superseded, hs.navigations]
      exact h.replaced
    once := by
      rw [hset]
      exact h.once
    waits t e' h' := by
      rw [hs.pending] at h'
      rw [hset]
      split at h'
      · cases h'
        exact h.now_settled n rfl
      · exact h.waits t e' h'
    now_settled _ hk := by cases hk
    now_parked _ hk := by cases hk
    all k w t hk hw := by
      rw [hs.navigations] at hk
      rw [hset]
      right
      -- navigation `n` waits now; of the others nothing changes
      rcases h.all k w t hk hw with hnk | hk' | ⟨e', he', rfl⟩
      · cases hnk
        rw [hn] at hk
        cases hk
        exact Or.inr ⟨_, (hs.pending _).trans (if_pos rfl), rfl⟩
      · exact Or.inl hk'
      · refine Or.inr ⟨e', ?_, rfl⟩
        rw [hs.pending, if_neg, he']
        intro ht
        rw [ht, he] at he'
        cases he' }

theorem Inv.park (h : Inv hostname (some n) s) (hn : s.navigations[n]? = some v)
    (hp : v.Parked hostname title) :
    Inv hostname none (s.park n v title) := by
  cases he : s.pendingVisits.lookup v.tabId with
  | none =>
    refine h.parks hn hp he ⟨by simp only [Visits.park], fun t => ?_, fun id => ?_, ?_, ?_, ?_⟩
    all_goals simp only [Visits.park, he, lookup_insert_ite, Option.map_none, Option.toList_none,
      List.append_nil]
  | some e =>
    refine (h.replace hn hp he).parks hn hp (AList.lookup_erase _ _) ⟨rfl, fun t => ?_, fun id => ?_,
      rfl, rfl, ?_⟩
    · simp only [Visits.park, Visits.replace, lookup_insert_ite, lookup_erase_ite]
      by_cases ht : t = v.tabId
      · rw [if_pos ht, if_pos ht]
      · rw [if_neg ht, if_neg ht, if_neg ht]
    · simp only [Visits.park, Visits.replace, he, lookup_insert_ite]
      rfl
    · simp only [Visits.park, Visits.replace, he, Option.map_some, Option.toList_some]

/-! ## The callbacks -/

theorem flushVisit_flushes (hostname : Text → Option Text) (he : s.pendingVisits.lookup tabId = some e) :
    Flushes s (s.flushVisit hostname tabId) tabId e
      (if isTitleMeaningful hostname e.title e.url then e.title else e.url) := by
  rw [flushVisit, he]
  exact ⟨⟨rfl, lookup_erase_ite _ _, lookup_erase_ite _ _, rfl⟩, rfl, rfl⟩

theorem Inv.timeout (h : Inv hostname now s) {timerId : Nat} (hs : s.timeout hostname timerId = some s') :
    ∃ tabId e, s.pendingVisits.lookup tabId = some e ∧
      Flushes s s' tabId e (if isTitleMeaningful hostname e.title e.url then e.title else e.url) := by
  obtain ⟨tabId, ht, rfl⟩ := Option.map_eq_some_iff.mp hs
  obtain ⟨e, he, rfl⟩ := h.timed timerId tabId ht
  have hf : Flushes _ ({ s with timers := s.timers.erase e.timerId }.flushVisit hostname tabId) tabId e _ :=
    flushVisit_flushes hostname he
  refine ⟨tabId, e, he, ⟨hf.navigations, hf.pending, fun id => ?_, hf.nextTimer⟩, hf.sent, hf.superseded⟩
  rw [hf.timers, lookup_erase_ite]
  by_cases hid : id = e.timerId
  · rw [if_pos hid, if_pos hid]
  · rw [if_neg hid, if_neg hid]

theorem onUpdated_cases (hostname : Text → Option Text) (s : Visits) (tabId : Nat) (title : Text) :
    s.onUpdated hostname tabId title = s ∨
      ∃ e, s.pendingVisits.lookup tabId = some e ∧ isTitleMeaningful hostname title e.url = true ∧
        Flushes s (s.onUpdated hostname tabId title) tabId e title := by
  unfold onUpdated
  split
  · exact Or.inl rfl
  · split
    · exact Or.inl rfl
    · rename_i e he
      split
      · rename_i hm
        right
        refine ⟨e, he, hm, ?_⟩
        have hf : Flushes { s with pendingVisits := s.pendingVisits.insert tabId { e with title } } _ tabId _ _ :=
          flushVisit_flushes hostname (AList.lookup_insert _)
        refine ⟨⟨hf.navigations, fun t => ?_, hf.timers, hf.nextTimer⟩, ?_, hf.superseded⟩
        · rw [hf.pending, lookup_insert_ite]
          by_cases ht : t = tabId
          · rw [if_pos ht, if_pos ht]
          · rw [if_neg ht, if_neg ht, if_neg ht]
        · rw [hf.sent]
          simp only [hm, if_true]
      · exact Or.inl rfl

theorem gotTab_cases {title : Option Text} (hs : s.gotTab hostname n title = some s') :
    ∃ v, s.navigations[n]? = some v ∧ v.reply = none ∧
      ((title = none ∧ s' = { s with navigations := s.answer n none }) ∨
        ∃ t, title = some t ∧
          (isTitleMeaningful hostname t v.url = true ∧
              s' = { s with navigations := s.answer n (some t) }.send ⟨n, v.timestamp, v.url, t⟩ ∨
            isTitleMeaningful hostname t v.url = false ∧
              s' = { s with navigations := s.answer n (some t) }.park n v t)) := by
  obtain ⟨v, hv, hs⟩ := Option.bind_eq_some_iff.mp hs
  split at hs
  · rename_i hr
    refine ⟨v, hv, hr, ?_⟩
    cases title with
    | none => exact Or.inl ⟨rfl, (Option.some.inj hs).symm⟩
    | some t =>
      refine Or.inr ⟨t, rfl, ?_⟩
      dsimp only at hs
      split at hs
      · rename_i hm
        exact Or.inl ⟨hm, (Option.some.inj hs).symm⟩
      · rename_i hm
        exact Or.inr ⟨Bool.eq_false_iff.mpr hm, (Option.some.inj hs).symm⟩
  · cases hs

theorem Inv.gotTab (h : Inv hostname none s) {title : Option Text} (hs : s.gotTab hostname n title = some s') :
    Inv hostname none s' := by
  obtain ⟨v, hv, hr, ⟨rfl, rfl⟩ | ⟨t, rfl, ⟨hm, rfl⟩ | ⟨hm, rfl⟩⟩⟩ := gotTab_cases hs
  · exact h.answer_none hv hr
  · exact (h.answer hv hr t).send (v := { v with reply := some (some t) }) (answer_self hv _) rfl
  · exact (h.answer hv hr t).park (v := { v with reply := some (some t) }) (answer_self hv _) ⟨rfl, hm⟩

/-- The visit of navigation `n` waits in a tab, and that of `k` takes its place. -/
def Replaces (s s' : Visits) (n k : Nat) : Prop :=
  n ≠ k ∧ ∃ tabId e e', s.pendingVisits.lookup tabId = some e ∧ e.navigation = n ∧
    s'.pendingVisits.lookup tabId = some e' ∧ e'.navigation = k

theorem not_replaces {k : Nat} (h : s'.pendingVisits = s.pendingVisits) : ¬Replaces s s' n k := by
  rintro ⟨hne, tabId, e, e', he, rfl, he', rfl⟩
  rw [h, he] at he'
  cases he'
  exact hne rfl

theorem Inv.mem_superseded_park {k : Nat} (h : Inv hostname (some k) s) (v : Navigation) (title : Text) :
    (n, k) ∈ (s.park k v title).superseded ↔ (n, k) ∈ s.superseded ∨ Replaces s (s.park k v title) n k := by
  have hpending : ∀ t, (s.park k v title).pendingVisits.lookup t =
      if t = v.tabId then some ⟨k, v.url, title, v.timestamp, s.nextTimer⟩ else s.pendingVisits.lookup t :=
    fun t => lookup_insert_ite _ _ _ t
  have hnew : (n, k) ∈ ((s.pendingVisits.lookup v.tabId).map fun e => (e.navigation, k)).toList ↔
      Replaces s (s.park k v title) n k := by
    rw [Option.mem_toList, Option.map_eq_some_iff]
    constructor
    · rintro ⟨e, he, hek⟩
      obtain rfl : e.navigation = n := congrArg Prod.fst hek
      exact ⟨h.now_parked k rfl v.tabId e he, v.tabId, e, _, he, rfl, (hpending _).trans (if_pos rfl), rfl⟩
    · rintro ⟨hne, tabId, e, e', he, rfl, he', rfl⟩
      rw [hpending] at he'
      split at he'
      · rename_i ht
        exact ⟨e, ht ▸ he, rfl⟩
      · rw [he] at he'
        cases he'
        exact absurd rfl hne
  rw [← hnew]
  exact List.mem_append

theorem Inv.mem_superseded_gotTab {i k : Nat} (h : Inv hostname none s) {title : Option Text}
    (hs : s.gotTab hostname i title = some s') : (n, k) ∈ s'.superseded ↔
      (n, k) ∈ s.superseded ∨ (i = k ∧ ∃ t, title = some t) ∧ Replaces s s' n k := by
  obtain ⟨v, hv, hr, ⟨rfl, rfl⟩ | ⟨t, rfl, ⟨hm, rfl⟩ | ⟨hm, rfl⟩⟩⟩ := gotTab_cases hs
  · exact (or_iff_left fun h => not_replaces rfl h.2).symm
  · exact (or_iff_left fun h => not_replaces rfl h.2).symm
  · by_cases hik : i = k
    · subst hik
      rw [(h.answer hv hr t).mem_superseded_park]
      exact or_congr_right (iff_and_self.mpr fun _ => ⟨rfl, t, rfl⟩)
    · rw [or_iff_left fun h => hik h.1.1, Visits.park, List.mem_append, or_iff_left]
      rw [Option.mem_toList, Option.map_eq_some_iff]
      rintro ⟨e, -, he⟩
      exact hik (congrArg Prod.snd he)

theorem Inv.noteTitle (h : Inv hostname none s) (tabId : Nat) (title : Text) :
    Inv hostname none (s.noteTitle tabId title) := by
  have hn := h.answers (keeps_noteTitle s tabId title) (answers_noteTitle s tabId title)
  rwa [show s.noteTitle tabId title = { s with navigations := (s.noteTitle tabId title).navigations } by
    unfold Visits.noteTitle
    split <;> rfl]

theorem Inv.onUpdated (h : Inv hostname now s) (tabId : Nat) (title : Text) :
    Inv hostname now (s.onUpdated hostname tabId title) := by
  rcases onUpdated_cases hostname s tabId title with he | ⟨e, he, -, hf⟩
  · rw [he]
    exact h
  · exact h.flushes he hf

end Visits

/-! ## Runs -/

variable {hostname : Text → Option Text} {s s' : State}

theorem visits_step {a : Act} (h : Visits.Inv hostname none s.visits) (hs : s' ∈ step hostname s a) :
    Visits.Inv hostname none s'.visits := by
  cases a with
  | navigate frameId tabId url timestamp =>
    rw [step] at hs
    split at hs
    · cases hs
      exact h
    · cases hs
      exact h.answers (Visits.keeps_navigate _ _ _ _) (Visits.answers_navigate _ _ _ _)
  | gotTab n title =>
    obtain ⟨visits, hv, rfl⟩ := Option.map_eq_some_iff.mp hs
    exact h.gotTab hv
  | updated tabId title =>
    cases hs
    exact (h.noteTitle tabId title).onUpdated tabId title
  | timeout timerId =>
    obtain ⟨visits, hv, rfl⟩ := Option.map_eq_some_iff.mp hs
    obtain ⟨tabId, e, he, hf⟩ := h.timeout hv
    exact h.flushes he hf
  | activated tabId url =>
    cases hs
    exact h
  | refreshIcon tabId url =>
    cases hs
    exact h
  | queried n response =>
    obtain ⟨icons, -, rfl⟩ := Option.map_eq_some_iff.mp hs
    exact h
  | retryDue n =>
    obtain ⟨icons, -, rfl⟩ := Option.map_eq_some_iff.mp hs
    exact h

theorem visits_run {acts : List Act} (hr : Runs.run (step hostname) State.init acts = some s) :
    Visits.Inv hostname none s.visits := by
  have hinv : ∀ s a s', Visits.Inv hostname none s.visits → True → s' ∈ step hostname s a →
      Visits.Inv hostname none s'.visits := fun _ _ _ h _ hs => visits_step h hs
  exact Runs.run_invariant hinv (Visits.inv_init hostname) (Runs.obeys_of_forall (fun _ _ _ => trivial) _) hr

/-- Navigation `k` is parked in the run while `n` is, and in its place. -/
def Superseded (hostname : Text → Option Text) (acts : List Act) (n k : Nat) : Prop :=
  ∃ before t s s', before ++ [.gotTab k (some t)] <+: acts ∧
    Runs.run (step hostname) State.init before = some s ∧ step hostname s (.gotTab k (some t)) = some s' ∧
      s.visits.Replaces s'.visits n k

theorem mem_superseded_step {a : Act} {n k : Nat} (h : Visits.Inv hostname none s.visits)
    (hs : s' ∈ step hostname s a) : (n, k) ∈ s'.visits.superseded ↔ (n, k) ∈ s.visits.superseded ∨
      (∃ t, a = .gotTab k (some t)) ∧ s.visits.Replaces s'.visits n k := by
  cases a with
  | gotTab i title =>
    obtain ⟨visits, hv, rfl⟩ := Option.map_eq_some_iff.mp hs
    rw [h.mem_superseded_gotTab hv]
    refine or_congr_right (and_congr_left fun _ => ⟨?_, ?_⟩)
    · rintro ⟨rfl, t, rfl⟩
      exact ⟨t, rfl⟩
    · rintro ⟨t, ht⟩
      cases ht
      exact ⟨rfl, t, rfl⟩
  | updated tabId title =>
    cases hs
    have hnote : (s.visits.noteTitle tabId title).superseded = s.visits.superseded := by
      unfold Visits.noteTitle
      split <;> rfl
    rw [or_iff_left (fun h => nomatch h.1), ← hnote]
    rcases Visits.onUpdated_cases hostname (s.visits.noteTitle tabId title) tabId title with he | ⟨e, -, -, hf⟩
    · rw [he]
    · rw [hf.superseded]
  | timeout timerId =>
    obtain ⟨visits, hv, rfl⟩ := Option.map_eq_some_iff.mp hs
    obtain ⟨tabId, e, -, hf⟩ := h.timeout hv
    rw [or_iff_left (fun h => nomatch h.1), hf.superseded]
  | navigate frameId tabId url timestamp =>
    rw [or_iff_left (fun h => nomatch h.1)]
    rw [step] at hs
    split at hs <;> cases hs <;> rfl
  | activated tabId url | refreshIcon tabId url =>
    cases hs
    exact (or_iff_left fun h => nomatch h.1).symm
  | queried i response =>
    obtain ⟨icons, -, rfl⟩ := Option.map_eq_some_iff.mp hs
    exact (or_iff_left fun h => nomatch h.1).symm
  | retryDue i =>
    obtain ⟨icons, -, rfl⟩ := Option.map_eq_some_iff.mp hs
    exact (or_iff_left fun h => nomatch h.1).symm

theorem mem_superseded_iff {acts : List Act} (hr : Runs.run (step hostname) State.init acts = some s) {n k : Nat} :
    (n, k) ∈ s.visits.superseded ↔ Superseded hostname acts n k := by
  have hobeys : Runs.Obeys (step hostname) (fun _ _ => True) State.init acts :=
    Runs.obeys_of_forall (fun _ _ _ => trivial) _
  refine Runs.run_history (fun as s => (n, k) ∈ s.visits.superseded ↔ Superseded hostname as n k) ?_ ?_ hobeys hr
  · intro as s a s' hs h _ ha
    rw [mem_superseded_step (visits_run hs) ha, h]
    constructor
    · rintro (⟨before, t, s₁, s₂, hb, hrun⟩ | ⟨⟨t, rfl⟩, hrep⟩)
      · exact ⟨before, t, s₁, s₂, hb.trans (List.prefix_append _ _), hrun⟩
      · exact ⟨as, t, s, s', List.prefix_rfl, hs, ha, hrep⟩
    · rintro ⟨before, t, s₁, s₂, hb, hrun, hstep, hrep⟩
      rcases List.prefix_concat_iff.mp hb with he | hb
      · obtain ⟨rfl, hat⟩ := List.append_inj' he rfl
        cases hat
        rw [hs] at hrun
        cases hrun
        rw [ha] at hstep
        cases hstep
        exact Or.inr ⟨⟨t, rfl⟩, hrep⟩
      · exact Or.inl ⟨before, t, s₁, s₂, hb, hrun, hstep, hrep⟩
  · refine iff_of_false (List.not_mem_nil) ?_
    rintro ⟨before, t, s₁, s₂, hb, -⟩
    simpa using List.prefix_nil.mp hb

/-- **One message for each visit.** A navigation is sent at most once. A tab has a
timeout if and only if a visit waits in it, and then just one. When no timeout is
set, what `tabs.get` answered was sent, unless it was replaced while it waited by
a visit of the same tab that waited after it. -/
theorem one_message_each (hostname : Text → Option Text) (acts : List Act) (s : State)
    (hr : Runs.run (step hostname) State.init acts = some s) :
    (∀ n, (s.visits.sent.map Message.navigation).count n ≤ 1) ∧
    (∀ m ∈ s.visits.sent, ∃ v, s.visits.navigations[m.navigation]? = some v ∧
      v.timestamp = m.timestamp ∧ v.url = m.url) ∧
    (∀ tabId e, s.visits.pendingVisits.lookup tabId = some e → ∃! id, s.visits.timers.lookup id = some tabId) ∧
    (∀ tabId id, s.visits.timers.lookup id = some tabId → ∃ e, s.visits.pendingVisits.lookup tabId = some e) ∧
    ((∀ id, s.visits.timers.lookup id = none) → ∀ n v title, s.visits.navigations[n]? = some v →
      v.reply = some (some title) →
      ((s.visits.sent.map Message.navigation).count n = 1 ∧ ∀ k, ¬Superseded hostname acts n k) ∨
      (n ∉ s.visits.sent.map Message.navigation ∧ v.Parked hostname title ∧
        ∃ k w t, Superseded hostname acts n k ∧ s.visits.navigations[k]? = some w ∧ w.tabId = v.tabId ∧
          w.Parked hostname t)) := by
  have h := visits_run hr
  simp only [← mem_superseded_iff hr]
  have hnodup := List.nodup_append.mp h.once
  refine ⟨List.nodup_iff_count_le_one.mp hnodup.1, fun m hm => ?_, fun tabId e he => ?_,
    fun tabId id ht => ?_, ?_⟩
  · obtain ⟨v, hv, ht, hu, -⟩ := h.sent m hm
    exact ⟨v, hv, ht, hu⟩
  · refine ⟨e.timerId, h.own tabId e he, fun id ht => ?_⟩
    obtain ⟨e', he', rfl⟩ := h.timed id tabId ht
    rw [he] at he'
    cases he'
    rfl
  · obtain ⟨e, he, -⟩ := h.timed id tabId ht
    exact ⟨e, he⟩
  · intro hnone n v title hn hv
    rcases h.all n v title hn hv with hnow | hset | ⟨e, he, -⟩
    · cases hnow
    · rcases List.mem_append.mp hset with hs | hs
      · exact Or.inl ⟨List.count_eq_one_of_mem hnodup.1 hs, fun k hk =>
          hnodup.2.2 n hs n (List.mem_map.mpr ⟨(n, k), hk, rfl⟩) rfl⟩
      · right
        obtain ⟨⟨i, k⟩, hk, hi⟩ := List.mem_map.mp hs
        dsimp only at hi
        obtain ⟨v', w, hv', hw, -, ht, ⟨t', hp⟩, t, hq⟩ := h.replaced _ hk
        rw [hi, hn] at hv'
        cases hv'
        have he : t' = title := by
          have hp₁ := hp.1
          rw [hv] at hp₁
          exact (Option.some.inj (Option.some.inj hp₁)).symm
        exact ⟨fun hs' => hnodup.2.2 n hs' n hs rfl, he ▸ hp, k, w, t, hi ▸ hk, hw, ht.symm, hq⟩
    · have := h.own v.tabId e he
      rw [hnone] at this
      cases this

/-- Two pages of one tab, without a title at first; the second replaces the first. -/
def twoPages : List Act :=
  [.navigate 0 1 (ascii "https://a.example/") (ascii "10:00"), .gotTab 0 (some []),
    .navigate 0 1 (ascii "https://b.example/") (ascii "10:01"), .gotTab 1 (some []), .updated 1 (ascii "B")]

def hostOf (url : Text) : Option Text :=
  if url = ascii "https://a.example/" then some (ascii "a.example")
  else if url = ascii "https://b.example/" then some (ascii "b.example")
  else none

theorem one_message_each_two_pages : ∃ s, Runs.run (step hostOf) State.init twoPages = some s ∧
    s.visits.sent = [⟨1, ascii "10:01", ascii "https://b.example/", ascii "B"⟩] ∧
    (∀ n, (s.visits.sent.map Message.navigation).count n ≤ 1) ∧ ∃ k, Superseded hostOf twoPages 0 k := by
  refine ⟨_, rfl, rfl, (one_message_each hostOf twoPages _ rfl).1, ?_⟩
  rcases (one_message_each hostOf twoPages _ rfl).2.2.2.2 (fun _ => rfl) 0 _ [] rfl rfl with
    ⟨hcount, -⟩ | ⟨-, -, k, -, -, hk, -⟩
  · cases hcount
  · exact ⟨k, hk⟩

end Background

end VisitLogger
