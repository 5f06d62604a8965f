import VisitLogger.Drain
import VisitLogger.History
import VisitLogger.MergeRace
import VisitLogger.ReplayAgain

/-!
# The day logs that a rebuild finds

Each date has at most two logs, the archive's copy and the one in `LOG_DIR`. The
rebuilder replays them date by date, the copy first, in whatever order the
directories list them (`collectLogPaths_found`).
-/

namespace VisitLogger

open Framing

/-! ## Lists by a key -/

section
variable {κ β : Type*} [LinearOrder κ] [DecidableEq κ] {F : List (κ × β)}

theorem filter_first {d : κ} (hF : F.Pairwise fun a b => a.1 ≤ b.1) (hd : ∀ e ∈ F, d ≤ e.1) :
    F = F.filter (fun e => e.1 = d) ++ F.filter fun e => e.1 ≠ d := by
  induction F with
  | nil => rfl
  | cons e F ih =>
    obtain ⟨he, hF⟩ := List.pairwise_cons.mp hF
    by_cases hed : e.1 = d
    · have hrest := ih hF fun e he => hd e (List.mem_cons_of_mem _ he)
      simp only [List.filter_cons, hed, decide_true, if_true, ne_eq, not_true_eq_false, decide_false,
        Bool.false_eq_true, if_false, List.cons_append]
      exact congrArg (e :: ·) hrest
    · have hlt : d < e.1 := lt_of_le_of_ne (hd e (by simp)) (Ne.symm hed)
      have hne : ∀ e' ∈ e :: F, e'.1 ≠ d := by
        intro e' he'
        rcases List.mem_cons.mp he' with rfl | he'
        · exact hed
        · exact ne_of_gt (lt_of_lt_of_le hlt (he e' he'))
      have hnone : (e :: F).filter (fun e => e.1 = d) = [] :=
        List.filter_eq_nil_iff.mpr fun e' he' => by simp [hne e' he']
      have hall : ((e :: F).filter fun e => e.1 ≠ d) = e :: F :=
        List.filter_eq_self.mpr fun e' he' => by simp [hne e' he']
      rw [hnone, hall, List.nil_append]

theorem eq_flatMap_filter {D : List κ} (hD : D.Pairwise (· < ·)) (hF : F.Pairwise fun a b => a.1 ≤ b.1)
    (hmem : ∀ e ∈ F, e.1 ∈ D) : F = D.flatMap fun d => F.filter fun e => e.1 = d := by
  induction D generalizing F with
  | nil =>
    cases F with
    | nil => rfl
    | cons e F => exact absurd (hmem e (by simp)) List.not_mem_nil
  | cons d D ih =>
    obtain ⟨hd, hD⟩ := List.pairwise_cons.mp hD
    have hle : ∀ e ∈ F, d ≤ e.1 := by
      intro e he
      rcases List.mem_cons.mp (hmem e he) with h | h
      · exact le_of_eq h.symm
      · exact le_of_lt (hd e.1 h)
    have hrest := ih hD (hF.filter fun e => e.1 ≠ d) fun e he => by
      obtain ⟨he, hne⟩ := List.mem_filter.mp he
      exact (List.mem_cons.mp (hmem e he)).resolve_left (of_decide_eq_true hne)
    have hfilter : ∀ d' ∈ D, (F.filter fun e => e.1 ≠ d).filter (fun e => e.1 = d') = F.filter fun e =>
      e.1 = d' := by
      intro d' hd'
      rw [List.filter_filter]
      refine List.filter_congr fun e _ => ?_
      by_cases he : e.1 = d'
      · simp [he, ne_of_gt (hd d' hd')]
      · simp [he]
    rw [List.flatMap_cons, ← List.flatMap_congr hfilter, ← hrest]
    exact filter_first hF hle

end

theorem filterMap_entries {β γ : Type*} (a : AList fun _ : Text => β) (k : Text)
    (F : (Σ _ : Text, β) → Option γ)
    (h : ∀ e ∈ a.entries, e.1 ≠ k → F e = none) :
    a.entries.filterMap F = ((a.lookup k).bind fun v => F ⟨k, v⟩).toList := by
  obtain ⟨l, hl⟩ := a
  show l.filterMap F = ((l.dlookup k).bind fun v => F ⟨k, v⟩).toList
  induction l with
  | nil => rfl
  | cons e l ih =>
    obtain ⟨hne, hl⟩ := List.nodupKeys_cons.mp hl
    have hrest := ih hl fun e' he' => h e' (List.mem_cons_of_mem _ he')
    obtain ⟨k', v⟩ := e
    by_cases hk : k' = k
    · subst hk
      have hnone : l.filterMap F = [] := by
        rw [hrest, List.dlookup_eq_none.mpr hne]
        rfl
      rw [List.filterMap_cons, hnone, List.dlookup_cons_eq, Option.bind_some]
      cases F ⟨k', v⟩ <;> rfl
    · rw [List.filterMap_cons, h ⟨k', v⟩ (by simp) hk, List.dlookup_cons_ne l ⟨k', v⟩ (Ne.symm hk)]
      exact hrest

theorem flatMap_of_name {β γ : Type*} {l : List (Text × β)} (hl : (l.map Prod.fst).Nodup) {x : Text × β}
    (hx : x ∈ l)
    {g : Text × β → List γ} (h : ∀ y ∈ l, y.1 ≠ x.1 → g y = []) : l.flatMap g = g x := by
  induction l with
  | nil => cases hx
  | cons y l ih =>
    rw [List.map_cons, List.nodup_cons] at hl
    rw [List.flatMap_cons]
    rcases List.mem_cons.mp hx with rfl | hx
    · have hnone : l.flatMap g = [] := by
        refine List.flatMap_eq_nil_iff.mpr fun z hz => h z (List.mem_cons_of_mem _ hz) ?_
        intro hzx
        exact hl.1 (hzx ▸ List.mem_map_of_mem hz)
      rw [hnone, List.append_nil]
    · have hyx : y.1 ≠ x.1 := by
        intro hyx
        exact hl.1 (hyx ▸ List.mem_map_of_mem hx)
      rw [h y (by simp) hyx, List.nil_append]
      exact ih hl.2 hx fun z hz => h z (List.mem_cons_of_mem _ hz)

/-! ## What the directories list -/

open MergeRace (logOf)
open OrphanLog (counterpart counterpart_some counterpart_none)
open VisitsRebuilder (Dir AtMostOnce collectLogPaths logBefore replayFile replayLine replayLogs)

/-- `os.listdir` gives the names of a directory in any order. -/
def Lists (dir : Folder) (listing : Dir) : Prop :=
  listing.Perm (dir.entries.map fun e => (e.1, logOf (some e.2)))

/-- What the rebuilder can find in `LOG_DIR` and in the archive. -/
structure Mac.Found (m : Mac) (logDir : Dir) (icloudDir : List (Text × Option Dir)) : Prop where
  log : Lists m.logDir logDir
  dates : (icloudDir.map Prod.fst).Perm m.archive.keys
  listed : ∀ date sub, (date, some sub) ∈ icloudDir → ∃ dir, m.folder date = some dir ∧ Lists dir sub
  plain : ∀ date, (date, none) ∈ icloudDir → m.folder date = none

namespace Mac

def logText (m : Mac) (d : Text) : Option Text := logOf (m.logDir.lookup (logFilename d))

def copyText (m : Mac) (d : Text) : Option Text := logOf (counterpart m d (logFilename d))

def dayFiles (m : Mac) (d : Text) : List (Text × Text) :=
  ((m.copyText d).toList ++ (m.logText d).toList).map fun content => (d, content)

def dayLines (m : Mac) (d : Text) : List Text := (m.dayFiles d).flatMap fun file => fileLines file.2

def dates (m : Mac) : List Text :=
  sortStrings ((m.logDir.keys.filterMap logRe ++ m.archive.keys).dedup.filter fun d =>
    logRe (logFilename d) = some d)

def lines (m : Mac) : List Text := m.dates.flatMap m.dayLines

/-- What passes for the log of a date is under its name. -/
structure Named (m : Mac) : Prop where
  log : ∀ name ∈ m.logDir, ∀ d, logRe name = some d → name = logFilename d
  copy : ∀ name d, (counterpart m d name).isSome → logRe name = some d → name = logFilename d

end Mac

section
variable {m : Mac} {d : Text} {logDir : Dir} {icloudDir : List (Text × Option Dir)}

theorem dateDirRe_log {name : Text} (h : logRe name = some d) : dateDirRe d = true := by
  simp only [logRe, VisitLogger.datePrefix, Option.bind_eq_bind, Option.bind_eq_some_iff,
    Option.map_eq_some_iff] at h
  obtain ⟨s, -, ⟨d', r'⟩, ⟨r, hr, he⟩, r'', -, h⟩ := h
  simp only [Prod.mk.injEq] at he
  obtain ⟨w, rfl, hw⟩ := takes_date takes_unicodeDigit s r hr
  have hd : d = w := by
    split at h
    · rw [← Option.some.inj h, ← he.1]
      simp
    · cases h
  have hdate := (hw []).1
  rw [List.append_nil] at hdate
  simp [dateDirRe, hd, hdate, atEnd]

open VisitsRebuilder (freshLog archivedLog archivedLogs collectLogPaths_eq)

theorem freshLogs_date (hn : m.Named) (hf : Lists m.logDir logDir) (hd : logRe (logFilename d) = some d) :
    ((logDir.filterMap freshLog).filter fun e => e.1 = d).Perm ((m.logText d).toList.map fun content =>
      (d, 1, content)) := by
  refine ((hf.filterMap freshLog).filter _).trans ?_
  rw [List.filterMap_map, List.filter_filterMap]
  rw [filterMap_entries m.logDir (logFilename d)]
  · rw [Mac.logText]
    cases m.logDir.lookup (logFilename d) with
    | none => exact .refl _
    | some node =>
      simp only [Function.comp, freshLog, hd, Option.bind_some]
      cases logOf (some node) <;> simp
  · intro e he hne
    have hmem : e.1 ∈ m.logDir := List.mem_keys_of_mem he
    simp only [Function.comp, freshLog]
    cases hre : logRe e.1 with
    | none => rfl
    | some d' =>
      have hd' : d' ≠ d := by
        rintro rfl
        exact hne (hn.log e.1 hmem d' hre)
      cases logOf (some e.2) with
      | none => rfl
      | some content => simp [hd']

theorem date_archivedLogs {x : Text × Option Dir} {e : Text × Nat × Text} (he : e ∈ archivedLogs x) :
    e.1 = x.1 := by
  unfold archivedLogs at he
  split at he
  · obtain ⟨y, -, hy⟩ := List.mem_filterMap.mp he
    unfold archivedLog at hy
    split at hy
    · split at hy
      · rename_i hdate
        rw [← Option.some.inj hy]
        exact hdate
      · cases hy
    · cases hy
  · cases he

theorem archivedLog_date {dir : Folder} {sub : Dir} (hn : m.Named) (hdir : m.folder d = some dir)
    (hf : Lists dir sub)
    (hd : logRe (logFilename d) = some d) :
    ((archivedLogs (d, some sub)).filter fun e => e.1 = d).Perm
      ((m.copyText d).toList.map fun content => (d, 0, content)) := by
  rw [archivedLogs, if_pos (dateDirRe_log hd), Option.getD_some]
  refine ((hf.filterMap (archivedLog d)).filter _).trans ?_
  rw [List.filterMap_map, List.filter_filterMap]
  rw [filterMap_entries dir (logFilename d)]
  · rw [Mac.copyText, counterpart_some hdir]
    cases dir.lookup (logFilename d) with
    | none => exact .refl _
    | some node =>
      simp only [Function.comp, archivedLog, hd, Option.bind_some]
      cases logOf (some node) <;> simp
  · intro e he hne
    have hcopy : (counterpart m d e.1).isSome := by
      rw [counterpart_some hdir]
      exact AList.lookup_isSome.mpr (List.mem_keys_of_mem he)
    simp only [Function.comp, archivedLog]
    cases hre : logRe e.1 with
    | none => rfl
    | some d' =>
      have hd' : d' ≠ d := by
        rintro rfl
        exact hne (hn.copy e.1 d' hcopy hre)
      cases logOf (some e.2) with
      | none => rfl
      | some content => simp [hd']

theorem archivedLogs_date (hn : m.Named) (hf : m.Found logDir icloudDir) (hd : logRe (logFilename d) = some d) :
    ((icloudDir.flatMap archivedLogs).filter fun e => e.1 = d).Perm
      ((m.copyText d).toList.map fun content => (d, 0, content)) := by
  rw [List.filter_flatMap]
  have hother : ∀ x ∈ icloudDir, x.1 ≠ d → ((archivedLogs x).filter fun e => e.1 = d) = [] := by
    intro x _ hx
    refine List.filter_eq_nil_iff.mpr fun e he => ?_
    rw [date_archivedLogs he]
    simp [hx]
  have hnames : (icloudDir.map Prod.fst).Nodup := hf.dates.nodup_iff.mpr m.archive.keys_nodup
  by_cases hmem : d ∈ icloudDir.map Prod.fst
  · obtain ⟨⟨date, sub⟩, hx, hdate⟩ := List.mem_map.mp hmem
    dsimp only at hdate
    subst hdate
    rw [flatMap_of_name hnames hx hother]
    cases sub with
    | some sub =>
      obtain ⟨dir, hdir, hsub⟩ := hf.listed date sub hx
      exact archivedLog_date hn hdir hsub hd
    | none =>
      have hnone : m.copyText date = none := by
        rw [Mac.copyText, counterpart_none (hf.plain date hx)]
        rfl
      rw [hnone, archivedLogs]
      split <;> exact .refl _
  · have hnone : m.copyText d = none := by
      have hlookup : m.archive.lookup d = none :=
        AList.lookup_eq_none.mpr fun h => hmem (hf.dates.mem_iff.mpr h)
      rw [Mac.copyText, counterpart, Mac.folder, hlookup]
      rfl
    have hnil : (icloudDir.flatMap fun x => (archivedLogs x).filter fun e => e.1 = d) = [] := by
      refine List.flatMap_eq_nil_iff.mpr fun x hx => hother x hx ?_
      intro hxd
      exact hmem (hxd ▸ List.mem_map_of_mem hx)
    rw [hnil, hnone]
    exact .refl _

/-- **What is found of a date.** -/
theorem collectLogPaths_date (hn : m.Named) (hf : m.Found logDir icloudDir)
    (hd : logRe (logFilename d) = some d) :
    (collectLogPaths (some logDir) (some icloudDir)).filter (fun file => file.1 = d) = m.dayFiles d := by
  let target := (m.copyText d).toList.map (fun content => (d, 0, content)) ++
    (m.logText d).toList.map fun content => (d, 1, content)
  have hperm : ((icloudDir.flatMap archivedLogs ++ logDir.filterMap freshLog).insertionSort logBefore |>.filter
      fun e => e.1 = d).Perm target := by
    refine ((List.perm_insertionSort _ _).filter _).trans ?_
    rw [List.filter_append]
    exact (archivedLogs_date hn hf hd).append (freshLogs_date hn hf.log hd)
  have hsorted : target.Pairwise logBefore := by
    simp only [target]
    cases m.copyText d <;> cases m.logText d <;> simp [logBefore]
  have heq := hperm.eq_of_pairwise ?_ ((List.pairwise_insertionSort logBefore _).filter _) hsorted
  · rw [collectLogPaths_eq, Option.getD_some, Option.getD_some, List.filter_map]
    refine (congrArg (List.map _) heq).trans ?_
    simp only [target, Mac.dayFiles, List.map_append, List.map_map]
    rfl
  · intro a b ha hb hab hba
    have ha := hperm.mem_iff.mp ha
    simp only [target, List.mem_append, List.mem_map, Option.mem_toList] at ha hb
    -- the two logs of a date come in one order only
    rcases ha with ⟨c, hc, rfl⟩ | ⟨c, hc, rfl⟩ <;> rcases hb with ⟨c', hc', rfl⟩ | ⟨c', hc', rfl⟩
    · rw [hc] at hc'
      rw [Option.some.inj hc']
    · simp [logBefore] at hba
    · simp [logBefore] at hab
    · rw [hc] at hc'
      rw [Option.some.inj hc']

theorem date_found (hn : m.Named) (hf : m.Found logDir icloudDir) {file : Text × Text}
    (hfile : file ∈ collectLogPaths (some logDir) (some icloudDir)) : file.1 ∈ m.dates := by
  rw [collectLogPaths_eq, Option.getD_some, Option.getD_some] at hfile
  obtain ⟨e, he, rfl⟩ := List.mem_map.mp hfile
  have he := (List.perm_insertionSort _ _).mem_iff.mp he
  rw [Mac.dates, mem_sortStrings, List.mem_filter, List.mem_dedup, List.mem_append, decide_eq_true_iff]
  rcases List.mem_append.mp he with he | he
  · obtain ⟨⟨date, sub⟩, hx, he⟩ := List.mem_flatMap.mp he
    have hdate := date_archivedLogs he
    dsimp only at hdate ⊢
    rw [hdate]
    refine ⟨Or.inr (hf.dates.mem_iff.mp (List.mem_map_of_mem hx)), ?_⟩
    unfold archivedLogs at he
    split at he
    · cases sub with
      | none => cases he
      | some sub =>
        obtain ⟨dir, hdir, hsub⟩ := hf.listed date sub hx
        obtain ⟨y, hy, he⟩ := List.mem_filterMap.mp he
        unfold archivedLog at he
        split at he
        · rename_i d' content hre _
          split at he
          · rename_i hd'
            subst hd'
            obtain ⟨f, hf', rfl⟩ := List.mem_map.mp (hsub.mem_iff.mp hy)
            have hcopy : (counterpart m d' f.1).isSome := by
              rw [counterpart_some hdir]
              exact AList.lookup_isSome.mpr (List.mem_keys_of_mem hf')
            have hname := hn.copy f.1 d' hcopy hre
            dsimp only at hre
            rwa [hname] at hre
          · cases he
        · cases he
    · cases he
  · obtain ⟨y, hy, he⟩ := List.mem_filterMap.mp he
    unfold freshLog at he
    split at he
    · rename_i d' content hre _
      rw [← Option.some.inj he]
      obtain ⟨f, hf', rfl⟩ := List.mem_map.mp (hf.log.mem_iff.mp hy)
      have hmem : f.1 ∈ m.logDir := List.mem_keys_of_mem hf'
      have hname := hn.log f.1 hmem d' hre
      dsimp only at hre ⊢
      refine ⟨Or.inl (List.mem_filterMap.mpr ⟨f.1, hmem, hre⟩), ?_⟩
      rwa [hname] at hre
    · cases he

theorem logRe_of_mem_dates (h : d ∈ m.dates) : logRe (logFilename d) = some d := by
  rw [Mac.dates, mem_sortStrings, List.mem_filter] at h
  exact of_decide_eq_true h.2

theorem dates_sorted (m : Mac) : m.dates.Pairwise (· < ·) := sortStrings_strict ((List.nodup_dedup _).filter _)

/-- **The rebuilder replays the logs date by date**, those of the dates that can have one. -/
theorem collectLogPaths_found (hn : m.Named) (hf : m.Found logDir icloudDir) {D : List Text}
    (hD : D.Pairwise (· < ·))
    (hmem : ∀ d ∈ m.dates, d ∈ D) (hdate : ∀ d ∈ D, logRe (logFilename d) = some d) :
    collectLogPaths (some logDir) (some icloudDir) = D.flatMap m.dayFiles := by
  have hsorted : (collectLogPaths (some logDir) (some icloudDir)).Pairwise fun a b => a.1 ≤ b.1 := by
    refine List.pairwise_map.mpr ((List.pairwise_insertionSort logBefore _).imp ?_)
    intro a b h
    rcases h with h | ⟨h, -⟩
    · exact le_of_lt h
    · exact le_of_eq h
  rw [eq_flatMap_filter hD hsorted fun file hfile => hmem _ (date_found hn hf hfile)]
  exact List.flatMap_congr fun d hd => collectLogPaths_date hn hf (hdate d hd)

end

end VisitLogger
