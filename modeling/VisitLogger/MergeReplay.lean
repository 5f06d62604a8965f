import VisitLogger.MergeSteps

/-!
# A rebuild around a merge

The rebuilder replays an archived log before the one in `LOG_DIR` of its date, so
a merge moves no line to another place in the replay. A merge that is killed when
it has appended a log, and runs again, puts the lines of the log there twice or
more; the replays after the first change nothing. So a rebuild gives the same
database before a merge, after it, and after any number of broken ones
(`Merged.sameRebuild`).
-/

namespace VisitLogger

open Framing
open VisitsRebuilder (Dir State Agree AtMostOnce OpenFirst replayFile replayLine replayLines_settled replayLogs collectLogPaths)

/-! ## Replaying a date -/

section
variable {downloads : Text} {s s' : State}

theorem replayFile_eq (s : State) (file : Text × Text) : replayFile downloads s file =
    (fileLines file.2).foldl (replayLine downloads) { s with db := s.db.insertSnapshot file.1 } := rfl

theorem insertSnapshot_replayed (s : State) (d : Text) (lines : List Text) :
    (lines.foldl (replayLine downloads) { s with db := s.db.insertSnapshot d }).db.insertSnapshot d =
      (lines.foldl (replayLine downloads) { s with db := s.db.insertSnapshot d }).db := by
  obtain ⟨-, hdb⟩ := replayLines_settled downloads { s with db := s.db.insertSnapshot d } lines
  refine Db.insertSnapshot_of_mem ?_
  rw [hdb, Db.snapshots_ops]
  exact Db.mem_insertSnapshot s.db d

theorem replay_twoFiles (s : State) (d content body : Text) :
    [(d, content), (d, body)].foldl (replayFile downloads) s =
      (fileLines content ++ fileLines body).foldl
        (replayLine downloads) { s with db := s.db.insertSnapshot d } := by
  rw [List.foldl_append, List.foldl_cons, List.foldl_cons, List.foldl_nil, replayFile_eq, replayFile_eq]
  dsimp only
  rw [insertSnapshot_replayed]

theorem VisitsRebuilder.Agree.insertSnapshot (h : Agree s s') (d : Text) :
    Agree { s with db := s.db.insertSnapshot d } { s' with db := s'.db.insertSnapshot d } :=
  ⟨congrArg (·.insertSnapshot d) h.db, h.pending⟩

theorem VisitsRebuilder.Agree.files (h : Agree s s') (files : List (Text × Text)) :
    Agree (files.foldl (replayFile downloads) s) (files.foldl (replayFile downloads) s') := by
  induction files generalizing s s' with
  | nil => exact h
  | cons file files ih => exact ih ((h.insertSnapshot file.1).lines (fileLines file.2))

/-- **A date of which a log has been appended** any number of times. -/
theorem DayMerged.agree {src dst src' dst' : Option Text} (h : DayMerged src dst src' dst')
    (ho : ∀ body ∈ src, OpenFirst (fileLines body)) (d : Text) (hs : Agree s s') :
    Agree (((dst.toList ++ src.toList).map fun content => (d, content)).foldl (replayFile downloads) s)
      (((dst'.toList ++ src'.toList).map fun content => (d, content)).foldl (replayFile downloads) s') := by
  cases h with
  | same => exact hs.files _
  | @appended body content content' _ n hsrc hdst hclosed hlines hlog =>
    subst hsrc hdst
    -- the lines of the log come once, or at least once
    have hmore : ∃ n, ((((some content').toList ++ src'.toList).map fun content => (d, content)).foldl
      (replayFile downloads) s') =
        (fileLines content ++ (List.replicate (n + 1) (fileLines body)).flatten).foldl (replayLine downloads)
          { s' with db := s'.db.insertSnapshot d } := by
      rcases hlog with rfl | rfl
      · refine ⟨n + 1, ?_⟩
        have htwo : [(d, content'), (d, body)].foldl (replayFile downloads) s' = _ :=
          replay_twoFiles s' d content' body
        rw [hlines] at htwo
        rw [List.replicate_succ' (n := n + 1), List.flatten_concat, ← List.append_assoc]
        exact htwo
      · refine ⟨n, ?_⟩
        rw [← hlines]
        rfl
    obtain ⟨n, hmore⟩ := hmore
    have honce : (((some content).toList ++ (some body).toList).map fun content => (d, content)).foldl
      (replayFile downloads) s =
        (fileLines content ++ fileLines body).foldl
          (replayLine downloads) { s with db := s.db.insertSnapshot d } :=
      replay_twoFiles s d content body
    rw [honce, hmore, List.foldl_append, List.foldl_append]
    exact (((hs.insertSnapshot d).lines (fileLines content)).lines (fileLines body)).trans
      (Agree.replicate (ho body rfl) n _).symm

end

/-! ## Replaying all of them -/

section
variable {m k : Mac}

theorem Merged.named (h : Merged m k) (hn : m.Named) : k.Named where
  log name hname := hn.log name (h.log name hname)
  copy name d hname := hn.copy name d (h.copy name d hname)

theorem Merged.mem_dates (h : Merged m k) {d : Text} (hd : d ∈ k.dates) : d ∈ m.dates := by
  rw [Mac.dates, mem_sortStrings, List.mem_filter, List.mem_dedup, List.mem_append] at hd ⊢
  refine ⟨hd.1.imp (fun hlog => ?_) fun hdate => h.dates d hdate, hd.2⟩
  obtain ⟨name, hname, hre⟩ := List.mem_filterMap.mp hlog
  exact List.mem_filterMap.mpr ⟨name, h.log name hname, hre⟩

/-- Day logs, one for each date and place, in which each record has at most one action and at most one
result, which comes later. -/
structure Mac.DayLogs (m : Mac) : Prop where
  named : m.Named
  closed : m.Closed
  once : AtMostOnce m.lines

theorem Mac.DayLogs.openFirst (h : m.DayLogs) {d body : Text} (hd : d ∈ m.dates)
    (hbody : m.logText d = some body) :
    OpenFirst (fileLines body) := by
  obtain ⟨before, after, hdates⟩ := List.append_of_mem hd
  have hlines : m.lines = before.flatMap m.dayLines ++ ((m.copyText d).toList.flatMap fileLines) ++
    fileLines body ++
      after.flatMap m.dayLines := by
    rw [Mac.lines, hdates, List.flatMap_append, List.flatMap_cons, Mac.dayLines, Mac.dayFiles, hbody]
    simp [List.flatMap_map]
  have honce := h.once
  rw [hlines] at honce
  exact honce.openFirst

/-- What a rebuild gives is the same, whatever the order in which the directories are listed. -/
def SameRebuild (downloads : Text) (db : Db) (m k : Mac) : Prop := ∀ logDir icloudDir logDir' icloudDir',
  m.Found logDir icloudDir → k.Found logDir' icloudDir' →
    (replayLogs downloads db (some logDir) (some icloudDir)).1 =
      (replayLogs downloads db (some logDir') (some icloudDir')).1

/-- **Merges, broken or not, leave the rebuild as it is.** -/
theorem Merged.sameRebuild (h : Merged m k) (hl : m.DayLogs) (downloads : Text) (db : Db) :
    SameRebuild downloads db m k := by
  intro logDir icloudDir logDir' icloudDir' hm hk
  have hsorted := dates_sorted m
  have hfiles := collectLogPaths_found hl.named hm hsorted (fun _ hd => hd) fun _ hd => logRe_of_mem_dates hd
  have hfiles' := collectLogPaths_found (h.named hl.named) hk hsorted (fun _ hd =>
    h.mem_dates hd) fun _ hd => logRe_of_mem_dates hd
  have hagree : ∀ (D : List Text), (∀ d ∈ D, d ∈ m.dates) → ∀ s s', Agree s s' →
      Agree ((D.flatMap m.dayFiles).foldl (replayFile downloads) s)
        ((D.flatMap k.dayFiles).foldl (replayFile downloads) s') := by
    intro D
    induction D with
    | nil => exact fun _ _ _ hs => hs
    | cons d D ih =>
      intro hD s s' hs
      have hd := hD d (by simp)
      rw [List.flatMap_cons, List.flatMap_cons, List.foldl_append, List.foldl_append]
      refine ih (fun d hd => hD d (List.mem_cons_of_mem _ hd)) _ _ ?_
      exact (h.day d (logRe_of_mem_dates hd)).agree (fun body hbody => hl.openFirst hd hbody) d hs
  rw [replayLogs, replayLogs, hfiles, hfiles']
  exact (hagree m.dates (fun _ hd => hd) _ _ (.refl _)).db

/-- **A rebuild is the same** before a merge pass, after it, and when the pass is killed between any two of
its steps and runs again. -/
theorem rebuild_merged (hl : m.DayLogs) (downloads : Text) (db : Db) (g : Merger) (today : Text) :
    SameRebuild downloads db m (g.pass today m) ∧
      ∀ k ∈ g.passSteps today (sortStrings m.logDir.keys) m, SameRebuild downloads db m k ∧
        ∀ (g' : Merger) (today' : Text), SameRebuild downloads db m (g'.pass today' k) := by
  have hm := Merged.refl m
  refine ⟨(hm.pass hl.closed g today).sameRebuild hl downloads db, fun k hk => ?_⟩
  have hmerged := hm.passSteps hl.closed hk
  exact ⟨hmerged.sameRebuild hl downloads db,
    fun g' today' => (hmerged.pass hl.closed g' today').sameRebuild hl downloads db⟩

end

/-! ## A split log -/

/-- A seal has moved the log of a day when it had an action; its result came afterwards. -/
def splitLog : Mac where
  downloads := ∅
  logDir := AList.singleton (logFilename Seal.newYear)
    (.file 0o644 (ascii "0123456789abcdef0123456789abcdef\tsuccess\n"))
  archive := AList.singleton Seal.newYear (.folder (AList.singleton (logFilename Seal.newYear) (.file 0o444
    (ascii "0123456789abcdef0123456789abcdef\t2026-01-01T12:00:00Z\thttps://a.example/\tA\n"))))
  db := Db.empty []

theorem lookup_singleton {β : Type*} {a k : Text} {b c : β}
    (h : (AList.singleton a b : AList fun _ : Text => β).lookup k = some c) : k = a ∧ c = b := by
  rw [← AList.insert_empty] at h
  by_cases hk : k = a
  · rw [hk, AList.lookup_insert] at h
    exact ⟨hk, (Option.some.inj h).symm⟩
  · rw [AList.lookup_insert_ne hk, AList.lookup_empty] at h
    cases h

theorem splitLog_copy {name d : Text} {node : Node} (h : OrphanLog.counterpart splitLog d name = some node) :
    name = logFilename Seal.newYear ∧ node = .file 0o444
      (ascii "0123456789abcdef0123456789abcdef\t2026-01-01T12:00:00Z\thttps://a.example/\tA\n") := by
  obtain ⟨dir, hdir, hnode⟩ := Option.bind_eq_some_iff.mp h
  unfold Mac.folder at hdir
  cases hsite : splitLog.archive.lookup d with
  | none =>
    rw [hsite] at hdir
    cases hdir
  | some site =>
    rw [hsite, (lookup_singleton hsite).2] at hdir
    obtain rfl := Option.some.inj hdir
    exact lookup_singleton hnode

theorem splitLog_named : splitLog.Named where
  log name hname d hre := by
    obtain ⟨node, hnode⟩ := Option.isSome_iff_exists.mp (AList.lookup_isSome.mpr hname)
    obtain ⟨rfl, -⟩ := lookup_singleton hnode
    obtain rfl : Seal.newYear = d := Option.some.inj ((logRe_logFilename (by decide)).symm.trans hre)
    rfl
  copy name d hname hre := by
    obtain ⟨node, hnode⟩ := Option.isSome_iff_exists.mp hname
    obtain ⟨rfl, -⟩ := splitLog_copy hnode
    obtain rfl : Seal.newYear = d := Option.some.inj ((logRe_logFilename (by decide)).symm.trans hre)
    rfl

set_option maxRecDepth 4000 in
theorem splitLog_dayLogs : splitLog.DayLogs where
  named := splitLog_named
  closed := by
    refine ⟨fun d _ body hbody => ?_, fun d _ content hcontent => ?_⟩
    · obtain ⟨node, hnode, hbody⟩ := Option.bind_eq_some_iff.mp hbody
      obtain ⟨-, rfl⟩ := lookup_singleton hnode
      obtain rfl := Option.some.inj hbody
      decide
    · obtain ⟨node, hnode, hcontent⟩ := Option.bind_eq_some_iff.mp hcontent
      obtain ⟨-, rfl⟩ := splitLog_copy hnode
      obtain rfl := Option.some.inj hcontent
      decide
  once := by decide

/-- The sealer merges the log, in four steps. -/
theorem rebuild_merged_split : (Merger.python.passSteps (ascii "2026-02-01")
    (sortStrings splitLog.logDir.keys) splitLog).length = 4 ∧
    SameRebuild (ascii "/downloads") (Db.empty (ascii "/downloads")) splitLog
      (Merger.python.pass (ascii "2026-02-01") splitLog) ∧
      ∀ k ∈ Merger.python.passSteps (ascii "2026-02-01") (sortStrings splitLog.logDir.keys) splitLog,
        SameRebuild (ascii "/downloads") (Db.empty (ascii "/downloads")) splitLog k ∧
          ∀ (g' : Merger) (today' : Text), SameRebuild (ascii "/downloads")
            (Db.empty (ascii "/downloads")) splitLog (g'.pass today' k) :=
  ⟨by decide +kernel, rebuild_merged splitLog_dayLogs (ascii "/downloads")
    (Db.empty (ascii "/downloads")) .python (ascii "2026-02-01")⟩

end VisitLogger
