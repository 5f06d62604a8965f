import VisitLogger.Rehydrate
import VisitLogger.Replicas

/-!
# Every writer keeps the counters right

The host, the two replays, the rebuilder and the archive move all write the
visits database. Whatever they do to the rows comes to operations, so every
database that they lead to is coherent (`counters_right`).
-/

namespace VisitLogger

/-! ## Single replays -/

namespace Store

/-- **A replay keeps the counters right**, whether it fails or not. -/
theorem coherent_replayLine {db : Db} (h : db.Coherent) (fails : Stmt → Bool) (raw : Text) :
    (replayLine fails db raw).1.Coherent := by
  by_cases hf : (replayLine fails db raw).2 = none
  · rw [replayLine_none hf, replayLine_eq, applyOpt_ops]
    exact h.ops _
  · rcases replayLine_error hf with hdb | ⟨_, ts, u, ti, _, _, hdb⟩
    · rw [hdb]; exact h
    · rw [hdb]; exact h.apply _

end Store

theorem SyncClient.coherent_replayIntoDb {db : Db} (h : db.Coherent) (raw : Text) :
    (SyncClient.replayIntoDb db raw).Coherent := by
  rw [SyncClient.replayIntoDb_eq, applyOpt_ops]
  exact h.ops _

/-! ## The host -/

theorem BVLHost.coherent_handle {db : Db} (h : db.Coherent) (downloads : Text) (logs : List (Text × Text))
    (inv : Invocation) : (handle downloads ⟨db, logs⟩ inv).1.db.Coherent := by
  by_cases ha : inv.Accepted
  · rw [handle_accepted ha]
    exact (h.ops _).congr (rows_dbWrites downloads ha db).symm
  · rw [handle_refused ha]; exact h

/-! ## The rebuilder -/

namespace VisitsRebuilder

variable (icloudDir downloads : Text)

theorem coherent_replayLine {s : State} (h : s.db.Coherent) (line : Text) :
    (replayLine downloads s line).db.Coherent := by
  have hresult : ∀ i p, (replayResult downloads s i p).db.Coherent := by
    intro i p
    unfold replayResult
    split
    · exact h
    · rename_i a _
      dsimp only
      split
      · dsimp only
        rw [applyAction_db]; exact h.apply _
      · exact h
  unfold replayLine
  dsimp only
  split
  · exact h
  · split
    · exact h
    · split
      · exact h
      · split
        · exact hresult _ _
        · split
          · exact h
          · exact h

theorem coherent_replayLogs {db : Db} (h : db.Coherent) (logDir : Option Dir) (archive : Option Archive) :
    (replayLogs downloads db logDir archive).1.Coherent := by
  unfold replayLogs
  refine List.foldlRecOn (motive := fun (s : State) => s.db.Coherent) _ _ h ?_
  intro s hs file _
  refine List.foldlRecOn (motive := fun (s : State) => s.db.Coherent) _ _ ?_ ?_
  · exact hs.congr (s.db.rows_insertSnapshot file.1).symm
  · intro s hs line _
    exact coherent_replayLine downloads hs line

/-- **A rebuild keeps the counters right.** -/
theorem coherent_rebuild {db : Db} (h : db.Coherent) (opts : Options) (logDir : Option Dir)
    (archive : Option Archive) :
    (rebuild icloudDir downloads opts db logDir archive).1.Coherent := by
  unfold rebuild
  generalize hdb : (if opts.truncate = true then Db.empty downloads else db) = db₁
  have h₁ : db₁.Coherent := by
    rw [← hdb]
    split
    · exact Db.coherent_empty downloads
    · exact h
  have h₂ : (((if opts.doLog = true then some (replayLogs downloads db₁ logDir archive) else none).map
      Prod.fst).getD db₁).Coherent := by
    split
    · exact coherent_replayLogs downloads h₁ logDir archive
    · exact h₁
  dsimp only
  split
  · exact h₂.congr (rows_rehydrateFilesystem ..).symm
  · exact h₂

end VisitsRebuilder

/-! ## Any writes in any order -/

inductive Write where
  | host (downloads : Text) (inv : BVLHost.Invocation)
  | replayLine (fails : Store.Stmt → Bool) (raw : Text)
  | replayIntoDb (raw : Text)
  | rebuild (icloudDir downloads : Text) (opts : VisitsRebuilder.Options) (logDir : Option VisitsRebuilder.Dir)
      (archive : Option VisitsRebuilder.Archive)
  | archive (downloads filename : Text) (moved : Option (Text × Text))
  /-- One statement of an archive move, should the move end there. -/
  | updateDirectory (t : EventsTable) (directory filename old : Text)

def Write.run (db : Db) : Write → Db
  | host downloads inv => (BVLHost.handle downloads ⟨db, []⟩ inv).1.db
  | replayLine fails raw => (Store.replayLine fails db raw).1
  | replayIntoDb raw => SyncClient.replayIntoDb db raw
  | rebuild icloudDir downloads opts logDir tree =>
      (VisitsRebuilder.rebuild icloudDir downloads opts db logDir tree).1
  | archive downloads filename moved => BVLHost.archived downloads filename db moved
  | updateDirectory t directory filename old => (db.updateDirectory t directory filename old).1

/-- **Step.** -/
theorem Db.Coherent.write {db : Db} (h : db.Coherent) (w : Write) : (w.run db).Coherent := by
  cases w with
  | host downloads inv => exact BVLHost.coherent_handle h downloads [] inv
  | replayLine fails raw => exact Store.coherent_replayLine h fails raw
  | replayIntoDb raw => exact SyncClient.coherent_replayIntoDb h raw
  | rebuild icloudDir downloads opts logDir tree =>
    exact VisitsRebuilder.coherent_rebuild icloudDir downloads h opts logDir tree
  | archive downloads filename moved => exact h.congr (BVLHost.rows_archived ..).symm
  | updateDirectory t directory filename old => exact h.congr (db.rows_updateDirectory ..).symm

/-- **The counters count the event rows, and every event row has a visits row**, after any writes. -/
theorem counters_right (directory : Text) (ws : List Write) :
    let db := ws.foldl Write.run (Db.empty directory)
    (∀ u, ∀ v ∈ db.visits, v.url = u →
        v.read = (db.readEvents.filter fun e => e.url = u).length ∧
        v.skimmed = (db.skimmedEvents.filter fun e => e.url = u).length) ∧
      ∀ t : EventsTable, ∀ e ∈ db.events t, ∃ v ∈ db.visits, v.url = e.url := by
  intro db
  have hc : db.Coherent :=
    List.foldlRecOn (motive := Db.Coherent) ws Write.run (Db.coherent_empty directory) fun db h w _ => h.write w
  have hcount : ∀ t : EventsTable, ∀ v ∈ db.visits,
      t.counter v = ((db.events t).filter fun e => e.url = v.url).length := by
    intro t v hv
    rw [hc.counted v hv t, Db.keys, List.countP_map, List.countP_eq_length_filter]
    rfl
  constructor
  · rintro u v hv rfl
    exact ⟨hcount .read v hv, hcount .skimmed v hv⟩
  · intro t e he
    have hk : (e.url, e.timestamp) ∈ db.keys t := List.mem_map.mpr ⟨e, he, rfl⟩
    exact List.mem_map.mp (hc.visited t _ hk)

end VisitLogger
