import VisitLogger.ReplayAgain

/-!
# One line at the server and at a peer

The server goes by the number of fields of a line, a peer by its first fields. They ask the same of their
databases for a line of the host; for a line that has more fields than any of these, or a file name after
`of_interest`, they do not, and the databases stay alike iff they have what the peer asks (`same_step_iff`).
-/

namespace VisitLogger

/-! ## Tables without directories -/

/-- The visits and the events, but for the directories of the events. -/
def Db.noDirectories (db : Db) : Db where
  visits := db.visits
  readEvents := db.readEvents.map fun e => { e with directory := [] }
  skimmedEvents := db.skimmedEvents.map fun e => { e with directory := [] }
  snapshots := []
  defaultDirectory := []

def Op.noDirectory (o : Op) : Op :=
  { o with mark := match o.mark with
      | .event t f _ => .event t f []
      | m => m }

namespace Db

variable (db : Db)

theorem events_noDirectories (t : EventsTable) :
    db.noDirectories.events t = (db.events t).map fun e => { e with directory := [] } := by
  cases t <;> rfl

theorem keys_noDirectories (t : EventsTable) : db.noDirectories.keys t = db.keys t := by
  rw [keys, events_noDirectories, List.map_map]
  rfl

theorem noDirectories_addEvent (t : EventsTable) (e : Event) :
    (db.addEvent t e).noDirectories = db.noDirectories.addEvent t { e with directory := [] } := by
  have h := Table.map_insertOrIgnore (fun e : Event => (e.url, e.timestamp))
    (f := fun e : Event => { e with directory := [] }) (fun _ => rfl) e (db.events t)
  unfold addEvent insertEvent
  rw [events_noDirectories, h]
  dsimp only
  split
  · cases t <;> rfl
  · cases t <;> rfl

theorem noDirectories_apply (o : Op) : (db.apply o).noDirectories = db.noDirectories.apply o.noDirectory := by
  unfold apply Op.noDirectory
  cases o.mark with
  | visit => rfl
  | ofInterest => rfl
  | event t f d => exact noDirectories_addEvent _ t _

theorem noDirectories_applyOpt (o : Option Op) :
    (db.applyOpt o).noDirectories = db.noDirectories.applyOpt (o.map Op.noDirectory) := by
  cases o with
  | none => rfl
  | some o => exact noDirectories_apply db o

theorem has_noDirectories {o : Op} : db.noDirectories.Has o.noDirectory ↔ db.Has o := by
  constructor
  · intro h
    refine ⟨h.url, fun hm => h.ofInterest ?_, fun t f d hm => ?_⟩
    · rw [Op.noDirectory, hm]
    · rw [← keys_noDirectories]
      exact h.event t f [] (by rw [Op.noDirectory, hm])
  · intro h
    refine ⟨h.url, fun hm => h.ofInterest ?_, fun t f d hm => ?_⟩
    · unfold Op.noDirectory at hm
      cases hmark : o.mark with
      | ofInterest => rfl
      | visit => rw [hmark] at hm; cases hm
      | event t f d => rw [hmark] at hm; cases hm
    · rw [keys_noDirectories]
      unfold Op.noDirectory at hm
      cases hmark : o.mark with
      | ofInterest => rw [hmark] at hm; cases hm
      | visit => rw [hmark] at hm; cases hm
      | event t' f' d' =>
        rw [hmark] at hm
        injection hm with ht _ _
        exact h.event t f' d' (by rw [hmark, ht])

variable {db}

theorem apply_eq_self_iff {o : Op} : db.apply o = db ↔ db.Has o := by
  constructor
  · intro h
    have := has_apply db o
    rwa [h] at this
  · exact apply_of_has

/-- **A mark changes nothing** next to the visit alone iff the database has both. -/
theorem insertVisit_eq_apply_iff {o : Op} (hm : o.mark = .ofInterest) :
    db.insertVisit o.timestamp o.url o.title = db.apply o ↔ db.Has o := by
  constructor
  · intro h
    have hmark := (has_apply db o).ofInterest hm
    rw [← h] at hmark
    have hurl : o.url ∈ db.urls := by
      -- a row that is new has no mark
      by_contra hnew
      have := hmark _ ((mem_visits_insertVisit db).mpr (Or.inr ⟨hnew, rfl⟩)) rfl
      cases this
    refine ⟨hurl, fun _ => ?_, fun t f d he => ?_⟩
    · rwa [insertVisit_of_mem db hurl] at hmark
    · rw [hm] at he; cases he
  · intro h
    rw [apply_of_has h, insertVisit_of_mem db h.url]

end Db

/-! ## The two readings of a line -/

/-- At most six fields, and no file name after `of_interest`. -/
def ReadAlike (raw : Text) : Prop :=
  (splitTabs raw).length ≤ 6 ∧ ¬((splitTabs raw).length = 6 ∧ (splitTabs raw)[4]? = some (ascii "of_interest"))

instance (raw : Text) : Decidable (ReadAlike raw) := inferInstanceAs (Decidable (_ ∧ _))

theorem lineOp_alike {raw : Text} (h : ReadAlike raw) (d d' : Text) :
    (Store.lineOp d raw).map Op.noDirectory = (SyncClient.lineOp d' raw).map Op.noDirectory := by
  unfold ReadAlike at h
  unfold Store.lineOp SyncClient.lineOp
  generalize splitTabs raw = fields at h ⊢
  obtain ⟨hlen, htag⟩ := h
  rcases fields with _ | ⟨i, _ | ⟨ts, _ | ⟨u, _ | ⟨ti, _ | ⟨tag, _ | ⟨filename, _ | ⟨x, rest⟩⟩⟩⟩⟩⟩⟩
  · rfl
  · rfl
  · rfl
  · rfl
  · rfl
  · dsimp only
    by_cases ht : tag = ascii "of_interest"
    · rw [if_pos ht, if_pos ht]
    · rw [if_neg ht, if_neg ht]
      cases EventsTable.forTag tag <;> rfl
  · have ht : tag ≠ ascii "of_interest" := fun ht => htag ⟨rfl, by rw [ht]; rfl⟩
    dsimp only
    rw [if_neg ht]
    cases EventsTable.forTag tag <;> rfl
  · simp only [List.length_cons] at hlen
    omega

/-- What else a peer asks for when the readings differ. -/
theorem lineOp_differ {raw : Text} (h : ¬ReadAlike raw) (d d' : Text) :
    ∃ o, SyncClient.lineOp d' raw = some o ∧
      (Store.lineOp d raw = none ∨ o.mark = .ofInterest ∧
        Store.lineOp d raw = some { o with mark := .visit }) := by
  unfold ReadAlike at h
  rw [not_and_or, not_not] at h
  unfold Store.lineOp SyncClient.lineOp
  generalize splitTabs raw = fields at h ⊢
  rcases fields with _ | ⟨i, _ | ⟨ts, _ | ⟨u, _ | ⟨ti, _ | ⟨tag, _ | ⟨filename, _ | ⟨x, rest⟩⟩⟩⟩⟩⟩⟩
  all_goals simp at h
  · subst h
    exact ⟨⟨ts, u, ti, .ofInterest⟩, rfl, Or.inr ⟨rfl, rfl⟩⟩
  · exact ⟨_, rfl, Or.inl rfl⟩

/-- **One line changes the two databases alike iff** both read it alike, or the laptop's has all that the peer reads
in it. -/
theorem same_step_iff (vm laptop : Db) (h : vm.noDirectories = laptop.noDirectories) (raw : Text) :
    (Store.replayLine Store.noFault vm raw).1.noDirectories =
      (SyncClient.replayIntoDb laptop raw).noDirectories ↔
      ReadAlike raw ∨ ∀ o ∈ SyncClient.lineOp laptop.defaultDirectory raw, laptop.Has o := by
  rw [Store.replayLine_eq, SyncClient.replayIntoDb_eq]
  dsimp only
  rw [Db.noDirectories_applyOpt, Db.noDirectories_applyOpt, h]
  by_cases halike : ReadAlike raw
  · rw [lineOp_alike halike _ laptop.defaultDirectory]
    exact iff_of_true rfl (Or.inl halike)
  · obtain ⟨o, hpeer, hserver⟩ := lineOp_differ halike vm.defaultDirectory laptop.defaultDirectory
    rw [hpeer]
    have hhas : (ReadAlike raw ∨ ∀ o' ∈ some o, laptop.Has o') ↔ laptop.noDirectories.Has o.noDirectory := by
      rw [Db.has_noDirectories]
      simp [halike]
    rw [hhas]
    rcases hserver with hserver | ⟨hm, hserver⟩
    · rw [hserver]
      exact eq_comm.trans Db.apply_eq_self_iff
    · rw [hserver]
      have hm' : o.noDirectory.mark = .ofInterest := by rw [Op.noDirectory, hm]
      exact Db.insertVisit_eq_apply_iff hm'

theorem same_step_iff_empty :
    (Store.replayLine Store.noFault (Db.empty (ascii "/vm"))
      (ascii "i\tt\tu\tT\tof_interest\tf")).1.noDirectories =
        (SyncClient.replayIntoDb (Db.empty (ascii "/laptop"))
          (ascii "i\tt\tu\tT\tof_interest\tf")).noDirectories ↔
      ReadAlike (ascii "i\tt\tu\tT\tof_interest\tf") ∨
        ∀ o ∈ SyncClient.lineOp (ascii "/laptop") (ascii "i\tt\tu\tT\tof_interest\tf"),
          (Db.empty (ascii "/laptop")).Has o :=
  same_step_iff (Db.empty (ascii "/vm")) (Db.empty (ascii "/laptop")) rfl _

/-- A line of seven fields is a visit at a peer and nothing at the server. -/
theorem seventh_field_differs :
    (Store.replayLine Store.noFault (Db.empty []) (ascii "i\tt\tu\tT\tread\tf\tx")).1.noDirectories =
      Db.empty [] ∧
      (SyncClient.replayIntoDb (Db.empty []) (ascii "i\tt\tu\tT\tread\tf\tx")).noDirectories ≠ Db.empty [] := by
  decide

end VisitLogger
