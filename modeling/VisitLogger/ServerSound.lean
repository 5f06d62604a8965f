import Mathlib.Data.Set.Finite.Lemmas
import VisitLogger.Server
import VisitLogger.StoreSound

/-!
# What a push leaves behind

A push is acknowledged line by line through the offsets: `pushed_line_recorded`
says what the mirror then holds, `pushLogs_outcome` what an error can leave
half done, and `push_stays_in_iff` which requests reach files outside the
directory of the caller.
-/

namespace VisitLogger

open Framing

namespace Server

variable {sort : SliceSort} {io : Io} {fails : Nat → Store.Stmt →
  Bool} {logRoot : Path} {s : State} {id : Option Text}
  {req : PushLogsRequest}

/-! ## The replay loop -/

theorem replayLines_ok {db : Db} {i : Nat} {ls : List LogLine} (h : (replayLines fails db i ls).2 = none) :
    (replayLines fails db i ls).1 = Store.replayLines db (ls.map LogLine.rawLine) := by
  induction ls generalizing db i with
  | nil => rfl
  | cons l ls ih =>
    rw [replayLines] at h ⊢
    rcases hr : Store.replayLine (fails i) db l.rawLine with ⟨db', _ | e⟩
    · simp only [hr] at h ⊢
      have hnone : (Store.replayLine (fails i) db l.rawLine).2 = none := by rw [hr]
      rw [Store.replayLine_none hnone] at hr
      rw [ih h, List.map_cons, Store.replayLines, Store.replayLines, List.foldl_cons, hr]
    · simp [hr] at h

theorem replayLines_error {db : Db} {i : Nat} {ls : List LogLine} {e : Store.Stmt}
    (h : (replayLines fails db i ls).2 = some e) :
    ∃ done l rest, ls = done ++ l :: rest ∧
      ((replayLines fails db i ls).1 = Store.replayLines db (done.map LogLine.rawLine) ∨
        ∃ i' ts u ti fs, splitTabs l.rawLine = i' :: ts :: u :: ti :: fs ∧
          (replayLines fails db i ls).1 =
            (Store.replayLines db (done.map LogLine.rawLine)).apply ⟨ts, u, ti, .visit⟩) := by
  induction ls generalizing db i with
  | nil => cases h
  | cons l ls ih =>
    rw [replayLines] at h ⊢
    rcases hr : Store.replayLine (fails i) db l.rawLine with ⟨db', _ | e'⟩
    · simp only [hr] at h ⊢
      have hnone : (Store.replayLine (fails i) db l.rawLine).2 = none := by rw [hr]
      rw [Store.replayLine_none hnone] at hr
      obtain ⟨done, m, rest, rfl, hdb⟩ := ih h
      refine ⟨l :: done, m, rest, rfl, ?_⟩
      rw [List.map_cons, Store.replayLines, List.foldl_cons, hr]
      exact hdb
    · refine ⟨[], l, ls, rfl, ?_⟩
      have herr : (Store.replayLine (fails i) db l.rawLine).2 ≠ none := by rw [hr]; simp
      have := Store.replayLine_error herr
      rw [hr] at this
      exact this

/-! ## The handler -/

theorem crossCheck_eq_none {claimed : Text} : crossCheck id claimed = none ↔ id = some claimed := by
  unfold crossCheck
  cases id with
  | none => simp
  | some id => by_cases h : id = claimed <;> simp [h]

/-- What the handler can do: refuse the request, or hand it to the store and then
to the database. -/
theorem pushLogs_cases (sort : SliceSort) (io : Io) (fails : Nat → Store.Stmt → Bool) (logRoot : Path)
    (s : State)
    (id : Option Text) (req : PushLogsRequest) :
    ¬(id = some req.machineId ∧ req.machineId ≠ [] ∧ ∀ l ∈ req.lines, l.date ≠ []) ∧
        (∃ e, pushLogs sort io fails logRoot s id req = (s, .error e) ∧ (∀ t, e ≠ .append t) ∧
          ∀ st, e ≠ .replay st) ∨
      id = some req.machineId ∧ req.machineId ≠ [] ∧ (∀ l ∈ req.lines, l.date ≠ []) ∧
        ∃ a, a = Store.appendLogLines sort io logRoot req.machineId s.disk req.lines ∧
          ((∃ e, a.2.2 = .error e ∧
              pushLogs sort io fails logRoot s id req = (⟨a.1, s.db⟩, .error (.append e))) ∨
            ∃ r db, a.2.2 = .ok r ∧ db = replayLines fails s.db 0 (sort.run req.lines) ∧
              ((∃ st, db.2 = some st ∧ pushLogs sort io fails logRoot s id req =
                (⟨a.1, db.1⟩, .error (.replay st))) ∨
                db.2 = none ∧ pushLogs sort io fails logRoot s id req = (⟨a.1, db.1⟩, .ok r))) := by
  unfold pushLogs
  cases hc : crossCheck id req.machineId with
  | some e =>
    refine Or.inl ⟨fun h => ?_, e, rfl, ?_⟩
    · rw [crossCheck_eq_none.mpr h.1] at hc; cases hc
    unfold crossCheck at hc
    split at hc
    · cases hc; exact ⟨fun _ => nofun, fun _ => nofun⟩
    · split at hc
      · cases hc; exact ⟨fun _ => nofun, fun _ => nofun⟩
      · cases hc
  | none =>
    by_cases hm : req.machineId = []
    · exact Or.inl ⟨fun h => h.2.1 hm, .machineIdRequired, by simp [hm], fun _ => nofun, fun _ => nofun⟩
    · by_cases hd : req.lines.any fun l => l.date = []
      · refine Or.inl ⟨fun h => ?_, .missingDate, by simp only [hm, hd, if_true, if_false],
          fun _ => nofun, fun _ => nofun⟩
        obtain ⟨l, hl, he⟩ := List.any_eq_true.mp hd
        exact h.2.2 l hl (by simpa using he)
      · right
        refine ⟨crossCheck_eq_none.mp hc, hm, ?_, _, rfl, ?_⟩
        · intro l hl he
          exact hd (List.any_eq_true.mpr ⟨l, hl, by simpa using he⟩)
        · simp only [if_neg hm, if_neg hd]
          rcases ha : Store.appendLogLines sort io logRoot req.machineId s.disk req.lines with
            ⟨disk, written, e | r⟩
          · exact Or.inl ⟨e, rfl, rfl⟩
          · rcases hr : replayLines fails s.db 0 (sort.run req.lines) with ⟨db, _ | st⟩
            · exact Or.inr ⟨r, _, rfl, rfl, Or.inr ⟨rfl, rfl⟩⟩
            · exact Or.inr ⟨r, _, rfl, rfl, Or.inl ⟨st, rfl, rfl⟩⟩

theorem pushLogs_ok {r : Text × Int} (h : (pushLogs sort io fails logRoot s id req).2 = .ok r) :
    (Store.appendLogLines sort io logRoot req.machineId s.disk req.lines).2.2 = .ok r ∧
      (pushLogs sort io fails logRoot s id req).1 =
        ⟨(Store.appendLogLines sort io logRoot req.machineId s.disk req.lines).1,
          Store.replayLines s.db ((sort.run req.lines).map LogLine.rawLine)⟩ := by
  rcases pushLogs_cases sort io fails logRoot s id req with
    ⟨-, e, he, -⟩ | ⟨-, -, -, a, rfl, ⟨e, -, he⟩ | ⟨r', db, hr, rfl, ⟨st, -, he⟩ | ⟨hdb, he⟩⟩⟩
  · rw [he] at h; cases h
  · rw [he] at h; cases h
  · rw [he] at h; cases h
  · rw [he] at h ⊢
    cases h
    exact ⟨hr, by rw [replayLines_ok hdb]⟩

theorem replayLines_noFault (db : Db) (i : Nat) (ls : List LogLine) :
    (replayLines noFault db i ls).2 = none := by
  induction ls generalizing db i with
  | nil => rfl
  | cons l ls ih =>
    simp only [replayLines, noFault, Store.replayLine_eq]
    exact ih _ _

theorem pushLogs_succeeds (hid : id = some req.machineId) (hm : req.machineId ≠ [])
    (hd : ∀ l ∈ req.lines, l.date ≠ [])
    {r : Text × Int} (hr : (Store.appendLogLines sort io logRoot req.machineId s.disk req.lines).2.2 = .ok r) :
    (pushLogs sort io noFault logRoot s id req).2 = .ok r := by
  rcases pushLogs_cases sort io noFault logRoot s id req with
    ⟨hno, -⟩ | ⟨-, -, -, a, rfl, ⟨e, he, -⟩ | ⟨r', db, hr', rfl, ⟨st, hst, -⟩ | ⟨-, h⟩⟩⟩
  · exact absurd ⟨hid, hm, hd⟩ hno
  · rw [hr] at he; cases he
  · rw [replayLines_noFault] at hst; cases hst
  · rw [hr] at hr'; cases hr'
    rw [h]

theorem pushLogs_gains (sort : SliceSort) (io : Io) (fails : Nat → Store.Stmt → Bool) (logRoot : Path)
    (s : State)
    (id : Option Text) (req : PushLogsRequest) (p : Path) :
    ∃ w done, Store.Gains s.disk (pushLogs sort io fails logRoot s id req).1.disk p done w ∧
      ∀ l ∈ w, l ∈ req.lines ∧ 0 ≤ l.lineOffset ∧ Store.logPath logRoot req.machineId l.date = p := by
  rcases pushLogs_cases sort io fails logRoot s id req with
    ⟨-, e, he, -⟩ | ⟨-, -, -, a, rfl, ⟨e, -, he⟩ | ⟨r', db, -, rfl, ⟨st, -, he⟩ | ⟨-, he⟩⟩⟩
  · rw [he]; exact ⟨[], True, Store.Gains.refl rfl p _, by simp⟩
  all_goals
    rw [he]
    obtain ⟨w, hw, hl⟩ := Store.appendLogLines_gains sort io logRoot req.machineId s.disk req.lines p
    exact ⟨w, _, hw, hl⟩

/-! ## An acknowledged line -/

/-- **A line of an acknowledged push.** If its mirror had a line at that offset,
that line stays. Otherwise it is recorded, in a file that ended with a newline,
unless its text or that of another line with the date has a newline in it, or
the request has another text for the same place. -/
theorem pushed_line_recorded {r : Text × Int} (h : (pushLogs sort io fails logRoot s id req).2 = .ok r)
    (l : LogLine)
    (hl : l ∈ req.lines) (h₀ : 0 ≤ l.lineOffset) :
    (l.lineOffset < Store.countLines s.disk (Store.logPath logRoot req.machineId l.date) →
      (closed nl ((pushLogs sort io fails logRoot s id req).1.disk.bytes
          (Store.logPath logRoot req.machineId l.date)))[l.lineOffset.toNat]? =
        (closed nl (s.disk.bytes (Store.logPath logRoot req.machineId l.date)))[l.lineOffset.toNat]?) ∧
    (Store.countLines s.disk (Store.logPath logRoot req.machineId l.date) ≤ l.lineOffset →
      tail nl (s.disk.bytes (Store.logPath logRoot req.machineId l.date)) = [] →
      (∀ m ∈ req.lines, m.date = l.date → nl ∉ m.rawLine) →
      (∀ m ∈ req.lines, m.date = l.date → m.lineOffset = l.lineOffset → m.rawLine = l.rawLine) →
      (∀ m ∈ req.lines, m.date ≠ l.date →
        Store.logPath logRoot req.machineId m.date ≠ Store.logPath logRoot req.machineId l.date) →
      (closed nl ((pushLogs sort io fails logRoot s id req).1.disk.bytes
          (Store.logPath logRoot req.machineId l.date)))[l.lineOffset.toNat]? = some l.rawLine) := by
  obtain ⟨hok, hs⟩ := pushLogs_ok h
  rw [hs]
  have hcount : Store.countLines s.disk (Store.logPath logRoot req.machineId l.date) =
      (closed nl (s.disk.bytes (Store.logPath logRoot req.machineId l.date))).length := by
    rw [Store.countLines, length_closed]
  refine ⟨fun hlt => ?_, fun hge ht hnl hsame hother => ?_⟩
  · obtain ⟨w, hw, -⟩ := Store.appendLogLines_gains sort io logRoot req.machineId s.disk req.lines
      (Store.logPath logRoot req.machineId l.date)
    obtain ⟨t, -, -, hb⟩ := hw.bytes
    simp only [hb]
    rw [closed_append, List.getElem?_append_left (by omega)]
  · obtain ⟨g, w, c, hg, hsel, hb⟩ := Store.appendLogLines_ok hok hl hother
    obtain ⟨-, hsub, hoff, -⟩ := Store.selectLines_ok hsel
    have hwg : ∀ m ∈ w, m ∈ req.lines ∧ m.date = l.date := fun m hm => (hg m).mp (hsub.subset hm)
    have hwnl : ∀ t ∈ w.map LogLine.rawLine, nl ∉ t := by
      intro t ht
      obtain ⟨m, hm, rfl⟩ := List.mem_map.mp ht
      exact hnl m (hwg m hm).1 (hwg m hm).2
    -- the selected line with the offset of `l` is in its place
    obtain ⟨m, hm, hmo⟩ := Store.selectLines_covers hsel ((hg l).mpr ⟨hl, rfl⟩) hge
    obtain ⟨i, hi, rfl⟩ := List.getElem_of_mem hm
    have hplace := hoff i hi
    simp only [hb, Store.encode, closed_append_unlines nl ht hwnl]
    have hidx : l.lineOffset.toNat =
        (closed nl (s.disk.bytes (Store.logPath logRoot req.machineId l.date))).length + i := by omega
    rw [hidx, List.getElem?_append_right (by omega), Nat.add_sub_cancel_left, List.getElem?_map,
      List.getElem?_eq_getElem hi, Option.map_some, hsame _ (hwg _ hm).1 (hwg _ hm).2 hmo]

def mirrored : State where
  disk := (Disk.empty.mkdirAll ⟨true, [ascii "m", ascii "logs"]⟩).write
    (Store.logPath ⟨true, [ascii "logs"]⟩ (ascii "m") (ascii "2024-05-01")) [97, nl]
  db := Db.empty []

/-- A line with other text at a recorded offset is acknowledged and dropped. -/
theorem acknowledged_line_dropped :
    (pushLogs .insertion .noFault noFault ⟨true, [ascii "logs"]⟩ mirrored (some (ascii "m"))
        ⟨ascii "m", [⟨ascii "2024-05-01", 0, ascii "b"⟩]⟩).2 = .ok (ascii "2024-05-01", 0) ∧
      (closed nl ((pushLogs .insertion .noFault noFault ⟨true, [ascii "logs"]⟩ mirrored (some (ascii "m"))
        ⟨ascii "m", [⟨ascii "2024-05-01", 0, ascii "b"⟩]⟩).1.disk.bytes
          (Store.logPath ⟨true, [ascii "logs"]⟩ (ascii "m") (ascii "2024-05-01"))))[0]? ≠ some (ascii "b") := by
  decide

theorem pushed_line_recorded_first :
    (closed nl ((pushLogs .insertion .noFault noFault ⟨true, [ascii "logs"]⟩ mirrored (some (ascii "m"))
        ⟨ascii "m", [⟨ascii "2024-05-01", 1, ascii "b"⟩]⟩).1.disk.bytes
          (Store.logPath ⟨true, [ascii "logs"]⟩ (ascii "m") (ascii "2024-05-01"))))[1]? = some (ascii "b") := by
  have hok : (pushLogs .insertion .noFault noFault ⟨true, [ascii "logs"]⟩ mirrored (some (ascii "m"))
      ⟨ascii "m", [⟨ascii "2024-05-01", 1, ascii "b"⟩]⟩).2 = .ok (ascii "2024-05-01", 1) := by decide
  exact (pushed_line_recorded hok ⟨ascii "2024-05-01", 1, ascii "b"⟩ (by simp) (by decide)).2
    (by decide) (by decide)
    (by decide) (by decide) (by decide)

/-! ## What an error leaves half done -/

def Recorded (logRoot : Path) (req : PushLogsRequest) (s : State) : Prop :=
  ∀ l ∈ req.lines, l.lineOffset < Store.countLines s.disk (Store.logPath logRoot req.machineId l.date)

/-- The file of `p` gains whole lines of the request that name it, or the start of them. -/
def Extended (logRoot : Path) (req : PushLogsRequest) (s s' : State) (p : Path) : Prop :=
  ∃ w t, t <+: Store.encode w ∧ s'.disk.bytes p = s.disk.bytes p ++ t ∧
    ∀ l ∈ w, l ∈ req.lines ∧ Store.logPath logRoot req.machineId l.date = p

/-- **A push is not atomic.** Acknowledged, all of its lines are recorded and
replayed. With an error before the replay the database is as it was, but files
may have been extended by lines of the request. With an error in the replay all
lines are recorded and those before the failing one replayed. -/
theorem pushLogs_outcome (sort : SliceSort) (io : Io) (fails : Nat → Store.Stmt → Bool) (logRoot : Path)
    (s : State)
    (id : Option Text) (req : PushLogsRequest) :
    (∀ p, Extended logRoot req s (pushLogs sort io fails logRoot s id req).1 p) ∧
      match (pushLogs sort io fails logRoot s id req).2 with
      | .ok _ =>
        Recorded logRoot req (pushLogs sort io fails logRoot s id req).1 ∧
          (pushLogs sort io fails logRoot s id req).1.db =
            Store.replayLines s.db ((sort.run req.lines).map LogLine.rawLine)
      | .error (.replay _) =>
        Recorded logRoot req (pushLogs sort io fails logRoot s id req).1 ∧
          ∃ done l rest, sort.run req.lines = done ++ l :: rest ∧
            ((pushLogs sort io fails logRoot s id req).1.db =
              Store.replayLines s.db (done.map LogLine.rawLine) ∨
              ∃ i ts u ti fs, splitTabs l.rawLine = i :: ts :: u :: ti :: fs ∧
                (pushLogs sort io fails logRoot s id req).1.db =
                  (Store.replayLines s.db (done.map LogLine.rawLine)).apply ⟨ts, u, ti, .visit⟩)
      | .error (.append _) => (pushLogs sort io fails logRoot s id req).1.db = s.db
      | .error _ => (pushLogs sort io fails logRoot s id req).1 = s := by
  refine ⟨fun p => ?_, ?_⟩
  · obtain ⟨w, done, hw, hl⟩ := pushLogs_gains sort io fails logRoot s id req p
    obtain ⟨t, ht, -, hb⟩ := hw.bytes
    exact ⟨w, t, ht, hb, fun l hm => ⟨(hl l hm).1, (hl l hm).2.2⟩⟩
  · rcases pushLogs_cases sort io fails logRoot s id req with
      ⟨-, e, he, happend, hreplay⟩ | ⟨-, -, -, a, rfl, ⟨e, -, he⟩ | ⟨r, db, hr, rfl, ⟨st, hst, he⟩ | ⟨hst, he⟩⟩⟩
    · rw [he]
      cases e with
      | append t => exact absurd rfl (happend t)
      | replay st => exact absurd rfl (hreplay st)
      | noIdentity => rfl
      | identityMismatch id claimed => rfl
      | machineIdRequired => rfl
      | missingDate => rfl
    · rw [he]
    · rw [he]
      exact ⟨Store.appendLogLines_counts hr, replayLines_error hst⟩
    · rw [he]
      exact ⟨Store.appendLogLines_counts hr, replayLines_ok hst⟩

/-- A push of two days with a gap in the second: an error, with the line of the
first day mirrored and not replayed. -/
theorem gap_leaves_line :
    (pushLogs .insertion .noFault noFault ⟨true, [ascii "logs"]⟩ ⟨Disk.empty, Db.empty []⟩ (some (ascii "m"))
        ⟨ascii "m", [⟨ascii "2024-05-01", 0, ascii "i\tt\tu\ts"⟩, ⟨ascii "2024-05-02", 3, ascii "b"⟩]⟩).2 =
        .error (.append (ascii "gap: m/2024-05-02 expected offset 0, got 3")) ∧
      (pushLogs .insertion .noFault noFault ⟨true, [ascii "logs"]⟩ ⟨Disk.empty, Db.empty []⟩ (some (ascii "m"))
        ⟨ascii "m", [⟨ascii "2024-05-01", 0, ascii "i\tt\tu\ts"⟩,
          ⟨ascii "2024-05-02", 3, ascii "b"⟩]⟩).1.disk.bytes
          (Store.logPath ⟨true, [ascii "logs"]⟩ (ascii "m") (ascii "2024-05-01")) = ascii "i\tt\tu\ts\n" ∧
      (pushLogs .insertion .noFault noFault ⟨true, [ascii "logs"]⟩ ⟨Disk.empty, Db.empty []⟩ (some (ascii "m"))
        ⟨ascii "m", [⟨ascii "2024-05-01", 0, ascii "i\tt\tu\ts"⟩,
          ⟨ascii "2024-05-02", 3, ascii "b"⟩]⟩).1.db.visits = [] := by
  decide

/-! ## Which files a push reaches -/

/-- A `browser-visits-*.log` right in the directory of machine `m`. -/
def OwnFile (logRoot : Path) (m : Text) (p : Path) : Prop :=
  ∃ x, slash ∉ x ∧ p = (logRoot.child m).child (logFilename x)

/-- The date holds no slash, or what it walks through leads back to `dir`, and
its last element starts like the name of a day log. -/
def DateStays (dir : Path) (date : Text) : Prop :=
  slash ∉ date ∨ ∃ a x, date = a ++ slash :: (ascii "browser-visits-" ++ x) ∧ slash ∉ x ∧
    dir.join (ascii "browser-visits-" ++ a) = dir

theorem ownFile_iff {m : Text} (hm : Plain m) (date : Text) :
    OwnFile logRoot m (Store.logPath logRoot m date) ↔ DateStays (logRoot.child m) date := by
  have hslash : ∀ {a b : Text}, slash ∉ b → date = a ++ slash :: b → Store.logPath logRoot m date =
      ((logRoot.child m).join (ascii "browser-visits-" ++ a)).child (b ++ ascii ".log") := by
    intro a b hb hd
    have hname : logFilename date = (ascii "browser-visits-" ++ a) ++ slash :: (b ++ ascii ".log") := by
      rw [logFilename, hd]; simp
    rw [Store.logPath, Path.join_plain hm, hname, Path.join_append_slash]
    apply Path.join_plain
    exact plain_append_log hb
  constructor
  · rintro ⟨x, hx, hp⟩
    by_cases hd : slash ∈ date
    · obtain ⟨a, b, hb, hab⟩ := exists_last_slash hd
      rw [hslash hb hab, Path.child_inj] at hp
      have hbx : b = ascii "browser-visits-" ++ x := List.append_cancel_right hp.2
      exact Or.inr ⟨a, x, by rw [hab, hbx], hx, hp.1⟩
    · exact Or.inl hd
  · rintro (hd | ⟨a, x, hd, hx, ha⟩)
    · exact ⟨date, hd, by rw [Store.logPath_eq hd, Path.join_plain hm]⟩
    · have hb : slash ∉ ascii "browser-visits-" ++ x := by
        rw [List.mem_append, not_or]; exact ⟨by decide, hx⟩
      exact ⟨x, hx, by rw [hslash hb hd, ha, logFilename]⟩

theorem exists_disk (ps : List Path) (p : Path) (c c' : Text) :
    ∃ disk : Disk, disk.bytes p = c' ∧ (∀ q ∈ ps, q ≠ p → disk.bytes q = c) ∧
      ∀ q ∈ ps, disk.hasParent q = true := by
  have hfiles : ∃ files : AList fun _ : Path => Text, ∀ q ∈ ps, files.lookup q = some c := by
    induction ps with
    | nil => exact ⟨∅, by simp⟩
    | cons q ps ih =>
      obtain ⟨files, hf⟩ := ih
      refine ⟨files.insert q c, fun q' hq => ?_⟩
      by_cases h : q' = q
      · subst h; simp
      · rw [AList.lookup_insert_ne h]
        exact hf q' ((List.mem_cons.mp hq).resolve_left h)
  obtain ⟨files, hf⟩ := hfiles
  refine ⟨⟨files.insert p c', ps.map fun q => { q with elems := q.elems.tail }⟩, ?_, ?_, ?_⟩
  · simp [Disk.bytes]
  · intro q hq hne
    simp [Disk.bytes, AList.lookup_insert_ne hne, hf q hq]
  · intro q hq
    simp only [Disk.hasParent, Bool.or_eq_true, List.contains_iff_mem]
    exact Or.inr (List.mem_map.mpr ⟨q, hq, rfl⟩)

theorem countLines_replicate {disk : Disk} {p : Path} {n : Nat} (h : disk.bytes p = List.replicate n nl) :
    Store.countLines disk p = n := by rw [Store.countLines, h, List.count_replicate_self]

theorem exists_offset_bound (lines : List LogLine) : ∃ n : Nat, ∀ l ∈ lines, l.lineOffset ≤ n := by
  induction lines with
  | nil => exact ⟨0, by simp⟩
  | cons l lines ih =>
    obtain ⟨n, hn⟩ := ih
    refine ⟨max n l.lineOffset.toNat, fun m hm => ?_⟩
    rcases List.mem_cons.mp hm with rfl | hm
    · omega
    · have := hn m hm; omega

/-- A request with a date that leads elsewhere changes a file elsewhere, in some state. -/
theorem exists_escape {m : Text} (hm : Plain m) {lines : List LogLine} (hd : ∀ l ∈ lines, l.date ≠ [])
    (hesc : ∃ l ∈ lines, 0 ≤ l.lineOffset ∧ ¬OwnFile logRoot m (Store.logPath logRoot m l.date)) :
    ∃ s p, (pushLogs .insertion .noFault noFault logRoot s (some m) ⟨m, lines⟩).1.disk.files.lookup p ≠
      s.disk.files.lookup p ∧ ¬OwnFile logRoot m p := by
  -- of the lines that lead elsewhere, one with the greatest offset
  let esc : Set LogLine := {l | l ∈ lines ∧ ¬OwnFile logRoot m (Store.logPath logRoot m l.date)}
  have hfin : esc.Finite := lines.finite_toSet.subset fun l hl => hl.1
  obtain ⟨l₀, hl₀, h₀, hbad₀⟩ := hesc
  obtain ⟨l, ⟨hl, hbad⟩, hmax⟩ := Set.exists_max_image esc LogLine.lineOffset hfin ⟨l₀, hl₀, hbad₀⟩
  have h₀ : 0 ≤ l.lineOffset := h₀.trans (hmax l₀ ⟨hl₀, hbad₀⟩)
  obtain ⟨n, hn⟩ := exists_offset_bound lines
  -- its file has as many lines as its offset says, all others have enough
  obtain ⟨disk, hp, hq, hparent⟩ := exists_disk (lines.map fun l => Store.logPath logRoot m l.date)
    (Store.logPath logRoot m l.date) (List.replicate n nl) (List.replicate l.lineOffset.toNat nl)
  have hcount := countLines_replicate hp
  have hle : ∀ k ∈ lines, k.lineOffset ≤ Store.countLines disk (Store.logPath logRoot m k.date) := by
    intro k hk
    by_cases he : Store.logPath logRoot m k.date = Store.logPath logRoot m l.date
    · have := hmax k ⟨hk, by rw [he]; exact hbad⟩
      rw [he, hcount]; omega
    · rw [countLines_replicate (hq _ (List.mem_map.mpr ⟨k, hk, rfl⟩) he)]
      exact hn k hk
  obtain ⟨r, hr⟩ := Store.appendLogLines_succeeds .insertion (List.ne_nil_of_mem hl)
    (fun k hk i hi hlt => absurd (hle k hk) (by omega))
    (fun k hk => Disk.hasParent_mkdirAll _ (hparent _ (List.mem_map.mpr ⟨k, hk, rfl⟩)))
  refine ⟨⟨disk, Db.empty []⟩, Store.logPath logRoot m l.date, fun he => ?_, hbad⟩
  have hlt := Store.appendLogLines_counts hr l hl
  rcases pushLogs_cases .insertion .noFault noFault logRoot ⟨disk, Db.empty []⟩ (some m) ⟨m, lines⟩ with
    ⟨hno, -⟩ | ⟨-, -, -, a, rfl, h⟩
  · exact hno ⟨rfl, hm.ne_nil, hd⟩
  · have hdisk : (pushLogs .insertion .noFault noFault logRoot ⟨disk, Db.empty []⟩ (some m) ⟨m, lines⟩).1.disk =
        (Store.appendLogLines .insertion .noFault logRoot m disk lines).1 := by
      rcases h with ⟨e, -, h⟩ | ⟨r', db, -, rfl, ⟨st, -, h⟩ | ⟨-, h⟩⟩ <;> rw [h]
    rw [hdisk] at he
    have hbytes : (Store.appendLogLines .insertion .noFault logRoot m disk lines).1.bytes
        (Store.logPath logRoot m l.date) = disk.bytes (Store.logPath logRoot m l.date) := by
      rw [Disk.bytes, he, ← Disk.bytes]
    rw [Store.countLines_congr hbytes, hcount] at hlt
    omega

/-- **A push stays in the caller's directory** in every state exactly if it is
refused for a missing date or its dates stay there. -/
theorem push_stays_in_iff (logRoot : Path) {m : Text} (hm : Plain m) (lines : List LogLine) :
    (∀ sort io fails s p, (pushLogs sort io fails logRoot s (some m) ⟨m, lines⟩).1.disk.files.lookup p ≠
        s.disk.files.lookup p → OwnFile logRoot m p) ↔
      (∃ l ∈ lines, l.date = []) ∨ ∀ l ∈ lines, 0 ≤ l.lineOffset → DateStays (logRoot.child m) l.date := by
  constructor
  · intro h
    by_cases hd : ∃ l ∈ lines, l.date = []
    · exact Or.inl hd
    · refine Or.inr fun l hl h₀ => (ownFile_iff hm l.date).mp ?_
      by_contra hbad
      obtain ⟨s, p, hne, hp⟩ := exists_escape hm (fun k hk he => hd ⟨k, hk, he⟩) ⟨l, hl, h₀, hbad⟩
      exact hp (h _ _ _ s p hne)
  · intro h sort io fails s p hne
    obtain ⟨w, done, hw, hl⟩ := pushLogs_gains sort io fails logRoot s (some m) ⟨m, lines⟩ p
    rcases h with ⟨l, hl, hd⟩ | h
    · rcases pushLogs_cases sort io fails logRoot s (some m) ⟨m, lines⟩ with ⟨-, e, he, -⟩ | ⟨-, -, hdates, -⟩
      · rw [he] at hne; exact absurd rfl hne
      · exact absurd hd (hdates l hl)
    · have hw' : w ≠ [] := fun he => hne (hw.none he)
      obtain ⟨l, hlw⟩ := List.exists_mem_of_ne_nil w hw'
      obtain ⟨hmem, h₀, rfl⟩ := hl l hlw
      exact (ownFile_iff hm l.date).mpr (h l hmem h₀)

theorem push_stays_in_iff_date :
    OwnFile ⟨true, [ascii "logs"]⟩ (ascii "m")
      (Store.logPath ⟨true, [ascii "logs"]⟩ (ascii "m") (ascii "2024-05-01")) := by
  have hm : Plain (ascii "m") := ⟨by decide, by decide, by decide, by decide⟩
  have hdates : ∀ l ∈ [(⟨ascii "2024-05-01", 0, ascii "a"⟩ : LogLine)], 0 ≤ l.lineOffset →
      DateStays (Path.child ⟨true, [ascii "logs"]⟩ (ascii "m")) l.date := by
    intro l hl _
    obtain rfl := List.mem_singleton.mp hl
    exact Or.inl (by decide)
  exact (push_stays_in_iff ⟨true, [ascii "logs"]⟩ hm _).mpr (Or.inr hdates) .insertion .noFault noFault
    ⟨.empty, .empty []⟩ _ (by decide)

def otherMachine : State := ⟨Disk.empty.mkdirAll ⟨true, [ascii "b", ascii "logs"]⟩, Db.empty []⟩

/-- Machine `m` writes the mirror of machine `b`. -/
theorem push_reaches_other_mirror :
    (pushLogs .insertion .noFault noFault ⟨true, [ascii "logs"]⟩ otherMachine (some (ascii "m"))
        ⟨ascii "m", [⟨ascii "/../../b/browser-visits-2024-05-01", 0, ascii "a"⟩]⟩).1.disk.files.lookup
          (Store.logPath ⟨true, [ascii "logs"]⟩ (ascii "b") (ascii "2024-05-01")) = some [97, nl] ∧
      otherMachine.disk.files.lookup (Store.logPath ⟨true,
        [ascii "logs"]⟩ (ascii "b") (ascii "2024-05-01")) = none ∧
      ¬OwnFile ⟨true, [ascii "logs"]⟩ (ascii "m")
        (Store.logPath ⟨true, [ascii "logs"]⟩ (ascii "b") (ascii "2024-05-01")) := by
  refine ⟨by decide, by decide, ?_⟩
  rintro ⟨x, -, h⟩
  have hdir : (Store.logPath ⟨true, [ascii "logs"]⟩ (ascii "b") (ascii "2024-05-01")).elems[1]? =
    some (ascii "m") := by
    rw [h]; rfl
  revert hdir
  decide

end Server

end VisitLogger
