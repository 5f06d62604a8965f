import VisitLogger.PushSound

/-!
# Day logs that grow in order

The cursor is one date and offset, so a line that comes to an earlier day log
after a push has moved on to a later one is never sent: around midnight an
invocation that pinned the old date still writes its result line
(`result_never_pushed`). In runs where that does not happen (`InOrder`) all
lines up to the cursor are mirrored, and a push that ends with no append during
it leaves every day log mirrored in full (`pushed_in_order`).
-/

namespace VisitLogger

namespace SyncClient

open Framing

def Act.isAppend : Act → Bool
  | .append _ _ => true
  | _ => false

/-- An append goes to a day log that neither the committed cursor nor a push
under way has moved past. -/
def InOrder (s : Sync) : Act → Prop
  | .append d _ => (getCursor s.row).1 ≤ d ∧
    ∀ p, s.push = some p → p.lastDate ≤ d ∧ (d ∈ p.todo ∨ ∀ e ∈ p.todo, e < d)
  | _ => True

instance (s : Sync) : (a : Act) → Decidable (InOrder s a)
  | .append d _ => inferInstanceAs (Decidable ((getCursor s.row).1 ≤ d ∧
      ∀ p ∈ s.push, p.lastDate ≤ d ∧ (d ∈ p.todo ∨ ∀ e ∈ p.todo, e < d)))
  | .start | .next | .eof | .send _ | .finish | .kill => inferInstanceAs (Decidable True)

/-! ## The push under way -/

section
variable {lines lines' : Text → List Text} {mirrored mirrored' : Text →
  Nat} {p : Push} {d : Text} {rest : List Text}

def Full (lines : Text → List Text) (mirrored : Text → Nat) (p : Push) (d : Text) : Prop :=
  Covered mirrored p.pbLines d (lines d).length

/-- What a push has moved past is full. -/
structure PushOrder (lines : Text → List Text) (mirrored : Text → Nat) (p : Push) : Prop where
  sorted : p.todo.Pairwise (· < ·)
  ahead : ∀ e ∈ p.todo, p.lastDate ≤ e
  last : ∀ d, IsDate d → d < p.lastDate → Full lines mirrored p d
  passed : ∀ d, IsDate d → d ∉ p.todo → (∃ e ∈ p.todo, d < e) → Full lines mirrored p d

/-- A push with no append since its start: what it does not have to read is full. -/
def Quiet (lines : Text → List Text) (mirrored : Text → Nat) (p : Push) : Prop :=
  ∀ d, IsDate d → d ∉ p.todo → Full lines mirrored p d

theorem full_line (h : Full lines mirrored p d) (e raw : Text) : Full lines mirrored (p.line e raw) d := by
  refine Covered.mono h (fun _ => le_rfl) fun l hl => ?_
  rw [line_eq]
  split
  · exact hl
  · exact List.mem_append_left _ hl

theorem todo_line (p : Push) (e raw : Text) : (p.line e raw).todo = p.todo := by
  rw [line_eq]
  split <;> rfl

theorem PushInv.full_head (h : PushInv lines mirrored p) (ht : p.todo = d :: rest)
    (hi : (lines d).length ≤ p.index) :
    Full lines mirrored p d := fun k hk => h.reading d rest ht k (by omega)

theorem PushOrder.append (h : PushOrder lines mirrored p) (hl : ∀ e, IsDate e → e ≠ d → lines' e = lines e)
    (hlast : p.lastDate ≤ d) (hd : d ∈ p.todo ∨ ∀ e ∈ p.todo, e < d) : PushOrder lines' mirrored p := by
  have hsame : ∀ e, IsDate e → e ≠ d → Full lines mirrored p e → Full lines' mirrored p e := by
    intro e he hne hf
    rw [Full, hl e he hne]
    exact hf
  refine ⟨h.sorted, h.ahead, fun e he hlt => ?_, fun e he hnot hex => ?_⟩
  · exact hsame e he (ne_of_lt (lt_of_lt_of_le hlt hlast)) (h.last e he hlt)
  · refine hsame e he ?_ (h.passed e he hnot hex)
    rintro rfl
    obtain ⟨f, hf, hlt⟩ := hex
    exact lt_asymm hlt ((hd.resolve_left hnot) f hf)

theorem PushOrder.line (h : PushOrder lines mirrored p) (ht : p.todo = d :: rest) (raw : Text) :
    PushOrder lines mirrored (p.line d raw) := by
  have hhead : ∀ e ∈ p.todo, d ≤ e := by
    intro e he
    rw [ht] at he
    rcases List.mem_cons.mp he with rfl | he
    · exact le_rfl
    · exact le_of_lt ((List.pairwise_cons.mp (ht ▸ h.sorted)).1 e he)
  refine ⟨by rw [todo_line]; exact h.sorted, fun e he => ?_, fun e he hlt => ?_, fun e he hnot hex => ?_⟩
  · rw [todo_line] at he
    rw [line_eq]
    split
    · exact h.ahead e he
    · exact hhead e he
  · rw [line_eq] at hlt
    split at hlt
    · exact full_line (h.last e he hlt) d raw
    · -- the push moves on to `d`; the days before it are not in its list
      refine full_line (h.passed e he (fun hm => ?_) ⟨d, by rw [ht]; simp, hlt⟩) d raw
      exact absurd (hhead e hm) (not_le.mpr hlt)
  · rw [todo_line] at hnot hex
    exact full_line (h.passed e he hnot hex) d raw

theorem PushOrder.eof (h : PushOrder lines mirrored p) (ht : p.todo = d :: rest)
    (hf : Full lines mirrored p d) :
    PushOrder lines mirrored { p with todo := rest, index := 0 } := by
  have hsub : ∀ e ∈ rest, e ∈ p.todo := fun e he => by rw [ht]; exact List.mem_cons_of_mem _ he
  refine ⟨(List.pairwise_cons.mp (ht ▸ h.sorted)).2, fun e he => h.ahead e (hsub e he), h.last, ?_⟩
  rintro e he hnot ⟨f, hfm, hlt⟩
  by_cases hed : e = d
  · rw [hed]; exact hf
  · refine h.passed e he (fun hm => ?_) ⟨f, hsub f hfm, hlt⟩
    rw [ht] at hm
    exact (List.mem_cons.mp hm).elim hed hnot

theorem Quiet.eof (h : Quiet lines mirrored p) (ht : p.todo = d :: rest) (hf : Full lines mirrored p d) :
    Quiet lines mirrored { p with todo := rest, index := 0 } := by
  intro e he hnot
  by_cases hed : e = d
  · rw [hed]; exact hf
  · refine h e he fun hm => ?_
    rw [ht] at hm
    exact (List.mem_cons.mp hm).elim hed hnot

theorem Full.sent (h : Full lines mirrored p d) (hm : ∀ d, mirrored d ≤ mirrored' d)
    (hs : ∀ l ∈ p.pbLines, l.lineOffset < mirrored' l.date) : Full lines mirrored' { p with pbLines := [] } d :=
  Covered.sent h hm hs

theorem PushOrder.sent (h : PushOrder lines mirrored p) (hm : ∀ d, mirrored d ≤ mirrored' d)
    (hs : ∀ l ∈ p.pbLines, l.lineOffset < mirrored' l.date) :
      PushOrder lines mirrored' { p with pbLines := [] } :=
  ⟨h.sorted, h.ahead, fun d hd hlt => (h.last d hd hlt).sent hm hs,
    fun d hd hnot hex => (h.passed d hd hnot hex).sent hm hs⟩

end

/-! ## Every run -/

section
variable {cfg : Config} {s s' : Sync} {p : Push}

/-- All lines before the cursor's date are mirrored, and the push under way keeps it so. -/
structure Ordered (cfg : Config) (s : Sync) : Prop where
  row : ∀ d, IsDate d → d < (getCursor s.row).1 → (lines cfg s.home d).length ≤ mirrored cfg s.server d
  push : ∀ p, s.push = some p → PushOrder (lines cfg s.home) (mirrored cfg s.server) p

theorem Ordered.init (server : Server.State) : Ordered cfg (.init server) :=
  ⟨fun d _ hlt => absurd hlt (List.not_lt_nil d), nofun⟩

theorem getCursor_markAttempt (row : Option (Text × Int)) :
    (getCursor (markAttempt row)).1 = (getCursor row).1 := by
  cases row <;> rfl

theorem mem_todo_start {home : Disk} {row : Option (Text × Int)} {d : Text} :
    d ∈ (startPush cfg home row).todo ↔ d ∈ listLocalLogDates cfg home ∧ (getCursor row).1 ≤ d := by
  simp only [startPush]
  split
  · rename_i h
    rw [h, and_iff_left (not_lt.mp (List.not_lt_nil d))]
  · simp

theorem Quiet.start {home : Disk} (hh : HomeInv cfg home) {n : Text → Nat} {row : Option (Text × Int)}
    (hrow : ∀ d, IsDate d → d < (getCursor row).1 → (lines cfg home d).length ≤ n d) :
    Quiet (lines cfg home) n (startPush cfg home row) := by
  intro d hd hnot k hk
  left
  rw [mem_todo_start] at hnot
  by_cases hl : d ∈ listLocalLogDates cfg home
  · have := hrow d hd (lt_of_not_ge fun hle => hnot ⟨hl, hle⟩)
    omega
  · rw [lines_of_not_listed hh hd hl] at hk
    change (k : Int) < ((0 : Nat) : Int) at hk
    omega

theorem PushOrder.start {home : Disk} (hh : HomeInv cfg home) {n : Text → Nat} {row : Option (Text × Int)}
    (hrow : ∀ d, IsDate d → d < (getCursor row).1 → (lines cfg home d).length ≤ n d) :
    PushOrder (lines cfg home) n (startPush cfg home row) := by
  refine ⟨?_, fun e he => (mem_todo_start.mp he).2, fun d hd hlt => ?_,
    fun d hd hnot _ => Quiet.start hh hrow d hd hnot⟩
  · simp only [startPush]
    split
    · exact listLocalLogDates_sorted hh
    · exact (listLocalLogDates_sorted hh).filter _
  · exact Quiet.start hh hrow d hd fun hm => absurd (mem_todo_start.mp hm).2 (not_le.mpr hlt)

theorem Ordered.withPush (h : Ordered cfg s) (hp : PushOrder (lines cfg s.home) (mirrored cfg s.server) p) :
    Ordered cfg { s with push := some p } := by
  refine ⟨h.row, ?_⟩
  intro p' hp'
  cases hp'
  exact hp

theorem Ordered.step (hm : cfg.machineId ≠ []) (hi : Inv cfg s) (h : Ordered cfg s) {a : Act} (ha : InOrder s a)
    (hs : s' ∈ step cfg s a) : Ordered cfg s' := by
  cases a with
  | append date line =>
    obtain ⟨hd, hl, rfl⟩ := step_append hs
    have hother : ∀ e, IsDate e → e ≠ date →
      lines cfg (appendLocal cfg s.home date line) e = lines cfg s.home e := by
      intro e he hne
      rw [lines_appendLocal hi.home hd hl he, if_neg hne]
    refine ⟨fun e he hlt => ?_, fun p hp => ?_⟩
    · rw [hother e he (ne_of_lt (lt_of_lt_of_le hlt ha.1))]
      exact h.row e he hlt
    · exact (h.push p hp).append hother (ha.2 p hp).1 (ha.2 p hp).2
  | start =>
    obtain ⟨-, rfl⟩ := step_start hs
    have hrow : ∀ d, IsDate d → d < (getCursor (markAttempt s.row)).1 →
        (lines cfg s.home d).length ≤ mirrored cfg s.server d := by
      rw [getCursor_markAttempt]
      exact h.row
    refine ⟨hrow, fun p hp => ?_⟩
    cases hp
    exact PushOrder.start hi.home hrow
  | next =>
    obtain ⟨p, date, rest, raw, hp, ht, -, rfl⟩ := step_next hs
    exact h.withPush ((h.push p hp).line ht raw)
  | eof =>
    obtain ⟨p, date, rest, hp, ht, hlen, rfl⟩ := step_eof hs
    exact h.withPush ((h.push p hp).eof ht ((hi.push p hp).full_head ht hlen))
  | send o =>
    obtain ⟨p, hp, rfl | ⟨server, reply, push, -, -, hmono, hsent, hpush, rfl⟩⟩ := hi.send_cases hm hs
    · exact ⟨h.row, nofun⟩
    refine ⟨fun d hd hlt => (h.row d hd hlt).trans (hmono d), fun p' hp' => ?_⟩
    rcases hpush with rfl | rfl
    · cases hp'
    · cases hp'
      exact (h.push p hp).sent hmono hsent
  | finish =>
    obtain ⟨p, hp, -, hpb, rfl⟩ := step_finish hs
    refine ⟨fun d hd hlt => ?_, nofun⟩
    simp only at hlt
    split at hlt
    · -- the new cursor's date is that of the last line
      have hf := (h.push p hp).last d hd hlt
      rw [Full, hpb] at hf
      exact hf.le
    · exact h.row d hd hlt
  | kill =>
    obtain rfl := step_kill hs
    exact ⟨h.row, nofun⟩

def NoAppend (cfg : Config) (s : Sync) : Prop :=
  ∀ p, s.push = some p → Quiet (lines cfg s.home) (mirrored cfg s.server) p

theorem NoAppend.step (hm : cfg.machineId ≠ []) (hi : Inv cfg s) (ho : Ordered cfg s)
    (h : NoAppend cfg s) {a : Act}
    (ha : a.isAppend = false) (hs : s' ∈ step cfg s a) : NoAppend cfg s' := by
  cases a with
  | append date line => cases ha
  | start =>
    obtain ⟨-, rfl⟩ := step_start hs
    intro p hp
    cases hp
    apply Quiet.start hi.home
    rw [getCursor_markAttempt]
    exact ho.row
  | next =>
    obtain ⟨p, date, rest, raw, hp, ht, -, rfl⟩ := step_next hs
    intro p' hp' d hd hnot
    cases hp'
    rw [todo_line] at hnot
    exact full_line (h p hp d hd hnot) date raw
  | eof =>
    obtain ⟨p, date, rest, hp, ht, hlen, rfl⟩ := step_eof hs
    intro p' hp'
    cases hp'
    exact (h p hp).eof ht ((hi.push p hp).full_head ht hlen)
  | send o =>
    obtain ⟨p, hp, rfl | ⟨server, reply, push, -, -, hmono, hsent, hpush, rfl⟩⟩ := hi.send_cases hm hs
    · exact nofun
    intro p' hp' d hd hnot
    rcases hpush with rfl | rfl
    · cases hp'
    · cases hp'
      exact (h p hp d hd hnot).sent hmono hsent
  | finish =>
    obtain ⟨p, -, -, -, rfl⟩ := step_finish hs
    exact nofun
  | kill =>
    obtain rfl := step_kill hs
    exact nofun

theorem ordered_run (hm : cfg.machineId ≠ []) {server : Server.State}
    (hserver : ∀ d, IsDate d → server.disk.bytes (Store.logPath cfg.logRoot cfg.machineId d) =
      []) {acts : List Act}
    (ho : Runs.Obeys (step cfg) InOrder (.init server) acts)
      (hr : Runs.run (step cfg) (.init server) acts = some s) :
    Inv cfg s ∧ Ordered cfg s := by
  have hstep : ∀ t a t', Inv cfg t ∧ Ordered cfg t → InOrder t a → t' ∈ step cfg t a → Inv cfg t' ∧
    Ordered cfg t' :=
    fun t a t' h ha hs => ⟨h.1.step hm hs, h.2.step hm h.1 ha hs⟩
  exact Runs.run_invariant hstep ⟨Inv.init hserver, Ordered.init server⟩ ho hr

theorem noAppend_run (hm : cfg.machineId ≠ []) (hi : Inv cfg s) (ho : Ordered cfg s) (h : NoAppend cfg s)
    {acts : List Act} (hq : ∀ a ∈ acts, a.isAppend = false) (hr : Runs.run (step cfg) s acts = some s') :
    Inv cfg s' ∧ NoAppend cfg s' := by
  have hstep : ∀ t a t', Inv cfg t ∧ Ordered cfg t ∧ NoAppend cfg t → a.isAppend = false → t' ∈ step cfg t a →
      Inv cfg t' ∧ Ordered cfg t' ∧ NoAppend cfg t' := by
    intro t a t' ⟨hi, ho, hn⟩ ha hs
    have hin : InOrder t a := by
      cases a with
      | append _ _ => cases ha
      | _ => trivial
    exact ⟨hi.step hm hs, ho.step hm hi hin hs, hn.step hm hi ho ha hs⟩
  have hobeys : Runs.Obeys (step cfg) (fun _ a => a.isAppend = false) s acts :=
    Runs.obeys_of_forall (fun a ha _ => hq a ha) s
  have := Runs.run_invariant hstep ⟨hi, ho, h⟩ hobeys hr
  exact ⟨this.1, this.2.2⟩

end

def CursorSound (cfg : Config) (s : Sync) : Prop :=
  ∀ d o, s.row = some (d, o) → ∀ e i, IsDate e → i < (lines cfg s.home e).length →
    (e < d ∨ e = d ∧ (i : Int) ≤ o) →
    i < mirrored cfg s.server e

/-- **In runs whose day logs grow in order** no line before the cursor is left
out, and after a push that ends with no append during it the mirror of each day
log is the whole day log. -/
theorem pushed_in_order (cfg : Config) (hm : cfg.machineId ≠ []) {server : Server.State}
    (hserver : ∀ d, IsDate d → server.disk.bytes (Store.logPath cfg.logRoot cfg.machineId d) =
      []) {acts : List Act}
    {s : Sync} (ho : Runs.Obeys (step cfg) InOrder (.init server) acts)
    (hr : Runs.run (step cfg) (.init server) acts = some s) :
    CursorSound cfg s ∧
      ∀ before during, acts = before ++ .start :: (during ++ [.finish]) → (∀ a ∈ during, a.isAppend = false) →
        ∀ d, IsDate d → closed nl (mirror cfg s d) = lines cfg s.home d := by
  obtain ⟨hinv, hord⟩ := ordered_run hm hserver ho hr
  refine ⟨fun d o hrow e i he hi hcur => ?_, ?_⟩
  · rcases hcur with hlt | ⟨rfl, hle⟩
    · have := hord.row e he (by rw [hrow]; exact hlt)
      omega
    · obtain ⟨-, hlt⟩ := (hinv.row e o hrow).resolve_left he.ne_nil
      omega
  · rintro before during rfl hq d hd
    -- the states before the start, after it, and before the finish
    rw [Runs.run_append] at hr
    obtain ⟨t, ht, hr⟩ := Option.bind_eq_some_iff.mp hr
    obtain ⟨t₁, hstart, hr⟩ := Option.bind_eq_some_iff.mp hr
    rw [Runs.run_append] at hr
    obtain ⟨t₂, ht₂, hr⟩ := Option.bind_eq_some_iff.mp hr
    obtain ⟨t₃, hfinish, hr⟩ := Option.bind_eq_some_iff.mp hr
    cases hr
    obtain ⟨hi, ho⟩ := ordered_run hm hserver ho.append.1 ht
    have hn : NoAppend cfg t := fun p hp => by
      rw [(step_start hstart).1] at hp
      cases hp
    obtain ⟨hi₂, hn₂⟩ := noAppend_run hm (hi.step hm hstart) (ho.step hm hi (a := .start) trivial hstart)
      (hn.step hm hi ho rfl hstart) hq ht₂
    obtain ⟨p, hp, htodo, hpb, rfl⟩ := step_finish hfinish
    have hfull := hn₂ p hp d hd (by rw [htodo]; simp)
    rw [Full, hpb] at hfull
    rw [(hinv.closed_mirror hd).1, List.take_of_length_le]
    exact hfull.le

/-- Two invocations around midnight. The first has pinned the old date and writes
its result line after a push that has been in the new day's log. -/
def midnight : List Act :=
  [.append (ascii "2024-05-01") (ascii "1\t2024-05-01T23:59:59Z\thttps://a\ta"),
    .append (ascii "2024-05-02") (ascii "2\t2024-05-02T00:00:00Z\thttps://b\tb"),
    .append (ascii "2024-05-02") (ascii "2\tsuccess"),
    .start, .next, .eof, .next, .next, .eof, .send .ok, .finish,
    .append (ascii "2024-05-01") (ascii "1\tsuccess"),
    .start, .next, .next, .eof, .finish]

/-- The last push ends with no append during it, and the result line is not mirrored. -/
theorem result_never_pushed : (Runs.run (step laptop) (.init newServer) midnight).map (fun s =>
      (closed nl (mirror laptop s (ascii "2024-05-01")), lines laptop s.home (ascii "2024-05-01"))) =
    some ([ascii "1\t2024-05-01T23:59:59Z\thttps://a\ta"],
      [ascii "1\t2024-05-01T23:59:59Z\thttps://a\ta", ascii "1\tsuccess"]) := by
  decide

/-- Two invocations around midnight, each of which writes its lines before a push
moves past their day. The old day grows after the first push, the new one while the
second is under way, whose reply is lost. -/
def acrossMidnight : List Act :=
  [.append (ascii "2024-05-01") (ascii "1\t2024-05-01T23:59:59Z\thttps://a\ta"),
    .start, .next, .eof, .send .ok, .finish,
    .append (ascii "2024-05-01") (ascii "1\tsuccess"),
    .append (ascii "2024-05-02") (ascii "2\t2024-05-02T00:00:00Z\thttps://b\tb"),
    .start, .next, .next, .eof, .next, .append (ascii "2024-05-02") (ascii "2\tsuccess"), .next, .eof,
    .send .replyLost]

theorem pushed_in_order_acrossMidnight :
    ∃ s, Runs.run (step laptop) (.init newServer) (acrossMidnight ++ .start ::
        ([.next, .next, .eof, .next, .next, .eof, .send .ok] ++ [.finish])) = some s ∧
      s.row = some (ascii "2024-05-02", 1) ∧ CursorSound laptop s ∧
        ∀ d, IsDate d → closed nl (mirror laptop s d) = lines laptop s.home d := by
  have hrun : (Runs.run (step laptop) (.init newServer) (acrossMidnight ++ .start ::
      ([.next, .next, .eof, .next, .next, .eof, .send .ok] ++ [.finish]))).map Sync.row =
        some (some (ascii "2024-05-02", 1)) := by
    decide
  obtain ⟨s, hs, hrow⟩ := Option.map_eq_some_iff.mp hrun
  obtain ⟨hcur, hfull⟩ := pushed_in_order laptop (by decide) (fun _ _ => rfl) (by decide) hs
  exact ⟨s, hs, hrow, hcur, hfull acrossMidnight _ rfl (by decide)⟩

end SyncClient

end VisitLogger
