import VisitLogger.ScanSound

/-!
# A scan that is told to stop

`yield` may say stop. The read loop over a file then returns `io.EOF`, and
`LinesAfter` takes this for the end of the file: it goes on with the next one.
So `yield` is called again unless the files that are still to be read hold no
line past the cursor (`stops_at_false_iff`).
-/

namespace VisitLogger

open Framing

namespace Store

/-! ## A function that may say stop -/

section
variable {σ α : Type*} (f : σ → α → σ × Bool)

def feed : σ → List α → σ × Bool
  | s, [] => (s, true)
  | s, a :: as =>
    match f s a with
    | (s, false) => (s, false)
    | (s, true) => feed s as

/-- `f` says go on to each of them in turn. -/
def Accepts : σ → List α → Prop
  | _, [] => True
  | s, a :: as => (f s a).2 = true ∧ Accepts (f s a).1 as

def callsOf : σ → List α → List (α × Bool)
  | _, [] => []
  | s, a :: as => (a, (f s a).2) :: if (f s a).2 then callsOf (f s a).1 as else []

def traced (s : σ × List (α × Bool)) (a : α) : (σ × List (α × Bool)) × Bool :=
  (((f s.1 a).1, s.2 ++ [(a, (f s.1 a).2)]), (f s.1 a).2)

/-- There is no call after the answer `false`. -/
def StopsAtFalse (calls : List (α × Bool)) : Prop :=
  ∀ before a after, calls = before ++ (a, false) :: after → after = []

theorem feed_append (s : σ) (as bs : List α) :
    feed f s (as ++ bs) = if (feed f s as).2 then feed f (feed f s as).1 bs else feed f s as := by
  induction as generalizing s with
  | nil => rfl
  | cons a as ih =>
    rw [List.cons_append, feed, feed]
    rcases f s a with ⟨s', _ | _⟩
    · rfl
    · exact ih s'

theorem feed_traced (s : σ) (calls : List (α × Bool)) (as : List α) :
    feed (traced f) (s, calls) as = (((feed f s as).1, calls ++ callsOf f s as), (feed f s as).2) := by
  induction as generalizing s calls with
  | nil => rw [feed, feed, callsOf, List.append_nil]
  | cons a as ih =>
    rw [feed, feed, callsOf, traced]
    rcases f s a with ⟨s', _ | _⟩
    · rfl
    · simp only [if_true, ih, List.append_assoc, List.singleton_append]

theorem accepts_append (s : σ) (as bs : List α) :
    Accepts f s (as ++ bs) ↔ Accepts f s as ∧ Accepts f (feed f s as).1 bs := by
  induction as generalizing s with
  | nil => simp [Accepts, feed]
  | cons a as ih =>
    rw [List.cons_append, Accepts, Accepts, feed]
    rcases f s a with ⟨s', _ | _⟩
    · simp
    · simp [ih s']

variable {f} {s : σ} {as : List α}

theorem feed_accepted (h : Accepts f s as) : (feed f s as).2 = true ∧ callsOf f s as = as.map (·, true) := by
  induction as generalizing s with
  | nil => exact ⟨rfl, rfl⟩
  | cons a as ih =>
    obtain ⟨ha, h⟩ := h
    rw [feed, callsOf]
    rcases hf : f s a with ⟨s', _ | _⟩
    · rw [hf] at ha; cases ha
    · rw [hf] at h
      obtain ⟨h₁, h₂⟩ := ih h
      exact ⟨h₁, by simp [h₂]⟩

theorem feed_stopped (h : ¬Accepts f s as) :
    (feed f s as).2 = false ∧ ∃ (before : List α) (a : α), callsOf f s as = before.map (·, true) ++
      [(a, false)] := by
  induction as generalizing s with
  | nil => exact absurd trivial h
  | cons a as ih =>
    rw [feed, callsOf]
    rcases hf : f s a with ⟨s', _ | _⟩
    · exact ⟨rfl, [], a, rfl⟩
    · have h' : ¬Accepts f s' as := fun ha => h ⟨by rw [hf], by rw [hf]; exact ha⟩
      obtain ⟨h₁, before, b, h₂⟩ := ih h'
      exact ⟨h₁, a :: before, b, by simp [h₂]⟩

theorem callsOf_eq_nil : callsOf f s as = [] ↔ as = [] := by
  cases as with
  | nil => exact ⟨fun _ => rfl, fun _ => rfl⟩
  | cons a as => exact ⟨fun h => (by rw [callsOf] at h; cases h), fun h => by cases h⟩

theorem stopsAtFalse_map (as : List α) : StopsAtFalse (as.map (·, true)) := by
  intro before a after h
  have hm : (a, false) ∈ as.map (·, true) := by rw [h]; simp
  obtain ⟨b, -, hb⟩ := List.mem_map.mp hm
  cases hb

theorem stopsAtFalse_append (before : List α) (a : α) (more : List (α × Bool)) :
    StopsAtFalse (before.map (·, true) ++ [(a, false)] ++ more) ↔ more = [] := by
  constructor
  · intro h
    exact h (before.map (·, true)) a more (by simp)
  · intro h before' b after hb
    subst h
    rcases List.eq_nil_or_concat after with rfl | ⟨after', c, rfl⟩
    · rfl
    · -- the last call is the one that was refused, so another one would be among those accepted
      rw [List.append_nil, List.concat_eq_append, ← List.cons_append, ← List.append_assoc] at hb
      have hm : (b, false) ∈ before.map (·, true) := by
        rw [List.append_inj_left' hb rfl]; simp
      obtain ⟨c', -, hc'⟩ := List.mem_map.mp hm
      cases hc'

end

/-! ## The loops -/

def textsRead (readErr : Option Text) (s : Text) : List Text :=
  match readErr with
  | none => fileTexts s
  | some _ => closed nl s

section
variable {σ : Type*} (yield : σ → LogLine → σ × Bool) (sinceDate : Text) (sinceOffset : Int)

theorem emitLines_feed (date : Text) (s : σ) (o : Int) (ts : List Text) :
    emitLines yield sinceDate sinceOffset date s o ts =
      feed yield s ((numbered date o ts).filter (isPast sinceDate sinceOffset)) := by
  induction ts generalizing s o with
  | nil => rfl
  | cons t ts ih =>
    rw [emitLines, emit, numbered]
    by_cases h : sinceDate < date ∨ sinceOffset < o
    · have hb : isPast sinceDate sinceOffset ⟨date, o, t⟩ = true := by simpa [isPast] using h
      rw [if_pos h, List.filter_cons_of_pos hb, feed]
      rcases yield s ⟨date, o, t⟩ with ⟨s', _ | _⟩
      · rfl
      · exact ih s' (o + 1)
    · have hb : ¬isPast sinceDate sinceOffset ⟨date, o, t⟩ = true := by simpa [isPast] using h
      rw [if_neg h, List.filter_cons_of_neg hb]
      exact ih s (o + 1)

theorem emit_feed (date : Text) (s : σ) (o : Int) (t : Text) :
    emit yield sinceDate sinceOffset date s o t =
      feed yield s ((numbered date o [t]).filter (isPast sinceDate sinceOffset)) := by
  rw [← emitLines_feed]
  simp only [emitLines]
  rcases emit yield sinceDate sinceOffset date s o t with ⟨s', _ | _⟩ <;> rfl

def ended (readErr : Option Text) (go : Bool) : Except Text Bool :=
  if go then match readErr with
    | some e => .error e
    | none => .ok true
  else .ok false

theorem readLoop_feed (date : Text) (readErr : Option Text) (s : σ) (o : Int) (buf : Text) (cs : List Text)
    (hbuf : nl ∉ buf) :
    readLoop yield sinceDate sinceOffset date readErr s o buf cs =
      let r := feed yield s
        ((numbered date o (textsRead readErr (buf ++ cs.flatten))).filter (isPast sinceDate sinceOffset))
      (r.1, ended readErr r.2) := by
  induction cs generalizing s o buf with
  | nil =>
    rw [List.flatten_nil, List.append_nil]
    cases readErr with
    | some e => rw [readLoop, textsRead, closed_of_open nl hbuf]; rfl
    | none =>
      rw [readLoop, textsRead, fileTexts, closed_of_open nl hbuf, tail_of_open nl hbuf, List.nil_append]
      by_cases hnil : buf = []
      · rw [if_pos hnil, if_pos hnil]; rfl
      · rw [if_neg hnil, if_neg hnil]
        simp only [emit_feed]
        rcases feed yield s ((numbered date o [buf]).filter (isPast sinceDate sinceOffset)) with
          ⟨s', _ | _⟩ <;> rfl
  | cons c cs ih =>
    have hread : textsRead readErr (buf ++ (c :: cs).flatten) =
        closed nl (buf ++ c) ++ textsRead readErr (tail nl (buf ++ c) ++ cs.flatten) := by
      rw [List.flatten_cons, ← List.append_assoc]
      cases readErr with
      | some e => rw [textsRead, textsRead, closed_append nl (buf ++ c)]
      | none =>
        rw [textsRead, textsRead, fileTexts, fileTexts, closed_append nl (buf ++ c), tail_append nl (buf ++ c),
          List.append_assoc]
    rw [hread, numbered_append, List.filter_append, feed_append, readLoop]
    dsimp only
    rw [emitLines_feed]
    rcases feed yield s ((numbered date o (closed nl (buf ++ c))).filter
      (isPast sinceDate sinceOffset)) with ⟨s', _ | _⟩
    · rfl
    · exact ih s' _ _ (nl_notMem_tail nl _)

end

section
variable (rio : ReadIo) (logRoot : Path) (machineID : Text) (disk : Disk) (sinceDate : Text) (sinceOffset : Int)

def offered (d : Text) : List LogLine :=
  (numbered d 0 (textsRead (rio.read d)
    (rio.chunks d (disk.bytes (logPath logRoot machineID d))).flatten)).filter
    (isPast sinceDate sinceOffset)

/-- The dates whose files a scan reads when nothing stops it: up to the first error. -/
def datesRead : List Text → List Text
  | [] => []
  | d :: dates =>
    if rio.openFile d ≠ none then []
    else d :: if rio.read d ≠ none then [] else datesRead dates

variable {σ : Type*} (yield : σ → LogLine → σ × Bool)

theorem scanDates_cons {d : Text} (dates : List Text) (s : σ) (hopen : rio.openFile d = none) :
    scanDates rio yield logRoot machineID disk sinceDate sinceOffset s (d :: dates) =
      let r := feed yield s (offered rio logRoot machineID disk sinceDate sinceOffset d)
      match ended (rio.read d) r.2 with
      | .error e => (r.1, .error e)
      | .ok _ => scanDates rio yield logRoot machineID disk sinceDate sinceOffset r.1 dates := by
  rw [scanDates, hopen]
  dsimp only
  rw [readLoop_feed yield sinceDate sinceOffset d _ s 0 [] _ (by simp), List.nil_append]
  dsimp only
  rw [offered]
  split <;> rename_i heq <;> simp_all

/-- Once it has been told to stop, a scan calls `yield` again iff a file that it still reads has a line past the
cursor. -/
theorem scanDates_stopped (dates : List Text) (s : σ) (calls : List (LogLine × Bool)) :
    ∃ more, (scanDates rio (traced yield) logRoot machineID disk sinceDate sinceOffset (s, calls)
        dates).1.2 = calls ++ more ∧
      (more = [] ↔ ∀ d ∈ datesRead rio dates,
        offered rio logRoot machineID disk sinceDate sinceOffset d = []) := by
  induction dates generalizing s calls with
  | nil => exact ⟨[], by rw [scanDates, List.append_nil], by simp [datesRead]⟩
  | cons d dates ih =>
    cases hopen : rio.openFile d with
    | some e => exact ⟨[], by rw [scanDates, hopen]; simp, by simp [datesRead, hopen]⟩
    | none =>
      rw [scanDates_cons rio logRoot machineID disk sinceDate sinceOffset _ dates _ hopen, feed_traced]
      dsimp only
      have hread : datesRead rio (d :: dates) = d :: if rio.read d ≠ none then [] else datesRead rio dates := by
        rw [datesRead, if_neg (by simp [hopen])]
      rw [hread]
      by_cases hlines : offered rio logRoot machineID disk sinceDate sinceOffset d = []
      · simp only [hlines, feed, callsOf, List.append_nil, ended, if_true]
        cases hr : rio.read d with
        | some e => exact ⟨[], by simp, by simp [hlines]⟩
        | none =>
          obtain ⟨more, hmore, hnil⟩ := ih s calls
          refine ⟨more, hmore, hnil.trans ?_⟩
          simp [hlines]
      · -- `yield` is called for the first of these lines
        have hcalls : callsOf yield s (offered rio logRoot machineID disk sinceDate sinceOffset d) ≠ [] :=
          fun h => hlines (callsOf_eq_nil.mp h)
        generalize callsOf yield s (offered rio logRoot machineID disk sinceDate sinceOffset d) =
          made at hcalls ⊢
        generalize ended (rio.read d) _ = r
        cases r with
        | error e => exact ⟨made, rfl, by simp [hcalls, hlines]⟩
        | ok _ =>
          obtain ⟨more, hmore, -⟩ := ih
            (feed yield s (offered rio logRoot machineID disk sinceDate sinceOffset d)).1
            (calls ++ made)
          exact ⟨made ++ more, by rw [hmore, List.append_assoc], by simp [hcalls, hlines]⟩

/-- The scan does not read a line past the cursor in a day file after the one in which `yield` says stop. -/
def StopIsLast (s : σ) (dates : List Text) : Prop :=
  ∀ before d after, dates = before ++ d :: after → (∀ b ∈ before, rio.openFile b = none ∧ rio.read b = none) →
    rio.openFile d = none →
    Accepts yield s (before.flatMap (offered rio logRoot machineID disk sinceDate sinceOffset)) →
    ¬Accepts yield s ((before ++ [d]).flatMap (offered rio logRoot machineID disk sinceDate sinceOffset)) →
    ∀ e ∈ datesRead rio after, offered rio logRoot machineID disk sinceDate sinceOffset e = []

theorem scanDates_stops_iff (dates : List Text) (s : σ) (accepted : List LogLine) :
    StopsAtFalse (scanDates rio (traced yield) logRoot machineID disk sinceDate sinceOffset
        (s, accepted.map (·, true)) dates).1.2 ↔
      StopIsLast rio logRoot machineID disk sinceDate sinceOffset yield s dates := by
  induction dates generalizing s accepted with
  | nil =>
    refine iff_of_true (stopsAtFalse_map accepted) ?_
    intro before d after h
    cases before <;> cases h
  | cons d dates ih =>
    -- a day file that does not open ends the scan, so nothing comes after a stop
    cases hopen : rio.openFile d with
    | some e =>
      rw [scanDates, hopen]
      refine iff_of_true (stopsAtFalse_map accepted) ?_
      intro before d' after h hbefore hd'
      cases before with
      | nil => obtain ⟨rfl, -⟩ := List.cons.inj h; rw [hopen] at hd'; cases hd'
      | cons b before =>
        obtain ⟨rfl, -⟩ := List.cons.inj h
        have := (hbefore d (by simp)).1
        rw [hopen] at this; cases this
    | none =>
      rw [scanDates_cons rio logRoot machineID disk sinceDate sinceOffset _ dates _ hopen, feed_traced]
      dsimp only
      by_cases hacc : Accepts yield s (offered rio logRoot machineID disk sinceDate sinceOffset d)
      · -- `yield` takes all of this day: a stop, if there is one, is in a later day
        obtain ⟨hgo, hcalls⟩ := feed_accepted hacc
        simp only [hgo, hcalls, ← List.map_append, ended, if_true]
        cases hr : rio.read d with
        | some e =>
          refine iff_of_true (stopsAtFalse_map _) ?_
          intro before d' after h hbefore _ _ hnot
          cases before with
          | nil =>
            obtain ⟨rfl, -⟩ := List.cons.inj h
            exact absurd (by simpa using hacc) hnot
          | cons b before =>
            obtain ⟨rfl, -⟩ := List.cons.inj h
            have := (hbefore d (by simp)).2
            rw [hr] at this; cases this
        | none =>
          refine (ih _ _).trans ?_
          constructor
          · intro h before d' after hdates hbefore hd' hyes hnot
            cases before with
            | nil =>
              obtain ⟨rfl, -⟩ := List.cons.inj hdates
              exact absurd (by simpa using hacc) hnot
            | cons b before =>
              obtain ⟨rfl, hrest⟩ := List.cons.inj hdates
              rw [List.flatMap_cons, accepts_append] at hyes
              rw [List.cons_append, List.flatMap_cons, accepts_append] at hnot
              exact h before d' after hrest (fun b hb => hbefore b (List.mem_cons_of_mem _ hb)) hd' hyes.2
                fun hn => hnot ⟨hacc, hn⟩
          · intro h before d' after hdates hbefore hd' hyes hnot
            refine h (d :: before) d' after (by rw [hdates]; rfl) ?_ hd' ?_ ?_
            · intro b hb
              rcases List.mem_cons.mp hb with rfl | hb
              · exact ⟨hopen, hr⟩
              · exact hbefore b hb
            · rw [List.flatMap_cons, accepts_append]
              exact ⟨hacc, hyes⟩
            · rw [List.cons_append, List.flatMap_cons, accepts_append]
              exact fun hn => hnot hn.2
      · -- the stop is in this day: `yield` must not be called in the days after it
        obtain ⟨hgo, before, l, hcalls⟩ := feed_stopped hacc
        simp only [hgo, hcalls, ended, Bool.false_eq_true, if_false]
        obtain ⟨more, hmore, hnil⟩ := scanDates_stopped rio logRoot machineID disk sinceDate sinceOffset yield dates
          (feed yield s (offered rio logRoot machineID disk sinceDate sinceOffset d)).1
          (accepted.map (·, true) ++ (before.map (·, true) ++ [(l, false)]))
        rw [hmore, ← List.append_assoc, ← List.map_append, stopsAtFalse_append, hnil]
        constructor
        · intro h before d' after hdates hbefore hd' hyes hnot
          cases before with
          | nil => obtain ⟨rfl, rfl⟩ := List.cons.inj hdates; exact h
          | cons b before =>
            obtain ⟨rfl, -⟩ := List.cons.inj hdates
            rw [List.flatMap_cons, accepts_append] at hyes
            exact absurd hyes.1 hacc
        · intro h
          exact h [] d dates rfl (by simp) hopen trivial (by simpa using hacc)

def yieldCalls (s : σ) : List (LogLine × Bool) :=
  (linesAfter rio (traced yield) (s, []) logRoot machineID disk sinceDate sinceOffset).1.2

/-- **`yield` is not called again once it has said stop, iff** no day file that is read after the one in which it says
so has a line past the cursor. -/
theorem stops_at_false_iff (s : σ) :
    StopsAtFalse (yieldCalls rio logRoot machineID disk sinceDate sinceOffset yield s) ↔
      (rio.readDir = none → StopIsLast rio logRoot machineID disk sinceDate sinceOffset yield s
        (datesFrom disk logRoot machineID sinceDate)) := by
  rw [yieldCalls, linesAfter]
  cases hdir : rio.readDir with
  | some e => exact iff_of_true (stopsAtFalse_map []) (by simp)
  | none =>
    refine (scanDates_stops_iff rio logRoot machineID disk sinceDate sinceOffset yield _ s []).trans ?_
    simp

end

def twoDayLogs : Disk := (runAppends .insertion ⟨true, [ascii "logs"]⟩ (ascii "m") Disk.empty twoDays).1

/-- `yield` says stop at once, and is called once for each day. -/
theorem stop_reads_on : ¬StopsAtFalse (yieldCalls {} ⟨true, [ascii "logs"]⟩ (ascii "m") twoDayLogs [] (-1)
    (fun (_ : Unit) _ => ((), false)) ()) := by
  intro h
  have hcalls : yieldCalls {} ⟨true, [ascii "logs"]⟩ (ascii "m") twoDayLogs [] (-1) (fun (_ : Unit) _ =>
    ((), false)) () =
      [(⟨ascii "2024-05-01", 0, ascii "a"⟩, false), (⟨ascii "2024-05-02", 0, ascii "b"⟩, false)] := by
    decide
  have := h [] _ _ hcalls
  cases this

end Store

end VisitLogger
