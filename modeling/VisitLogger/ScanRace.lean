import VisitLogger.Runs
import VisitLogger.ScanSound

/-!
# Scans that meet an append

`LinesAfter` takes no lock: a scan can read a day log while an append writes
it. Here the bytes of an append reach the file piece by piece, the append can be
cut short, and the reads of a scan come at any time. `readLoop_reader` ties the
reader's steps to `readLoop`.
-/

namespace VisitLogger

open Framing

namespace ScanRace

open Store

/-- A scan of the file: the cursor, the bytes read so far, the state of the read
loop, and the lines given to `yield`. -/
structure Reader where
  sinceDate : Text
  sinceOffset : Int
  pos : Nat
  offset : Int
  buf : Text
  given : List LogLine
  ended : Bool
  deriving DecidableEq, Repr

/-- The file of one date, the append that holds the mutex with its bytes still to
come, the lines that appends took on, and a scan. -/
structure State where
  content : Text
  inFlight : Option Text
  accepted : List LogLine
  reader : Option Reader
  deriving DecidableEq, Repr

def State.init : State := ⟨[], none, [], none⟩

def give (given : List LogLine) (l : LogLine) : List LogLine × Bool := (given ++ [l], true)

def Reader.start (sinceDate : Text) (sinceOffset : Int) : Reader :=
  ⟨sinceDate, sinceOffset, 0, 0, [], [], false⟩

def Reader.chunk (date : Text) (r : Reader) (c : Text) : Reader :=
  let lines := closed nl (r.buf ++ c)
  { r with
    pos := r.pos + c.length
    offset := r.offset + lines.length
    buf := tail nl (r.buf ++ c)
    given := (emitLines give r.sinceDate r.sinceOffset date r.given r.offset lines).1 }

def Reader.eof (date : Text) (r : Reader) : Reader :=
  { r with
    given := if r.buf = [] then r.given else (emit give r.sinceDate r.sinceOffset date r.given r.offset r.buf).1
    ended := true }

inductive Act where
  | begin (group : List LogLine)
  | write (n : Nat)
  | finish
  | cut
  | scan (sinceDate : Text) (sinceOffset : Int)
  | read (n : Nat)
  | eof
  deriving DecidableEq, Repr

def step (machineID date : Text) (s : State) : Act → Option State
  | .begin group =>
    if s.inFlight ≠ none ∨ ∃ l ∈ group, l.date ≠ date then none
    else
      match selectLines machineID (s.content.count nl : Nat) group with
      | .error _ => some s
      | .ok (toWrite, _) =>
        if toWrite = [] then some s
        else some { s with inFlight := some (encode toWrite), accepted := s.accepted ++ toWrite }
  | .write n =>
    match s.inFlight with
    | none => none
    | some rest => some { s with content := s.content ++ rest.take n, inFlight := some (rest.drop n) }
  | .finish => if s.inFlight = some [] then some { s with inFlight := none } else none
  | .cut => if s.inFlight = none then none else some { s with inFlight := none }
  | .scan sinceDate sinceOffset => some { s with reader := some (.start sinceDate sinceOffset) }
  | .read n =>
    match s.reader with
    | none => none
    | some r =>
      if r.ended ∨ (s.content.drop r.pos).take n = [] then none
      else some { s with reader := some (r.chunk date ((s.content.drop r.pos).take n)) }
  | .eof =>
    match s.reader with
    | none => none
    | some r => if r.ended ∨ r.pos ≠ s.content.length then none else some { s with reader := some (r.eof date) }

/-- An append starts on a file that ends with a newline, with lines that hold none. -/
def Allowed (s : State) : Act → Prop
  | .begin group => tail nl s.content = [] ∧ ∀ l ∈ group, nl ∉ l.rawLine
  | _ => True

/-! ## The reader is the read loop -/

theorem readLoop_reader (date : Text) (r : Reader) (cs : List Text) :
    readLoop give r.sinceDate r.sinceOffset date none r.given r.offset r.buf cs =
      (((cs.foldl (Reader.chunk date) r).eof date).given, .ok true) := by
  have hy : ∀ (g : List LogLine) l, (give g l).2 = true := fun _ _ => rfl
  induction cs generalizing r with
  | nil =>
    rw [readLoop]
    by_cases hb : r.buf = []
    · simp [Reader.eof, hb]
    · simp only [hb, if_false, List.foldl_nil, Reader.eof, emit_all _ _ _ hy]
  | cons c cs ih =>
    have := ih (r.chunk date c)
    simp only [Reader.chunk, emitLines_all _ _ _ hy] at this
    simp only [readLoop, emitLines_all _ _ _ hy, List.foldl_cons, this, Reader.chunk]

/-! ## What the file holds -/

/-- The file is on its way to the lines `ls`, and gets there with the bytes in flight. -/
structure FileInv (date : Text) (s : State) (ls : List LogLine) : Prop where
  accepted : ∀ l ∈ ls, l ∈ s.accepted ∧ l.date = date ∧ nl ∉ l.rawLine
  countUp : CountUp 0 ls
  onTheWay : s.content <+: encode ls
  inFlight : ∀ rest, s.inFlight = some rest → s.content ++ rest = encode ls

section
variable {machineID date : Text} {s : State} {ls : List LogLine}

theorem FileInv.noNl (h : FileInv date s ls) : ∀ t ∈ ls.map LogLine.rawLine, nl ∉ t := by
  intro t ht
  obtain ⟨l, hl, rfl⟩ := List.mem_map.mp ht
  exact (h.accepted l hl).2.2

theorem FileInv.numbered_prefix (h : FileInv date s ls) {t : Text} (ht : t <+: s.content) :
    numbered date 0 (closed nl t) <+: ls := by
  have hp : closed nl t <+: ls.map LogLine.rawLine := by
    rw [← closed_unlines nl h.noNl]
    exact closed_prefix nl (ht.trans h.onTheWay)
  obtain ⟨us, hus⟩ := hp
  have hnum := numbered_map (fun l hl => (h.accepted l hl).2.1) h.countUp
  rw [← hus, numbered_append] at hnum
  exact ⟨_, hnum⟩

theorem FileInv.tail_line (h : FileInv date s ls) (ht : tail nl s.content ≠ []) :
    ∃ m ∈ ls, m.lineOffset = (closed nl s.content).length ∧ tail nl s.content <+: m.rawLine := by
  obtain ⟨t, hget, hp⟩ := tail_prefix_line nl h.noNl h.onTheWay ht
  rw [List.getElem?_map, Option.map_eq_some_iff] at hget
  obtain ⟨m, hm, rfl⟩ := hget
  obtain ⟨hi, rfl⟩ := List.getElem?_eq_some_iff.mp hm
  exact ⟨_, List.getElem_mem hi, by rw [h.countUp]; omega, hp⟩

theorem FileInv.begin (h : FileInv date s ls) (ht : tail nl s.content = [])
    {group toWrite : List LogLine} {c : Int}
    (hg : ∀ l ∈ group, l.date = date ∧ nl ∉ l.rawLine)
    (hsel : selectLines machineID (s.content.count nl : Nat) group = .ok (toWrite, c)) :
    FileInv date { s with inFlight := some (encode toWrite), accepted := s.accepted ++ toWrite }
      (numbered date 0 (closed nl s.content) ++ toWrite) := by
  obtain ⟨-, hsub, hoff, -⟩ := selectLines_ok hsel
  have hcontent : encode (numbered date 0 (closed nl s.content)) = s.content := by
    rw [encode, rawLine_numbered, unlines_of_tail_nil nl ht]
  refine ⟨?_, ?_, ?_, ?_⟩
  · intro l hl
    rcases List.mem_append.mp hl with hl | hl
    · obtain ⟨ha, hd, hn⟩ := h.accepted l ((h.numbered_prefix (List.prefix_refl _)).subset hl)
      exact ⟨List.mem_append_left _ ha, hd, hn⟩
    · exact ⟨List.mem_append_right _ hl, hg l (hsub.subset hl)⟩
  · apply (countUp_numbered date 0 _).append
    rw [length_numbered, length_closed, Int.zero_add]
    exact hoff
  · rw [encode_append, hcontent]
    exact List.prefix_append _ _
  · intro rest hr
    cases hr
    rw [encode_append, hcontent]

/-! ## What the reader has -/

/-- A scan under way has given the closed lines of what it has read. A scan that
has ended has given accepted lines, and after them perhaps the start of one. -/
structure ReaderInv (date : Text) (content : Text) (accepted : List LogLine) (r : Reader) : Prop where
  reading : r.ended = false → r.pos ≤ content.length ∧ r.buf = tail nl (content.take r.pos) ∧
    r.offset = (closed nl (content.take r.pos)).length ∧
    r.given = (numbered date 0 (closed nl (content.take r.pos))).filter (isPast r.sinceDate r.sinceOffset)
  ended : r.ended = true → ∀ l ∈ r.given, l ∈ accepted ∨ r.given.getLast? = some l ∧
    ∃ m ∈ accepted, m.date = l.date ∧ m.lineOffset = l.lineOffset ∧ l.rawLine <+: m.rawLine

theorem ReaderInv.mono {content content' : Text} {accepted accepted' : List LogLine} {r : Reader}
    (h : ReaderInv date content accepted r) (hc : content <+: content') (ha : ∀ l ∈ accepted, l ∈ accepted') :
    ReaderInv date content' accepted' r := by
  refine ⟨fun he => ?_, fun he l hl => ?_⟩
  · obtain ⟨hpos, hrest⟩ := h.reading he
    have htake : content'.take r.pos = content.take r.pos := by
      obtain ⟨u, rfl⟩ := hc
      exact List.take_append_of_le_length hpos
    rw [htake]
    exact ⟨hpos.trans hc.length_le, hrest⟩
  · rcases h.ended he l hl with h | ⟨h, m, hm, hml⟩
    · exact Or.inl (ha l h)
    · exact Or.inr ⟨h, m, ha m hm, hml⟩

theorem yieldAll_give (sinceDate : Text) (sinceOffset : Int) (given ls : List LogLine) :
    yieldAll give sinceDate sinceOffset given ls = given ++ ls.filter (isPast sinceDate sinceOffset) := by
  unfold yieldAll
  generalize ls.filter (isPast sinceDate sinceOffset) = ls
  induction ls generalizing given with
  | nil => simp
  | cons l ls ih => rw [List.foldl_cons, ih, give]; simp

theorem ReaderInv.chunk {content : Text} {accepted : List LogLine} {r : Reader}
    (h : ReaderInv date content accepted r)
    (he : r.ended = false) (n : Nat) : ReaderInv date content accepted
      (r.chunk date ((content.drop r.pos).take n)) := by
  obtain ⟨hpos, hbuf, hoff, hgiven⟩ := h.reading he
  have hy : ∀ (g : List LogLine) l, (give g l).2 = true := fun _ _ => rfl
  have hlen : ((content.drop r.pos).take n).length ≤ content.length - r.pos := by
    rw [List.length_take, List.length_drop]; omega
  have htake : content.take (r.pos + ((content.drop r.pos).take n).length) =
      content.take r.pos ++ (content.drop r.pos).take n := by
    rw [List.take_add, ← List.prefix_iff_eq_take.mp (List.take_prefix n (content.drop r.pos))]
  refine ⟨fun _ => ?_, fun hended => ?_⟩
  · simp only [Reader.chunk, htake, emitLines_all _ _ _ hy, yieldAll_give, hbuf, hoff, hgiven]
    refine ⟨by omega, (tail_append nl _ _).symm, ?_, ?_⟩
    · rw [closed_append nl (content.take r.pos), List.length_append]; omega
    · rw [closed_append nl (content.take r.pos), numbered_append, List.filter_append, Int.zero_add]
  · simp only [Reader.chunk, he] at hended
    cases hended

theorem ReaderInv.eof {r : Reader} (h : ReaderInv date s.content s.accepted r) (hf : FileInv date s ls)
    (he : r.ended = false) (hpos : r.pos = s.content.length) :
      ReaderInv date s.content s.accepted (r.eof date) := by
  obtain ⟨-, hbuf, hoff, hgiven⟩ := h.reading he
  rw [hpos, List.take_length] at hbuf hoff hgiven
  have hy : ∀ (g : List LogLine) l, (give g l).2 = true := fun _ _ => rfl
  have hold : ∀ l ∈ r.given, l ∈ s.accepted := by
    intro l hl
    rw [hgiven] at hl
    exact (hf.accepted l ((hf.numbered_prefix (List.prefix_refl _)).subset (List.mem_filter.mp hl).1)).1
  refine ⟨nofun, fun _ l hl => ?_⟩
  simp only [Reader.eof] at hl ⊢
  by_cases hb : r.buf = []
  · rw [if_pos hb] at hl
    exact Or.inl (hold l hl)
  · rw [if_neg hb, emit_all _ _ _ hy, yieldAll_give] at hl ⊢
    rcases List.mem_append.mp hl with hl | hl
    · exact Or.inl (hold l hl)
    · -- the open tail, given under the offset after the closed lines
      obtain ⟨hm, hpast⟩ := List.mem_filter.mp hl
      obtain rfl := List.mem_singleton.mp hm
      right
      obtain ⟨m, hm, hmo, hmp⟩ := hf.tail_line (hbuf ▸ hb)
      refine ⟨?_, m, (hf.accepted m hm).1, (hf.accepted m hm).2.1, by rw [hmo, hoff], by rw [hbuf]; exact hmp⟩
      rw [List.filter_cons_of_pos hpast]
      simp

/-! ## Every run -/

structure Inv (date : Text) (s : State) : Prop where
  file : ∃ ls, FileInv date s ls
  reader : ∀ r, s.reader = some r → ReaderInv date s.content s.accepted r

theorem Inv.init : Inv date State.init :=
  ⟨⟨[], by simp, fun i hi => absurd hi (by simp), List.nil_prefix, nofun⟩, nofun⟩

theorem Inv.step {a : Act} {s' : State} (h : Inv date s) (ha : Allowed s a)
    (hs : s' ∈ step machineID date s a) :
    Inv date s' := by
  obtain ⟨⟨ls, hf⟩, hr⟩ := h
  cases a with
  | begin group =>
    simp only [ScanRace.step] at hs
    split at hs
    · cases hs
    · rename_i hg
      rw [not_or] at hg
      have hgroup : ∀ l ∈ group, l.date = date ∧ nl ∉ l.rawLine := fun l hl =>
        ⟨by_contra fun hne => hg.2 ⟨l, hl, hne⟩, ha.2 l hl⟩
      split at hs
      · -- a group that is refused, or of which nothing is new, leaves the file as it is
        cases hs; exact ⟨⟨ls, hf⟩, hr⟩
      · rename_i toWrite c hsel
        split at hs
        · cases hs; exact ⟨⟨ls, hf⟩, hr⟩
        · cases hs
          exact ⟨⟨_, hf.begin ha.1 hgroup hsel⟩,
            fun r hr' => (hr r hr').mono (List.prefix_refl _) fun l hl => List.mem_append_left _ hl⟩
  | write n =>
    simp only [ScanRace.step] at hs
    split at hs
    · cases hs
    · rename_i rest hrest
      cases hs
      have hall := hf.inFlight rest hrest
      -- what is in the file and what is in flight are the accepted lines, at any cut of the write
      have hcat : (s.content ++ rest.take n) ++ rest.drop n = encode ls := by
        rw [List.append_assoc, List.take_append_drop, hall]
      refine ⟨⟨ls, hf.accepted, hf.countUp, ⟨_, hcat⟩, ?_⟩,
        fun r hr' => (hr r hr').mono (List.prefix_append _ _) fun _ => id⟩
      intro rest' hr'
      cases hr'
      exact hcat
  | finish =>
    simp only [ScanRace.step, Option.mem_def, Option.ite_none_right_eq_some, Option.some.injEq] at hs
    obtain ⟨-, rfl⟩ := hs
    exact ⟨⟨ls, hf.accepted, hf.countUp, hf.onTheWay, nofun⟩, hr⟩
  | cut =>
    simp only [ScanRace.step, Option.mem_def, Option.ite_none_left_eq_some, Option.some.injEq] at hs
    obtain ⟨-, rfl⟩ := hs
    exact ⟨⟨ls, hf.accepted, hf.countUp, hf.onTheWay, nofun⟩, hr⟩
  | scan sinceDate sinceOffset =>
    cases hs
    refine ⟨⟨ls, hf.accepted, hf.countUp, hf.onTheWay, hf.inFlight⟩, ?_⟩
    intro r hr'
    cases hr'
    exact ⟨fun _ => ⟨Nat.zero_le _, rfl, rfl, rfl⟩, nofun⟩
  | read n =>
    simp only [ScanRace.step] at hs
    split at hs
    · cases hs
    · rename_i r hreader
      split at hs
      · cases hs
      · rename_i hn
        rw [not_or] at hn
        cases hs
        refine ⟨⟨ls, hf.accepted, hf.countUp, hf.onTheWay, hf.inFlight⟩, ?_⟩
        intro r' hr'
        cases hr'
        exact (hr r hreader).chunk (by simpa using hn.1) n
  | eof =>
    simp only [ScanRace.step] at hs
    split at hs
    · cases hs
    · rename_i r hreader
      split at hs
      · cases hs
      · rename_i hn
        rw [not_or, not_not] at hn
        cases hs
        refine ⟨⟨ls, hf.accepted, hf.countUp, hf.onTheWay, hf.inFlight⟩, ?_⟩
        intro r' hr'
        cases hr'
        exact (hr r hreader).eof hf (by simpa using hn.1) hn.2

end

/-- **What a puller is given**, in every run whose appends start on a closed
file: accepted lines, at their date and offset and with their text; only the
last one, given at the end of the file, may be no more than the start of one. -/
theorem given_line_whole (machineID date : Text) {acts : List Act} {s : State} {r : Reader}
    (ho : Runs.Obeys (step machineID date) Allowed State.init acts)
    (hrun : Runs.run (step machineID date) State.init acts = some s)
    (hr : s.reader = some r) : ∀ l ∈ r.given, l ∈ s.accepted ∨ r.ended = true ∧ r.given.getLast? = some l ∧
      ∃ m ∈ s.accepted, m.date = l.date ∧ m.lineOffset = l.lineOffset ∧ l.rawLine <+: m.rawLine := by
  have hinv : Inv date s := Runs.run_invariant (fun _ _ _ h ha hs => h.step ha hs) Inv.init ho hrun
  obtain ⟨ls, hf⟩ := hinv.file
  have hreader := hinv.reader r hr
  intro l hl
  cases he : r.ended with
  | true => exact (hreader.ended he l hl).imp_right fun h => ⟨rfl, h⟩
  | false =>
    obtain ⟨-, -, -, hgiven⟩ := hreader.reading he
    rw [hgiven] at hl
    left
    exact (hf.accepted l ((hf.numbered_prefix (List.take_prefix _ _)).subset (List.mem_filter.mp hl).1)).1

/-- A scan that meets the end of the file while an append has written half of a line. -/
def tornScan : List Act :=
  [.begin [⟨ascii "2024-05-01", 0, ascii "ab"⟩], .write 1, .scan [] (-1), .read 4096, .eof]

theorem torn_line_given :
    ((Runs.run (step (ascii "m") (ascii "2024-05-01")) State.init tornScan).bind State.reader).map Reader.given =
        some [⟨ascii "2024-05-01", 0, ascii "a"⟩] ∧
      (Runs.run (step (ascii "m") (ascii "2024-05-01")) State.init tornScan).map State.accepted =
        some [⟨ascii "2024-05-01", 0, ascii "ab"⟩] := by
  decide

theorem given_line_whole_tornScan :
    ∃ s r, Runs.run (step (ascii "m") (ascii "2024-05-01")) State.init tornScan = some s ∧ s.reader = some r ∧
      ∀ l ∈ r.given, l ∈ s.accepted ∨ r.ended = true ∧ r.given.getLast? = some l ∧
        ∃ m ∈ s.accepted, m.date = l.date ∧ m.lineOffset = l.lineOffset ∧ l.rawLine <+: m.rawLine := by
  have ho : Runs.Obeys (step (ascii "m") (ascii "2024-05-01")) Allowed State.init tornScan :=
    ⟨⟨rfl, by decide⟩, fun _ _ => ⟨trivial,
      fun _ _ => ⟨trivial, fun _ _ => ⟨trivial, fun _ _ => ⟨trivial, fun _ _ =>
      trivial⟩⟩⟩⟩⟩
  exact ⟨_, _, rfl, rfl, given_line_whole (ascii "m") (ascii "2024-05-01") ho rfl rfl⟩

end ScanRace

end VisitLogger
