import VisitLogger.StoreSound

/-!
# A scan returns what was appended

After a run of appends for one machine its day log of a date holds the lines
that the calls put there, with the offsets 0, 1, 2 and so on (`Appends`). A scan
whose `yield` never stops reads a file as numbered lines, whatever the chunks
(`readLoop_all`), and goes over the dates in order; so it returns the lines
after its cursor, in order.
-/

namespace VisitLogger

open Framing

def Io.Whole (io : Io) : Prop := ∀ d n e, io.write d = some (n, e) → n = 0

/-- A line as the client sends it. -/
structure LogLine.Proper (l : LogLine) : Prop where
  date : IsDate l.date
  noNl : nl ∉ l.rawLine

namespace Store

/-! ## What a run of appends leaves -/

def ofDate (d : Text) (ls : List LogLine) : List LogLine := ls.filter (·.date = d)

@[simp] theorem ofDate_append (d : Text) (ls ms : List LogLine) : ofDate d (ls ++ ms) = ofDate d ls ++
  ofDate d ms :=
  List.filter_append ..

theorem mem_ofDate {d : Text} {ls : List LogLine} {l : LogLine} : l ∈ ofDate d ls ↔ l ∈ ls ∧ l.date = d := by
  simp [ofDate]

theorem ofDate_eq_self {d : Text} {ls : List LogLine} (h : ∀ l ∈ ls, l.date = d) : ofDate d ls = ls :=
  List.filter_eq_self.mpr fun l hl => by simpa using h l hl

theorem ofDate_eq_nil {d : Text} {ls : List LogLine} (h : ∀ l ∈ ls, l.date ≠ d) : ofDate d ls = [] :=
  List.filter_eq_nil_iff.mpr fun l hl => by simpa using h l hl

def CountUp (o : Int) (ls : List LogLine) : Prop := ∀ i (hi : i < ls.length), ls[i].lineOffset = o + i

theorem CountUp.append {o : Int} {ls ms : List LogLine} (h : CountUp o ls) (h' : CountUp (o + ls.length) ms) :
    CountUp o (ls ++ ms) := by
  intro i hi
  by_cases hl : i < ls.length
  · rw [List.getElem_append_left hl]; exact h i hl
  · rw [List.getElem_append_right (by omega), h' (i - ls.length) (by simp at hi; omega)]
    omega

theorem count_encode {ls : List LogLine} (h : ∀ l ∈ ls, nl ∉ l.rawLine) : (encode ls).count nl = ls.length := by
  have hnl : ∀ t ∈ ls.map LogLine.rawLine, nl ∉ t := by
    intro t ht
    obtain ⟨l, hl, rfl⟩ := List.mem_map.mp ht
    exact h l hl
  rw [← length_closed, encode, closed_unlines nl hnl, List.length_map]

/-- From `disk` to `disk'` the day logs of the machine gain the lines `w`, each
at its offset. -/
def Appends (logRoot : Path) (machineID : Text) (disk disk' : Disk) (w : List LogLine) : Prop :=
  ∀ d, slash ∉ d →
    disk'.bytes (logPath logRoot machineID d) = disk.bytes (logPath logRoot machineID d) ++
      encode (ofDate d w) ∧
      CountUp (countLines disk (logPath logRoot machineID d)) (ofDate d w)

section
variable {io : Io} {logRoot : Path} {machineID date : Text} {disk disk' disk'' : Disk} {group written w w' : List LogLine}

theorem Appends.refl (h : ∀ d, disk'.bytes (logPath logRoot machineID d) =
    disk.bytes (logPath logRoot machineID d)) :
    Appends logRoot machineID disk disk' [] := by
  intro d _
  exact ⟨by rw [h]; simp [ofDate, encode], by simp [ofDate, CountUp]⟩

theorem Appends.trans (h : Appends logRoot machineID disk disk' w)
    (h' : Appends logRoot machineID disk' disk'' w')
    (hnl : ∀ l ∈ w, nl ∉ l.rawLine) : Appends logRoot machineID disk disk'' (w ++ w') := by
  intro d hd
  obtain ⟨hb, hc⟩ := h d hd
  obtain ⟨hb', hc'⟩ := h' d hd
  have hcount : countLines disk' (logPath logRoot machineID d) =
      countLines disk (logPath logRoot machineID d) + (ofDate d w).length := by
    rw [countLines, hb, List.count_append, count_encode fun l hl => hnl l (mem_ofDate.mp hl).1, countLines]
    omega
  rw [hcount] at hc'
  rw [ofDate_append]
  exact ⟨by rw [hb', hb, List.append_assoc, encode_append], hc.append hc'⟩

theorem appendGroup_appends {r : Except Text Int} (hio : io.Whole) (hdate : slash ∉ date)
    (hg : ∀ l ∈ group, l.date = date) (h : appendGroup io logRoot machineID disk date group =
      (disk', written, r)) :
    Appends logRoot machineID disk disk' written ∧ ∀ l ∈ written, l ∈ group := by
  rcases r with e | c
  · rcases appendGroup_cases h with ⟨c, hc, -⟩ | ⟨-, rfl, hf⟩
    · cases hc
    · refine ⟨Appends.refl fun d => ?_, by simp⟩
      rcases hf with hf | ⟨toWrite, count, n, msg, hw, -, -, hf⟩
      · exact bytes_congr hf _
      · rw [hio _ _ _ hw, List.take_zero, List.append_nil] at hf
        rw [bytes_insert hf]
        split
        · rename_i he; rw [he]
        · rfl
  · obtain ⟨hs, hb⟩ := appendGroup_ok h
    obtain ⟨-, hsub, hoff, -⟩ := selectLines_ok hs
    refine ⟨fun d hd => ?_, fun l hl => hsub.subset hl⟩
    rw [hb]
    by_cases hdd : d = date
    · subst hdd
      rw [ofDate_eq_self fun l hl => hg l (hsub.subset hl), if_pos rfl]
      exact ⟨rfl, hoff⟩
    · rw [ofDate_eq_nil fun l hl he => hdd (by rw [← he, hg l (hsub.subset hl)]),
        if_neg fun he => hdd (logPath_inj hd hdate he)]
      exact ⟨by simp [encode], by simp [CountUp]⟩

theorem appendGroups_appends (hio : io.Whole) (latest : Text × Int) (groups : List (List LogLine)) (disk : Disk)
    (hg : ∀ g ∈ groups, slash ∉ groupDate g ∧ ∀ l ∈ g, l.date = groupDate g ∧ nl ∉ l.rawLine) :
    Appends logRoot machineID disk (appendGroups io logRoot machineID disk latest groups).1
        (appendGroups io logRoot machineID disk latest groups).2.1 ∧
      ∀ l ∈ (appendGroups io logRoot machineID disk latest groups).2.1, ∃ g ∈ groups, l ∈ g := by
  induction groups generalizing disk latest with
  | nil => exact ⟨Appends.refl fun _ => rfl, fun l hl => nomatch hl⟩
  | cons group groups ih =>
    obtain ⟨hd, hl⟩ := hg group (by simp)
    rcases appendGroups_cons io logRoot machineID disk latest group groups with
      ⟨e, disk', written, hstep, hc⟩ | ⟨c, disk', written, hstep, hc⟩
    · obtain ⟨ha, hw⟩ := appendGroup_appends hio hd (fun l hl' => (hl l hl').1) hstep
      rw [hc]
      exact ⟨ha, fun l hl => ⟨group, by simp, hw l hl⟩⟩
    · obtain ⟨ha, hw⟩ := appendGroup_appends hio hd (fun l hl' => (hl l hl').1) hstep
      obtain ⟨ha', hw'⟩ := ih (groupDate group, c - 1) disk' fun g hgm => hg g (List.mem_cons_of_mem _ hgm)
      rw [hc]
      refine ⟨ha.trans ha' fun l hm => (hl l (hw l hm)).2, fun l hm => ?_⟩
      rcases List.mem_append.mp hm with hm | hm
      · exact ⟨group, by simp, hw l hm⟩
      · obtain ⟨g, hgm, hlg⟩ := hw' l hm
        exact ⟨g, List.mem_cons_of_mem _ hgm, hlg⟩

theorem appendLogLines_appends (logRoot : Path) (machineID : Text) (hio : io.Whole) (sort : SliceSort)
    (disk : Disk)
    {lines : List LogLine}
    (hl : ∀ l ∈ lines, l.Proper) :
    Appends logRoot machineID disk (appendLogLines sort io logRoot machineID disk lines).1
        (appendLogLines sort io logRoot machineID disk lines).2.1 ∧
      ∀ l ∈ (appendLogLines sort io logRoot machineID disk lines).2.1, l ∈ lines := by
  unfold appendLogLines
  split
  · exact ⟨Appends.refl fun _ => rfl, by simp⟩
  · have hmem : ∀ g ∈ groupByDate (sort.run lines), ∀ l ∈ g, l ∈ lines := fun g hg l hlg =>
      (sort.perm lines).mem_iff.mp (mem_groupByDate.mp ⟨g, hg, hlg⟩)
    obtain ⟨ha, hw⟩ := appendGroups_appends hio ([], 0) (groupByDate (sort.run lines)) disk fun g hg => by
      obtain ⟨l, hlg⟩ := List.exists_mem_of_ne_nil g (List.ne_nil_of_mem_splitBy hg)
      refine ⟨?_, fun m hm => ⟨groupDate_mem hg m hm, (hl m (hmem g hg m hm)).noNl⟩⟩
      rw [← groupDate_mem hg l hlg]
      exact (hl l (hmem g hg l hlg)).date.noSlash
    refine ⟨ha, fun l hlw => ?_⟩
    obtain ⟨g, hg, hlg⟩ := hw l hlw
    exact hmem g hg l hlg

end

/-- A run of calls for one machine, each with its own errors: the disk and the
lines accepted. -/
def runAppends (sort : SliceSort) (logRoot : Path) (machineID : Text) :
    Disk → List (Io × List LogLine) → Disk × List LogLine
  | disk, [] => (disk, [])
  | disk, (io, lines) :: calls =>
    let a := appendLogLines sort io logRoot machineID disk lines
    let r := runAppends sort logRoot machineID a.1 calls
    (r.1, a.2.1 ++ r.2)

theorem runAppends_appends (sort : SliceSort) (logRoot : Path) (machineID : Text) (disk : Disk)
    (calls : List (Io × List LogLine)) (hc : ∀ c ∈ calls, c.1.Whole ∧ ∀ l ∈ c.2, l.Proper) :
    Appends logRoot machineID disk (runAppends sort logRoot machineID disk calls).1
        (runAppends sort logRoot machineID disk calls).2 ∧
      ∀ l ∈ (runAppends sort logRoot machineID disk calls).2, l.Proper := by
  induction calls generalizing disk with
  | nil => exact ⟨Appends.refl fun _ => rfl, fun l hl => nomatch hl⟩
  | cons c calls ih =>
    obtain ⟨io, lines⟩ := c
    obtain ⟨hio, hl⟩ := hc (io, lines) (by simp)
    obtain ⟨ha, hw⟩ := appendLogLines_appends logRoot machineID hio sort disk hl
    obtain ⟨ha', hw'⟩ := ih (appendLogLines sort io logRoot machineID disk lines).1
      fun c hcm => hc c (List.mem_cons_of_mem _ hcm)
    refine ⟨ha.trans ha' fun l hlw => (hl l (hw l hlw)).noNl, fun l hlm => ?_⟩
    rcases List.mem_append.mp hlm with h | h
    · exact hl l (hw l h)
    · exact hw' l h

/-! ## Reading a file -/

def numbered (date : Text) : Int → List Text → List LogLine
  | _, [] => []
  | o, t :: ts => ⟨date, o, t⟩ :: numbered date (o + 1) ts

theorem numbered_append (date : Text) (o : Int) (ts us : List Text) :
    numbered date o (ts ++ us) = numbered date o ts ++ numbered date (o + ts.length) us := by
  induction ts generalizing o with
  | nil => simp [numbered]
  | cons t ts ih =>
    simp only [List.cons_append, numbered, ih, List.length_cons]
    rw [show o + 1 + (ts.length : Int) = o + ((ts.length + 1 : Nat) : Int) by omega]

theorem rawLine_numbered (date : Text) (o : Int) (ts : List Text) :
    (numbered date o ts).map LogLine.rawLine = ts := by
  induction ts generalizing o with
  | nil => rfl
  | cons t ts ih => rw [numbered, List.map_cons, ih]

theorem length_numbered (date : Text) (o : Int) (ts : List Text) : (numbered date o ts).length = ts.length := by
  rw [← List.length_map, rawLine_numbered]

theorem countUp_numbered (date : Text) (o : Int) (ts : List Text) : CountUp o (numbered date o ts) := by
  induction ts generalizing o with
  | nil => exact fun i hi => absurd hi (by simp [numbered])
  | cons t ts ih =>
    intro i hi
    cases i with
    | zero => simp [numbered]
    | succ i =>
      simp only [numbered, List.getElem_cons_succ, ih (o + 1) i (by simpa [numbered] using hi)]
      omega

theorem numbered_map {date : Text} {o : Int} {ls : List LogLine} (hd : ∀ l ∈ ls, l.date = date)
    (ho : CountUp o ls) :
    numbered date o (ls.map LogLine.rawLine) = ls := by
  induction ls generalizing o with
  | nil => rfl
  | cons l ls ih =>
    have h₀ : l.lineOffset = o + (0 : Nat) := ho 0 (by simp)
    have htail : CountUp (o + 1) ls := by
      intro i hi
      have := ho (i + 1) (by simpa using hi)
      simp only [List.getElem_cons_succ] at this
      omega
    rw [List.map_cons, numbered, ih (fun m hm => hd m (List.mem_cons_of_mem _ hm)) htail, ← hd l (by simp)]
    obtain rfl : l.lineOffset = o := by omega
    rfl

section
variable {σ : Type*} (yield : σ → LogLine → σ × Bool) (sinceDate : Text) (sinceOffset : Int) (date : Text)

def isPast (l : LogLine) : Bool := sinceDate < l.date || sinceOffset < l.lineOffset

def yieldAll (s : σ) (ls : List LogLine) : σ :=
  (ls.filter (isPast sinceDate sinceOffset)).foldl (fun s l => (yield s l).1) s

theorem yieldAll_append (s : σ) (ls ms : List LogLine) :
    yieldAll yield sinceDate sinceOffset s (ls ++ ms) =
      yieldAll yield sinceDate sinceOffset (yieldAll yield sinceDate sinceOffset s ls) ms := by
  simp [yieldAll]

variable {yield} (hy : ∀ s l, (yield s l).2 = true)
include hy

theorem emit_all (s : σ) (o : Int) (t : Text) :
    emit yield sinceDate sinceOffset date s o t =
      (yieldAll yield sinceDate sinceOffset s [⟨date, o, t⟩], true) := by
  unfold emit yieldAll
  by_cases h : sinceDate < date ∨ sinceOffset < o
  · have hb : isPast sinceDate sinceOffset ⟨date, o, t⟩ = true := by simpa [isPast] using h
    rw [if_pos h, List.filter_cons_of_pos hb, ← hy s ⟨date, o, t⟩]
    rfl
  · have hb : ¬isPast sinceDate sinceOffset ⟨date, o, t⟩ = true := by simpa [isPast] using h
    rw [if_neg h, List.filter_cons_of_neg hb]
    rfl

theorem emitLines_all (s : σ) (o : Int) (ts : List Text) :
    emitLines yield sinceDate sinceOffset date s o ts =
      (yieldAll yield sinceDate sinceOffset s (numbered date o ts), true) := by
  induction ts generalizing s o with
  | nil => rfl
  | cons t ts ih =>
    simp only [emitLines, emit_all sinceDate sinceOffset date hy, ih, numbered]
    rw [← yieldAll_append]
    rfl

/-- The lines that a file comes to: those that are closed, and an open tail. -/
def fileTexts (s : Text) : List Text := closed nl s ++ if tail nl s = [] then [] else [tail nl s]

/-- **Chunking does not matter** to a scan. -/
theorem readLoop_all (s : σ) (o : Int) (buf : Text) (cs : List Text) (hbuf : nl ∉ buf) :
    readLoop yield sinceDate sinceOffset date none s o buf cs =
      (yieldAll yield sinceDate sinceOffset s (numbered date o (fileTexts (buf ++ cs.flatten))), .ok true) := by
  induction cs generalizing s o buf with
  | nil =>
    rw [readLoop, fileTexts, List.flatten_nil, List.append_nil, closed_of_open nl hbuf, tail_of_open nl hbuf]
    split
    · rfl
    · simp only [emit_all sinceDate sinceOffset date hy]
      rfl
  | cons c cs ih =>
    simp only [readLoop, emitLines_all sinceDate sinceOffset date hy]
    rw [ih _ _ _ (nl_notMem_tail nl _), ← yieldAll_append, ← numbered_append]
    congr 2
    simp only [fileTexts, List.flatten_cons, ← List.append_assoc]
    rw [closed_append nl (buf ++ c), tail_append nl (buf ++ c), List.append_assoc]

theorem scanDates_all {rio : ReadIo} (hopen : rio.openFile = fun _ => none) (hread : rio.read = fun _ => none)
    (hchunks : ∀ d t, (rio.chunks d t).flatten = t) (logRoot : Path) (machineID : Text) (disk : Disk) (s : σ)
    (dates : List Text) :
    scanDates rio yield logRoot machineID disk sinceDate sinceOffset s dates =
      (yieldAll yield sinceDate sinceOffset s
        (dates.flatMap fun d => numbered d 0 (fileTexts (disk.bytes (logPath logRoot machineID d)))),
          .ok ()) := by
  induction dates generalizing s with
  | nil => rfl
  | cons d dates ih =>
    rw [scanDates]
    simp only [hopen, hread, readLoop_all sinceDate sinceOffset d hy _ _ [] _ (by simp), hchunks, ih,
      List.nil_append, List.flatMap_cons, yieldAll_append]

end

/-! ## Scanning -/

theorem datesFrom_sorted (disk : Disk) (logRoot : Path) (machineID sinceDate : Text) :
    (datesFrom disk logRoot machineID sinceDate).Pairwise (· < ·) := by
  apply sortStrings_strict
  apply List.Nodup.filter
  refine List.Nodup.filterMap ?_ (disk.nodup_fileNames _)
  intro name name' d h h'
  rw [(parseLogFilename_eq_some h).1, (parseLogFilename_eq_some h').1]

theorem mem_datesFrom {disk : Disk} {logRoot : Path} {machineID sinceDate d : Text} :
    d ∈ datesFrom disk logRoot machineID sinceDate ↔
      IsDate d ∧ sinceDate ≤ d ∧ logPath logRoot machineID d ∈ disk.files.keys := by
  rw [datesFrom, mem_sortStrings, List.mem_filter, List.mem_filterMap]
  simp only [decide_eq_true_eq]
  constructor
  · rintro ⟨⟨name, hn, hp⟩, hs⟩
    obtain ⟨rfl, hd⟩ := parseLogFilename_eq_some hp
    refine ⟨hd, hs, ?_⟩
    rw [logPath_eq hd.noSlash]
    exact Disk.mem_fileNames.mp hn
  · rintro ⟨hd, hs, hk⟩
    rw [logPath_eq hd.noSlash] at hk
    exact ⟨⟨_, Disk.mem_fileNames.mpr hk, parseLogFilename_logFilename hd⟩, hs⟩

def Before (a b : LogLine) : Prop := a.date < b.date ∨ a.date = b.date ∧ a.lineOffset < b.lineOffset

def AfterCursor (sinceDate : Text) (sinceOffset : Int) (l : LogLine) : Prop :=
  sinceDate < l.date ∨ sinceDate = l.date ∧ sinceOffset < l.lineOffset

theorem CountUp.pairwise {o : Int} {ls : List LogLine} (h : CountUp o ls) :
    ls.Pairwise fun a b => a.lineOffset < b.lineOffset := by
  rw [List.pairwise_iff_getElem]
  intro i j hi hj hij
  rw [h i hi, h j hj]
  omega

theorem pairwise_flatMap_ofDate {dates : List Text} {accepted : List LogLine} (hs : dates.Pairwise (· < ·))
    (hc : ∀ d ∈ dates, CountUp 0 (ofDate d accepted)) :
      (dates.flatMap fun d => ofDate d accepted).Pairwise Before := by
  rw [List.pairwise_flatMap]
  refine ⟨fun d hd => ?_, hs.imp fun {d e} hlt a ha b hb => Or.inl ?_⟩
  · refine (hc d hd).pairwise.imp_of_mem fun {a b} ha hb hab => Or.inr ⟨?_, hab⟩
    rw [(mem_ofDate.mp ha).2, (mem_ofDate.mp hb).2]
  · rwa [(mem_ofDate.mp ha).2, (mem_ofDate.mp hb).2]

theorem mem_keys_of_accepted {disk : Disk} {logRoot : Path} {machineID : Text} {accepted : List LogLine}
    {l : LogLine}
    (hp : ∀ m ∈ accepted, m.Proper) (hl : l ∈ accepted)
    (hb : disk.bytes (logPath logRoot machineID l.date) = encode (ofDate l.date accepted)) :
    logPath logRoot machineID l.date ∈ disk.files.keys := by
  apply Disk.mem_keys_of_bytes
  rw [hb]
  intro he
  have hlen : (ofDate l.date accepted).length = 0 := by
    rw [← count_encode fun m hm => (hp m (mem_ofDate.mp hm).1).noNl, he]; rfl
  have hlm : l ∈ ofDate l.date accepted := mem_ofDate.mpr ⟨hl, rfl⟩
  rw [List.length_eq_zero_iff.mp hlen] at hlm
  cases hlm

/-- **Appends and scans agree.** After any run of calls, the scan from any cursor
hands `yield` the accepted lines strictly after the cursor, in order, whatever
the chunks in which the files are read. -/
theorem linesAfter_runAppends (sort : SliceSort) (logRoot : Path) (machineID : Text) {disk : Disk}
    (hdisk : ∀ d, IsDate d → disk.bytes (logPath logRoot machineID d) = []) {calls : List (Io × List LogLine)}
    (hc : ∀ c ∈ calls, c.1.Whole ∧ ∀ l ∈ c.2, l.Proper) (sinceDate : Text) (sinceOffset : Int) :
    ∃ L : List LogLine, L.Pairwise Before ∧
      (∀ l, l ∈ L ↔ l ∈ (runAppends sort logRoot machineID disk calls).2 ∧
        AfterCursor sinceDate sinceOffset l) ∧
      ∀ {σ : Type} (rio : ReadIo) (yield : σ → LogLine → σ × Bool) (s : σ), rio.readDir = none →
        rio.openFile = (fun _ => none) → rio.read = (fun _ => none) → (∀ d t, (rio.chunks d t).flatten = t) →
        (∀ s l, (yield s l).2 = true) →
        linesAfter rio yield s logRoot machineID
          (runAppends sort logRoot machineID disk calls).1 sinceDate sinceOffset =
          (L.foldl (fun s l => (yield s l).1) s, .ok ()) := by
  obtain ⟨ha, hproper⟩ := runAppends_appends sort logRoot machineID disk calls hc
  generalize (runAppends sort logRoot machineID disk calls).1 = disk' at *
  generalize (runAppends sort logRoot machineID disk calls).2 = accepted at *
  have hfile : ∀ d, IsDate d → disk'.bytes (logPath logRoot machineID d) = encode (ofDate d accepted) ∧
      CountUp 0 (ofDate d accepted) := by
    intro d hd
    obtain ⟨hb, hcount⟩ := ha d hd.noSlash
    rw [hdisk d hd, List.nil_append] at hb
    rw [countLines, hdisk d hd] at hcount
    exact ⟨hb, hcount⟩
  -- what a file holds are the accepted lines of its date
  have hread : ∀ d, IsDate d →
      numbered d 0 (fileTexts (disk'.bytes (logPath logRoot machineID d))) = ofDate d accepted := by
    intro d hd
    have hnl : ∀ t ∈ (ofDate d accepted).map LogLine.rawLine, nl ∉ t := by
      intro t ht
      obtain ⟨l, hl, rfl⟩ := List.mem_map.mp ht
      exact (hproper l (mem_ofDate.mp hl).1).noNl
    rw [(hfile d hd).1, fileTexts, encode, closed_unlines nl hnl, tail_unlines nl hnl, if_pos rfl,
      List.append_nil]
    exact numbered_map (fun l hl => (mem_ofDate.mp hl).2) (hfile d hd).2
  let dates := datesFrom disk' logRoot machineID sinceDate
  have hdates : ∀ d ∈ dates, IsDate d ∧ sinceDate ≤ d :=
    fun d hd => ⟨(mem_datesFrom.mp hd).1, (mem_datesFrom.mp hd).2.1⟩
  have hscan : (dates.flatMap fun d => numbered d 0 (fileTexts (disk'.bytes (logPath logRoot machineID d)))) =
      dates.flatMap fun d => ofDate d accepted := by
    apply List.flatMap_congr
    exact fun d hd => hread d (hdates d hd).1
  refine ⟨(dates.flatMap fun d => ofDate d accepted).filter (isPast sinceDate sinceOffset), ?_, ?_, ?_⟩
  · apply List.Pairwise.filter
    exact pairwise_flatMap_ofDate (datesFrom_sorted disk' logRoot machineID sinceDate) fun d hd =>
      (hfile d (hdates d hd).1).2
  · intro l
    simp only [List.mem_filter, List.mem_flatMap, mem_ofDate, isPast, Bool.or_eq_true,
      decide_eq_true_eq, AfterCursor]
    constructor
    · rintro ⟨⟨d, hd, hl, rfl⟩, hpast⟩
      refine ⟨hl, ?_⟩
      rcases hpast with h | h
      · exact Or.inl h
      · exact (lt_or_eq_of_le (hdates _ hd).2).imp_right fun he => ⟨he, h⟩
    · rintro ⟨hl, hafter⟩
      have hd := (hproper l hl).date
      refine ⟨⟨l.date, mem_datesFrom.mpr ⟨hd, ?_, ?_⟩, hl, rfl⟩, hafter.imp_right And.right⟩
      · rcases hafter with h | ⟨h, -⟩
        · exact le_of_lt h
        · exact le_of_eq h
      · exact mem_keys_of_accepted hproper hl (hfile l.date hd).1
  · intro σ rio yield s hdir hopen hrd hchunks hy
    simp only [linesAfter, hdir]
    rw [scanDates_all sinceDate sinceOffset hy hopen hrd hchunks, hscan]
    rfl

def twoDays : List (Io × List LogLine) :=
  [(.noFault, [⟨ascii "2024-05-02", 0, ascii "b"⟩, ⟨ascii "2024-05-01", 0, ascii "a"⟩]),
    (.noFault, [⟨ascii "2024-05-01", 1, ascii "c"⟩])]

theorem twoDays_proper : ∀ c ∈ twoDays, c.1.Whole ∧ ∀ l ∈ c.2, l.Proper := by
  have hd : IsDate (ascii "2024-05-01") ∧ IsDate (ascii "2024-05-02") := by decide
  intro c hc
  simp only [twoDays, List.mem_cons, List.not_mem_nil, or_false] at hc
  rcases hc with rfl | rfl
  · refine ⟨fun d n e he => (by cases he), fun l hl => ?_⟩
    simp only [List.mem_cons, List.not_mem_nil, or_false] at hl
    rcases hl with rfl | rfl
    · exact ⟨hd.2, by decide⟩
    · exact ⟨hd.1, by decide⟩
  · refine ⟨fun d n e he => (by cases he), fun l hl => ?_⟩
    obtain rfl := List.mem_singleton.mp hl
    exact ⟨hd.1, by decide⟩

theorem linesAfter_runAppends_twoDays : ∃ L : List LogLine, L.Pairwise Before ∧
    (∀ l, l ∈ L ↔ l ∈ (runAppends .insertion ⟨true, [ascii "logs"]⟩ (ascii "m") Disk.empty twoDays).2 ∧
      AfterCursor (ascii "2024-05-01") 0 l) ∧
    ∀ {σ : Type} (rio : ReadIo) (yield : σ → LogLine → σ × Bool) (s : σ), rio.readDir = none →
      rio.openFile = (fun _ => none) → rio.read = (fun _ => none) → (∀ d t, (rio.chunks d t).flatten = t) →
      (∀ s l, (yield s l).2 = true) →
      linesAfter rio yield s ⟨true, [ascii "logs"]⟩ (ascii "m")
          (runAppends .insertion ⟨true, [ascii "logs"]⟩ (ascii "m") Disk.empty twoDays).1
            (ascii "2024-05-01") 0 =
        (L.foldl (fun s l => (yield s l).1) s, .ok ()) :=
  linesAfter_runAppends .insertion ⟨true, [ascii "logs"]⟩ (ascii "m") (fun _ _ => rfl) twoDays_proper
    (ascii "2024-05-01") 0

end Store

end VisitLogger
