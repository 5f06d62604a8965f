import VisitLogger.Push
import VisitLogger.ScanSound
import VisitLogger.ServerSound

/-!
# A push keeps the mirror a prefix of the day logs

`Inv` ties the three places where a line can be: in a day log, gathered by the
push under way, mirrored by the server. Each step keeps it, so in every run the
mirror is a prefix of the day log and no push meets a gap
(`mirror_prefix`). What no step keeps is that all lines before the cursor are
mirrored: that takes day logs that grow in the order of their dates
(`pushed_in_order`).
-/

namespace VisitLogger

namespace SyncClient

open Framing

/-! ## The day logs -/

section
variable {cfg : Config} {home : Disk} {date : Text}

structure HomeInv (cfg : Config) (home : Disk) : Prop where
  files : ∀ name, cfg.logDir.child name ∈ home.files.keys → ∃ d, IsDate d ∧ name = logFilename d
  bytes : ∀ d, IsDate d → home.bytes (dayLog cfg d) = unlines nl (lines cfg home d)
  clean : ∀ d, IsDate d → ∀ l ∈ lines cfg home d, nl ∉ l ∧ cr ∉ l

theorem dayLog_eq (h : slash ∉ date) : dayLog cfg date = cfg.logDir.child (logFilename date) :=
  Path.join_plain (plain_logFilename h) _

theorem dayLog_inj {d e : Text} (hd : IsDate d) (he : IsDate e) (h : dayLog cfg d = dayLog cfg e) : d = e := by
  rw [dayLog_eq hd.noSlash, dayLog_eq he.noSlash, Path.child_inj] at h
  exact logFilename_inj h.2

theorem HomeInv.empty : HomeInv cfg .empty := by
  have hno : ∀ d, lines cfg .empty d = [] := fun d => rfl
  exact ⟨fun name h => absurd h (by simp [Disk.empty]), fun d _ => rfl,
    fun d _ l hl => by rw [hno] at hl; cases hl⟩

theorem lines_appendLocal (h : HomeInv cfg home) (hd : IsDate date) {line : Text} (hl : nl ∉ line ∧ cr ∉ line)
    {d : Text} (hd' : IsDate d) : lines cfg (appendLocal cfg home date line) d =
      if d = date then lines cfg home d ++ [line] else lines cfg home d := by
  have hb := home.bytes_write (dayLog cfg date) (dayLog cfg d) (home.bytes (dayLog cfg date) ++ (line ++ [nl]))
  rw [lines, appendLocal, hb]
  by_cases he : d = date
  · subst he
    rw [if_pos rfl, if_pos rfl, h.bytes d hd]
    have : unlines nl (lines cfg home d) ++ (line ++ [nl]) = unlines nl (lines cfg home d ++ [line]) := by simp
    rw [this]
    apply fileLines_unlines
    intro l hlm
    rcases List.mem_append.mp hlm with hlm | hlm
    · exact h.clean d hd l hlm
    · obtain rfl := List.mem_singleton.mp hlm
      exact hl
  · rw [if_neg he, if_neg fun hp => he (dayLog_inj hd' hd hp)]
    rfl

theorem HomeInv.append (h : HomeInv cfg home) (hd : IsDate date) {line : Text} (hl : nl ∉ line ∧ cr ∉ line) :
    HomeInv cfg (appendLocal cfg home date line) := by
  have hclean : ∀ d, IsDate d → ∀ l ∈ lines cfg (appendLocal cfg home date line) d, nl ∉ l ∧ cr ∉ l := by
    intro d hd' l hlm
    rw [lines_appendLocal h hd hl hd'] at hlm
    split at hlm
    · rcases List.mem_append.mp hlm with hlm | hlm
      · exact h.clean d hd' l hlm
      · obtain rfl := List.mem_singleton.mp hlm
        exact hl
    · exact h.clean d hd' l hlm
  refine ⟨fun name hk => ?_, fun d hd' => ?_, hclean⟩
  · rw [← AList.mem_keys, appendLocal, Disk.write, AList.mem_insert, dayLog_eq hd.noSlash, Path.child_inj] at hk
    rcases hk with ⟨-, rfl⟩ | hk
    · exact ⟨date, hd, rfl⟩
    · exact h.files name (AList.mem_keys.mp hk)
  · rw [lines_appendLocal h hd hl hd', appendLocal, Disk.bytes_write]
    by_cases he : d = date
    · subst he
      rw [if_pos rfl, if_pos rfl, h.bytes d hd]
      simp
    · rw [if_neg he, if_neg fun hp => he (dayLog_inj hd' hd hp)]
      exact h.bytes d hd'

theorem mem_listLocalLogDates (h : HomeInv cfg home) :
    date ∈ listLocalLogDates cfg home ↔ IsDate date ∧ dayLog cfg date ∈ home.files.keys := by
  rw [listLocalLogDates, mem_sortStrings, List.mem_filterMap]
  constructor
  · rintro ⟨name, hn, hre⟩
    rw [Disk.mem_fileNames] at hn
    obtain ⟨d, hd, rfl⟩ := h.files name hn
    rw [logRe_logFilename hd] at hre
    obtain rfl := Option.some.inj hre
    exact ⟨hd, by rw [dayLog_eq hd.noSlash]; exact hn⟩
  · rintro ⟨hd, hk⟩
    rw [dayLog_eq hd.noSlash] at hk
    exact ⟨_, Disk.mem_fileNames.mpr hk, logRe_logFilename hd⟩

theorem listLocalLogDates_sorted (h : HomeInv cfg home) : (listLocalLogDates cfg home).Pairwise (· < ·) := by
  apply sortStrings_strict
  rw [List.Nodup, List.pairwise_filterMap]
  refine (home.nodup_fileNames cfg.logDir).imp_of_mem fun {name name'} hn hn' hne d hre d' hre' he => hne ?_
  obtain ⟨e, hd, rfl⟩ := h.files name (Disk.mem_fileNames.mp hn)
  obtain ⟨e', hd', rfl⟩ := h.files name' (Disk.mem_fileNames.mp hn')
  rw [logRe_logFilename hd] at hre
  rw [logRe_logFilename hd'] at hre'
  rw [Option.some.inj hre, Option.some.inj hre', he]

theorem lines_of_not_listed (h : HomeInv cfg home) (hd : IsDate date) (hl : date ∉ listLocalLogDates cfg home) :
    lines cfg home date = [] := by
  have hb : home.bytes (dayLog cfg date) = [] := by
    by_contra hne
    exact hl ((mem_listLocalLogDates h).mpr ⟨hd, Disk.mem_keys_of_bytes hne⟩)
  rw [lines, hb]
  rfl

end

/-! ## The push under way -/

/-- Line `k` of day `d` is mirrored or gathered, for every `k` below `n`. -/
def Covered (mirrored : Text → Nat) (pb : List LogLine) (d : Text) (n : Int) : Prop :=
  ∀ k : Nat, (k : Int) < n → k < mirrored d ∨ ∃ l ∈ pb, l.date = d ∧ l.lineOffset = k

section
variable {lines lines' : Text → List Text} {mirrored mirrored' : Text →
  Nat} {p : Push} {pb pb' : List LogLine} {d : Text}

theorem Covered.mono {n : Int} (h : Covered mirrored pb d n) (hm : ∀ d, mirrored d ≤ mirrored' d)
    (hpb : ∀ l ∈ pb, l ∈ pb') : Covered mirrored' pb' d n := by
  intro k hk
  rcases h k hk with h | ⟨l, hl, hd⟩
  · exact Or.inl (lt_of_lt_of_le h (hm d))
  · exact Or.inr ⟨l, hpb l hl, hd⟩

theorem Covered.sent {n : Int} (h : Covered mirrored pb d n) (hm : ∀ d, mirrored d ≤ mirrored' d)
    (hs : ∀ l ∈ pb, l.lineOffset < mirrored' l.date) : Covered mirrored' [] d n := by
  intro k hk
  left
  rcases h k hk with h | ⟨l, hl, rfl, hlk⟩
  · exact lt_of_lt_of_le h (hm d)
  · have := hs l hl
    omega

theorem Covered.le {n : Nat} (h : Covered mirrored [] d n) : n ≤ mirrored d := by
  by_contra hlt
  rcases h (mirrored d) (by omega) with h | ⟨l, hl, -⟩
  · omega
  · cases hl

/-- What holds of a push under way: its cursor and its last line are mirrored or
gathered, and it has gathered lines of the day logs without a gap. -/
structure PushInv (lines : Text → List Text) (mirrored : Text → Nat) (p : Push) : Prop where
  cur : p.curDate = [] ∨ IsDate p.curDate ∧ p.curOff < mirrored p.curDate
  todo : ∀ d ∈ p.todo, IsDate d
  gathered : ∀ l ∈ p.pbLines, IsDate l.date ∧ ∃ i : Nat, l.lineOffset = i ∧ (lines l.date)[i]? = some l.rawLine
  noGap : ∀ l ∈ p.pbLines, Covered mirrored p.pbLines l.date l.lineOffset
  reading : ∀ d rest, p.todo = d :: rest → Covered mirrored p.pbLines d p.index
  last : (p.lastDate, p.lastOff) = (p.curDate, p.curOff) ∨ IsDate p.lastDate ∧
    (p.lastOff < mirrored p.lastDate ∨ ∃ l ∈ p.pbLines, l.date = p.lastDate ∧ l.lineOffset = p.lastOff)

theorem PushInv.append (h : PushInv lines mirrored p) (hl : ∀ d, IsDate d → lines d <+: lines' d) :
    PushInv lines' mirrored p := by
  refine ⟨h.cur, h.todo, fun l hlm => ?_, h.noGap, h.reading, h.last⟩
  obtain ⟨hd, i, hi, hget⟩ := h.gathered l hlm
  obtain ⟨more, hmore⟩ := hl l.date hd
  refine ⟨hd, i, hi, ?_⟩
  rw [← hmore, List.getElem?_append_left (List.getElem?_eq_some_iff.mp hget).1, hget]

theorem line_eq (p : Push) (d raw : Text) : p.line d raw = if (p.index : Int) ≤ p.startOff d then
    { p with index := p.index + 1 } else
    { p with index := p.index + 1, pbLines := p.pbLines ++ [⟨d, p.index, raw⟩], lastDate := d, lastOff := p.index } := rfl

theorem PushInv.line (h : PushInv lines mirrored p) {rest : List Text} (ht : p.todo = d :: rest) {raw : Text}
    (hget : (lines d)[p.index]? = some raw) : PushInv lines mirrored (p.line d raw) := by
  have hd : IsDate d := h.todo d (by rw [ht]; simp)
  have hread := h.reading d rest ht
  have hhead : ∀ d' rest', p.todo = d' :: rest' → d' = d := by
    intro d' rest' ht'
    rw [ht] at ht'
    exact (List.cons.inj ht').1.symm
  rw [line_eq]
  split
  · -- a line up to the cursor, which is mirrored
    rename_i hskip
    refine ⟨h.cur, h.todo, h.gathered, h.noGap, fun d' rest' ht' => ?_, h.last⟩
    obtain rfl := hhead d' rest' ht'
    intro k hk
    change (k : Int) < ((p.index + 1 : Nat) : Int) at hk
    rcases Nat.lt_or_ge k p.index with hlt | hge
    · exact hread k (by omega)
    · left
      rw [Push.startOff] at hskip
      split at hskip
      · rename_i he
        rcases h.cur with hc | ⟨-, hc⟩
        · exact absurd (he.trans hc) hd.ne_nil
        · rw [he]; omega
      · omega
  · -- a line to gather; those before it are covered
    have hsub : ∀ l ∈ p.pbLines, l ∈ p.pbLines ++ [⟨d, p.index, raw⟩] := fun l hl => List.mem_append_left _ hl
    have hnew : (⟨d, p.index, raw⟩ : LogLine) ∈ p.pbLines ++ [⟨d, p.index, raw⟩] := by simp
    refine ⟨h.cur, h.todo, fun l hl => ?_, fun l hl => ?_, fun d' rest' ht' => ?_,
      Or.inr ⟨hd, Or.inr ⟨_, hnew, rfl, rfl⟩⟩⟩
    · rcases List.mem_append.mp hl with hl | hl
      · exact h.gathered l hl
      · obtain rfl := List.mem_singleton.mp hl
        exact ⟨hd, p.index, rfl, hget⟩
    · rcases List.mem_append.mp hl with hl | hl
      · exact (h.noGap l hl).mono (fun _ => le_rfl) hsub
      · obtain rfl := List.mem_singleton.mp hl
        exact hread.mono (fun _ => le_rfl) hsub
    · obtain rfl := hhead d' rest' ht'
      intro k hk
      change (k : Int) < ((p.index + 1 : Nat) : Int) at hk
      rcases Nat.lt_or_ge k p.index with hlt | hge
      · exact hread.mono (fun _ => le_rfl) hsub k (by omega)
      · exact Or.inr ⟨_, hnew, rfl, by simp only; omega⟩

theorem PushInv.eof (h : PushInv lines mirrored p) {rest : List Text} (ht : p.todo = d :: rest) :
    PushInv lines mirrored { p with todo := rest, index := 0 } := by
  refine ⟨h.cur, fun e he => h.todo e (by rw [ht]; exact List.mem_cons_of_mem _ he), h.gathered,
    h.noGap, ?_, h.last⟩
  intro d' rest' _ k hk
  change (k : Int) < ((0 : Nat) : Int) at hk
  omega

theorem PushInv.sent (h : PushInv lines mirrored p) (hm : ∀ d, mirrored d ≤ mirrored' d)
    (hs : ∀ l ∈ p.pbLines, l.lineOffset < mirrored' l.date) :
      PushInv lines mirrored' { p with pbLines := [] } := by
  refine ⟨?_, h.todo, by simp, by simp, fun d rest ht => (h.reading d rest ht).sent hm hs, ?_⟩
  · exact h.cur.imp_right fun ⟨hd, hc⟩ => ⟨hd, lt_of_lt_of_le hc (by exact_mod_cast hm _)⟩
  · refine h.last.imp_right fun ⟨hd, hl⟩ => ⟨hd, Or.inl ?_⟩
    rcases hl with hl | ⟨l, hl, hld, hlo⟩
    · exact lt_of_lt_of_le hl (by exact_mod_cast hm _)
    · have := hs l hl
      rw [hld, hlo] at this
      exact this

end

/-! ## The mirror -/

section
variable {cfg : Config}

def mirrored (cfg : Config) (server : Server.State) (d : Text) : Nat :=
  (server.disk.bytes (Store.logPath cfg.logRoot cfg.machineId d)).count nl

def MirrorInv (cfg : Config) (home : Disk) (server : Server.State) : Prop :=
  ∀ d, IsDate d → mirrored cfg server d ≤ (lines cfg home d).length ∧
    server.disk.bytes (Store.logPath cfg.logRoot cfg.machineId d) =
      unlines nl ((lines cfg home d).take (mirrored cfg server d))

theorem MirrorInv.append {home home' : Disk} {server : Server.State} (h : MirrorInv cfg home server)
    (hl : ∀ d, IsDate d → lines cfg home d <+: lines cfg home' d) : MirrorInv cfg home' server := by
  intro d hd
  obtain ⟨hle, hb⟩ := h d hd
  obtain ⟨more, hmore⟩ := hl d hd
  refine ⟨hle.trans (hl d hd).length_le, ?_⟩
  rw [← hmore, List.take_append_of_le_length hle, hb]

/-- What a push has gathered has no gap after the mirror, so the store takes it. -/
theorem PushInv.appendLogLines_ok {server : Server.State} {ls : Text → List Text} {p : Push}
    (hp : PushInv ls (mirrored cfg server) p) (hne : p.pbLines ≠ []) :
    ∃ r, (Store.appendLogLines cfg.sort .noFault cfg.logRoot cfg.machineId server.disk p.pbLines).2.2 =
      .ok r := by
  apply Store.appendLogLines_succeeds cfg.sort hne
  · intro l hl k hk hkl
    have hnonneg : 0 ≤ k := le_trans (by rw [Store.countLines]; omega) hk
    rcases hp.noGap l hl k.toNat (by omega) with h | ⟨m, hm, hmd, hmk⟩
    · rw [Store.countLines] at hk
      unfold mirrored at h
      omega
    · exact ⟨m, hm, hmd, by omega⟩
  · intro l hl
    rw [Store.logPath_eq (hp.gathered l hl).1.noSlash]
    exact server.disk.hasParent_child _ _

/-- What a day gains are the lines of its log from the mirrored ones on. -/
theorem PushInv.gained {server : Server.State} {ls : Text → List Text} {p : Push}
    (hp : PushInv ls (mirrored cfg server) p)
    {w : List LogLine} (hw : ∀ l ∈ w, l ∈ p.pbLines) {d : Text}
    (hcount : Store.CountUp (mirrored cfg server d) (Store.ofDate d w)) :
    (Store.ofDate d w).map LogLine.rawLine =
      ((ls d).drop (mirrored cfg server d)).take (Store.ofDate d w).length := by
  apply List.ext_getElem?
  intro i
  by_cases hi : i < (Store.ofDate d w).length
  · obtain ⟨hlw, hld⟩ := Store.mem_ofDate.mp (List.getElem_mem hi)
    obtain ⟨-, j, hj, hget⟩ := hp.gathered _ (hw _ hlw)
    rw [hld] at hget
    have hji : j = mirrored cfg server d + i := by
      have := hcount i hi
      omega
    rw [List.getElem?_map, List.getElem?_eq_getElem hi, Option.map_some, List.getElem?_take, if_pos hi,
      List.getElem?_drop, ← hji, hget]
  · rw [List.getElem?_eq_none (by simpa using hi), List.getElem?_eq_none]
    rw [List.length_take]
    omega

/-- **A push that the server gets** is acknowledged. The mirror grows by lines of
the day logs, and takes in all that the push has gathered. -/
theorem push_applied (hm : cfg.machineId ≠ []) {home : Disk} (hh : HomeInv cfg home)
    {server server' : Server.State}
    (hs : MirrorInv cfg home server) {p : Push} (hp : PushInv (lines cfg home) (mirrored cfg server) p)
    (hne : p.pbLines ≠ []) (hserver' : server' =
      (Server.pushLogs cfg.sort .noFault Server.noFault cfg.logRoot server
      (some cfg.machineId) ⟨cfg.machineId, p.pbLines⟩).1) :
    (∃ r, (Server.pushLogs cfg.sort .noFault Server.noFault cfg.logRoot server (some cfg.machineId)
        ⟨cfg.machineId, p.pbLines⟩).2 = .ok r) ∧
      MirrorInv cfg home server' ∧
      (∀ d, mirrored cfg server d ≤ mirrored cfg server' d) ∧
      ∀ l ∈ p.pbLines, l.lineOffset < mirrored cfg server' l.date := by
  obtain ⟨r, hr⟩ := hp.appendLogLines_ok hne
  have hok : (Server.pushLogs cfg.sort .noFault Server.noFault cfg.logRoot server (some cfg.machineId)
      ⟨cfg.machineId, p.pbLines⟩).2 = .ok r :=
    Server.pushLogs_succeeds (by rfl) hm (fun l hl => (hp.gathered l hl).1.ne_nil) hr
  have hdisk : server'.disk =
      (Store.appendLogLines cfg.sort .noFault cfg.logRoot cfg.machineId server.disk p.pbLines).1 := by
    rw [hserver', (Server.pushLogs_ok hok).2]
  have hproper : ∀ l ∈ p.pbLines, l.Proper := by
    intro l hl
    obtain ⟨hd, i, -, hget⟩ := hp.gathered l hl
    exact ⟨hd, (hh.clean l.date hd _ (List.mem_of_getElem? hget)).1⟩
  obtain ⟨happ, hmem⟩ := Store.appendLogLines_appends cfg.logRoot cfg.machineId (fun _ _ _ =>
    nofun : Io.noFault.Whole)
    cfg.sort server.disk hproper
  generalize (Store.appendLogLines cfg.sort .noFault cfg.logRoot cfg.machineId server.disk p.pbLines).2.1 = w at *
  have hgain : ∀ d, IsDate d → (Store.ofDate d w).map LogLine.rawLine =
      ((lines cfg home d).drop (mirrored cfg server d)).take (Store.ofDate d w).length :=
    fun d hd => hp.gained hmem (happ d hd.noSlash).2
  have hcount : ∀ d, IsDate d → mirrored cfg server' d = mirrored cfg server d + (Store.ofDate d w).length := by
    intro d hd
    unfold mirrored
    rw [hdisk, (happ d hd.noSlash).1, List.count_append,
      Store.count_encode fun l hl => (hproper l (hmem l (Store.mem_ofDate.mp hl).1)).noNl]
  have hmono : ∀ d, mirrored cfg server d ≤ mirrored cfg server' d := by
    intro d
    obtain ⟨w, done, hw, -⟩ := Server.pushLogs_gains cfg.sort .noFault Server.noFault cfg.logRoot server
      (some cfg.machineId) ⟨cfg.machineId, p.pbLines⟩ (Store.logPath cfg.logRoot cfg.machineId d)
    have := hw.count_le
    rw [← hserver', Store.countLines, Store.countLines] at this
    unfold mirrored
    omega
  refine ⟨⟨r, hok⟩, fun d hd => ?_, hmono, fun l hl => ?_⟩
  · have hlen : (Store.ofDate d w).length ≤ (lines cfg home d).length - mirrored cfg server d := by
      have := congrArg List.length (hgain d hd)
      rw [List.length_map, List.length_take, List.length_drop] at this
      omega
    refine ⟨by have := (hs d hd).1; rw [hcount d hd]; omega, ?_⟩
    rw [hdisk, (happ d hd.noSlash).1, (hs d hd).2, Store.encode, hgain d hd, ← unlines_append, ← List.take_add,
      hcount d hd]
  · have := Store.appendLogLines_counts hr l hl
    unfold mirrored
    rw [hdisk]
    exact this

end

/-! ## What a step does -/

section
variable {cfg : Config} {s s' : Sync}

theorem step_append {date line : Text} (hs : s' ∈ step cfg s (.append date line)) :
    IsDate date ∧ (nl ∉ line ∧ cr ∉ line) ∧ s' = { s with home := appendLocal cfg s.home date line } := by
  simp only [step, Option.mem_def, Option.ite_none_right_eq_some, Option.some.injEq] at hs
  obtain ⟨⟨hd, hl⟩, rfl⟩ := hs
  exact ⟨hd, hl, rfl⟩

theorem step_start (hs : s' ∈ step cfg s .start) : s.push = none ∧
    s' = { s with row := markAttempt s.row, push := some (startPush cfg s.home (markAttempt s.row)) } := by
  simp only [step] at hs
  split at hs
  · cases hs
  · rename_i hp
    cases hs
    exact ⟨hp, rfl⟩

theorem step_next (hs : s' ∈ step cfg s .next) : ∃ p date rest raw, s.push = some p ∧ p.todo = date :: rest ∧
    (lines cfg s.home date)[p.index]? = some raw ∧ s' = { s with push := some (p.line date raw) } := by
  simp only [step] at hs
  split at hs
  · cases hs
  · rename_i p hp
    split at hs
    · cases hs
    · rename_i date rest ht
      split at hs
      · cases hs
      · obtain ⟨raw, hget, rfl⟩ := Option.map_eq_some_iff.mp hs
        exact ⟨p, date, rest, raw, hp, ht, hget, rfl⟩

theorem step_eof (hs : s' ∈ step cfg s .eof) : ∃ p date rest, s.push = some p ∧ p.todo = date :: rest ∧
    (lines cfg s.home date).length ≤ p.index ∧
      s' = { s with push := some { p with todo := rest, index := 0 } } := by
  simp only [step] at hs
  split at hs
  · cases hs
  · rename_i p hp
    split at hs
    · cases hs
    · rename_i date rest ht
      split at hs
      · cases hs
      · rename_i hcond
        cases hs
        exact ⟨p, date, rest, hp, ht, by omega, rfl⟩

theorem step_send {o : Outcome} (hs : s' ∈ step cfg s (.send o)) :
    ∃ p, s.push = some p ∧ p.pbLines ≠ [] ∧ s' = sendPush cfg s p o := by
  simp only [step] at hs
  split at hs
  · cases hs
  · rename_i p hp
    split at hs
    · rename_i hcond
      cases hs
      refine ⟨p, hp, fun he => ?_, rfl⟩
      rw [he] at hcond
      rcases hcond with hlen | ⟨-, hne⟩
      · exact absurd hlen (by decide)
      · exact hne rfl
    · cases hs

theorem step_finish (hs : s' ∈ step cfg s .finish) : ∃ p, s.push = some p ∧ p.todo = [] ∧ p.pbLines = [] ∧
    s' = { s with
      row := if (p.lastDate, p.lastOff) ≠ (p.curDate, p.curOff) then some (p.lastDate, p.lastOff) else s.row
      push := none } := by
  simp only [step] at hs
  split at hs
  · cases hs
  · rename_i p hp
    split at hs
    · rename_i hcond
      cases hs
      exact ⟨p, hp, hcond.1, hcond.2, rfl⟩
    · cases hs

theorem step_kill (hs : s' ∈ step cfg s .kill) : s' = { s with push := none } := by
  obtain ⟨p, -, rfl⟩ := Option.map_eq_some_iff.mp hs
  rfl

end

/-! ## Every run -/

section
variable {cfg : Config} {s s' : Sync} {p : Push}

structure Inv (cfg : Config) (s : Sync) : Prop where
  home : HomeInv cfg s.home
  mirror : MirrorInv cfg s.home s.server
  row : ∀ d o, s.row = some (d, o) → d = [] ∨ IsDate d ∧ o < mirrored cfg s.server d
  push : ∀ p, s.push = some p → PushInv (lines cfg s.home) (mirrored cfg s.server) p
  replies : ∀ r ∈ s.replies, ∃ a, r = .ok a

theorem Inv.init {server : Server.State}
    (h : ∀ d, IsDate d → server.disk.bytes (Store.logPath cfg.logRoot cfg.machineId d) = []) :
      Inv cfg (.init server) := by
  refine ⟨.empty, fun d hd => ?_, nofun, nofun, by simp [Sync.init]⟩
  have hm : mirrored cfg server d = 0 := by rw [mirrored, h d hd]; rfl
  exact ⟨by simp [Sync.init, hm], by simp [Sync.init, hm, h d hd]⟩

theorem Inv.endPush (h : Inv cfg s) : Inv cfg { s with push := none } :=
  ⟨h.home, h.mirror, h.row, nofun, h.replies⟩

theorem Inv.withPush (h : Inv cfg s) (hp : PushInv (lines cfg s.home) (mirrored cfg s.server) p) :
    Inv cfg { s with push := some p } := by
  refine ⟨h.home, h.mirror, h.row, ?_, h.replies⟩
  intro p' hp'
  cases hp'
  exact hp

theorem row_markAttempt {row : Option (Text × Int)} {n : Text → Nat}
    (h : ∀ d o, row = some (d, o) → d = [] ∨ IsDate d ∧ o < n d) (d : Text) (o : Int)
    (hr : markAttempt row = some (d, o)) : d = [] ∨ IsDate d ∧ o < n d := by
  cases row with
  | none =>
    cases hr
    exact Or.inl rfl
  | some r => exact h d o hr

theorem PushInv.start {home : Disk} (hh : HomeInv cfg home) {n : Text → Nat} {row : Option (Text × Int)}
    (hr : ∀ d o, row = some (d, o) → d = [] ∨ IsDate d ∧ o < n d) :
    PushInv (lines cfg home) n (startPush cfg home row) := by
  have hcur : (getCursor row).1 = [] ∨ IsDate (getCursor row).1 ∧ (getCursor row).2 < n (getCursor row).1 := by
    cases row with
    | none => exact Or.inl rfl
    | some r => exact hr r.1 r.2 rfl
  refine ⟨hcur, fun d hd => ?_, by simp [startPush], by simp [startPush], fun d rest _ k hk => ?_, Or.inl rfl⟩
  · apply ((mem_listLocalLogDates hh).mp _).1
    simp only [startPush] at hd
    split at hd
    · exact hd
    · exact List.mem_of_mem_filter hd
  · change (k : Int) < ((0 : Nat) : Int) at hk
    omega

/-- What a send can do: nothing but end the push, or let the server answer and go
on or not. -/
theorem sendPush_cases (cfg : Config) (s : Sync) (p : Push) (o : Outcome) :
    sendPush cfg s p o = { s with push := none } ∨
      ∃ r push, r = Server.pushLogs cfg.sort .noFault Server.noFault cfg.logRoot s.server (some cfg.machineId)
          ⟨cfg.machineId, p.pbLines⟩ ∧ (push = none ∨ push = some { p with pbLines := [] }) ∧
        sendPush cfg s p o = { s with server := r.1, replies := s.replies ++ [r.2], push } := by
  cases o with
  | notApplied => exact Or.inl rfl
  | replyLost => exact Or.inr ⟨_, none, rfl, Or.inl rfl, rfl⟩
  | ok =>
    right
    refine ⟨_, _, rfl, ?_, rfl⟩
    split
    · exact Or.inr rfl
    · exact Or.inl rfl

/-- **A send** ends the push, or the server takes what the push has gathered and
the push goes on or ends. -/
theorem Inv.send_cases (hm : cfg.machineId ≠ []) (h : Inv cfg s) {o : Outcome}
    (hs : s' ∈ SyncClient.step cfg s (.send o)) :
    ∃ p, s.push = some p ∧ (s' = { s with push := none } ∨
      ∃ server reply push, (∃ r, reply = .ok r) ∧ MirrorInv cfg s.home server ∧
        (∀ d, mirrored cfg s.server d ≤ mirrored cfg server d) ∧
        (∀ l ∈ p.pbLines, l.lineOffset < mirrored cfg server l.date) ∧
        (push = none ∨ push = some { p with pbLines := [] }) ∧
        s' = { s with server, replies := s.replies ++ [reply], push }) := by
  obtain ⟨p, hp, hne, rfl⟩ := step_send hs
  refine ⟨p, hp, ?_⟩
  rcases sendPush_cases cfg s p o with he | ⟨r, push, hr, hpush, he⟩
  · exact Or.inl he
  · obtain ⟨hok, hmir, hmono, hsent⟩ := push_applied hm h.home h.mirror (h.push p hp) hne (congrArg Prod.fst hr)
    rw [← hr] at hok
    exact Or.inr ⟨r.1, r.2, push, hok, hmir, hmono, hsent, hpush, he⟩

theorem Inv.step (hm : cfg.machineId ≠ []) (h : Inv cfg s) {a : Act} (hs : s' ∈ step cfg s a) : Inv cfg s' := by
  cases a with
  | append date line =>
    obtain ⟨hd, hl, rfl⟩ := step_append hs
    have hgrow : ∀ d, IsDate d → lines cfg s.home d <+: lines cfg (appendLocal cfg s.home date line) d := by
      intro d hd'
      rw [lines_appendLocal h.home hd hl hd']
      split
      · exact List.prefix_append _ _
      · exact List.prefix_refl _
    exact ⟨h.home.append hd hl, h.mirror.append hgrow, h.row, fun p hp => (h.push p hp).append hgrow, h.replies⟩
  | start =>
    obtain ⟨-, rfl⟩ := step_start hs
    have hrow := row_markAttempt h.row
    refine ⟨h.home, h.mirror, hrow, fun p hp => ?_, h.replies⟩
    cases hp
    exact PushInv.start h.home hrow
  | next =>
    obtain ⟨p, date, rest, raw, hp, ht, hget, rfl⟩ := step_next hs
    exact h.withPush ((h.push p hp).line ht hget)
  | eof =>
    obtain ⟨p, date, rest, hp, ht, -, rfl⟩ := step_eof hs
    exact h.withPush ((h.push p hp).eof ht)
  | send o =>
    obtain ⟨p, hp, rfl | ⟨server, reply, push, hok, hmir, hmono, hsent, hpush, rfl⟩⟩ := h.send_cases hm hs
    · exact h.endPush
    refine ⟨h.home, hmir, fun d o' hrow => ?_, fun p' hp' => ?_, fun r hr => ?_⟩
    · refine (h.row d o' hrow).imp_right fun ⟨hd, ho⟩ => ⟨hd, lt_of_lt_of_le ho ?_⟩
      exact Int.ofNat_le.mpr (hmono d)
    · rcases hpush with rfl | rfl
      · cases hp'
      · cases hp'
        exact (h.push p hp).sent hmono hsent
    · rcases List.mem_append.mp hr with hr | hr
      · exact h.replies r hr
      · rw [List.mem_singleton.mp hr]
        exact hok
  | finish =>
    obtain ⟨p, hp, -, hpb, rfl⟩ := step_finish hs
    refine ⟨h.home, h.mirror, fun d o hrow => ?_, nofun, h.replies⟩
    simp only at hrow
    split at hrow
    · rename_i hne
      cases hrow
      -- the last line was gathered, and nothing gathered is left
      rcases (h.push p hp).last with hl | ⟨hd, hl | ⟨l, hl, -⟩⟩
      · exact absurd hl hne
      · exact Or.inr ⟨hd, hl⟩
      · rw [hpb] at hl; cases hl
    · exact h.row d o hrow
  | kill =>
    obtain rfl := step_kill hs
    exact h.endPush

theorem Inv.closed_mirror (h : Inv cfg s) {d : Text} (hd : IsDate d) :
    closed nl (SyncClient.mirror cfg s d) = (lines cfg s.home d).take (mirrored cfg s.server d) ∧
      tail nl (SyncClient.mirror cfg s d) = [] := by
  have hnl : ∀ l ∈ (lines cfg s.home d).take (mirrored cfg s.server d), nl ∉ l := fun l hl =>
    (h.home.clean d hd l (List.mem_of_mem_take hl)).1
  rw [SyncClient.mirror, (h.mirror d hd).2]
  exact ⟨closed_unlines nl hnl, tail_unlines nl hnl⟩

end

/-- **In every run** of appends, pushes, failures and kills the mirror of each
day log is a prefix of it, line for line, the server has acknowledged each
PushLogs that it got, and the committed cursor is a mirrored line. -/
theorem mirror_prefix (cfg : Config) (hm : cfg.machineId ≠ []) {server : Server.State}
    (hserver : ∀ d, IsDate d → server.disk.bytes (Store.logPath cfg.logRoot cfg.machineId d) =
      []) {acts : List Act}
    {s : Sync} (hr : Runs.run (step cfg) (.init server) acts = some s) :
    (∀ d, IsDate d → closed nl (mirror cfg s d) <+: lines cfg s.home d ∧ tail nl (mirror cfg s d) = []) ∧
      (∀ reply ∈ s.replies, ∃ a, reply = .ok a) ∧
      ∀ d o, s.row = some (d, o) → d ≠ [] → IsDate d ∧ o < (closed nl (mirror cfg s d)).length := by
  have ho : Runs.Obeys (step cfg) (fun _ _ => True) (.init server) acts :=
    Runs.obeys_of_forall (fun _ _ _ => trivial) _
  have hinv : Inv cfg s := Runs.run_invariant (fun _ _ _ h _ hs => h.step hm hs) (Inv.init hserver) ho hr
  refine ⟨fun d hd => ?_, hinv.replies, fun d o hrow hne => ?_⟩
  · obtain ⟨hc, ht⟩ := hinv.closed_mirror hd
    rw [hc]
    exact ⟨List.take_prefix _ _, ht⟩
  · obtain ⟨hd, ho⟩ := (hinv.row d o hrow).resolve_left hne
    refine ⟨hd, ?_⟩
    rw [length_closed]
    exact ho

def laptop : Config := ⟨⟨true, [ascii "home"]⟩, ascii "m", ⟨true, [ascii "logs"]⟩, .insertion⟩

def newServer : Server.State := ⟨.empty, .empty []⟩

/-- A push whose reply is lost, a line more, and a push that the client sees through. -/
def lostReply : List Act :=
  [.append (ascii "2024-05-01") (ascii "a"), .start, .next, .eof, .send .replyLost,
    .append (ascii "2024-05-01") (ascii "b"), .start, .next, .next, .eof, .send .ok, .finish]

theorem mirror_prefix_lostReply : ∃ s, Runs.run (step laptop) (.init newServer) lostReply = some s ∧
    (∀ d, IsDate d → closed nl (mirror laptop s d) <+: lines laptop s.home d ∧
      tail nl (mirror laptop s d) = []) ∧
      (∀ reply ∈ s.replies, ∃ a, reply = .ok a) ∧
      ∀ d o, s.row = some (d, o) → d ≠ [] → IsDate d ∧ o < (closed nl (mirror laptop s d)).length := by
  have hsome : (Runs.run (step laptop) (.init newServer) lostReply).isSome = true := by decide
  obtain ⟨s, hs⟩ := Option.isSome_iff_exists.mp hsome
  exact ⟨s, hs, mirror_prefix laptop (by decide) (fun _ _ => rfl) hs⟩

end SyncClient

end VisitLogger
