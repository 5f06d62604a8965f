import Mathlib.Data.List.Basic
import VisitLogger.Verifier

/-!
# The commands of BVLVerifier

Which arguments it takes (`parseArgs_ok_iff`), and that `--clear-error` deletes
the row that `--show-errors` has under the number (`clearError_shown`).
-/

namespace VisitLogger

open SnapshotMover (MoverError)

namespace MoverErrors

instance : Std.Total rowBefore where
  total a b := by
    rcases lt_trichotomy a.firstSeen b.firstSeen with h | h | h
    · exact Or.inl (Or.inl h)
    · exact (le_total a.key b.key).imp (fun hk => Or.inr ⟨h, hk⟩) fun hk => Or.inr ⟨h.symm, hk⟩
    · exact Or.inr (Or.inl h)

instance : IsTrans MoverError rowBefore where
  trans a b c := by
    rintro (hab | ⟨hab, hk⟩) (hbc | ⟨hbc, hk'⟩)
    · exact Or.inl (hab.trans hbc)
    · exact Or.inl (hbc ▸ hab)
    · exact Or.inl (hab ▸ hbc)
    · exact Or.inr ⟨hab.trans hbc, hk.trans hk'⟩

theorem rowBefore_antisymm {a b : MoverError} (hab : rowBefore a b) (hba : rowBefore b a) : a.key = b.key := by
  rcases hab with hab | ⟨he, hk⟩
  · rcases hba with hba | ⟨he, -⟩
    · exact absurd hba hab.not_gt
    · exact absurd he hab.ne'
  · rcases hba with hba | ⟨-, hk'⟩
    · exact absurd he hba.ne'
    · exact le_antisymm hk hk'

end MoverErrors

namespace BVLVerifier

open MoverErrors (rowBefore)

/-! ## The numbers of the failures -/

section
variable {rows : List MoverError}

theorem fetchPending_perm (rows : List MoverError) : (fetchPending rows).Perm rows :=
  List.perm_insertionSort _ _

theorem fetchPending_filter (hn : (rows.map MoverError.key).Nodup) (p : MoverError → Bool) :
    fetchPending (rows.filter p) = (fetchPending rows).filter p := by
  have hperm : (fetchPending (rows.filter p)).Perm ((fetchPending rows).filter p) :=
    (fetchPending_perm _).trans ((fetchPending_perm rows).filter p).symm
  refine hperm.eq_of_pairwise (fun a b ha hb hab hba => ?_) (List.pairwise_insertionSort rowBefore _)
    ((List.pairwise_insertionSort rowBefore _).filter p)
  -- equal keys are one row
  have ha := (List.mem_filter.mp ((fetchPending_perm _).mem_iff.mp ha)).1
  have hb := (fetchPending_perm rows).mem_iff.mp (List.mem_filter.mp hb).1
  exact List.inj_on_of_nodup_map hn ha hb (MoverErrors.rowBefore_antisymm hab hba)

theorem filter_key_eq_eraseIdx {l : List MoverError} (hn : (l.map MoverError.key).Nodup) {i : ℕ}
    (hi : i < l.length) :
    (l.filter fun r => r.key ≠ l[i].key) = l.eraseIdx i := by
  rw [← List.Nodup.erase_getElem hn.of_map i hi, hn.of_map.erase_eq_filter]
  refine List.filter_congr fun r hr => ?_
  have hkey : r.key = l[i].key ↔ r = l[i] :=
    ⟨fun he => List.inj_on_of_nodup_map hn hr (List.getElem_mem hi) he, fun he => he ▸ rfl⟩
  by_cases he : r = l[i] <;> simp [hkey, he]

theorem clearError_cases (w : World) (n : Int) (rows : List MoverError) :
    let pending := fetchPending rows
    (¬(w.openDb = none ∧ w.statement = none ∧ 1 ≤ n ∧ n ≤ pending.length) ∧ (clearError w n rows).rc = 1 ∧
      (clearError w n rows).rows = rows) ∨
    ((w.openDb = none ∧ w.statement = none ∧ 1 ≤ n ∧ n ≤ pending.length) ∧ (clearError w n rows).rc = 0 ∧
      ∃ hi : (n - 1).toNat < pending.length,
        (clearError w n rows).rows = rows.filter fun r => r.key ≠ pending[(n - 1).toNat].key) := by
  intro pending
  unfold clearError
  cases hopen : w.openDb with
  | some e => exact Or.inl ⟨fun hc => (nomatch hc.1), rfl, rfl⟩
  | none =>
    cases hst : w.statement with
    | some e => exact Or.inl ⟨fun hc => (nomatch hc.2.1), rfl, rfl⟩
    | none =>
      dsimp only [Option.orElse]
      by_cases hempty : fetchPending rows = []
      · have hlen : pending.length = 0 := List.length_eq_zero_iff.mpr hempty
        rw [if_pos hempty]
        exact Or.inl ⟨fun hc => by omega, rfl, rfl⟩
      · rw [if_neg hempty]
        by_cases hn : n < 1 ∨ n > (fetchPending rows).length
        · rw [if_pos hn]
          exact Or.inl ⟨fun hc => by simp only [pending] at hc; omega, rfl, rfl⟩
        · rw [if_neg hn]
          have hi : (n - 1).toNat < (fetchPending rows).length := by omega
          rw [List.getElem?_eq_getElem hi]
          exact Or.inr ⟨⟨rfl, rfl, by omega, by simp only [pending]; omega⟩, rfl, hi, rfl⟩

def listing (pending : List MoverError) : List Text :=
  if pending = [] then [ascii "No pending mover errors."]
  else [ascii "Pending mover errors (" ++ Verify.natText pending.length ++ ascii "):", []] ++
    (pending.mapIdx showError).flatten

theorem showErrors_eq {w : World} (hopen : w.openDb = none) (hst : w.statement = none)
    (rows : List MoverError) : showErrors w rows = ⟨rows, [], listing (fetchPending rows), [], 0⟩ := by
  unfold showErrors listing
  rw [hopen, hst]
  dsimp only [Option.orElse]
  split <;> rfl

/-- **The number that is shown is the one that is cleared.** After any calls of any
tools on the table, `--show-errors` prints the failures under their numbers. If
there is a row `n`, `--clear-error n` succeeds, and what is printed then is the
others in the order they had; otherwise it exits with 1 and leaves the table. -/
theorem clearError_shown (characters : Text → List Text) (w w' : World) (hopen : w'.openDb = none)
    (hst : w'.statement = none) (calls : List MoverErrors.Call) (n : Int) :
    let rows := (MoverErrors.run characters calls).rows
    let pending := fetchPending rows
    let e := clearError w n rows
    showErrors w' rows = ⟨rows, [], listing pending, [], 0⟩ ∧
      if w.openDb = none ∧ w.statement = none ∧ 1 ≤ n ∧ n ≤ pending.length then
        e.rc = 0 ∧ fetchPending e.rows = pending.eraseIdx (n - 1).toNat ∧
          showErrors w' e.rows = ⟨e.rows, [], listing (pending.eraseIdx (n - 1).toNat), [], 0⟩
      else e.rc = 1 ∧ e.rows = rows := by
  intro rows pending e
  refine ⟨showErrors_eq hopen hst rows, ?_⟩
  have hn : (rows.map MoverError.key).Nodup := (MoverErrors.run_tallied characters calls).nodup
  rcases clearError_cases w n rows with ⟨hno, hrc, hrows⟩ | ⟨hyes, hrc, hi, hrows⟩
  · rw [if_neg hno]
    exact ⟨hrc, hrows⟩
  · have hpending : (pending.map MoverError.key).Nodup := ((fetchPending_perm rows).map _).nodup_iff.mpr hn
    have herase : fetchPending e.rows = pending.eraseIdx (n - 1).toNat := by
      rw [hrows, fetchPending_filter hn]
      exact filter_key_eq_eraseIdx hpending hi
    rw [if_pos hyes]
    refine ⟨hrc, herase, ?_⟩
    rw [← herase]
    exact showErrors_eq hopen hst e.rows

def console : World where
  archiveSnapshotsDir := .ok (ascii "/a")
  createDirectory := none
  dbFile := ascii "/db"
  database := ascii "/db"
  hasDb := true
  openDb := none
  passes := []
  db := Db.empty []
  disk := fun _ => none
  verifyIo := fun _ => {}
  querySealed := none
  writeFails := fun _ => false
  statement := none
  escalateIo := {}
  now := []
  threshold := 3

def twoCalls : List MoverErrors.Call :=
  [.record (ascii "2026-01-02") ⟨ascii "manifest_invalid", by decide⟩ ⟨ascii "/a/d", by decide⟩
      ⟨none, ascii "no MANIFEST.tsv"⟩,
    .record (ascii "2026-01-01") ⟨ascii "missing_directory", by decide⟩ ⟨ascii "/a/e", by decide⟩
      ⟨none, ascii "gone"⟩]

theorem clearError_shown_first :
    let rows := (MoverErrors.run (fun t => t.map fun b => [b]) twoCalls).rows
    let e := clearError console 1 rows
    e.rc = 0 ∧ (fetchPending e.rows).map MoverError.target = [ascii "/a/d"] ∧
      (showErrors console rows).stdout.length = 14 ∧ (showErrors console e.rows).stdout.length = 8 := by
  obtain ⟨hshown, hcleared⟩ :=
    clearError_shown (fun t => t.map fun b => [b]) console console rfl rfl twoCalls 1
  rw [if_pos (by decide +kernel)] at hcleared
  obtain ⟨hrc, hrows, hleft⟩ := hcleared
  dsimp only
  rw [hshown, hleft, hrows]
  exact ⟨hrc, by decide +kernel⟩

end

/-! ## Words -/

/-- The value of a flag reads as an integer where it has to. -/
def Flag.Takes (value : Text) : Flag → Prop
  | .clearError => (swiftInt value).isSome
  | .minAgeSeconds => (swiftInt value).isSome
  | .help => False
  | _ => True

/-- A flag as it is spelled, and its value; a flag without a value has the empty one. -/
structure Word where
  arg : Text
  flag : Flag
  value : Text
  known : flags.lookup arg = some flag
  bare : flag.requires = none → value = []
  takes : flag.Takes value

namespace Word

def render (x : Word) : List Text := if x.flag.requires = none then [x.arg] else [x.arg, x.value]

def mode (x : Word) : Option Mode :=
  match x.flag with
  | .verify => some (.verifyOne x.value)
  | .verifyAll => some .verifyAll
  | .showErrors => some .showErrors
  | .clearErrors => some .clearErrors
  | .clearError => (swiftInt x.value).map .clearError
  | _ => none

def env (x : Word) : Option (Text × Text) :=
  match x.flag with
  | .source => some (ascii "BVL_DOWNLOADS_SNAPSHOTS_DIR", x.value)
  | .dest => some (ascii "BVL_ICLOUD_SNAPSHOTS_DIR", x.value)
  | .db => some (ascii "BVL_DB_FILE", x.value)
  | .minAgeSeconds => some (ascii "BVL_MOVER_MIN_AGE_SECONDS", x.value)
  | _ => none

end Word

def operations (words : List Word) : List Mode := words.filterMap Word.mode

def reading (words : List Word) : Args where
  opts := {
    mode := (operations words).head?.getD .tick
    dryRun := words.any fun x => x.flag = .dryRun
    quiet := words.any fun x => x.flag = .quiet
    record := words.any fun x => x.flag = .record
    verbose := words.any fun x => x.flag = .verbose }
  operationsSet := (operations words).length
  env := words.filterMap Word.env

theorem operations_snoc (words : List Word) (x : Word) :
    operations (words ++ [x]) = operations words ++ x.mode.toList := by
  rw [operations, List.filterMap_append]
  cases h : x.mode <;> simp [operations, h]

theorem env_snoc (words : List Word) (x : Word) :
    (words ++ [x]).filterMap Word.env = words.filterMap Word.env ++ x.env.toList := by
  rw [List.filterMap_append]
  cases h : x.env <;> simp [h]

theorem reading_snoc (words : List Word) (x : Word) : reading (words ++ [x]) =
    { opts := {
        mode := (operations words ++ x.mode.toList).head?.getD .tick
        dryRun := (reading words).opts.dryRun || x.flag = .dryRun
        quiet := (reading words).opts.quiet || x.flag = .quiet
        record := (reading words).opts.record || x.flag = .record
        verbose := (reading words).opts.verbose || x.flag = .verbose }
      operationsSet := (operations words).length + x.mode.toList.length
      env := (reading words).env ++ x.env.toList } := by
  simp only [reading, operations_snoc, env_snoc, List.any_append, List.any_cons, List.any_nil, Bool.or_false,
    List.length_append]

theorem setMode_reading {words : List Word} (h : operations words = []) (m : Mode) (flag : Text) :
    setMode (reading words) m flag =
      .ok { reading words with operationsSet := 1, opts := { (reading words).opts with mode := m } } := by
  simp [setMode, reading, h]

theorem parse_word {words : List Word} {x : Word} (h : (operations words ++ x.mode.toList).length ≤ 1) :
    x.flag.parse (reading words) x.value = .ok (reading (words ++ [x])) := by
  have hmode : ∀ m, x.mode = some m → operations words = [] := by
    intro m hm
    rw [hm, Option.toList_some, List.length_append, List.length_singleton] at h
    exact List.length_eq_zero_iff.mp (by omega)
  rw [reading_snoc]
  obtain ⟨arg, flag, value, known, bare, takes⟩ := x
  cases flag with
  | verify =>
    have hnil := hmode _ rfl
    simp [Flag.parse, Word.mode, Word.env, setMode_reading hnil, hnil]
  | verifyAll =>
    have hnil := hmode _ rfl
    simp [Flag.parse, Word.mode, Word.env, setMode_reading hnil, hnil]
  | showErrors =>
    have hnil := hmode _ rfl
    simp [Flag.parse, Word.mode, Word.env, setMode_reading hnil, hnil]
  | clearErrors =>
    have hnil := hmode _ rfl
    simp [Flag.parse, Word.mode, Word.env, setMode_reading hnil, hnil]
  | clearError =>
    obtain ⟨n, hn⟩ := Option.isSome_iff_exists.mp takes
    have hnil := hmode (.clearError n) (by simp [Word.mode, hn])
    simp [Flag.parse, Word.mode, Word.env, hn, setMode_reading hnil, hnil]
  | dryRun => simp [Flag.parse, Word.mode, Word.env, reading]
  | quiet => simp [Flag.parse, Word.mode, Word.env, reading]
  | record => simp [Flag.parse, Word.mode, Word.env, reading]
  | verbose => simp [Flag.parse, Word.mode, Word.env, reading]
  | source => simp [Flag.parse, Word.mode, Word.env, reading, setenv]
  | dest => simp [Flag.parse, Word.mode, Word.env, reading, setenv]
  | db => simp [Flag.parse, Word.mode, Word.env, reading, setenv]
  | minAgeSeconds =>
    obtain ⟨n, hn⟩ := Option.isSome_iff_exists.mp takes
    simp [Flag.parse, Word.mode, Word.env, reading, setenv, hn]
  | help => exact absurd takes id

theorem parse_second {words : List Word} {x : Word} (h : 1 < (operations words ++ x.mode.toList).length)
    (hw : (operations words).length ≤ 1) (a : Args) : x.flag.parse (reading words) x.value ≠ .ok a := by
  have hset : ∀ m flag, setMode (reading words) m flag ≠ .ok a := by
    intro m flag hc
    have hone : 1 < (reading words).operationsSet + 1 := by
      rw [List.length_append] at h
      have hle : x.mode.toList.length ≤ 1 := by cases x.mode <;> simp
      show 1 < (operations words).length + 1
      omega
    simp [setMode, hone] at hc
  have hno : x.mode ≠ none := by
    intro hm
    rw [hm, Option.toList_none, List.append_nil] at h
    omega
  obtain ⟨arg, flag, value, known, bare, takes⟩ := x
  intro hc
  cases flag with
  | verify => exact hset _ _ hc
  | verifyAll => exact hset _ _ hc
  | showErrors => exact hset _ _ hc
  | clearErrors => exact hset _ _ hc
  | clearError =>
    obtain ⟨n, hn⟩ := Option.isSome_iff_exists.mp takes
    simp only [Flag.parse, hn] at hc
    exact hset _ _ hc
  | _ => exact hno rfl

/-- What is not a word is an error. -/
theorem parse_ok {f : Flag} {a a' : Args} {value : Text} (h : f.parse a value = .ok a') : f.Takes value := by
  cases f <;> simp only [Flag.parse, Flag.Takes] at h ⊢
  · cases hn : swiftInt value with
    | none => simp [hn] at h
    | some n => rfl
  · cases hn : swiftInt value with
    | none => simp [hn] at h
    | some n => rfl
  · cases h

/-! ## Command lines -/

theorem parseLoop_word (a : Args) (x : Word) (rest : List Text) :
    parseLoop a (x.render ++ rest) = (x.flag.parse a x.value).bind fun a => parseLoop a rest := by
  unfold Word.render
  cases hr : x.flag.requires with
  | none =>
    rw [if_pos rfl, List.singleton_append, parseLoop, x.known, x.bare hr]
    simp only [hr]
  | some e =>
    rw [if_neg (by simp), List.cons_append, List.singleton_append, parseLoop, x.known]
    simp only [hr]

theorem parseLoop_render {done words : List Word} (h : (operations (done ++ words)).length ≤ 1) :
    parseLoop (reading done) (words.flatMap Word.render) = .ok (reading (done ++ words)) := by
  induction words generalizing done with
  | nil => rw [List.append_nil]; rfl
  | cons x words ih =>
    rw [List.append_cons] at h ⊢
    have hx : (operations done ++ x.mode.toList).length ≤ 1 := by
      rw [← operations_snoc]
      refine le_trans (List.Sublist.length_le ?_) h
      exact (List.sublist_append_left _ _).filterMap _
    rw [List.flatMap_cons, parseLoop_word, parse_word hx]
    exact ih h

theorem except_bind_ok {ε α β : Type*} {x : Except ε α} {f : α → Except ε β} {b : β} (h : x.bind f = .ok b) :
    ∃ a, x = .ok a ∧ f a = .ok b := by
  cases x with
  | error e => cases h
  | ok a => exact ⟨a, rfl, h⟩

theorem parseLoop_cons {a a' : Args} {arg : Text} {rest : List Text} (h : parseLoop a (arg :: rest) = .ok a') :
    ∃ (x : Word) (rest' : List Text) (a'' : Args), arg :: rest = x.render ++ rest' ∧
      x.flag.parse a x.value = .ok a'' ∧ parseLoop a'' rest' = .ok a' := by
  rw [parseLoop] at h
  cases hf : flags.lookup arg with
  | none =>
    rw [hf] at h
    cases h
  | some f =>
    rw [hf] at h
    dsimp only at h
    cases hr : f.requires with
    | none =>
      rw [hr] at h
      dsimp only at h
      obtain ⟨a'', ha, hrest⟩ := except_bind_ok h
      exact ⟨⟨arg, f, [], hf, fun _ => rfl, parse_ok ha⟩, rest, a'', by simp [Word.render, hr], ha, hrest⟩
    | some e =>
      rw [hr] at h
      cases rest with
      | nil => cases h
      | cons value rest =>
        dsimp only at h
        obtain ⟨a'', ha, hrest⟩ := except_bind_ok h
        have hbare : f.requires = none → value = [] := by
          rw [hr]
          nofun
        exact ⟨⟨arg, f, value, hf, hbare, parse_ok ha⟩, rest, a'', by simp [Word.render, hr], ha, hrest⟩

theorem words_of_parseLoop {done : List Word} (hd : (operations done).length ≤ 1) {argv : List Text} {a : Args}
    (h : parseLoop (reading done) argv = .ok a) : ∃ words : List Word, argv = words.flatMap Word.render ∧
      (operations (done ++ words)).length ≤ 1 ∧ a = reading (done ++ words) := by
  induction hn : argv.length using Nat.strongRecOn generalizing argv done with
  | ind n ih =>
    cases argv with
    | nil =>
      obtain rfl := Except.ok.inj h
      exact ⟨[], rfl, by rwa [List.append_nil], by rw [List.append_nil]⟩
    | cons arg rest =>
      obtain ⟨x, rest', a', hx, hparse, hrest⟩ := parseLoop_cons h
      have hroom : (operations done ++ x.mode.toList).length ≤ 1 := by
        by_contra hc
        exact parse_second (by omega) hd a' hparse
      rw [parse_word hroom] at hparse
      obtain rfl := Except.ok.inj hparse
      have hlt : rest'.length < n := by
        rw [← hn, hx, List.length_append]
        have hpos : 0 < x.render.length := by
          unfold Word.render
          split <;> simp
        omega
      obtain ⟨words, hw, hone, ha⟩ := ih _ hlt (by rwa [operations_snoc]) hrest rfl
      refine ⟨x :: words, ?_, ?_, ?_⟩
      · rw [hx, hw, List.flatMap_cons]
      · rwa [List.append_cons]
      · rwa [List.append_cons]

/-- **The command lines that BVLVerifier takes** are the sequences of its flags, each
with the value that it needs and with at most one operation among them; and it does
what they say, in whatever order they stand. -/
theorem parseArgs_ok_iff (argv : List Text) (a : Args) : parseArgs argv = .ok a ↔
    ∃ words : List Word, argv = words.flatMap Word.render ∧ (operations words).length ≤ 1 ∧
      a = reading words := by
  constructor
  · intro h
    have hloop : parseLoop (reading []) argv = .ok a := h
    have hnone : (operations []).length ≤ 1 := Nat.zero_le 1
    exact words_of_parseLoop hnone hloop
  · rintro ⟨words, rfl, hone, rfl⟩
    have hloop : parseLoop (reading []) (words.flatMap Word.render) = .ok (reading ([] ++ words)) :=
      parseLoop_render hone
    exact hloop

end BVLVerifier

end VisitLogger
