import VisitLogger.MachineId

/-!
# When the id of a machine stays
-/

namespace VisitLogger

open Separators

namespace Paths

variable {characters : Characters} {raw : Text}

/-! ## Kept characters -/

def IsKept (s : Text) : Prop := ∃ cs : List Text, (∀ c ∈ cs, allowedContains c = true) ∧ s = cs.flatten

theorem allowedContains_cases {c : Text} (h : allowedContains c = true) :
    (∃ b, isAllowed b = true ∧ c = [b]) ∨ c = kelvinSign := by
  cases c with
  | nil => exact Or.inr (of_decide_eq_true h)
  | cons b c => cases c with
    | nil => exact Or.inl ⟨b, h, rfl⟩
    | cons d c => exact Or.inr (of_decide_eq_true h)

theorem lt_of_isAllowed {b : Byte} (h : isAllowed b = true) : b < 128 ∧ b ≠ cr ∧ b ≠ nl := by
  have hall : ∀ b ∈ ascii "ABCDEFGHIJKLMNOPQRSTUVWXYZabcdefghijklmnopqrstuvwxyz0123456789_-",
      b < 128 ∧ b ≠ cr ∧ b ≠ nl := by decide +kernel
  exact hall b (List.contains_iff_mem.mp h)

theorem isPlain_of_allowed {c : Text} (h : allowedContains c = true) : IsPlain c := by
  rcases allowedContains_cases h with ⟨b, hb, rfl⟩ | rfl
  · exact Or.inl ⟨b, (lt_of_isAllowed hb).1, rfl⟩
  · exact Or.inr rfl

theorem word_of_allowed {c : Text} (h : allowedContains c = true) : Word dash c := by
  rcases allowedContains_cases h with ⟨b, hb, rfl⟩ | rfl
  · by_cases hd : b = dash
    · exact Or.inl (by rw [hd])
    · exact Or.inr ⟨by simp, by simpa using Ne.symm hd⟩
  · exact Or.inr ⟨by decide, by decide⟩

theorem joinCrLf_eq_self {cs : List Text} (h : ∀ c ∈ cs, c ≠ [cr]) : joinCrLf cs = cs := by
  induction cs using joinCrLf.induct with
  | case1 c d cs hcd ih => exact absurd hcd.1 (h c (by simp))
  | case2 c d cs hcd ih => rw [joinCrLf, if_neg hcd, ih fun e he => h e (List.mem_cons_of_mem _ he)]
  | case3 cs hcs => cases cs with
    | nil => rfl
    | cons c cs => cases cs with
      | nil => rfl
      | cons d cs => exact absurd rfl (hcs c d cs)

theorem mapped_kept {s : Text} (h : IsKept s) : mapped characters s = s := by
  obtain ⟨cs, hcs, rfl⟩ := h
  have hcr : ∀ c ∈ cs, c ≠ [cr] := by
    rintro c hc rfl
    exact absurd (hcs _ hc) (by decide +kernel)
  rw [mapped, characters.plain cs fun c hc => isPlain_of_allowed (hcs c hc), joinCrLf_eq_self hcr]
  have hid : cs.map (fun c => if allowedContains c then c else [dash]) = cs := by
    rw [List.map_congr_left (g := id) fun c hc => by simp [hcs c hc], List.map_id]
  rw [hid]

theorem isKept_mapped (characters : Characters) (raw : Text) : IsKept (mapped characters raw) := by
  refine ⟨_, fun c hc => ?_, rfl⟩
  obtain ⟨d, -, rfl⟩ := List.mem_map.mp hc
  split
  · rename_i hd
    exact hd
  · decide +kernel

theorem IsKept.trim {s : Text} (h : IsKept s) : IsKept (Separators.trim dash s) := by
  obtain ⟨cs, hcs, rfl⟩ := h
  rw [trim_flatten fun c hc => word_of_allowed (hcs c hc)]
  refine ⟨_, fun c hc => hcs c ?_, rfl⟩
  exact (List.dropWhile_sublist _).subset ((List.rdropWhile_prefix _ _).subset hc)

theorem IsKept.pairs {s : Text} (h : IsKept s) : IsKept (Separators.pairs dash s) := by
  obtain ⟨cs, hcs, rfl⟩ := h
  rw [pairs_flatten fun c hc => word_of_allowed (hcs c hc)]
  exact ⟨_, fun c hc => hcs c (pairs_subset _ _ hc), rfl⟩

/-! ## Cleaning an id again -/

def core (characters : Characters) (raw : Text) : Text := Separators.trim dash (mapped characters raw)

theorem sanitise_eq (characters : Characters) (raw : Text) : sanitiseMachineId characters raw =
    if core characters raw = [] then ascii "unknown-host" else Separators.pairs dash (core characters raw) := by
  have htrim := ((collapses_pairs dash).trim (mapped characters raw)).2
  have hnil : ∀ s : Text, Separators.pairs dash s = [] ↔ s = [] := by
    intro s
    rw [← List.head?_eq_none_iff, head?_pairs, List.head?_eq_none_iff]
  rw [sanitiseMachineId, htrim, ← core]
  by_cases hc : core characters raw = []
  · rw [if_pos hc, if_pos ((hnil _).mpr hc)]
  · rw [if_neg hc, if_neg (mt (hnil _).mp hc)]

theorem isKept_unknown : IsKept (ascii "unknown-host") :=
  ⟨(ascii "unknown-host").map fun b => [b], by decide +kernel, by decide⟩

/-- An id is kept, and has no dash at its ends. -/
theorem sanitise_spec (characters : Characters) (raw : Text) :
    IsKept (sanitiseMachineId characters raw) ∧ Tidy dash (sanitiseMachineId characters raw) ∧
      sanitiseMachineId characters raw ≠ [] := by
  rw [sanitise_eq]
  split
  · exact ⟨isKept_unknown, ⟨by decide +kernel, by decide +kernel⟩, by decide⟩
  · rename_i hne
    refine ⟨(isKept_mapped characters raw).trim.pairs, ((collapses_pairs dash).trim _).1, fun hnil => hne ?_⟩
    rwa [← List.head?_eq_none_iff, head?_pairs, List.head?_eq_none_iff] at hnil

theorem core_kept {s : Text} (h : IsKept s) (ht : Tidy dash s) : core characters s = s := by
  rw [core, mapped_kept h, trim_tidy ht]

/-- **Cleaning an id again** collapses what was left of its runs. -/
theorem sanitise_again (characters : Characters) (raw : Text) :
    sanitiseMachineId characters (sanitiseMachineId characters raw) =
      Separators.pairs dash (sanitiseMachineId characters raw) := by
  obtain ⟨hk, ht, hne⟩ := sanitise_spec characters raw
  rw [sanitise_eq characters (sanitiseMachineId characters raw), core_kept hk ht, if_neg hne]

/-- An id has adjacent dashes where the name had three foreign characters in a row. -/
theorem adjacent_iff (characters : Characters) (raw : Text) :
    [dash, dash] <:+: sanitiseMachineId characters raw ↔ [dash, dash, dash] <:+: core characters raw := by
  rw [sanitise_eq]
  split
  · rename_i hnil
    rw [hnil]
    exact iff_of_false (by decide) (by decide)
  · exact pairs_infix_iff dash _

theorem sanitise_idem_iff (characters : Characters) (raw : Text) :
    sanitiseMachineId characters (sanitiseMachineId characters raw) = sanitiseMachineId characters raw ↔
      ¬ [dash, dash, dash] <:+: core characters raw := by
  rw [sanitise_again, pairs_eq_self_iff, adjacent_iff]

/-! ## Later calls -/

theorem readMachineId_sanitised (characters : Characters) (raw : Text) :
    readMachineIdFromConfig characters (some (sanitiseMachineId characters raw)) =
      some (sanitiseMachineId characters (sanitiseMachineId characters raw)) :=
  if_neg (sanitise_spec characters raw).2.2

theorem laterIds_config {id : Text} {config : Option Text}
    (h : readMachineIdFromConfig characters config = some id)
    (calls : List (HostNames × Bool)) : ∀ later ∈ laterIds characters config calls, later = id := by
  induction calls with
  | nil => exact fun later hl => by cases hl
  | cons call calls ih =>
    obtain ⟨names, persists⟩ := call
    have hcall : machineId characters none config names persists = (id, config) := by
      simp only [machineId, h]
    intro later hl
    rw [laterIds, hcall] at hl
    rcases List.mem_cons.mp hl with rfl | hl
    · rfl
    · exact ih later hl

/-! ## ASCII names -/

open InstallLaptop (mapByte sedLine trimOne isEchoOption)

theorem mapByte_breaks : mapByte cr = dash ∧ mapByte nl = dash := by decide +kernel

/-- A host name is a C string. -/
def IsAscii (host : Text) : Prop := ∀ b ∈ host, 0 < b ∧ b < 128

def mapAscii : Text → Text
  | b :: c :: s => if b = cr ∧ c = nl then dash :: mapAscii s else mapByte b :: mapAscii (c :: s)
  | s => s.map mapByte

theorem mapped_ascii {s : Text} (h : IsAscii s) : mapped characters s = mapAscii s := by
  have hrun : characters.run s = joinCrLf (s.map fun b => [b]) := by
    have hplain := characters.plain (s.map fun b => [b]) fun c hc => by
      obtain ⟨b, hb, rfl⟩ := List.mem_map.mp hc
      exact Or.inl ⟨b, (h b hb).2, rfl⟩
    rwa [← List.flatMap_def, List.flatMap_singleton'] at hplain
  rw [mapped, hrun]
  clear h hrun
  have hone : ∀ b : Byte, (if allowedContains [b] = true then [b] else [dash]) = [mapByte b] := by
    intro b
    rw [mapByte]
    split
    · rename_i hb
      rw [if_pos (show isAllowed b = true from hb)]
    · rename_i hb
      rw [if_neg (show ¬ isAllowed b = true from hb)]
  induction s using mapAscii.induct with
  | case1 b c s hbc ih =>
    obtain ⟨rfl, rfl⟩ := hbc
    rw [mapAscii, if_pos ⟨rfl, rfl⟩, ← ih]
    rfl
  | case2 b c s hbc ih =>
    have hne : ¬ ([b] = [cr] ∧ [c] = [nl]) :=
      fun h => hbc ⟨List.singleton_inj.mp h.1, List.singleton_inj.mp h.2⟩
    rw [mapAscii, if_neg hbc, ← ih, List.map_cons, List.map_cons, joinCrLf, if_neg hne, List.map_cons,
      hone, List.flatten_cons, List.singleton_append]
  | case3 s hs => cases s with
    | nil => rfl
    | cons b s => cases s with
      | nil => simpa [joinCrLf, mapAscii] using hone b
      | cons c s => exact absurd rfl (hs b c s)

theorem mapAscii_dashes {s : Text} (hs : ∀ b ∈ s, mapByte b = dash) : ∀ d ∈ mapAscii s, d = dash := by
  induction s using mapAscii.induct with
  | case1 b c s hbc ih =>
    rw [mapAscii, if_pos hbc]
    exact List.forall_mem_cons.mpr ⟨rfl,
      ih fun d hd => hs d (List.mem_cons_of_mem _ (List.mem_cons_of_mem _ hd))⟩
  | case2 b c s hbc ih =>
    rw [mapAscii, if_neg hbc]
    exact List.forall_mem_cons.mpr ⟨hs b (by simp), ih fun d hd => hs d (List.mem_cons_of_mem _ hd)⟩
  | case3 s hs' =>
    intro d hd
    rw [mapAscii] at hd
    · obtain ⟨b, hb, rfl⟩ := List.mem_map.mp hd
      exact hs b hb
    · exact hs'

/-- After the first line there is nothing but dashes. -/
theorem mapAscii_line {line rest : Text} (hl : nl ∉ line) (hr : ∀ b ∈ rest, mapByte b = dash) :
    ∃ ds, (∀ d ∈ ds, d = dash) ∧ mapAscii (line ++ rest) = line.map mapByte ++ ds := by
  induction line with
  | nil => exact ⟨_, mapAscii_dashes hr, rfl⟩
  | cons b line ih =>
    rw [List.mem_cons, not_or] at hl
    obtain ⟨ds, hds, hmap⟩ := ih hl.2
    cases hrest : line ++ rest with
    | nil =>
      obtain ⟨rfl, rfl⟩ := List.append_eq_nil_iff.mp hrest
      exact ⟨[], fun d hd => (by cases hd), rfl⟩
    | cons c s =>
      rw [List.cons_append, hrest]
      by_cases hbc : b = cr ∧ c = nl
      · -- the line ends in the CR of a CR LF
        cases line with
        | nil =>
          rw [List.nil_append] at hrest
          rw [hrest] at hr
          refine ⟨mapAscii s, mapAscii_dashes fun d hd => hr d (List.mem_cons_of_mem _ hd), ?_⟩
          rw [mapAscii, if_pos hbc, hbc.1, List.map_singleton, mapByte_breaks.1, List.singleton_append]
        | cons d line =>
          cases hrest
          exact absurd (hbc.2 ▸ List.mem_cons_self) hl.2
      · refine ⟨ds, hds, ?_⟩
        rw [mapAscii, if_neg hbc, ← hrest, hmap]
        rfl

/-- The last two commands trim a line whose runs are squeezed. -/
theorem trimOne_eq {s : Text} (h : ¬ [dash, dash] <:+: s) : trimOne s = Separators.trim dash s := by
  have hfront : (if s.head? = some dash then s.tail else s) = s.dropWhile (· = dash) := by
    cases s with
    | nil => rfl
    | cons a s =>
      by_cases ha : a = dash
      · rw [List.head?_cons, List.tail_cons, if_pos (congrArg some ha),
          List.dropWhile_cons_of_pos (by simpa using ha), dropWhile_tidy]
        rintro b hb rfl
        exact h (two_infix_cons.mpr (Or.inl ⟨ha, hb⟩))
      · rw [List.head?_cons, if_neg fun hs => ha (Option.some.inj hs),
          List.dropWhile_cons_of_neg (by simpa using ha)]
  have hno : ¬ [dash, dash] <:+: s.dropWhile (· = dash) :=
    fun hin => h (hin.trans (List.dropWhile_suffix _).isInfix)
  rw [trimOne, hfront, Separators.trim]
  generalize s.dropWhile (· = dash) = t at hno
  rcases List.eq_nil_or_concat t with rfl | ⟨i, b, rfl⟩
  · rfl
  · rw [List.concat_eq_append] at hno ⊢
    rw [List.getLast?_concat]
    by_cases hb : b = dash
    · rw [if_pos (congrArg some hb), List.dropLast_concat, List.rdropWhile_concat_pos _ _ _ (by simpa using hb),
        rdropWhile_tidy]
      rintro c hc rfl
      obtain ⟨j, rfl⟩ := List.getLast?_eq_some_iff.mp hc
      refine hno ⟨j, [], ?_⟩
      rw [hb]
      simp
    · rw [if_neg fun hs => hb (Option.some.inj hs), List.rdropWhile_concat_neg _ _ _ (by simpa using hb)]

theorem sedLine_eq (line : Text) : sedLine line = squeeze dash (Separators.trim dash (line.map mapByte)) := by
  rw [sedLine, trimOne_eq (squeeze_noAdjacent dash _), ((collapses_squeeze dash).trim _).2]

theorem sedLine_dashes {line : Text} (h : ∀ b ∈ line, mapByte b = dash) : sedLine line = [] := by
  have hall : ∀ d ∈ line.map mapByte, d = dash := by
    intro d hd
    obtain ⟨b, hb, rfl⟩ := List.mem_map.mp hd
    exact h b hb
  have := trim_seps hall (e := []) (fun a ha => by cases ha) []
  rw [List.append_nil, List.append_nil] at this
  rw [sedLine_eq, this]
  rfl

theorem mem_sedLine {line : Text} {b : Byte} (hb : b ∈ line) (ha : isAllowed b = true) (hd : b ≠ dash) :
    b ∈ sedLine line := by
  have hmap : b ∈ line.map mapByte := List.mem_map.mpr ⟨b, hb, if_pos ha⟩
  rw [sedLine_eq]
  exact (collapses_squeeze dash).mem hd (mem_trim hd hmap)

theorem nl_notMem_sedLine (line : Text) : nl ∉ sedLine line := by
  rw [sedLine_eq]
  intro hmem
  obtain ⟨-, d, e, -, -, heq⟩ := exists_trim dash (line.map mapByte)
  have hmem : nl ∈ line.map mapByte := by
    rw [heq]
    exact List.mem_append_left _ (List.mem_append_right _ (squeeze_subset _ _ hmem))
  obtain ⟨b, -, hb⟩ := List.mem_map.mp hmem
  rw [mapByte] at hb
  split at hb
  · rename_i ha
    exact (lt_of_isAllowed ha).2.2 hb
  · cases hb

/-! ## The id of the installer -/

def OneLine (host : Text) : Prop := ∀ before after, host = before ++ nl :: after →
    ∀ b ∈ after, isAllowed b = true → b = dash

theorem mapByte_eq_dash {b : Byte} : mapByte b = dash ↔ (isAllowed b = true → b = dash) := by
  rw [mapByte]
  split
  · rename_i hb
    exact ⟨fun h _ => h, fun h => h hb⟩
  · rename_i hb
    exact iff_of_true rfl fun h => absurd h hb

theorem nl_notMem_sanitise (characters : Characters) (raw : Text) : nl ∉ sanitiseMachineId characters raw := by
  obtain ⟨⟨cs, hcs, heq⟩, -⟩ := sanitise_spec characters raw
  rw [heq]
  intro hmem
  obtain ⟨c, hc, hnl⟩ := List.mem_flatten.mp hmem
  rcases allowedContains_cases (hcs c hc) with ⟨b, hb, rfl⟩ | rfl
  · exact (lt_of_isAllowed hb).2.2 (List.mem_singleton.mp hnl).symm
  · exact absurd hnl (by decide)

theorem mapByte_nls (host : Text) : ∀ b ∈ host.rtakeWhile (· = nl), mapByte b = dash := by
  intro b hb
  have : b = nl := by simpa using List.mem_rtakeWhile_imp hb
  rw [this]
  exact mapByte_breaks.2

/-- A name on one line: the line, and then only dashes and line breaks. -/
theorem OneLine.split {host : Text} (h : OneLine host) :
    ∃ line rest, nl ∉ line ∧ (∀ b ∈ rest, mapByte b = dash) ∧
    host = line ++ rest ∧ ∃ lines, (∀ l ∈ lines, ∀ b ∈ l, mapByte b = dash) ∧
      (host.rdropWhile (· = nl)).splitOn nl = line :: lines := by
  have hhost : host.rdropWhile (· = nl) ++ host.rtakeWhile (· = nl) = host := List.rdropWhile_append_rtakeWhile
  by_cases hnl : nl ∈ host.rdropWhile (· = nl)
  · obtain ⟨line, after, hraw, hline⟩ := List.eq_append_cons_of_mem hnl
    have hafter : ∀ b ∈ after ++ host.rtakeWhile (· = nl), mapByte b = dash := fun b hb =>
      by
      refine mapByte_eq_dash.mpr (h line (after ++ host.rtakeWhile (· = nl)) ?_ b hb)
      rw [← List.cons_append, ← List.append_assoc, ← hraw, hhost]
    refine ⟨line, nl :: (after ++ host.rtakeWhile (· = nl)), hline,
      List.forall_mem_cons.mpr ⟨mapByte_breaks.2, hafter⟩, ?_, after.splitOn nl, fun l hl b hb => ?_, ?_⟩
    · rw [← List.cons_append, ← List.append_assoc, ← hraw, hhost]
    · by_cases hbn : b = nl
      · rw [hbn]
        exact mapByte_breaks.2
      · exact hafter b (List.mem_append_left _ ((mem_splitOn_iff hbn).mp ⟨l, hl, hb⟩))
    · rw [hraw, List.splitOn_append_cons_self_of_not_mem hline]
  · exact ⟨_, _, hnl, mapByte_nls host, hhost.symm, [], fun l hl => (by cases hl),
      List.splitOn_eq_singleton hnl⟩

theorem intercalate_nils {lines : List Text} (h : ∀ l ∈ lines, l = []) (first : Text) :
    ∃ nls, (∀ b ∈ nls, b = nl) ∧ [nl].intercalate (first :: lines) = first ++ nls := by
  induction lines generalizing first with
  | nil => exact ⟨[], fun b hb => (by cases hb), by simp [List.intercalate]⟩
  | cons l lines ih =>
    rw [List.forall_mem_cons] at h
    obtain ⟨nls, hnls, hlines⟩ := ih h.2 l
    refine ⟨nl :: nls, List.forall_mem_cons.mpr ⟨rfl, hnls⟩, ?_⟩
    rw [List.intercalate_cons_cons, hlines, h.1]
    simp

/-- **Both ids of an ASCII name** are that of its line, when nothing comes after it. -/
theorem installed_of_oneLine {host : Text} (ha : IsAscii host) (h : OneLine host)
    (he : isEchoOption (host.rdropWhile (· = nl)) = false)
    (hc : ¬ [dash, dash, dash] <:+: core characters host) :
    sanitiseMachineId characters host = InstallLaptop.machineId host := by
  obtain ⟨line, rest, hl, hr, rfl, lines, hls, hsplit⟩ := h.split
  obtain ⟨ds, hds, hmap⟩ := mapAscii_line hl hr
  have hcore : core characters (line ++ rest) = Separators.trim dash (line.map mapByte) := by
    have := trim_seps (d := []) (fun a ha => by cases ha) hds (line.map mapByte)
    rw [List.nil_append] at this
    rw [core, mapped_ascii ha, hmap, this]
  have hswift : sanitiseMachineId characters (line ++ rest) =
      if sedLine line = [] then ascii "unknown-host" else sedLine line := by
    have hnil : squeeze dash (Separators.trim dash (line.map mapByte)) = [] ↔
      Separators.trim dash (line.map mapByte) = [] := by
      rw [← List.head?_eq_none_iff, head?_squeeze, List.head?_eq_none_iff]
    rw [hcore] at hc
    rw [sanitise_eq, hcore, sedLine_eq, pairs_eq_squeeze hc, if_congr hnil.symm rfl rfl]
  have hsed : ([nl].intercalate ((line :: lines).map sedLine)).rdropWhile (· = nl) = sedLine line := by
    have hnils : ∀ l ∈ lines.map sedLine, l = [] := by
      intro l hl
      obtain ⟨line', hmem, rfl⟩ := List.mem_map.mp hl
      exact sedLine_dashes (hls line' hmem)
    obtain ⟨nls, hnls, hlines⟩ := intercalate_nils hnils (sedLine line)
    rw [List.map_cons, hlines, rdropWhile_seps hnls, rdropWhile_tidy]
    rintro b hb rfl
    exact nl_notMem_sedLine line (List.mem_of_getLast? hb)
  rw [hswift, InstallLaptop.machineId, he, hsplit, hsed]
  rfl

theorem isEchoOption_cases {raw : Text} (h : isEchoOption raw = true) :
    ∃ c cs, raw = dash :: c :: cs ∧ ∀ b ∈ c :: cs, b ∈ ascii "neE" := by
  unfold isEchoOption at h
  split at h
  · rename_i c cs
    exact ⟨c, cs, rfl, fun b hb => List.contains_iff_mem.mp (List.all_eq_true.mp h b hb)⟩
  · cases h

/-- `echo` prints nothing for an option word, which has letters of its own. -/
theorem sanitise_ne_of_echo (characters : Characters) {host : Text} (ha : IsAscii host)
    (he : isEchoOption (host.rdropWhile (· = nl)) = true) :
    sanitiseMachineId characters host ≠ ascii "unknown-host" := by
  have hhost : host.rdropWhile (· = nl) ++ host.rtakeWhile (· = nl) = host := List.rdropWhile_append_rtakeWhile
  have hnls := mapByte_nls host
  obtain ⟨c, cs, hraw, hcs⟩ := isEchoOption_cases he
  rw [hraw] at hhost
  have hletters : ∀ b ∈ ascii "neE", mapByte b = b ∧ b ≠ dash ∧ b ≠ nl := by decide +kernel
  have hdash : mapByte dash = dash := by decide +kernel
  have hnl : nl ∉ dash :: c :: cs := fun hmem =>
    (List.mem_cons.mp hmem).elim (by decide +kernel) fun h => (hletters _ (hcs _ h)).2.2 rfl
  obtain ⟨ds, hds, hmap⟩ := mapAscii_line hnl hnls
  rw [hhost] at hmap
  have hmap' : mapped characters host = dash :: c :: cs ++ ds := by
    have hmapCs : (dash :: c :: cs).map mapByte = dash :: c :: cs := by
      rw [List.map_congr_left (g := id) fun b hb => ?_, List.map_id]
      rcases List.mem_cons.mp hb with rfl | hb
      · exact hdash
      · exact (hletters b (hcs b hb)).1
    rw [mapped_ascii ha, hmap, hmapCs]
  have hcore : c ∈ core characters host := by
    rw [core, hmap']
    exact mem_trim (hletters c (hcs c (by simp))).2.1 (by simp)
  intro heq
  rw [sanitise_eq, if_neg (List.ne_nil_of_mem hcore)] at heq
  have hu : 117 ∈ mapped characters host := by
    obtain ⟨-, d, e, -, -, hparts⟩ := exists_trim dash (mapped characters host)
    rw [hparts]
    refine List.mem_append_left _ (List.mem_append_right _ (pairs_subset dash _ ?_))
    rw [← core, heq]
    decide
  rw [hmap'] at hu
  rcases List.mem_append.mp hu with hu | hu
  · rcases List.mem_cons.mp hu with hu | hu
    · cases hu
    · exact absurd (hcs _ hu) (by decide)
  · cases hds _ hu

/-- A letter after a line break stays behind that line break in `MACHINE_ID`. -/
theorem nl_mem_installed {host : Text} (he : isEchoOption (host.rdropWhile (· = nl)) = false)
    (h : ¬ OneLine host) :
    nl ∈ InstallLaptop.machineId host := by
  simp only [OneLine, not_forall] at h
  obtain ⟨before, after, rfl, b, hb, hallowed, hdash⟩ := h
  have hbn : b ≠ nl := (lt_of_isAllowed hallowed).2.2
  have hraw : (before ++ nl :: after).rdropWhile (· = nl) = before ++ nl :: after.rdropWhile (· = nl) := by
    rw [List.append_cons, rdropWhile_append_mem hbn hb, ← List.append_cons]
  have hb' : b ∈ after.rdropWhile (· = nl) := by
    have hall : after.rdropWhile (· = nl) ++ after.rtakeWhile (· = nl) = after :=
      List.rdropWhile_append_rtakeWhile
    rw [← hall] at hb
    refine (List.mem_append.mp hb).resolve_right fun hb => hbn ?_
    simpa using List.mem_rtakeWhile_imp hb
  obtain ⟨l, hl, hbl⟩ := (mem_splitOn_iff hbn).mpr hb'
  have hmem : b ∈ [nl].intercalate (((after.rdropWhile (· = nl)).splitOn nl).map sedLine) :=
    (mem_intercalate hbn).mpr ⟨_, List.mem_map_of_mem hl, mem_sedLine hbl hallowed hdash⟩
  have hmap : ∀ s : Text, (s.splitOn nl).map sedLine ≠ [] :=
    fun s h => List.splitOn_ne_nil nl s (List.map_eq_nil_iff.mp h)
  have hid : ([nl].intercalate
        ((((before ++ nl :: after).rdropWhile (· = nl)).splitOn nl).map sedLine)).rdropWhile (· = nl) =
      [nl].intercalate ((before.splitOn nl).map sedLine) ++ nl ::
        ([nl].intercalate (((after.rdropWhile (· = nl)).splitOn nl).map sedLine)).rdropWhile (· = nl) := by
    rw [hraw, List.splitOn_append_cons_self, List.map_append, intercalate_append (hmap _) (hmap _),
      List.append_cons, rdropWhile_append_mem hbn hmem, ← List.append_cons]
  rw [InstallLaptop.machineId, he, hid]
  simp

/-- For an ASCII name whose id keeps no adjacent dashes the two ids agree when its
one line is no option of `echo`. -/
theorem installed_iff {host : Text} (ha : IsAscii host) (hc : ¬ [dash, dash, dash] <:+: core characters host) :
    sanitiseMachineId characters host = InstallLaptop.machineId host ↔
      isEchoOption (host.rdropWhile (· = nl)) = false ∧ OneLine host := by
  constructor
  · intro heq
    have he : isEchoOption (host.rdropWhile (· = nl)) = false := by
      by_contra he
      rw [Bool.not_eq_false] at he
      refine sanitise_ne_of_echo characters ha he ?_
      rw [heq, InstallLaptop.machineId, he]
      rfl
    refine ⟨he, ?_⟩
    by_contra h
    exact nl_notMem_sanitise characters host (heq ▸ nl_mem_installed he h)
  · rintro ⟨he, h⟩
    exact installed_of_oneLine ha h he hc

/-! ## The first call and the later ones -/

/-- The id of a machine named so: later calls return that of the first one, cleaning
it changes nothing, it has no adjacent dashes, and it is the installer's. -/
structure IsSettled (characters : Characters) (names : HostNames) : Prop where
  stays : ∀ calls, ∀ later ∈ laterIds characters (machineId characters none none names true).2 calls,
    later = (machineId characters none none names true).1
  again : sanitiseMachineId characters (sanitiseMachineId characters (currentHostName names)) =
    sanitiseMachineId characters (currentHostName names)
  noAdjacent : ¬ [dash, dash] <:+: sanitiseMachineId characters (currentHostName names)
  mirrors : IsAscii (currentHostName names) →
    sanitiseMachineId characters (currentHostName names) = InstallLaptop.machineId (currentHostName names)

/-- **The id of a machine is settled** when its name has no three foreign characters
in a row inside it. -/
theorem isSettled_iff (characters : Characters) (names : HostNames) : IsSettled characters names ↔
    ¬ [dash, dash, dash] <:+: core characters (currentHostName names) ∧
      (IsAscii (currentHostName names) →
        isEchoOption ((currentHostName names).rdropWhile (· = nl)) = false ∧
          OneLine (currentHostName names)) := by
  constructor
  · intro h
    have hc := (sanitise_idem_iff characters _).mp h.again
    exact ⟨hc, fun ha => (installed_iff ha hc).mp (h.mirrors ha)⟩
  · rintro ⟨hc, hmirrors⟩
    have hagain := (sanitise_idem_iff characters _).mpr hc
    refine ⟨fun calls later hl => ?_, hagain, fun hin => hc ((adjacent_iff characters _).mp hin), fun ha =>
      (installed_iff ha hc).mpr (hmirrors ha)⟩
    have hread := readMachineId_sanitised characters (currentHostName names)
    rw [hagain] at hread
    exact laterIds_config hread calls later hl

/-! ## A name with three foreign characters -/

/-- The bytes of a code point that is not complete, and the code points after it. -/
def codePoints : Text → Text × List Text
  | [] => ([], [])
  | b :: s =>
    let r := codePoints s
    if 128 ≤ b ∧ b < 192 then (b :: r.1, r.2) else ([], (b :: r.1) :: r.2)

theorem codePoints_flatten {cs : List Text} (h : ∀ c ∈ cs, IsPlain c) : codePoints cs.flatten = ([], cs) := by
  induction cs with
  | nil => rfl
  | cons c cs ih =>
    rw [List.forall_mem_cons] at h
    rw [List.flatten_cons]
    rcases h.1 with ⟨b, hb, rfl⟩ | rfl
    · rw [List.singleton_append, codePoints, ih h.2, if_neg fun h' => UInt8.not_le.mpr hb h'.1]
    · show codePoints (0xE2 :: 0x84 :: 0xAA :: cs.flatten) = _
      rw [codePoints, codePoints, codePoints, ih h.2]
      rfl

/-- One character for each code point, and one for CR LF. -/
def Characters.simple : Characters where
  run s := joinCrLf (codePoints s).2
  plain cs h := by rw [codePoints_flatten h]

/-- "Tom & Ann" is `Tom--Ann` on the first call and `Tom-Ann` on every later one. -/
theorem tom_and_ann :
    machineId Characters.simple none none ⟨some (ascii "Tom & Ann"), none, []⟩ true =
        (ascii "Tom--Ann", some (ascii "Tom--Ann")) ∧
      laterIds Characters.simple (some (ascii "Tom--Ann")) [(⟨some (ascii "Tom & Ann"), none, []⟩,
        true)] = [ascii "Tom-Ann"] ∧
      InstallLaptop.machineId (ascii "Tom & Ann") = ascii "Tom-Ann" ∧
      ¬ IsSettled Characters.simple ⟨some (ascii "Tom & Ann"), none, []⟩ := by
  refine ⟨by decide +kernel, by decide +kernel, by decide +kernel, fun h => ?_⟩
  exact absurd h.again (by decide +kernel)

end Paths

end VisitLogger
