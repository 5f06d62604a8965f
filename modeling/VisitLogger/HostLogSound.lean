import VisitLogger.HostLog
import VisitLogger.Rotation

/-!
# What a rotated log keeps

The files are the blocks of a rotation, `path` the newest: so they hold the last lines
that were written, and none in the middle is lost.
-/

namespace VisitLogger

namespace HostLog

variable {log : HostLog} {fs : Files} {f : Nat → Option Text}

/-! ## Names -/

def name (log : HostLog) : Nat → Text
  | 0 => log.path
  | j + 1 => log.backup (j + 1 : Nat)

theorem toString_injective {m n : Nat} (h : ascii (toString (m : Int)) = ascii (toString (n : Int))) :
    m = n := by
  have hdigits : ∀ k : Nat, (ascii (toString (k : Int))).map (fun b => Char.ofNat b.toNat) =
    Nat.toDigits 10 k := by
    intro k
    have hk : toString (k : Int) = toString k := rfl
    rw [hk, Nat.toString_eq_repr, ascii, Nat.toList_repr, List.map_map]
    refine (List.map_congr_left fun c hc => ?_).trans (List.map_id _)
    have hdigit := Nat.isDigit_of_mem_toDigits (by decide) (by decide) hc
    have hlt : c.toNat < 256 := by
      simp only [Char.isDigit, Bool.and_eq_true, decide_eq_true_eq, UInt32.le_iff_toNat_le] at hdigit
      exact Nat.lt_of_le_of_lt hdigit.2 (by decide)
    rw [Function.comp_apply, UInt8.toNat_ofNat', Nat.mod_eq_of_lt hlt, Char.ofNat_toNat]
    rfl
  have hd := congrArg (List.map fun b : Byte => Char.ofNat b.toNat) h
  rw [hdigits, hdigits] at hd
  rw [← Nat.ofDigitChars_ten_toDigits (n := m), hd, Nat.ofDigitChars_ten_toDigits]

theorem name_injective {i j : Nat} (h : log.name i = log.name j) : i = j := by
  have hne : ∀ k, log.name 0 ≠ log.name (k + 1) := by
    intro k h
    have hlen := congrArg List.length h
    simp only [name, backup, List.length_append] at hlen
    have hdot : (ascii ".").length = 1 := rfl
    omega
  cases i with
  | zero =>
    cases j with
    | zero => rfl
    | succ j => exact absurd h (hne j)
  | succ i =>
    cases j with
    | zero => exact absurd h.symm (hne i)
    | succ j => exact toString_injective (List.append_cancel_left h)

/-! ## The files of a log -/

/-- The directory holds the files of the log and no others. -/
structure Shows (log : HostLog) (fs : Files) (f : Nat → Option Text) : Prop where
  lookup : ∀ j, fs.lookup (log.name j) = f j
  named : ∀ p ∈ fs, ∃ j, p = log.name j

theorem Shows.erase (h : Shows log fs f) (j : Nat) :
    Shows log (fs.erase (log.name j)) (Function.update f j none) := by
  refine ⟨fun i => ?_, fun p hp => h.named p (AList.mem_erase.mp hp).2⟩
  by_cases hij : i = j
  · rw [hij, AList.lookup_erase, Function.update_self]
  · rw [AList.lookup_erase_ne fun he => hij (name_injective he), Function.update_of_ne hij, h.lookup]

theorem Shows.insert (h : Shows log fs f) (j : Nat) (content : Text) :
    Shows log (fs.insert (log.name j) content) (Function.update f j (some content)) := by
  refine ⟨fun i => ?_, fun p hp => ?_⟩
  · by_cases hij : i = j
    · rw [hij, AList.lookup_insert, Function.update_self]
    · rw [AList.lookup_insert_ne fun he => hij (name_injective he), Function.update_of_ne hij, h.lookup]
  · rcases (AList.mem_insert fs).mp hp with rfl | hp
    · exact ⟨j, rfl⟩
    · exact h.named p hp

theorem Shows.mem_iff (h : Shows log fs f) (j : Nat) : log.name j ∈ fs ↔ f j ≠ none := by
  rw [← AList.lookup_isSome, h.lookup, Option.isSome_iff_ne_none]

theorem Shows.remove (h : Shows log fs f) (j : Nat) :
    Shows log ((fs.removeItem (log.name j)).getD fs) (Function.update f j none) := by
  rw [Files.removeItem]
  split
  · exact h.erase j
  · rename_i hno
    have hj : f j = none := by
      by_contra hf
      exact hno ((h.mem_iff j).mpr hf)
    have hsame : Function.update f j none = f := hj ▸ Function.update_eq_self j f
    rw [hsame]
    exact h

theorem Shows.move (h : Shows log fs f) {j : Nat} (hfree : f (j + 1) = none) :
    Shows log (if log.name j ∈ fs then (fs.moveItem (log.name j) (log.name (j + 1))).getD fs else fs)
      (Function.update (Function.update f j none) (j + 1) (f j)) := by
  cases hj : f j with
  | none =>
    have hsame : Function.update f j none = f := hj ▸ Function.update_eq_self j f
    have hsame' : Function.update f (j + 1) none = f := hfree ▸ Function.update_eq_self (j + 1) f
    rw [if_neg fun hmem => (h.mem_iff j).mp hmem hj, hsame, hsame']
    exact h
  | some content =>
    have hmem : log.name j ∈ fs := (h.mem_iff j).mpr (by rw [hj]; simp)
    have hno : log.name (j + 1) ∉ fs := fun hmem => (h.mem_iff (j + 1)).mp hmem hfree
    rw [if_pos hmem, Files.moveItem, h.lookup, hj]
    simp only [if_neg hno, Option.getD_some]
    exact (h.erase j).insert (j + 1) content

/-! ## Rotating -/

theorem stride_succ (m : Nat) : stride (m + 1 : Nat) 1 = ((m + 1 : Nat) : Int) :: stride m 1 := by
  have hlen : ∀ k : Nat, ((k : Int) - 1 + 1).toNat = k := fun k => by omega
  rw [stride, stride, hlen, hlen, List.range_succ_eq_map, List.map_cons, List.map_map]
  refine congrArg₂ List.cons (by simp) (List.map_congr_left fun k _ => ?_)
  rw [Function.comp_apply]
  omega

def shifted (f : Nat → Option Text) (n : Nat) : Nat → Option Text
  | 0 => none
  | j + 1 => if j < n then f j else f (j + 1)

theorem Shows.shift (h : Shows log fs f) {m : Nat} (hfree : f (m + 1) = none) :
    let fs' := (stride m 1).foldl (fun fs i =>
      if log.backup i ∈ fs then (fs.moveItem (log.backup i) (log.backup (i + 1))).getD fs else fs) fs
    Shows log (if log.path ∈ fs' then (fs'.moveItem log.path (log.backup 1)).getD fs' else fs')
      (shifted f (m + 1)) := by
  induction m generalizing fs f with
  | zero =>
    have hmove := h.move hfree
    have hf : Function.update (Function.update f 0 none) 1 (f 0) = shifted f 1 := by
      funext j
      rcases j with _ | _ | j <;> simp [shifted, Function.update]
    rw [hf] at hmove
    exact hmove
  | succ m ih =>
    have hmove := h.move hfree
    have hfree' : Function.update (Function.update f (m + 1) none) (m + 2) (f (m + 1)) (m + 1) = none := by
      rw [Function.update_of_ne (by omega), Function.update_self]
    have hf : shifted (Function.update (Function.update f (m + 1) none) (m + 2) (f (m + 1))) (m + 1) =
      shifted f (m + 2) := by
      funext j
      cases j with
      | zero => rfl
      | succ j =>
        rw [shifted, shifted]
        rcases Nat.lt_trichotomy j (m + 1) with hj | rfl | hj
        · rw [if_pos hj, if_pos (by omega), Function.update_of_ne (by omega), Function.update_of_ne (by omega)]
        · rw [if_neg (by omega), if_pos (by omega), Function.update_self]
        · rw [if_neg (by omega), if_neg (by omega), Function.update_of_ne (by omega),
            Function.update_of_ne (by omega)]
    rw [stride_succ, List.foldl_cons, ← hf]
    exact ih hmove hfree'

/-! ## Writing -/

def files (blocks : List (List Text)) (j : Nat) : Option Text := blocks[j]?.map List.flatten

theorem Shows.size (h : Shows log fs f) : log.size fs = ((f 0).map List.length).getD 0 := by
  rw [HostLog.size, ← h.lookup 0]
  rfl

theorem Shows.rotate {blocks : List (List Text)} (hN : 1 ≤ log.backupCount) (h : Shows log fs (files blocks))
    (hcount : blocks.length ≤ log.backupCount.toNat + 1) {adding : Nat}
    (hlong : log.maxBytes < log.size fs + adding) :
    Shows log (log.rotateIfNeeded fs adding)
      (Function.update (files ([] :: blocks.take log.backupCount.toNat)) 0 none) := by
  obtain ⟨m, hm⟩ : ∃ m : Nat, log.backupCount = (m + 1 : Nat) := ⟨(log.backupCount - 1).toNat, by omega⟩
  have hlast : log.backup log.backupCount = log.name (m + 1) := by rw [hm, name]
  have hnext : log.backupCount - 1 = m := by omega
  have hshift := (h.remove (m + 1)).shift (Function.update_self (m + 1) none (files blocks))
  have hf : shifted (Function.update (files blocks) (m + 1) none) (m + 1) =
      Function.update (files ([] :: blocks.take log.backupCount.toNat)) 0 none := by
    funext j
    rw [hm, Int.toNat_natCast] at hcount ⊢
    cases j with
    | zero => rfl
    | succ j =>
      rw [Function.update_of_ne (Nat.succ_ne_zero j), shifted, files, List.getElem?_cons_succ,
        List.getElem?_take]
      split
      · rw [Function.update_of_ne (by omega), files]
      · by_cases hj : j = m
        · rw [hj, Function.update_self]
          rfl
        · rw [Function.update_of_ne (by omega), files, List.getElem?_eq_none (by omega)]
  rw [HostLog.rotateIfNeeded, if_pos hlong, hlast, hnext, ← hf]
  exact hshift

theorem Shows.append (h : Shows log fs f) (data : Text) :
    Shows log ((log.ensureFileExists fs).insert log.path
      (((log.ensureFileExists fs).lookup log.path).getD [] ++ data))
      (Function.update f 0 (some ((f 0).getD [] ++ data))) := by
  rw [ensureFileExists]
  split
  · rw [← h.lookup 0]
    exact h.insert 0 _
  · rename_i hno
    have hnone : f 0 = none := by
      by_contra hf
      exact hno ((h.mem_iff 0).mpr hf)
    have hins := (h.insert 0 []).insert 0 data
    rw [Function.update_idem] at hins
    rw [AList.lookup_insert, hnone]
    exact hins

theorem update_files (b c : List Text) (bs : List (List Text)) :
    Function.update (files (b :: bs)) 0 (some c.flatten) = files (c :: bs) := by
  funext j
  cases j with
  | zero => rfl
  | succ j =>
    rw [Function.update_of_ne (Nat.succ_ne_zero j), files, files, List.getElem?_cons_succ,
    List.getElem?_cons_succ]

theorem update_files_nil (c : List Text) : Function.update (files []) 0 (some c.flatten) = files [c] := by
  funext j
  cases j with
  | zero => rfl
  | succ j =>
    rw [Function.update_of_ne (Nat.succ_ne_zero j), files, files, List.getElem?_cons_succ,
    List.getElem?_nil, List.getElem?_nil]

/-- **A write puts the line into the newest block, or starts one with it.** -/
theorem Shows.write {blocks : List (List Text)} (hN : 1 ≤ log.backupCount) (h : Shows log fs (files blocks))
    (hcount : blocks.length ≤ log.backupCount.toNat + 1) (w : LogWrite) :
    Shows log (log.write fs w)
      (files (Rotation.push List.length log.maxBytes log.backupCount.toNat blocks w.line)) := by
  have hsize := h.size
  rw [HostLog.write]
  by_cases hlong : log.maxBytes < log.size fs + w.line.length
  · have hpush : Rotation.push List.length log.maxBytes log.backupCount.toNat blocks w.line =
        [w.line] :: blocks.take log.backupCount.toNat := by
      cases blocks with
      | nil => rw [List.take_nil, Rotation.push]
      | cons b bs =>
        have htotal : Rotation.total List.length b = log.size fs := by
          rw [hsize, Rotation.total, ← List.length_flatten]
          rfl
        rw [Rotation.push, htotal, if_neg (by omega), List.take_succ_cons]
    have happend := (h.rotate hN hcount hlong).append w.line
    rw [Function.update_self, Function.update_idem, Option.getD_none, List.nil_append] at happend
    have hfiles := update_files [] [w.line] (blocks.take log.backupCount.toNat)
    rw [List.flatten_singleton] at hfiles
    rw [hpush, ← hfiles]
    exact happend
  · have happend := h.append w.line
    rw [rotateIfNeeded, if_neg hlong]
    cases blocks with
    | nil =>
      have hfiles := update_files_nil [w.line]
      rw [List.flatten_singleton] at hfiles
      rw [Rotation.push, ← hfiles]
      exact happend
    | cons b bs =>
      have htotal : Rotation.total List.length b = log.size fs := by
        rw [hsize, Rotation.total, ← List.length_flatten]
        rfl
      have hfiles := update_files b (b ++ [w.line]) bs
      rw [List.flatten_append, List.flatten_singleton] at hfiles
      rw [Rotation.push, htotal, if_pos (by omega), ← hfiles]
      exact happend

/-! ## What a log holds after some writes -/

theorem exists_blocks (log : HostLog) (hN : 1 ≤ log.backupCount) (writes : List LogWrite) :
    ∃ blocks, Shows log (writes.foldl log.write ∅) (files blocks) ∧
      Rotation.Holds List.length log.maxBytes log.backupCount.toNat (writes.map LogWrite.line) blocks := by
  induction writes using List.reverseRecOn with
  | nil => exact ⟨[], ⟨fun j => AList.lookup_empty _, fun p hp => absurd hp (AList.notMem_empty p)⟩, .nil⟩
  | append_singleton writes w ih =>
    obtain ⟨blocks, hshows, hholds⟩ := ih
    refine ⟨Rotation.push List.length log.maxBytes log.backupCount.toNat blocks w.line, ?_, ?_⟩
    · rw [List.foldl_append]
      exact hshows.write hN hholds.count w
    · rw [List.map_append]
      exact hholds.step w.line

theorem names_eq (log : HostLog) (n : Nat) :
    (stride n 1).map log.backup ++ [log.path] = (List.range (n + 1)).reverse.map log.name := by
  induction n with
  | zero => rfl
  | succ n ih =>
    rw [stride_succ, List.map_cons, List.cons_append, ih, List.range_succ (n := n + 1),
      List.reverse_concat, List.map_cons]
    rfl

theorem flatMap_files {blocks : List (List Text)} {n : Nat} (h : blocks.length ≤ n) :
    (List.range n).reverse.flatMap (fun j => (files blocks j).getD []) = blocks.reverse.flatten.flatten := by
  have hmap : (List.range n).map (fun j => (files blocks j).getD []) =
      blocks.map List.flatten ++ List.replicate (n - blocks.length) [] := by
    refine List.ext_getElem (by simp [h]) fun j hj hj' => ?_
    rw [List.getElem_map, List.getElem_range, files, List.getElem_append]
    split
    · rename_i hlt
      rw [List.length_map] at hlt
      rw [List.getElem_map, List.getElem?_eq_getElem hlt]
      rfl
    · rename_i hge
      rw [List.length_map] at hge
      rw [List.getElem_replicate, List.getElem?_eq_none (by omega)]
      rfl
  rw [List.flatMap_def, List.map_reverse, hmap, List.reverse_append, List.flatten_append,
    List.flatten_flatten, ← List.map_reverse]
  simp

/-- **A log keeps the last lines.** Its files hold, one after the other, the last lines of those written, that of the
last write with them; a file that is too long holds one line. -/
theorem contents_rotated (log : HostLog) (hN : 1 ≤ log.backupCount) (writes : List LogWrite) :
    ∃ dropped kept, writes = dropped ++ kept ∧ (writes ≠ [] → kept ≠ []) ∧
      log.contents (writes.foldl log.write ∅) = (kept.map LogWrite.line).flatten ∧
      ∀ p content, (writes.foldl log.write ∅).lookup p = some content →
        (content.length : Int) ≤ log.maxBytes ∨ ∃ w ∈ kept, content = w.line := by
  obtain ⟨blocks, hshows, hholds⟩ := exists_blocks log hN writes
  obtain ⟨lines, hlines⟩ := hholds.kept
  obtain ⟨dropped, kept, hwrites, -, hkept⟩ := List.map_eq_append_iff.mp hlines.symm
  refine ⟨dropped, kept, hwrites, fun hne hnil => ?_, ?_, fun p content hp => ?_⟩
  · refine hholds.last (by simpa using hne) ?_
    rw [← hkept, hnil, List.map_nil]
  · have hN' : ((log.backupCount.toNat : Nat) : Int) = log.backupCount := by omega
    rw [contents, ← hN', names_eq, List.flatMap_map, hkept, ← flatMap_files hholds.count]
    simp only [hshows.lookup]
  · obtain ⟨j, rfl⟩ := hshows.named p (AList.lookup_isSome.mp (by rw [hp]; rfl))
    rw [hshows.lookup] at hp
    obtain ⟨b, hb, rfl⟩ := Option.map_eq_some_iff.mp hp
    have hmem : b ∈ blocks := List.mem_of_getElem? hb
    rcases hholds.fits b hmem with hfits | ⟨l, rfl⟩
    · refine .inl ?_
      rw [List.length_flatten]
      exact hfits
    · have hl : l ∈ blocks.reverse.flatten := List.mem_flatten.mpr ⟨[l], List.mem_reverse.mpr hmem, by simp⟩
      rw [← hkept] at hl
      obtain ⟨w, hw, rfl⟩ := List.mem_map.mp hl
      exact .inr ⟨w, hw, List.flatten_singleton⟩

def small : HostLog := ⟨ascii "/l", 10, 1⟩

def twoWrites : List LogWrite := [⟨ascii "1", ascii "I", ascii "a"⟩, ⟨ascii "2", ascii "I", ascii "b"⟩]

theorem contents_rotated_small :
    ∃ dropped kept, twoWrites = dropped ++ kept ∧ (twoWrites ≠ [] → kept ≠ []) ∧
      small.contents (twoWrites.foldl small.write ∅) = (kept.map LogWrite.line).flatten ∧
      ∀ p content, (twoWrites.foldl small.write ∅).lookup p = some content →
        (content.length : Int) ≤ small.maxBytes ∨ ∃ w ∈ kept, content = w.line :=
  contents_rotated small (by decide) twoWrites

end HostLog

end VisitLogger
