import VisitLogger.Rebuild
import VisitLogger.Seal

/-!
# Reading an action back

The host appends an action as one line, and the rebuilder reads one line back, with the fields that
`_tsv_sanitise` would have written, iff no field holds a CR LF pair: the pair is one character to the host
and a line end to the rebuilder (`action_reads_back_iff`).
-/

namespace VisitLogger

open Framing

/-! ## The two ways to sanitise -/

theorem tsvSanitise_eq {t : Text} (h : NoCrLf t) : tsvSanitise t = SnapshotMover.tsvSanitise t := by
  have hkeep : ∀ {b : Byte}, ¬b = cr → (if b = tab ∨ b = nl then space else b) ≠ cr :=
    fun hb => (clean_of_ne hb).2.2
  have hdrop : (if (cr : Byte) = tab ∨ cr = nl then space else cr) = cr := by decide
  unfold SnapshotMover.tsvSanitise
  fun_induction tsvSanitise t with
  | case1 => rfl
  | case2 => rfl
  | case3 b hb => simp [hkeep hb]
  | case4 t _ => exact absurd (List.prefix_append [cr, nl] t).isInfix h
  | case5 c t hc ih => rw [List.map_cons, List.filter_cons_of_neg (by simp [hdrop]), ih h.of_cons]
  | case6 b c t hb ih => rw [List.map_cons, List.filter_cons_of_pos (by simpa using hkeep hb), ih h.of_cons]

theorem nl_mem_tsvSanitise {t : Text} (h : ¬NoCrLf t) : nl ∈ tsvSanitise t := by
  fun_induction tsvSanitise t with
  | case1 => exact absurd (by decide) h
  | case2 => exact absurd (by decide) h
  | case3 b hb => exact absurd (fun hi => by simpa using hi.length_le) h
  | case4 t _ => simp
  | case5 c t hc ih =>
    refine ih fun hn => h fun hi => ?_
    rcases List.infix_cons_iff.mp hi with hp | hi
    · obtain ⟨-, hp⟩ := List.cons_prefix_cons.mp hp
      exact hc (List.cons_prefix_cons.mp hp).1.symm
    · exact hn hi
  | case6 b c t hb ih =>
    refine List.mem_cons_of_mem _ (ih fun hn => h fun hi => ?_)
    rcases List.infix_cons_iff.mp hi with hp | hi
    · exact hb (List.cons_prefix_cons.mp hp).1.symm
    · exact hn hi

theorem two_le_length_fileLines {t : Text} (h : nl ∈ t) : 2 ≤ (fileLines (t ++ [nl])).length := by
  obtain ⟨a, b, rfl⟩ := List.append_of_mem h
  rw [List.append_assoc, List.cons_append, fileLines_append, List.length_append]
  have hne : ∀ s : Text, 1 ≤ (fileLines (s ++ [nl])).length := by
    intro s
    rw [Nat.one_le_iff_ne_zero, ne_eq, List.length_eq_zero_iff, fileLines_eq_nil]
    simp
  exact Nat.add_le_add (hne a) (hne b)

/-! ## One line -/

namespace VisitLog

/-- What `appendAction` appends to the log. -/
def actionBytes (recordId : Text) (a : Action) : Text := actionLine recordId a ++ [nl]

end VisitLog

def HexDigits (t : Text) : Prop :=
  t.length = 32 ∧ ∀ b ∈ t, (48 ≤ b ∧ b ≤ 57) ∨ (97 ≤ b ∧ b ≤ 102) ∨ (65 ≤ b ∧ b ≤ 70)

instance (t : Text) : Decidable (HexDigits t) := inferInstanceAs (Decidable (_ ∧ _))

theorem HexDigits.clean {t : Text} (h : HexDigits t) : Clean t := by
  refine ⟨fun hb => ?_, fun hb => ?_, fun hb => ?_⟩ <;> exact absurd (h.2 _ hb) (by decide)

namespace VisitsRebuilder

/-- The fields as `_tsv_sanitise` has them. -/
def sanitised (a : Action) : Action :=
  ⟨SnapshotMover.tsvSanitise a.timestamp, SnapshotMover.tsvSanitise a.url,
    SnapshotMover.tsvSanitise a.title, a.tag, SnapshotMover.tsvSanitise a.filename⟩

/-- What is appended for an action is one line, and the line is the action to `_replay_one_file`. -/
def ReadsBack (recordId : Text) (a : Action) : Prop :=
  ∃ line, fileLines (VisitLog.actionBytes recordId a) = [line] ∧
    ∀ downloads s, replayLine downloads s line = replayAction s recordId (parsed (sanitised a))

variable {i : Text} {a : Action}

theorem parsed_sanitised (h : ∀ f ∈ VisitLog.actionFields i a, NoCrLf f) :
    parsed (VisitLog.sanitised a) = parsed (sanitised a) := by
  have hts := tsvSanitise_eq (h a.timestamp (by simp [VisitLog.actionFields]))
  have hurl := tsvSanitise_eq (h a.url (by simp [VisitLog.actionFields]))
  have htitle := tsvSanitise_eq (h a.title (by simp [VisitLog.actionFields]))
  unfold parsed VisitLog.sanitised sanitised
  dsimp only
  by_cases hev : a.tag = ascii "read" ∨ a.tag = ascii "skimmed"
  · have hne : a.tag ≠ [] := by
      intro hnil
      rw [hnil] at hev
      exact absurd hev (by decide)
    have hfile := tsvSanitise_eq (h a.filename (by simp [VisitLog.actionFields, hne, hev]))
    rw [if_pos hev, if_pos hev, hts, hurl, htitle, hfile]
  · rw [if_neg hev, if_neg hev, hts, hurl, htitle]

theorem splitTabs_actionLine (hi : Clean i) :
    ∃ rest, splitTabs (VisitLog.actionLine i a) = i :: rest := by
  have hsplit : splitTabs (VisitLog.actionLine i a) = (VisitLog.actionFields i a).map tsvSanitise := by
    refine splitTabs_join (fun f hf => ?_) ?_
    · obtain ⟨g, -, rfl⟩ := List.mem_map.mp hf
      exact tab_notMem_tsvSanitise g
    · rw [ne_eq, List.map_eq_nil_iff]
      exact VisitLog.actionFields_ne_nil i a
  rw [hsplit, VisitLog.actionFields, List.cons_append, List.map_cons, tsvSanitise_of_clean hi]
  exact ⟨_, rfl⟩

theorem looksLikeUuid_of_replayAction {line : Text} {rest : List Text} {b : Action}
    (hline : splitTabs line = i :: rest)
    (h : ∀ downloads s, replayLine downloads s line = replayAction s i b) : looksLikeUuid i = true := by
  by_contra hid
  have hleft : (replayLine [] ⟨Db.empty [], ∅, {}⟩ line).pending.lookup i = none := by
    unfold replayLine
    rw [hline]
    split
    · rfl
    · dsimp only
      rw [if_pos (by simp [hid])]
      rfl
  rw [h, replayAction, AList.lookup_insert] at hleft
  cases hleft

/-- **The rebuilder reads back what the host appended** for an action, iff no field has a CR LF pair and the record id
is in lower case. -/
theorem action_reads_back_iff (hi : HexDigits i) (ht : a.tag = [] ∨ a.tag ∈ validTags) :
    ReadsBack i a ↔ looksLikeUuid i = true ∧ ∀ f ∈ VisitLog.actionFields i a, NoCrLf f := by
  constructor
  · intro ⟨line, hlines, hread⟩
    have hfields : ∀ f ∈ VisitLog.actionFields i a, NoCrLf f := by
      intro f hf
      by_contra hpair
      have hnl : nl ∈ VisitLog.actionLine i a :=
        mem_joinTabs_of_mem (nl_mem_tsvSanitise hpair) (List.mem_map_of_mem hf)
      have htwo := two_le_length_fileLines hnl
      rw [← VisitLog.actionBytes, hlines] at htwo
      simp at htwo
    refine ⟨?_, hfields⟩
    have hclean : nl ∉ VisitLog.actionLine i a ∧ cr ∉ VisitLog.actionLine i a := by
      refine joinTabs_line fun f hf => ?_
      obtain ⟨g, hg, rfl⟩ := List.mem_map.mp hf
      exact tsvSanitise_clean (hfields g hg)
    rw [VisitLog.actionBytes, fileLines_line hclean] at hlines
    obtain rfl := List.singleton_inj.mp hlines
    obtain ⟨rest, hrest⟩ := splitTabs_actionLine (a := a) hi.clean
    exact looksLikeUuid_of_replayAction hrest hread
  · intro ⟨hid, hfields⟩
    have hwf := Entry.wf_action hid ht hfields
    refine ⟨VisitLog.actionLine i a, ?_, fun downloads s => ?_⟩
    · rw [VisitLog.actionBytes, Entry.line_action hid ht]
      exact fileLines_line (Entry.line_noNl hwf)
    · rw [Entry.line_action hid ht, replayLine_entry downloads hwf, replayEntry, parsed_sanitised hfields]

def zeros : Text := List.replicate 32 0x30

/-- A title with a tab, a line break and a carriage return of its own. -/
theorem action_reads_back_iff_visit :
    ReadsBack zeros ⟨ascii "t", ascii "u", ascii "a\tb\nc\rd", [], []⟩ :=
  (action_reads_back_iff (by decide +kernel) (Or.inl rfl)).mpr ⟨by decide +kernel, by decide +kernel⟩

/-- A title with a CR LF pair tears its line. -/
theorem crlf_title_torn : ¬ReadsBack zeros ⟨ascii "t", ascii "u", ascii "a\r\nb", [], []⟩ := by
  intro ⟨line, hlines, _⟩
  have htwo : fileLines (VisitLog.actionBytes zeros ⟨ascii "t", ascii "u", ascii "a\r\nb", [], []⟩) =
      [zeros ++ ascii "\tt\tu\ta", ascii "b"] := by
    decide +kernel
  rw [htwo] at hlines
  simp at hlines

end VisitsRebuilder

end VisitLogger
