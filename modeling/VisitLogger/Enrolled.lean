import VisitLogger.Auth

/-!
# Enrolling machines

The tools keep one row for each machine id; the server looks a row up by its
certificate. A machine that is enrolled with a certificate of another one is not
found (`renamed_laptop`). In the sequences where no certificate is enrolled while
another machine has it, and in no others, a lookup finds the machine that was
enrolled last with the certificate (`lookup_latest_iff`).
-/

namespace VisitLogger

namespace Auth

/-! ## The tools -/

/-- `INSERT OR REPLACE`: the new row comes last. -/
def enroll (table : List EnrolledMachine) (machineId certSha256 : Text) : List EnrolledMachine :=
  (table.filter fun r => r.machineId ≠ some machineId) ++ [⟨some machineId, certSha256⟩]

def revoke (table : List EnrolledMachine) (machineId : Text) : List EnrolledMachine :=
  table.filter fun r => r.machineId ≠ some machineId

/-- A call of `enroll_machine.py` or of the program that `manage_sync_server.py`
runs on the VM; both run the same statements. -/
inductive Op where
  | enroll (machineId certSha256 : Text)
  | revoke (machineId : Text)
  deriving DecidableEq, Repr

def Op.apply (table : List EnrolledMachine) : Op → List EnrolledMachine
  | .enroll machineId certSha256 => Auth.enroll table machineId certSha256
  | .revoke machineId => Auth.revoke table machineId

def enrolled (ops : List Op) : List EnrolledMachine := ops.foldl Op.apply []

def Op.concerns (machineId certSha256 : Text) : Op → Bool
  | .enroll m fp => m = machineId || fp = certSha256
  | .revoke m => m = machineId

def latest (ops : List Op) (machineId certSha256 : Text) : Option Op :=
  (ops.filter (Op.concerns machineId certSha256)).getLast?

/-- No machine but the one that is enrolled has the certificate. -/
def Free (table : List EnrolledMachine) : Op → Prop
  | .enroll machineId certSha256 => ∀ r ∈ table, r.certSha256 = certSha256 → r.machineId = some machineId
  | .revoke _ => True

structure Served (ops : List Op) : Prop where
  held : ∀ r ∈ enrolled ops, ∀ r' ∈ enrolled ops, r.certSha256 = r'.certSha256 → r.machineId = r'.machineId
  found : ∀ machineId fp, machineId ≠ [] →
    (lookup none (enrolled ops) fp = .ok machineId ↔ latest ops machineId fp = some (.enroll machineId fp))
  admitted : ∀ cfg machineId leaf chain chains, machineId ≠ [] →
    latest ops machineId (fingerprint cfg leaf) = some (.enroll machineId (fingerprint cfg leaf)) →
    resolveID cfg none (enrolled ops) (some ⟨some (.tlsInfo ((leaf :: chain) :: chains))⟩) = .ok machineId

/-! ## The table -/

variable {ops : List Op} {op : Op} {machineId fp : Text}

theorem enrolled_concat (ops : List Op) (op : Op) : enrolled (ops ++ [op]) = op.apply (enrolled ops) := by
  rw [enrolled, List.foldl_append]
  rfl

theorem latest_concat (ops : List Op) (op : Op) (machineId fp : Text) :
    latest (ops ++ [op]) machineId fp =
      if op.concerns machineId fp then some op else latest ops machineId fp := by
  unfold latest
  rw [List.filter_append]
  by_cases hop : op.concerns machineId fp
  · rw [if_pos hop, List.filter_cons_of_pos hop, List.filter_nil, List.getLast?_concat]
  · rw [if_neg hop, List.filter_cons_of_neg hop, List.filter_nil, List.append_nil]

theorem mem_enroll {table : List EnrolledMachine} {r : EnrolledMachine} :
    r ∈ enroll table machineId fp ↔ (r ∈ table ∧ r.machineId ≠ some machineId) ∨ r = ⟨some machineId, fp⟩ := by
  simp [enroll]

theorem mem_revoke {table : List EnrolledMachine} {r : EnrolledMachine} :
    r ∈ revoke table machineId ↔ r ∈ table ∧ r.machineId ≠ some machineId := by
  simp [revoke]

theorem machineId_some {r : EnrolledMachine} (hr : r ∈ enrolled ops) :
    ∃ machineId, r.machineId = some machineId := by
  induction ops using List.reverseRecOn with
  | nil => cases hr
  | append_singleton ops op ih =>
    rw [enrolled_concat] at hr
    cases op with
    | enroll m f =>
      rcases mem_enroll.mp hr with ⟨hr, -⟩ | rfl
      · exact ih hr
      · exact ⟨m, rfl⟩
    | revoke m => exact ih (mem_revoke.mp hr).1

theorem lookup_iff_mem (hm : machineId ≠ [])
    (hheld : ∀ r ∈ enrolled ops, ∀ r' ∈ enrolled ops, r.certSha256 = r'.certSha256 →
      r.machineId = r'.machineId) :
    lookup none (enrolled ops) fp = .ok machineId ↔ ⟨some machineId, fp⟩ ∈ enrolled ops := by
  unfold lookup
  dsimp only
  cases hf : (enrolled ops).find? fun m => m.certSha256 = fp with
  | none =>
    have hno := List.find?_eq_none.mp hf
    refine iff_of_false (fun h => hm (Except.ok.inj h).symm) fun h => ?_
    exact hno _ h (decide_eq_true rfl)
  | some r =>
    obtain ⟨id, cert⟩ := r
    have hmem := List.mem_of_find?_eq_some hf
    have hcert : cert = fp := by simpa using List.find?_some hf
    obtain ⟨id', hid⟩ := machineId_some hmem
    dsimp only at hid
    rw [hid, hcert] at hmem ⊢
    dsimp only
    constructor
    · intro h
      rwa [← Except.ok.inj h]
    · intro h
      rw [Option.some.inj (hheld _ hmem _ h rfl)]

/-! ## The latest call -/

theorem served_nil : Served [] where
  held _ h := by cases h
  found machineId fp hm := by
    refine iff_of_false (fun h => hm (Except.ok.inj h).symm) fun h => ?_
    cases h
  admitted _ _ _ _ _ _ h := by cases h

theorem held_concat (hs : Served ops) (hf : Free (enrolled ops) op) :
    ∀ r ∈ enrolled (ops ++ [op]), ∀ r' ∈ enrolled (ops ++ [op]), r.certSha256 = r'.certSha256 →
      r.machineId = r'.machineId := by
  intro r hr r' hr' hcert
  rw [enrolled_concat] at hr hr'
  cases op with
  | enroll m f =>
    rcases mem_enroll.mp hr with ⟨hr, hm⟩ | rfl
    · rcases mem_enroll.mp hr' with ⟨hr', hm'⟩ | rfl
      · exact hs.held r hr r' hr' hcert
      · exact hf r hr hcert
    · rcases mem_enroll.mp hr' with ⟨hr', hm'⟩ | rfl
      · exact (hf r' hr' hcert.symm).symm
      · rfl
  | revoke m => exact hs.held r (mem_revoke.mp hr).1 r' (mem_revoke.mp hr').1 hcert

theorem mem_concat (hf : Free (enrolled ops) op)
    (ih : ⟨some machineId, fp⟩ ∈ enrolled ops ↔ latest ops machineId fp = some (.enroll machineId fp)) :
    ⟨some machineId, fp⟩ ∈ enrolled (ops ++ [op]) ↔
      latest (ops ++ [op]) machineId fp = some (.enroll machineId fp) := by
  rw [enrolled_concat, latest_concat]
  cases op with
  | enroll m f =>
    rw [Op.apply, mem_enroll]
    by_cases hm : m = machineId
    · rw [hm, if_pos (by simp [Op.concerns])]
      simp [eq_comm]
    · by_cases hfp : f = fp
      · -- another machine gets the certificate, which this one does not have
        rw [if_pos (by simp [Op.concerns, hfp])]
        refine iff_of_false ?_ fun h => ?_
        · rintro (⟨hmem, hne⟩ | heq)
          · exact hne (hf _ hmem hfp.symm)
          · cases heq
            exact hm rfl
        · cases h
          exact hm rfl
      · rw [if_neg (by simp [Op.concerns, hm, hfp]), ← ih]
        constructor
        · rintro (⟨hmem, -⟩ | heq)
          · exact hmem
          · cases heq
            exact absurd rfl hm
        · intro hmem
          exact Or.inl ⟨hmem, fun h => hm (Option.some.inj h).symm⟩
  | revoke m =>
    rw [Op.apply, mem_revoke]
    by_cases hm : m = machineId
    · rw [hm, if_pos (by simp [Op.concerns])]
      refine iff_of_false (fun h => h.2 rfl) fun h => ?_
      cases h
    · rw [if_neg (by simp [Op.concerns, hm]), ← ih]
      exact ⟨And.left, fun hmem => ⟨hmem, fun h => hm (Option.some.inj h).symm⟩⟩

theorem resolveID_of_lookup {cfg : Config} {table : List EnrolledMachine} {leaf : Text} (hm : machineId ≠ [])
    (hl : lookup none table (fingerprint cfg leaf) = .ok machineId) (chain : List Text)
      (chains : List (List Text)) :
    resolveID cfg none table (some ⟨some (.tlsInfo ((leaf :: chain) :: chains))⟩) = .ok machineId := by
  simp only [resolveID, hl, if_neg hm]

theorem served_concat (hs : Served ops) (hf : Free (enrolled ops) op) : Served (ops ++ [op]) := by
  have hheld := held_concat hs hf
  have hfound : ∀ machineId fp, machineId ≠ [] → (lookup none (enrolled (ops ++ [op])) fp = .ok machineId ↔
      latest (ops ++ [op]) machineId fp = some (.enroll machineId fp)) := by
    intro machineId fp hm
    rw [lookup_iff_mem hm hheld]
    refine mem_concat hf ?_
    rw [← lookup_iff_mem hm hs.held]
    exact hs.found machineId fp hm
  exact ⟨hheld, hfound, fun cfg m leaf chain chains hm hl =>
    resolveID_of_lookup hm ((hfound _ _ hm).mpr hl) chain chains⟩

theorem served_of_free (h : ∀ before op after, ops = before ++ op :: after →
    Free (enrolled before) op) : Served ops := by
  induction ops using List.reverseRecOn with
  | nil => exact served_nil
  | append_singleton ops op ih =>
    refine served_concat (ih fun before op' after he => ?_) (h ops op [] rfl)
    exact h before op' (after ++ [op]) (by rw [he, List.append_assoc, List.cons_append])

/-- A certificate that another machine has is then held by two. -/
theorem free_of_held (hs : Served (ops ++ [op])) : Free (enrolled ops) op := by
  cases op with
  | enroll m f =>
    intro r hr hcert
    by_contra hm
    have hheld := hs.held
    rw [enrolled_concat] at hheld
    exact hm (hheld r (mem_enroll.mpr (Or.inl ⟨hr, hm⟩)) ⟨some m, f⟩ (mem_enroll.mpr (Or.inr rfl)) hcert)
  | revoke m => trivial

/-- **The certificate of a laptop.** After every call the lookups agree with the
latest calls if and only if each call that enrolls a machine does so with a
certificate that no other machine has. -/
theorem lookup_latest_iff (ops : List Op) :
    (∀ before after, ops = before ++ after → Served before) ↔
      ∀ before op after, ops = before ++ op :: after → Free (enrolled before) op := by
  constructor
  · intro h before op after he
    exact free_of_held (h (before ++ [op]) after (by rw [he, List.append_assoc, List.singleton_append]))
  · intro h before after he
    refine served_of_free fun before' op after' he' => ?_
    exact h before' op (after' ++ after) (by rw [he, he', List.append_assoc, List.cons_append])

/-- A laptop that is enrolled again under a new id is still found under the old one. -/
theorem renamed_laptop : ¬ ∀ ops : List Op, Served ops := by
  intro h
  have hf := (h [.enroll (ascii "old-name") (ascii "ab12"), .enroll (ascii "new-name") (ascii "ab12")]).found
    (ascii "new-name") (ascii "ab12") (by decide)
  exact absurd (hf.mpr (by decide)) (by decide)

end Auth

end VisitLogger
