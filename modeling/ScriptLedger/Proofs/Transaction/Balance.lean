import Mathlib.Algebra.Ring.Nat
import ScriptLedger.Proofs.Account.Change
import ScriptLedger.Proofs.Sequencing
import ScriptLedger.Transaction.Basic

/-!
# Bodies that conserve value

A body is accepted just if its inputs are worth its outputs and its fee, as numbers without
a bound; besides, it pays somebody, the zero address is used for no value, and each side has
a sum among the words.  A body that is not accepted is refused for the first of these rules
that it violates.

The sum of a side is taken value by value and given up as soon as it is no word.  Nothing is
taken away from a sum, so this is the same as cutting the exact sum back to a word once, at
the end.

## Main results

* `TransactionData.checkedSum_eq` — a sum of words is the exact sum, cut back to a word.
* `TransactionData.validate_eq_ok_iff`, `TransactionData.validate_eq_error_iff` — when a body
  follows its rules, and which one it violates first.
* `TransactionData.make_exact` — which bodies can be made, and why others are refused.
-/

namespace ScriptLedger

open Sequencing

variable {e : RecordError} {side : Side}

/-- Only numbers that are too great for a word have none. -/
theorem Word.unsigned?_eq_none_iff {n : Nat} : Word.unsigned? n = none ↔ 2 ^ 64 ≤ n := by
  constructor
  · intro hnone
    refine Decidable.byContradiction fun hlt => ?_
    obtain ⟨w, hw⟩ := Word.exists_unsigned? (i := n) (Int.natCast_nonneg n)
      (Int.ofNat_lt.mpr (Nat.lt_of_not_le hlt))
    rw [hnone] at hw
    cases hw
  · intro hle
    rw [Option.eq_none_iff_forall_ne_some]
    intro w hw
    have hvalue := Word.unsigned?_eq_some_iff.mp hw
    have hlt := w.toNat_lt
    omega

/-- A word is what is left of another one exactly if the two sum up to it. -/
theorem Word.unsigned?_sub_eq_some_iff {total spent rest : UInt64} :
    Word.unsigned? ((total.toNat : Int) - spent.toNat) = some rest ↔
      total.toNat = spent.toNat + rest.toNat := by
  rw [Word.unsigned?_eq_some_iff]
  omega

/-- The zero address is used for a value. -/
def Input.Misused (input : Input) : Prop := input.address = Blob.zero ∧ input.value ≠ 0

namespace TransactionData

/-! ## Sums -/

/-- The word of a sum, or the failure of its side. -/
def cut (side : Side) (total : Nat) : Except RecordError UInt64 :=
  match Word.unsigned? total with
  | some sum => .ok sum
  | none => .error (.valueOverflow side)

theorem cut_eq_ok_iff {total : Nat} {sum : UInt64} :
    cut side total = .ok sum ↔ sum.toNat = total := by
  unfold cut
  cases hword : Word.unsigned? total with
  | none =>
      have hle := Word.unsigned?_eq_none_iff.mp hword
      have hlt := sum.toNat_lt
      simp only [reduceCtorEq, false_iff]
      omega
  | some word =>
      have hvalue := Word.unsigned?_eq_some_iff.mp hword
      simp only [Except.ok.injEq, ← UInt64.toNat_inj]
      omega

theorem cut_eq_error_iff {total : Nat} :
    cut side total = .error e ↔ 2 ^ 64 ≤ total ∧ e = .valueOverflow side := by
  rw [← Word.unsigned?_eq_none_iff]
  unfold cut
  cases Word.unsigned? total <;> simp [eq_comm]

/-- A sum that is given up when it is no word is the exact sum, cut back once: what is added
later makes it no smaller. -/
theorem checkedSum_eq (side : Side) (values : List UInt64) :
    checkedSum side values = cut side (values.map UInt64.toNat).sum := by
  have hfrom : ∀ start : UInt64,
      values.foldlM (fun sum value => cut side (sum.toNat + value.toNat)) start =
        cut side (start.toNat + (values.map UInt64.toNat).sum) := by
    induction values with
    | nil => exact fun start => (cut_eq_ok_iff.mpr rfl).symm
    | cons value rest ih =>
        intro start
        rw [List.foldlM_cons, List.map_cons, List.sum_cons, ← Nat.add_assoc]
        cases hnext : cut side (start.toNat + value.toNat) with
        | ok next =>
            rw [← cut_eq_ok_iff.mp hnext]
            exact ih next
        | error cause =>
            obtain ⟨hle, rfl⟩ := cut_eq_error_iff.mp hnext
            exact (cut_eq_error_iff.mpr ⟨Nat.le_add_right_of_le hle, rfl⟩).symm
  have hzero := hfrom 0
  rwa [UInt64.toNat_zero, Nat.zero_add] at hzero

/-! ## Null inputs -/

theorem checkNullInputs_cons (index : Nat) (input : Input) (rest : List Input) :
    (input.Misused ∧ checkNullInputs index (input :: rest) =
      .error (.invalidNullInput index input.value)) ∨
    (¬ input.Misused ∧ checkNullInputs index (input :: rest) =
      checkNullInputs (index + 1) rest) := by
  have hiff : (input.address.isZero ∧ input.value ≠ 0) ↔ input.Misused := by
    rw [Input.Misused, Blob.isZero_iff]
  by_cases hmisused : input.Misused
  · exact Or.inl ⟨hmisused, if_pos (hiff.mpr hmisused)⟩
  · exact Or.inr ⟨hmisused, if_neg (mt hiff.mp hmisused)⟩

theorem checkNullInputs_eq_ok_iff {index : Nat} {inputs : List Input} :
    checkNullInputs index inputs = .ok () ↔ ∀ input ∈ inputs, ¬ input.Misused := by
  induction inputs generalizing index with
  | nil => exact iff_of_true rfl fun _ hmem => absurd hmem List.not_mem_nil
  | cons input rest ih =>
      rw [List.forall_mem_cons]
      rcases checkNullInputs_cons index input rest with ⟨hmisused, heq⟩ | ⟨hmisused, heq⟩
      · rw [heq]
        exact iff_of_false nofun fun hall => hall.1 hmisused
      · rw [heq, ih]
        exact ⟨fun hall => ⟨hmisused, hall⟩, And.right⟩

/-- The first misused input is the one that is refused. -/
theorem checkNullInputs_eq_error_iff {index : Nat} {inputs : List Input} :
    checkNullInputs index inputs = .error e ↔ ∃ before input after,
      inputs = before ++ input :: after ∧ (∀ other ∈ before, ¬ other.Misused) ∧ input.Misused ∧
        e = .invalidNullInput (index + before.length) input.value := by
  induction inputs generalizing index with
  | nil => exact iff_of_false nofun fun ⟨before, _, _, h, _⟩ => by cases before <;> cases h
  | cons first rest ih =>
      rcases checkNullInputs_cons index first rest with ⟨hmisused, heq⟩ | ⟨hmisused, heq⟩
      · rw [heq]
        constructor
        · rintro ⟨⟩
          exact ⟨[], first, rest, rfl, fun _ hmem => absurd hmem List.not_mem_nil, hmisused, rfl⟩
        · rintro ⟨before, input, after, hsplit, hbefore, -, rfl⟩
          cases before with
          | nil =>
              cases hsplit
              rfl
          | cons other before =>
              cases hsplit
              exact absurd hmisused (hbefore first List.mem_cons_self)
      · rw [heq, ih]
        constructor
        · rintro ⟨before, input, after, rfl, hbefore, hinput, rfl⟩
          refine ⟨first :: before, input, after, rfl,
            List.forall_mem_cons.mpr ⟨hmisused, hbefore⟩, hinput, ?_⟩
          rw [List.length_cons, Nat.add_assoc, Nat.add_comm 1]
        · rintro ⟨before, input, after, hsplit, hbefore, hinput, rfl⟩
          cases before with
          | nil =>
              cases hsplit
              exact absurd hinput hmisused
          | cons other before =>
              cases hsplit
              refine ⟨before, input, after, rfl, (List.forall_mem_cons.mp hbefore).2, hinput, ?_⟩
              rw [List.length_cons, Nat.add_assoc, Nat.add_comm 1]

/-! ## Rules -/

/-- What the inputs are worth. -/
def inputSum (data : TransactionData) : Nat := (data.inputs.map fun input => input.value.toNat).sum

/-- What the outputs are worth. -/
def outputSum (data : TransactionData) : Nat :=
  (data.outputs.map fun output => output.value.toNat).sum

/-- The body follows all rules. -/
structure Balanced (data : TransactionData) : Prop where
  pays : data.outputs ≠ []
  addressed : ∀ input ∈ data.inputs, ¬ input.Misused
  inputs_lt : data.inputSum < 2 ^ 64
  outputs_lt : data.outputSum < 2 ^ 64
  balance : data.inputSum = data.outputSum + data.fee.toNat

/-- The body violates a rule and none of those before it. -/
inductive Refused (data : TransactionData) : RecordError → Prop
  | noOutputs (hnone : data.outputs = []) : Refused data .noOutputs
  | nullInput {before after : List Input} {input : Input} (hpays : data.outputs ≠ [])
      (hinputs : data.inputs = before ++ input :: after) (hmisused : input.Misused)
      (hfirst : ∀ other ∈ before, ¬ other.Misused) :
      Refused data (.invalidNullInput before.length input.value)
  | inputOverflow (hpays : data.outputs ≠ [])
      (haddressed : ∀ input ∈ data.inputs, ¬ input.Misused) (hinputs : 2 ^ 64 ≤ data.inputSum) :
      Refused data (.valueOverflow .inputs)
  | outputOverflow (hpays : data.outputs ≠ [])
      (haddressed : ∀ input ∈ data.inputs, ¬ input.Misused) (hinputs : data.inputSum < 2 ^ 64)
      (houtputs : 2 ^ 64 ≤ data.outputSum) : Refused data (.valueOverflow .outputs)
  | feeMismatch {inputs outputs : UInt64} (hpays : data.outputs ≠ [])
      (haddressed : ∀ input ∈ data.inputs, ¬ input.Misused)
      (hinputs : inputs.toNat = data.inputSum) (houtputs : outputs.toNat = data.outputSum)
      (hfee : data.inputSum ≠ data.outputSum + data.fee.toNat) :
      Refused data (.feeMismatch inputs outputs data.fee)

variable {data : TransactionData}

theorem checkedSum_inputs (data : TransactionData) :
    checkedSum .inputs (data.inputs.map (·.value)) = cut .inputs data.inputSum := by
  rw [checkedSum_eq, List.map_map]
  rfl

theorem checkedSum_outputs (data : TransactionData) :
    checkedSum .outputs (data.outputs.map (·.value)) = cut .outputs data.outputSum := by
  rw [checkedSum_eq, List.map_map]
  rfl

/-- Once a body pays somebody, what is left of the check is the inputs, the sums and the fee. -/
theorem validate_of_pays (hpays : data.outputs ≠ []) :
    data.validate = (do
      checkNullInputs 0 data.inputs
      let inputs ← cut .inputs data.inputSum
      let outputs ← cut .outputs data.outputSum
      if inputs.toNat ≠ outputs.toNat + data.fee.toNat then
        throw (.feeMismatch inputs outputs data.fee)) := by
  unfold validate
  rw [checkedSum_inputs, checkedSum_outputs, if_neg (by rwa [List.isEmpty_iff])]

theorem validate_of_nil (hnone : data.outputs = []) : data.validate = .error .noOutputs := by
  unfold validate
  rw [hnone]
  rfl

/-- A body follows its rules just if it conserves value. -/
theorem validate_eq_ok_iff : data.validate = .ok () ↔ data.Balanced := by
  by_cases hpays : data.outputs = []
  · rw [validate_of_nil hpays]
    exact iff_of_false nofun fun h => h.pays hpays
  rw [validate_of_pays hpays]
  constructor
  · intro h
    obtain ⟨_, hnull, h⟩ := except_bind_eq_ok.mp h
    obtain ⟨inputs, hinputs, h⟩ := except_bind_eq_ok.mp h
    obtain ⟨outputs, houtputs, h⟩ := except_bind_eq_ok.mp h
    have hin := cut_eq_ok_iff.mp hinputs
    have hout := cut_eq_ok_iff.mp houtputs
    by_cases hfee : inputs.toNat ≠ outputs.toNat + data.fee.toNat
    · rw [if_pos hfee] at h
      cases h
    · refine ⟨hpays, checkNullInputs_eq_ok_iff.mp hnull, hin ▸ inputs.toNat_lt,
        hout ▸ outputs.toNat_lt, ?_⟩
      rw [← hin, ← hout]
      exact Decidable.not_not.mp hfee
  · intro h
    have hinputs : cut .inputs data.inputSum = .ok (UInt64.ofNat data.inputSum) :=
      cut_eq_ok_iff.mpr (UInt64.toNat_ofNat_of_lt' h.inputs_lt)
    have houtputs : cut .outputs data.outputSum = .ok (UInt64.ofNat data.outputSum) :=
      cut_eq_ok_iff.mpr (UInt64.toNat_ofNat_of_lt' h.outputs_lt)
    refine except_bind_eq_ok.mpr ⟨(), checkNullInputs_eq_ok_iff.mpr h.addressed, ?_⟩
    refine except_bind_eq_ok.mpr ⟨_, hinputs, except_bind_eq_ok.mpr ⟨_, houtputs, ?_⟩⟩
    rw [if_neg]
    · rfl
    · rw [cut_eq_ok_iff.mp hinputs, cut_eq_ok_iff.mp houtputs, Decidable.not_not]
      exact h.balance

/-- A body that does not is refused for the first rule that it violates. -/
theorem validate_eq_error_iff : data.validate = .error e ↔ data.Refused e := by
  by_cases hpays : data.outputs = []
  · rw [validate_of_nil hpays]
    constructor
    · rintro ⟨⟩
      exact .noOutputs hpays
    · intro h
      cases h with
      | noOutputs => rfl
      | nullInput hpays' | inputOverflow hpays' | outputOverflow hpays' | feeMismatch hpays' =>
          exact absurd hpays hpays'
  rw [validate_of_pays hpays]
  constructor
  · intro h
    rcases except_bind_eq_error.mp h with hnull | ⟨_, hnull, h⟩
    · obtain ⟨before, input, after, hinputs, hbefore, hmisused, rfl⟩ :=
        checkNullInputs_eq_error_iff.mp hnull
      rw [Nat.zero_add]
      exact .nullInput hpays hinputs hmisused hbefore
    have haddressed := checkNullInputs_eq_ok_iff.mp hnull
    rcases except_bind_eq_error.mp h with hinputs | ⟨inputs, hinputs, h⟩
    · obtain ⟨hle, rfl⟩ := cut_eq_error_iff.mp hinputs
      exact .inputOverflow hpays haddressed hle
    have hin := cut_eq_ok_iff.mp hinputs
    rcases except_bind_eq_error.mp h with houtputs | ⟨outputs, houtputs, h⟩
    · obtain ⟨hle, rfl⟩ := cut_eq_error_iff.mp houtputs
      exact .outputOverflow hpays haddressed (hin ▸ inputs.toNat_lt) hle
    have hout := cut_eq_ok_iff.mp houtputs
    by_cases hfee : inputs.toNat ≠ outputs.toNat + data.fee.toNat
    · rw [if_pos hfee] at h
      cases h
      exact .feeMismatch hpays haddressed hin hout (hin ▸ hout ▸ hfee)
    · rw [if_neg hfee] at h
      cases h
  · intro h
    have hnull : (∀ input ∈ data.inputs, ¬ input.Misused) →
        checkNullInputs 0 data.inputs = .ok () := checkNullInputs_eq_ok_iff.mpr
    cases h with
    | noOutputs hnone => exact absurd hnone hpays
    | @nullInput before after input _ hinputs hmisused hfirst =>
        refine except_bind_eq_error.mpr (Or.inl (checkNullInputs_eq_error_iff.mpr ?_))
        exact ⟨before, input, after, hinputs, hfirst, hmisused, by rw [Nat.zero_add]⟩
    | inputOverflow _ haddressed hle =>
        refine except_bind_eq_error.mpr (Or.inr ⟨(), hnull haddressed, ?_⟩)
        exact except_bind_eq_error.mpr (Or.inl (cut_eq_error_iff.mpr ⟨hle, rfl⟩))
    | outputOverflow _ haddressed hlt hle =>
        refine except_bind_eq_error.mpr (Or.inr ⟨(), hnull haddressed, ?_⟩)
        have hinputs : cut .inputs data.inputSum = .ok (UInt64.ofNat data.inputSum) :=
          cut_eq_ok_iff.mpr (UInt64.toNat_ofNat_of_lt' hlt)
        refine except_bind_eq_error.mpr (Or.inr ⟨_, hinputs, ?_⟩)
        exact except_bind_eq_error.mpr (Or.inl (cut_eq_error_iff.mpr ⟨hle, rfl⟩))
    | @feeMismatch inputs outputs _ haddressed hin hout hfee =>
        refine except_bind_eq_error.mpr (Or.inr ⟨(), hnull haddressed, ?_⟩)
        refine except_bind_eq_error.mpr (Or.inr ⟨inputs, cut_eq_ok_iff.mpr hin, ?_⟩)
        refine except_bind_eq_error.mpr (Or.inr ⟨outputs, cut_eq_ok_iff.mpr hout, ?_⟩)
        rw [if_pos (by rwa [hin, hout])]
        rfl

/-- For all inputs and outputs, every fee and every nonce: the body with these fields is made
just if it conserves value, and otherwise it is refused for the first rule that it violates.
Whether two sums differ by the fee may as well be asked of a subtraction of words that gives up
below zero. -/
theorem make_exact (inputs : List Input) (outputs : List Output) (fee : UInt64) (nonce : Hash) :
    (∀ data, make inputs outputs fee nonce = .ok data ↔
      data = { fee, inputs, nonce, outputs } ∧ data.Balanced) ∧
    (∀ e, make inputs outputs fee nonce = .error e ↔
      Refused { fee, inputs, nonce, outputs } e) ∧
    (∀ total spent : UInt64, Word.unsigned? ((total.toNat : Int) - spent.toNat) = some fee ↔
      total.toNat = spent.toNat + fee.toNat) := by
  refine ⟨fun data => ?_, fun e => ?_, fun _ _ => Word.unsigned?_sub_eq_some_iff⟩
  · rw [make, except_map_eq_ok]
    constructor
    · rintro ⟨⟨⟩, hvalid, rfl⟩
      exact ⟨rfl, validate_eq_ok_iff.mp hvalid⟩
    · rintro ⟨rfl, h⟩
      exact ⟨(), validate_eq_ok_iff.mpr h, rfl⟩
  · rw [make, except_map_eq_error, validate_eq_error_iff]

end TransactionData

end ScriptLedger
