import Mathlib.Data.Rat.Floor
import Mathlib.Tactic.Ring
import ScriptLedger.Proofs.Machine.StackLimits
import ScriptLedger.Proofs.Machine.Stretches

/-!
# Arithmetic of scripts

A script computes with words, and a result is the exact one or there is none.  Division is
the only operation that is put together from several operations on words: a word is divided
toward zero, and where something is left over and the signs differ, the quotient is lowered
by one and the remainder is raised by the divisor.  None of these operations wraps around,
and together they give the greatest whole number below the quotient of rational numbers, with
the remainder that belongs to it.

There is one exception.  The least word divided by minus one leaves no remainder, but its
quotient is no word; then the machine has no remainder either.

## Main results

* `Word.exact_of_divides` — no operation on words in a division wraps around.
* `BinaryOp.eval_div`, `BinaryOp.eval_mod` — what the machine divides is what the operations
  on words come to.
* `ArithOp.Exact`, `Machine.step_arith_exact` — the six instructions of arithmetic push the
  exact result, or fail if there is none.
* `Machine.exists_step_mod_undefined` — the exception.
-/

namespace ScriptLedger

open Sequencing Exec

/-! ## Division of whole numbers -/

namespace Word

/-- The greatest whole number below a quotient is the quotient toward zero, or one less if
something is left over and the signs differ. -/
theorem fdiv_eq_ite {a b : Int} (hb : b ≠ 0) :
    a.fdiv b = if a.tmod b ≠ 0 ∧ (a < 0 ↔ ¬b < 0) then a.tdiv b - 1 else a.tdiv b := by
  have hdvd : b ∣ a ↔ a.tmod b = 0 := Int.dvd_iff_tmod_eq_zero
  rw [Int.fdiv_eq_tdiv]
  by_cases hrest : a.tmod b = 0
  · simp [hdvd, hrest]
  rcases Int.lt_or_gt_of_ne hb with hneg | hpos
  · have hsign : b.sign = -1 := Int.sign_eq_neg_one_of_neg hneg
    by_cases ha : 0 ≤ a <;>
      simp [hdvd, hrest, ha, hneg, hsign, Int.not_le.mpr hneg, ← Int.not_le]
  · have hsign : b.sign = 1 := Int.sign_eq_one_of_pos hpos
    by_cases ha : 0 ≤ a <;> simp [hdvd, hrest, ha, hpos.le, hsign]

theorem fdiv_eq_floor_of_pos {a b : Int} (hb : 0 < b) : a.fdiv b = ⌊(a / b : ℚ)⌋ := by
  lift b to Nat using hb.le
  rw [Int.fdiv_eq_ediv_of_nonneg a hb.le]
  exact (Rat.floor_intCast_div_natCast a b).symm

/-- It is the greatest whole number below the quotient of rational numbers, as its name says. -/
theorem fdiv_eq_floor {a b : Int} (hb : b ≠ 0) : a.fdiv b = ⌊(a / b : ℚ)⌋ := by
  rcases Int.lt_or_gt_of_ne hb with hneg | hpos
  · rw [← Int.neg_fdiv_neg, fdiv_eq_floor_of_pos (by omega)]
    push_cast
    rw [neg_div_neg_eq]
  · exact fdiv_eq_floor_of_pos hpos

/-- A remainder of division toward zero has the sign of what was divided, and is smaller than
the divisor. -/
theorem tmod_bounds {a b : Int} (hb : b ≠ 0) :
    (a.tmod b).natAbs < b.natAbs ∧ (0 ≤ a → 0 ≤ a.tmod b) ∧ (a ≤ 0 → a.tmod b ≤ 0) := by
  refine ⟨?_, Int.tmod_nonneg b, fun ha => ?_⟩
  · rw [Int.natAbs_tmod]
    exact Nat.mod_lt _ (by omega)
  · have hopposite := Int.tmod_nonneg b (Int.neg_nonneg_of_nonpos ha)
    rw [Int.neg_tmod] at hopposite
    omega

/-- A quotient of division toward zero that leaves something is at most half of what was
divided. -/
theorem natAbs_tdiv_le {a b : Int} (hb : b ≠ 0) (hrest : a.tmod b ≠ 0) :
    (a.tdiv b).natAbs ≤ a.natAbs / 2 := by
  have hsmall := (tmod_bounds (a := a) hb).1
  rw [Int.natAbs_tdiv]
  exact Nat.div_le_div_left (by omega) (by decide)

/-! ## Division of words -/

/-- Two words can be divided: the divisor is not zero, and the quotient is a word. -/
def Divides (a b : Int64) : Prop := b ≠ 0 ∧ ¬(a = Int64.minValue ∧ b = -1)

/-- Something is left over, and the signs of both words differ. -/
def Lowers (a b : Int64) : Prop := a % b ≠ 0 ∧ (a < 0 ↔ ¬b < 0)

/-- Something is left over, and its sign is not that of the divisor. -/
def Raises (a b : Int64) : Prop := a % b ≠ 0 ∧ (a % b < 0 ↔ ¬b < 0)

instance (a b : Int64) : Decidable (Divides a b) := inferInstanceAs (Decidable (_ ∧ _))

instance (a b : Int64) : Decidable (Lowers a b) := inferInstanceAs (Decidable (_ ∧ _))

instance (a b : Int64) : Decidable (Raises a b) := inferInstanceAs (Decidable (_ ∧ _))

/-- Division toward minus infinity by operations on words: division toward zero, and one
taken from the quotient where that is too much. -/
def floorDiv? (a b : Int64) : Option Int64 :=
  if Divides a b then
    if Lowers a b then signed? ((a / b).toInt - 1) else some (a / b)
  else none

/-- The remainder that belongs to it: that of division toward zero, and the divisor added
where that is too little. -/
def floorMod? (a b : Int64) : Option Int64 :=
  if Divides a b then some (if Raises a b then a % b + b else a % b) else none

/-- What the operations on words come to on the way are the exact whole numbers. -/
structure Exact (a b : Int64) : Prop where
  quotient : (a / b).toInt = a.toInt.tdiv b.toInt
  remainder : (a % b).toInt = a.toInt.tmod b.toInt
  lowered : Lowers a b → (a / b - 1).toInt = (a / b).toInt - 1
  raised : Raises a b → (a % b + b).toInt = (a % b).toInt + b.toInt

variable {a b : Int64}

theorem toInt_ne_zero (hb : b ≠ 0) : b.toInt ≠ 0 :=
  fun h => hb (Int64.toInt_inj.mp (h.trans Int64.toInt_zero.symm))

theorem lt_zero_iff : a < 0 ↔ a.toInt < 0 := Int64.lt_iff_toInt_lt

theorem mod_ne_zero_iff : a % b ≠ 0 ↔ a.toInt.tmod b.toInt ≠ 0 := by
  rw [← Int64.toInt_mod]
  exact not_congr (Int64.toInt_inj (y := 0)).symm

/-- The quotient and the remainder are put right under the same condition. -/
theorem lowers_iff : Lowers a b ↔
    a.toInt.tmod b.toInt ≠ 0 ∧ (a.toInt < 0 ↔ ¬b.toInt < 0) := by
  unfold Lowers
  rw [mod_ne_zero_iff, lt_zero_iff, lt_zero_iff]

theorem raises_iff (hb : b ≠ 0) : Raises a b ↔ Lowers a b := by
  obtain ⟨-, hpos, hneg⟩ := tmod_bounds (a := a.toInt) (toInt_ne_zero hb)
  rw [lowers_iff]
  unfold Raises
  rw [mod_ne_zero_iff, lt_zero_iff, lt_zero_iff, Int64.toInt_mod]
  omega

theorem toInt_div_of_divides (h : Divides a b) : (a / b).toInt = a.toInt.tdiv b.toInt := by
  by_cases ha : a = Int64.minValue
  · exact Int64.toInt_div_of_ne_right a b fun hb => h.2 ⟨ha, hb⟩
  · exact Int64.toInt_div_of_ne_left a b ha

/-- No operation on words in a division wraps around. -/
theorem exact_of_divides (h : Divides a b) : Exact a b where
  quotient := toInt_div_of_divides h
  remainder := Int64.toInt_mod a b
  lowered hlowers := by
    have hhalf := natAbs_tdiv_le (toInt_ne_zero h.1) (lowers_iff.mp hlowers).1
    have hlow := Int64.le_toInt a
    have hhigh := Int64.toInt_lt a
    rw [Int64.toInt_sub, toInt_div_of_divides h, Int64.toInt_one]
    exact Int.bmod_eq_of_le (by omega) (by omega)
  raised hraises := by
    obtain ⟨hsmall, -, -⟩ := tmod_bounds (a := a.toInt) (toInt_ne_zero h.1)
    have hlow := Int64.le_toInt b
    have hhigh := Int64.toInt_lt b
    rw [Raises, lt_zero_iff, lt_zero_iff, Int64.toInt_mod] at hraises
    rw [Int64.toInt_add, Int64.toInt_mod]
    exact Int.bmod_eq_of_le (by omega) (by omega)

/-- Division of words is that of whole numbers toward minus infinity. -/
theorem fdiv_toInt (h : Divides a b) :
    a.toInt.fdiv b.toInt = if Lowers a b then (a / b).toInt - 1 else (a / b).toInt := by
  rw [fdiv_eq_ite (toInt_ne_zero h.1), toInt_div_of_divides h]
  simp only [lowers_iff]

/-- So is its remainder. -/
theorem fmod_toInt (h : Divides a b) :
    a.toInt.fmod b.toInt = (if Raises a b then a % b + b else a % b).toInt := by
  have hdef := Int.fmod_def a.toInt b.toInt
  have hdef' := Int.tmod_def a.toInt b.toInt
  rw [fdiv_toInt h, toInt_div_of_divides h] at hdef
  by_cases hraises : Raises a b
  · rw [if_pos hraises, (exact_of_divides h).raised hraises, Int64.toInt_mod, hdef,
      if_pos ((raises_iff h.1).mp hraises), hdef']
    ring
  · rw [if_neg hraises, Int64.toInt_mod, hdef, if_neg (mt (raises_iff h.1).mpr hraises), hdef']

/-- The quotient is a word, unless the least word is divided by minus one. -/
theorem exists_fdiv (h : Divides a b) : ∃ q : Int64, q.toInt = a.toInt.fdiv b.toInt := by
  rw [fdiv_toInt h]
  by_cases hlowers : Lowers a b
  · rw [if_pos hlowers]
    exact ⟨_, (exact_of_divides h).lowered hlowers⟩
  · rw [if_neg hlowers]
    exact ⟨_, rfl⟩

end Word

namespace BinaryOp

variable {a b : Int64}

/-- There is no quotient where words cannot be divided. -/
theorem eval_of_not_divides (h : ¬Word.Divides a b) :
    BinaryOp.eval .div a b = none ∧ BinaryOp.eval .mod a b = none := by
  have hquotient : (if b = 0 then none else Word.signed? (Int.fdiv a.toInt b.toInt)) = none := by
    by_cases hb : b = 0
    · rw [if_pos hb]
    · obtain ⟨rfl, rfl⟩ : a = Int64.minValue ∧ b = -1 := by
        by_contra hother
        exact h ⟨hb, hother⟩
      rfl
  exact ⟨hquotient, by simp only [eval, hquotient, Option.bind_none]⟩

/-- What the machine divides is what the operations on words come to. -/
theorem eval_div : BinaryOp.eval .div a b = Word.floorDiv? a b := by
  unfold Word.floorDiv?
  by_cases h : Word.Divides a b
  · simp only [eval, if_neg h.1, Word.fdiv_toInt h, if_pos h]
    by_cases hlowers : Word.Lowers a b
    · rw [if_pos hlowers, if_pos hlowers]
    · rw [if_neg hlowers, if_neg hlowers]
      exact Word.signed?_eq_some_iff.mpr rfl
  · rw [if_neg h, (eval_of_not_divides h).1]

theorem eval_mod : BinaryOp.eval .mod a b = Word.floorMod? a b := by
  unfold Word.floorMod?
  by_cases h : Word.Divides a b
  · obtain ⟨q, hq⟩ := Word.exists_fdiv h
    simp only [eval, if_neg h.1, if_pos h, Word.signed?_eq_some_iff.mpr hq, Option.bind_some]
    exact Word.signed?_eq_some_iff.mpr (Word.fmod_toInt h).symm
  · rw [if_neg h, (eval_of_not_divides h).2]

end BinaryOp

/-! ## The instructions -/

/-- The six instructions of arithmetic, with their operands, the deepest one first, and the
exact result of each, if it has one: a quotient is the greatest whole number below that of
rational numbers. -/
inductive ArithOp.Exact : ArithOp → List Int64 → Option Int → Prop
  | add (a b : Int64) : Exact (.binary .add) [a, b] (some (a.toInt + b.toInt))
  | sub (a b : Int64) : Exact (.binary .sub) [a, b] (some (a.toInt - b.toInt))
  | mul (a b : Int64) : Exact (.binary .mul) [a, b] (some (a.toInt * b.toInt))
  | div (a b : Int64) : Exact (.binary .div) [a, b]
      (if b = 0 then none else some ⌊(a.toInt / b.toInt : ℚ)⌋)
  | mod (a b : Int64) : Exact (.binary .mod) [a, b]
      (if b = 0 then none else some (a.toInt - b.toInt * ⌊(a.toInt / b.toInt : ℚ)⌋))
  | neg (a : Int64) : Exact .neg [a] (some (-a.toInt))

namespace ArithOp

variable {op : ArithOp} {operands : List Int64} {exact : Option Int} {rest : Array Value}

/-- What the machine computes from the operands of an instruction of arithmetic. -/
def result? : ArithOp → List Int64 → Option Int64
  | .binary op, [a, b] => op.eval a b
  | .neg, [a] => Word.signed? (-a.toInt)
  | _, _ => none

/-- The one case where a result that is a word is not found: the least word leaves no
remainder when it is divided by minus one, but there is no quotient. -/
def Undefined (op : ArithOp) (operands : List Int64) : Prop :=
  op = .binary .mod ∧ operands = [Int64.minValue, -1]

theorem Exact.result?_eq (h : op.Exact operands exact) (hdefined : ¬op.Undefined operands) :
    op.result? operands = exact.bind Word.signed? := by
  cases h with
  | add a b => rfl
  | sub a b => rfl
  | mul a b => rfl
  | neg a => rfl
  | div a b =>
      by_cases hb : b = 0
      · simp only [result?, BinaryOp.eval, if_pos hb, Option.bind_none]
      · simp only [result?, BinaryOp.eval, if_neg hb, Option.bind_some,
          Word.fdiv_eq_floor (Word.toInt_ne_zero hb)]
  | mod a b =>
      by_cases hb : b = 0
      · simp only [result?, BinaryOp.eval, if_pos hb, Option.bind_none]
      · have hdivides : Word.Divides a b := by
          refine ⟨hb, ?_⟩
          rintro ⟨rfl, rfl⟩
          exact hdefined ⟨rfl, rfl⟩
        obtain ⟨q, hq⟩ := Word.exists_fdiv hdivides
        rw [Word.fdiv_eq_floor (Word.toInt_ne_zero hb)] at hq
        simp only [result?, BinaryOp.eval, if_neg hb, Option.bind_some, Int.fmod_def,
          Word.fdiv_eq_floor (Word.toInt_ne_zero hb), Word.signed?_eq_some_iff.mpr hq]

theorem Exact.result?_eq_none (h : op.Exact operands exact) (hundefined : op.Undefined operands) :
    op.result? operands = none := by
  obtain ⟨rfl, rfl⟩ := hundefined
  rfl

/-- An exact remainder has the sign of the divisor. -/
theorem Exact.lt_zero_iff {a b : Int64} {r : Int} (h : Exact (.binary .mod) [a, b] (some r))
    (hr : r ≠ 0) : r < 0 ↔ b.toInt < 0 := by
  generalize hexact : some r = exact at h
  cases h with
  | mod =>
      by_cases hb : b = 0
      · rw [if_pos hb] at hexact
        cases hexact
      have hdivisor := Word.toInt_ne_zero hb
      rw [if_neg hb, ← Word.fdiv_eq_floor hdivisor, ← Int.fmod_def] at hexact
      cases hexact
      rcases Int.lt_or_gt_of_ne hdivisor with hneg | hpos
      · have hopposite := Int.fmod_nonneg_of_pos (-a.toInt) (Int.neg_pos.mpr hneg)
        rw [Int.neg_fmod_neg] at hopposite
        omega
      · have hlow := Int.fmod_nonneg_of_pos a.toInt hpos
        omega

theorem Exact.exists_cons (h : op.Exact operands exact) : ∃ a l, operands = a :: l := by
  cases h <;> exact ⟨_, _, rfl⟩

/-- There is room for a result where the operands were. -/
theorem Exact.room {limits : Limits} {s : Stack} (h : op.Exact operands exact)
    (hbounded : s.Bounded limits)
    (hstack : s.entries = rest ++ (operands.map Value.int).toArray) :
    rest.size < s.limit ∧ 1 ≤ s.valueLimit := by
  obtain ⟨a, l, rfl⟩ := h.exists_cons
  have hheight : rest.size + (l.length + 1) ≤ limits.maxStackSize := by
    simpa [Stack.size, hstack] using hbounded.size_le
  have hvalue := hbounded.value_le (.int a) (by rw [hstack]; simp)
  rw [hbounded.limit, hbounded.valueLimit]
  exact ⟨by omega, hvalue⟩

/-- An instruction of arithmetic takes its operands off, and pushes what comes of them if
something does. -/
theorem Exact.run_eq {s : Stack} (h : op.Exact operands exact)
    (hstack : s.entries = rest ++ (operands.map Value.int).toArray) :
    op.run s = (match op.result? operands with
      | some w => Stack.push (.int w)
      | none => throw (.arithmetic (.arith op)) : StackM Unit) { s with entries := rest } := by
  cases h with
  | neg a =>
      have htop : s.entries = rest.push (.int a) := by simpa using hstack
      simp only [run]
      rw [bind_of_ok (Stack.popInt_of_push htop)]
      rfl
  | _ a b =>
      have htop : s.entries = (rest.push (.int a)).push (.int b) := by
        rw [hstack, Array.push_eq_append, Array.push_eq_append, Array.append_assoc]
        rfl
      exact run_binary htop

end ArithOp

namespace Machine

variable {terms : Terms} {limits : Limits} {m : Machine}

/-- The machine a step further, with other entries on the stack. -/
def onward (m : Machine) (entries : Array Value) : Machine :=
  m.resume 1
    { m.registers with
      stack := { m.registers.stack with entries }
      pc := m.registers.pc + 1 }

/-- The six instructions of arithmetic push the exact result if it is a word, and fail if it
is not, save for a remainder that the machine does not have; and where words are divided, the
operations on words that make up a division do not wrap around. -/
theorem step_arith_exact {op : ArithOp} {operands : List Int64} {exact : Option Int}
    {rest : Array Value} (hexact : op.Exact operands exact)
    (hleft : m.steps < terms.budget)
    (hitem : terms.item? m.registers.pc = some (.op (.arith op)))
    (hbounded : m.registers.Bounded limits)
    (hstack : m.registers.stack.entries = rest ++ (operands.map Value.int).toArray) :
    (∀ w : Int64, exact = some w.toInt → ¬op.Undefined operands →
      step terms m = .ok none (m.onward (rest.push (.int w)))) ∧
    ((∀ w : Int64, exact ≠ some w.toInt) ∨ op.Undefined operands →
      ∃ m', step terms m = .error (.arithmetic (.arith op)) m') ∧
    (∀ a b r, ArithOp.Exact (.binary .mod) [a, b] (some r) → r ≠ 0 → (r < 0 ↔ b.toInt < 0)) ∧
    ∀ a b, BinaryOp.eval .div a b = Word.floorDiv? a b ∧
      BinaryOp.eval .mod a b = Word.floorMod? a b ∧ (Word.Divides a b → Word.Exact a b) := by
  have hstep := step_inside hleft hitem rfl
  have hrun := hexact.run_eq hstack
  obtain ⟨hroom, hsize⟩ := hexact.room hbounded hstack
  refine ⟨fun w hw hdefined => ?_, fun hnone => ?_, fun a b r => ArithOp.Exact.lt_zero_iff,
    fun a b => ⟨BinaryOp.eval_div, BinaryOp.eval_mod, Word.exact_of_divides⟩⟩
  · have hresult : op.result? operands = some w := by
      rw [hexact.result?_eq hdefined, hw]
      exact Word.signed?_eq_some_iff.mpr rfl
    rw [hresult] at hrun
    have hpush := hrun.trans (Stack.push_of_room hroom hsize)
    rw [hstep, bind_of_ok (Registers.onStack_of_ok hpush)]
    rfl
  · have hresult : op.result? operands = none := by
      by_cases hdefined : op.Undefined operands
      · exact hexact.result?_eq_none hdefined
      · rw [hexact.result?_eq hdefined]
        have hno := hnone.resolve_right hdefined
        cases exact with
        | none => rfl
        | some i =>
            refine Option.eq_none_iff_forall_ne_some.mpr fun w hw => hno w ?_
            rw [Word.signed?_eq_some_iff.mp hw]
    rw [hresult] at hrun
    rw [hstep, bind_of_error (Registers.onStack_of_error hrun)]
    exact ⟨_, rfl⟩

namespace Sums

/-- A machine in front of an instruction of arithmetic, with two operands on its stack. -/
def machine (a b : Int64) : Machine :=
  { registers := ⟨⟨#[.int a, .int b], 2, 1⟩, 1, 0⟩, steps := 0, world := .empty 0
    account :=
      { pubKey := ⟨Vector.replicate 32 1⟩, balance := 0, code := "", ownerAccess := false
        storage := [] }
    archive := .empty }

/-- The terms of a run that takes remainders. -/
def modTerms : Terms :=
  { program := #[.op (.arith (.binary .mod))]
    limits := { maxStackSize := 2, maxValueSize := 1 }, depth := 0, budget := 1 }

theorem bounded (a b : Int64) : (machine a b).registers.Bounded modTerms.limits where
  limit := rfl
  valueLimit := rfl
  size_le := Nat.le_refl 2
  value_le v hv := by
    simp only [machine, List.mem_toArray, List.mem_cons, List.not_mem_nil, or_false] at hv
    rcases hv with rfl | rfl <;> exact Nat.le_refl 1

end Sums

/-- Minus seven leaves one when it is divided by two. -/
theorem step_arith_exact_minus_seven :
    step Sums.modTerms (Sums.machine (-7) 2) =
      .ok none ((Sums.machine (-7) 2).onward #[.int 1]) := by
  have hfloor : ⌊(((-7 : Int64).toInt : ℚ) / ((2 : Int64).toInt : ℚ))⌋ = -4 := by
    rw [← Word.fdiv_eq_floor (by decide)]
    rfl
  have hexact := ArithOp.Exact.mod (-7) 2
  rw [hfloor] at hexact
  have hleft : (Sums.machine (-7) 2).steps < Sums.modTerms.budget := by decide
  have hstack : (Sums.machine (-7) 2).registers.stack.entries =
      #[] ++ ([-7, 2].map Value.int).toArray := rfl
  have hstep := (step_arith_exact hexact hleft rfl (Sums.bounded _ _) hstack).1 1 rfl
  exact hstep (by rintro ⟨-, ⟨⟩⟩)

/-- The least word leaves nothing when it is divided by minus one, and yet the machine fails. -/
theorem exists_step_mod_undefined :
    ArithOp.Exact (.binary .mod) [Int64.minValue, -1] (some (0 : Int64).toInt) ∧
    ∃ m', step Sums.modTerms (Sums.machine Int64.minValue (-1)) =
      .error (.arithmetic (.arith (.binary .mod))) m' := by
  have hfloor : ⌊((Int64.minValue.toInt : ℚ) / ((-1 : Int64).toInt : ℚ))⌋ = 2 ^ 63 := by
    rw [← Word.fdiv_eq_floor (by decide)]
    rfl
  have hexact := ArithOp.Exact.mod Int64.minValue (-1)
  rw [hfloor] at hexact
  exact ⟨hexact, _, rfl⟩

end Machine

end ScriptLedger
