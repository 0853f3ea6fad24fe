import ScriptLedger.Proofs.Machine.Stretches
import ScriptLedger.Proofs.Script.Display

/-!
# A script that runs the algorithm of Euclid

The script calls itself for every remainder, so each of them lies on the stack, with a frame,
until the last one is zero.  Two remainders halve the smaller number, so words need fewer than
128 of them, and neither the stack nor the steps run out.

## Main results

* `Gcd.depth_le` — how deep the script calls itself.
* `Gcd.leads_frame` — what becomes of a frame.
* `Gcd.returns_gcd` — the script returns the greatest common divisor.
-/

namespace ScriptLedger

open Sequencing Registers

namespace Gcd

/-! ## The script -/

/-- The text of the script; its params are two numbers. -/
def code : String := "
    -2 OP_PUSHR -1 OP_PUSHR 8 OP_CALL OP_RET
    -1 OP_PUSHR 0 OP_EQU 24 OP_JUMPC
    -1 OP_PUSHR -2 OP_PUSHR -1 OP_PUSHR OP_MOD
    8 OP_CALL OP_RET
    -2 OP_PUSHR OP_RET
"

/-- The items of the script.  The first seven call the function that begins with the eighth. -/
def items : List Script.Item :=
  [.push (.int (-2)), .op (.frame .pushR), .push (.int (-1)), .op (.frame .pushR),
    .push (.int 8), .op (.control .call), .op (.control .ret),
    .push (.int (-1)), .op (.frame .pushR), .push (.int 0), .op (.arith .equ),
    .push (.int 24), .op (.control .jumpC),
    .push (.int (-1)), .op (.frame .pushR), .push (.int (-2)), .op (.frame .pushR),
    .push (.int (-1)), .op (.frame .pushR), .op (.arith (.binary .mod)),
    .push (.int 8), .op (.control .call), .op (.control .ret),
    .push (.int (-2)), .op (.frame .pushR), .op (.control .ret)]

theorem parse_code : Script.parseProgram code = .ok items := by decide +kernel

/-- The terms of a run of the script. -/
def terms : Terms := .outermost items

/-! ## How deep it calls itself -/

/-- How many remainders are taken until the last one is zero. -/
def depth (a b : Nat) : Nat :=
  if h : b = 0 then 0 else depth b (a % b) + 1
termination_by b
decreasing_by exact Nat.mod_lt a (Nat.pos_of_ne_zero h)

theorem depth_zero (a : Nat) : depth a 0 = 0 := by
  rw [depth, dif_pos rfl]

theorem depth_of_pos {a b : Nat} (hb : 0 < b) : depth a b = depth b (a % b) + 1 := by
  rw [depth, dif_neg (Nat.ne_of_gt hb)]

/-- Two remainders halve the divisor. -/
theorem depth_le (k : Nat) : ∀ {a b : Nat}, b < 2 ^ k → depth a b ≤ 2 * k := by
  induction k with
  | zero =>
      intro a b hb
      obtain rfl : b = 0 := by omega
      rw [depth_zero]
  | succ k ih =>
      intro a b hb
      rcases Nat.eq_zero_or_pos b with rfl | hpos
      · rw [depth_zero]
        omega
      rw [depth_of_pos hpos]
      rcases Nat.eq_zero_or_pos (a % b) with hzero | hrest
      · rw [hzero, depth_zero]
        omega
      have hless := Nat.mod_lt a hpos
      have hhalf : b % (a % b) < 2 ^ k := by
        have hsmall := Nat.mod_lt b hrest
        have hdivision := Nat.div_add_mod b (a % b)
        have honce : a % b ≤ a % b * (b / (a % b)) :=
          Nat.le_mul_of_pos_right _ (Nat.div_pos (Nat.mod_lt a hpos).le hrest)
        omega
      rw [depth_of_pos hrest]
      have hrest := ih (a := a % b) hhalf
      omega

/-! ## Words -/

/-- A number as a value of a script. -/
def number (n : Nat) : Value := .int (Int64.ofNat n)

section Word

variable {a b : Nat}

theorem eval_mod (ha : a < 2 ^ 63) (hb : b < 2 ^ 63) (hpos : 0 < b) :
    BinaryOp.eval .mod (Int64.ofNat a) (Int64.ofNat b) = some (Int64.ofNat (a % b)) := by
  have hne : Int64.ofNat b ≠ 0 := by
    intro h
    have hzero := congrArg Int64.toInt h
    rw [Int64.toInt_ofNat_of_lt hb, Int64.toInt_zero] at hzero
    omega
  have hquotient : (Int64.ofNat (a / b)).toInt = Int.fdiv a b := by
    rw [Int64.toInt_ofNat_of_lt (Nat.lt_of_le_of_lt (Nat.div_le_self a b) ha), Int.ofNat_fdiv]
  have hremainder : (Int64.ofNat (a % b)).toInt = Int.fmod a b := by
    rw [Int64.toInt_ofNat_of_lt (Nat.lt_of_le_of_lt (Nat.mod_le a b) ha), Int.ofNat_fmod]
  simp only [BinaryOp.eval, if_neg hne, Int64.toInt_ofNat_of_lt ha, Int64.toInt_ofNat_of_lt hb,
    Word.signed?_eq_some_iff.mpr hquotient, Word.signed?_eq_some_iff.mpr hremainder,
    Option.bind_some]

theorem number_eq_zero_iff (hb : b < 2 ^ 63) : number b = .int 0 ↔ b = 0 := by
  unfold number
  rw [Value.int.injEq, ← Int64.toInt_inj, Int64.toInt_ofNat_of_lt hb, Int64.toInt_zero]
  exact Int.natCast_eq_zero

end Word

/-! ## A frame -/

section Frame

variable {base : Array Value} {a b : Nat} {saved back : Int64}

/-- What lies on the stack of the function: its frame and its two arguments. -/
def arguments (a b : Nat) (saved back : Int64) : List Value :=
  [.int back, .int saved, number b, number a]

/-- The registers at an item of the function: above its frame lies what it has put there. -/
def frame (base : Array Value) (a b : Nat) (saved back : Int64) (top : List Value)
    (pc : Int64) : Registers :=
  terms.limits.registers (piled base (top ++ arguments a b saved back)) pc
    (Int64.ofNat (base.size + 2))

variable {top : List Value} {pc : Int64}

theorem size_frame (top : List Value) (hroom : base.size + top.length + 4 < 1024) :
    (piled base (top ++ arguments a b saved back)).size < terms.limits.maxStackSize := by
  rw [size_piled, List.length_append]
  exact hroom

/-- A literal is put above the frame. -/
theorem leads_literal {v : Value} (hitem : terms.item? pc = some (.push v)) (hsize : v.size = 1)
    (hroom : base.size + top.length + 4 < 1024) :
    Leads terms 1 (frame base a b saved back top pc)
      (frame base a b saved back (v :: top) (pc + 1)) :=
  leads_push hitem (size_frame top hroom) (by rw [hsize]; decide)

/-- What lies above the base, counted from the lowest entry. -/
theorem getElem?_frame (top : List Value) {i : Nat} {v : Value}
    (hv : (arguments a b saved back).reverse[i]? = some v) :
    (piled base (top ++ arguments a b saved back))[base.size + i]? = some v := by
  have hi : i < (arguments a b saved back).reverse.length := (List.getElem?_eq_some_iff.mp hv).1
  rw [getElem?_piled, List.reverse_append, List.getElem?_append_left hi, hv]

/-- One of the arguments is read. -/
theorem leads_argument {offset : Int64} {i : Nat} {v : Value}
    (hliteral : terms.item? pc = some (.push (.int offset)))
    (hitem : terms.item? (pc + 1) = some (.op (.frame .pushR)))
    (hoffset : (2 : Int) + offset.toInt = i)
    (hv : (arguments a b saved back).reverse[i]? = some v) (hsize : v.size = 1)
    (hroom : base.size + top.length + 4 < 1024) :
    Leads terms 2 (frame base a b saved back top pc)
      (frame base a b saved back (v :: top) (pc + 1 + 1)) := by
  have hfp : (Int64.ofNat (base.size + 2)).toInt = (base.size + 2 : Nat) :=
    Int64.toInt_ofNat_of_lt (by omega)
  have hi : i < 4 := (List.getElem?_eq_some_iff.mp hv).1
  have hindex : (Int64.ofNat (base.size + 2)).toInt + offset.toInt = (base.size + i : Nat) := by
    rw [hfp]
    push_cast
    omega
  exact leads_read hliteral hitem hindex (by omega) (getElem?_frame top hv) (size_frame top hroom)
    (by rw [hsize]; decide) (by decide)

/-- The function returns the value on top, and leaves its arguments behind. -/
theorem leads_return {v : Value} (hitem : terms.item? pc = some (.op (.control .ret)))
    (hback : back ≠ -1) (hsize : v.size = 1) (hroom : base.size + 2 < 1024) :
    Leads terms 1 (frame base a b saved back (v :: top) pc)
      (terms.limits.registers (piled base [v, number b, number a]) back saved) := by
  have hfp : (Int64.ofNat (base.size + 2)).toInt = (base.size + 2 : Nat) :=
    Int64.toInt_ofNat_of_lt (by omega)
  have hsaved : (piled base (top ++ arguments a b saved back))[base.size + 2]? =
      some (.int saved) := getElem?_frame top rfl
  have hnext : (piled base (top ++ arguments a b saved back))[base.size + 2 + 1]? =
      some (.int back) := getElem?_frame (i := 3) top rfl
  have hcut : (piled base (top ++ arguments a b saved back)).take (base.size + 2) =
      piled base [number b, number a] := by
    have hcut := take_piled base (top ++ [.int back, .int saved]) [number b, number a]
    rwa [List.append_assoc] at hcut
  show Leads terms 1 _
    (terms.limits.registers ((piled base [number b, number a]).push v) back saved)
  rw [← hcut]
  exact leads_ret hfp (by omega) hsaved hnext hitem hback hroom (by rw [hsize]; decide)

/-- The function goes on with its answer if the second argument is zero, and with a remainder
if it is not. -/
theorem leads_test (hb : b < 2 ^ 63) (hroom : base.size + 6 < 1024) :
    Leads terms 6 (frame base a b saved back [] 8)
      (frame base a b saved back [] (if b = 0 then 24 else 14)) := by
  have hread : Leads terms 2 (frame base a b saved back [] 8)
      (frame base a b saved back [number b] 10) :=
    leads_argument (i := 1) rfl rfl rfl rfl rfl (show base.size + 0 + 4 < 1024 by omega)
  have hzero : Leads terms 1 (frame base a b saved back [number b] 10)
      (frame base a b saved back [.int 0, number b] 11) :=
    leads_literal rfl rfl (show base.size + 1 + 4 < 1024 by omega)
  have hequ : Leads terms 1 (frame base a b saved back [.int 0, number b] 11)
      (frame base a b saved back [.ofBool (number b = .int 0)] 12) :=
    leads_equ rfl (size_frame [] (show base.size + 0 + 4 < 1024 by omega)) (by decide)
  have htarget : Leads terms 1 (frame base a b saved back [.ofBool (number b = .int 0)] 12)
      (frame base a b saved back [.int 24, .ofBool (number b = .int 0)] 13) :=
    leads_literal rfl rfl (show base.size + 1 + 4 < 1024 by omega)
  have hpc : (if (if decide (number b = .int 0) then 1 else 0 : Int64) = 0 then (13 : Int64) + 1
      else 24) = if b = 0 then 24 else 14 := by
    simp only [number_eq_zero_iff hb]
    by_cases hb0 : b = 0
    · simp [hb0]
    · simp [hb0]
  have hjump : Leads terms 1
      (frame base a b saved back [.int 24, .ofBool (number b = .int 0)] 13)
      (frame base a b saved back [] (if b = 0 then 24 else 14)) := by
    rw [← hpc]
    exact leads_jumpC rfl
  exact (((hread.trans hzero).trans hequ).trans htarget).trans hjump

/-- With nothing left to divide by, the function returns its first argument. -/
theorem leads_answer (hback : back ≠ -1) (hroom : base.size + 4 < 1024) :
    Leads terms 3 (frame base a b saved back [] 24)
      (terms.limits.registers (piled base [number a, number b, number a]) back saved) := by
  have hread : Leads terms 2 (frame base a b saved back [] 24)
      (frame base a b saved back [number a] 26) :=
    leads_argument (i := 0) rfl rfl rfl rfl rfl (show base.size + 0 + 4 < 1024 by omega)
  exact hread.trans (leads_return rfl hback rfl (by omega))

/-- A call of the function with two arguments makes a frame for it. -/
theorem leads_enter {c d : Nat} (hitem : terms.item? pc = some (.op (.control .call)))
    (hroom : base.size + 7 < 1024) :
    Leads terms 1 (frame base a b saved back [.int 8, number d, number c] pc)
      (frame (piled base (arguments a b saved back)) c d (Int64.ofNat (base.size + 2)) (pc + 1)
        [] 8) := by
  have hheight : (piled base ([number d, number c] ++ arguments a b saved back)).size =
      (piled base (arguments a b saved back)).size + 2 := by
    rw [piled_append, size_piled]
    rfl
  have hroom' : (piled base ([number d, number c] ++ arguments a b saved back)).size + 1 <
      terms.limits.maxStackSize := by
    rw [hheight, size_piled]
    exact hroom
  have hfp : Int64.ofNat ((piled base (arguments a b saved back)).size + 2) =
      Int64.ofInt (piled base ([number d, number c] ++ arguments a b saved back)).size := by
    rw [hheight]
    rfl
  unfold frame
  rw [hfp]
  exact leads_call hitem hroom' (by decide)

/-- Otherwise it calls itself with the second argument and the remainder. -/
theorem leads_descend (ha : a < 2 ^ 63) (hb : b < 2 ^ 63) (hpos : 0 < b)
    (hroom : base.size + 7 < 1024) :
    Leads terms 9 (frame base a b saved back [] 14)
      (frame (piled base (arguments a b saved back)) b (a % b) (Int64.ofNat (base.size + 2)) 23
        [] 8) := by
  have hdivisor : Leads terms 2 (frame base a b saved back [] 14)
      (frame base a b saved back [number b] 16) :=
    leads_argument (i := 1) rfl rfl rfl rfl rfl (show base.size + 0 + 4 < 1024 by omega)
  have hdividend : Leads terms 2 (frame base a b saved back [number b] 16)
      (frame base a b saved back [number a, number b] 18) :=
    leads_argument (i := 0) rfl rfl rfl rfl rfl (show base.size + 1 + 4 < 1024 by omega)
  have hagain : Leads terms 2 (frame base a b saved back [number a, number b] 18)
      (frame base a b saved back [number b, number a, number b] 20) :=
    leads_argument (i := 1) rfl rfl rfl rfl rfl (show base.size + 2 + 4 < 1024 by omega)
  have hmod : Leads terms 1 (frame base a b saved back [number b, number a, number b] 20)
      (frame base a b saved back [number (a % b), number b] 21) :=
    leads_binary rfl (eval_mod ha hb hpos)
      (size_frame [number b] (show base.size + 1 + 4 < 1024 by omega)) (by decide)
  have htarget : Leads terms 1 (frame base a b saved back [number (a % b), number b] 21)
      (frame base a b saved back [.int 8, number (a % b), number b] 22) :=
    leads_literal rfl rfl (show base.size + 2 + 4 < 1024 by omega)
  have hcall : Leads terms 1 (frame base a b saved back [.int 8, number (a % b), number b] 22)
      (frame (piled base (arguments a b saved back)) b (a % b) (Int64.ofNat (base.size + 2)) 23
        [] 8) := leads_enter rfl hroom
  exact ((((hdivisor.trans hdividend).trans hagain).trans hmod).trans htarget).trans hcall

/-- A frame of the function gives way to the greatest common divisor of its arguments. -/
theorem leads_frame (ha : a < 2 ^ 63) (hb : b < 2 ^ 63) (hback : back ≠ -1)
    (hroom : base.size + 4 * depth a b + 7 < 1024) :
    Leads terms (16 * depth a b + 9) (frame base a b saved back [] 8)
      (terms.limits.registers (piled base [number (a.gcd b), number b, number a]) back saved) := by
  induction b using Nat.strong_induction_on generalizing base a saved back with
  | _ b ih =>
  have htest : Leads terms 6 (frame base a b saved back [] 8)
      (frame base a b saved back [] (if b = 0 then 24 else 14)) := leads_test hb (by omega)
  rcases Nat.eq_zero_or_pos b with rfl | hpos
  · rw [depth_zero, Nat.gcd_zero_right]
    exact htest.trans (leads_answer hback (by omega))
  have hmod := Nat.mod_lt a hpos
  have hsize : (piled base (arguments a b saved back)).size = base.size + 4 := size_piled _ _
  have hgcd : a.gcd b = b.gcd (a % b) := by
    rw [Nat.gcd_comm, Nat.gcd_rec, Nat.gcd_comm]
  rw [depth_of_pos hpos] at hroom ⊢
  rw [if_neg (Nat.ne_of_gt hpos)] at htest
  have hdescend : Leads terms 9 (frame base a b saved back [] 14)
      (frame (piled base (arguments a b saved back)) b (a % b) (Int64.ofNat (base.size + 2)) 23
        [] 8) := leads_descend ha hb hpos (by omega)
  have hinner : Leads terms (16 * depth b (a % b) + 9)
      (frame (piled base (arguments a b saved back)) b (a % b) (Int64.ofNat (base.size + 2)) 23
        [] 8)
      (frame base a b saved back [number (a.gcd b), number (a % b), number b] 23) := by
    rw [hgcd]
    exact ih (a % b) hmod hb (by omega) (by decide) (by rw [hsize]; omega)
  have hreturn : Leads terms 1
      (frame base a b saved back [number (a.gcd b), number (a % b), number b] 23)
      (terms.limits.registers (piled base [number (a.gcd b), number b, number a]) back saved) :=
    leads_return rfl hback rfl (by omega)
  have hall := ((htest.trans hdescend).trans hinner).trans hreturn
  rwa [show 6 + 9 + (16 * depth b (a % b) + 9) + 1 = 16 * (depth b (a % b) + 1) + 9 by omega]
    at hall

end Frame

/-! ## The whole run -/

theorem display_number {a : Nat} (ha : a < 2 ^ 63) : (number a).display = toString a := by
  have hrender : (number a).render = Nat.toDigits 10 a := by
    show Json.renderInt (Int64.ofNat a).toInt = _
    rw [Int64.toInt_ofNat_of_lt ha, Json.renderInt, if_neg (by omega), Int.natAbs_natCast]
  rw [Value.display, hrender]
  rfl

/-- Two decimal numbers with a space between them are read as the two words. -/
theorem parseValues_numbers {a b : Nat} (ha : a < 2 ^ 63) (hb : b < 2 ^ 63) :
    Script.parseValues (toString a ++ " " ++ toString b) = .ok [number a, number b] := by
  have htext : toString a ++ " " ++ toString b =
      " ".intercalate ([number a, number b].map Value.display) := by
    rw [← display_number ha, ← display_number hb]
    simp
  obtain ⟨tokens, htokens, hlexemes⟩ := Value.exists_tokenize_joined [number a, number b]
  have hread := Value.parseItems_lexemesItems (fun v _ => Value.reads v)
    (by simp [number]) [] [] [] hlexemes
  rw [List.append_nil] at hread
  have hparse : Script.parseProgram (toString a ++ " " ++ toString b) =
      .ok ([number a, number b].map Script.Item.push) := by
    rw [htext, Script.parseProgram, htokens]
    exact hread
  simp only [Script.parseValues, hparse]
  rfl

variable {call : Invocation} {a b : Nat} {w : World} {archive : Archive}

/-- What lies below the params of a call. -/
def below (call : Invocation) : Array Value :=
  #[.bytes .hash call.callee.address, .list (call.payers.map (.bytes .hash)), .int call.amount]

/-- A run goes through the function and is then in front of its last return. -/
theorem leads_run (base : Array Value) (hbase : base.size = 3) (ha : a < 2 ^ 63)
    (hb : b < 2 ^ 63) :
    Leads terms (16 * depth a b + 15) (frame base a b (-1) (-1) [] 1)
      (frame base a b (-1) (-1) [number (a.gcd b), number b, number a] 7) := by
  have hdepth : depth a b ≤ 2 * 63 := depth_le 63 hb
  have hsize : (piled base (arguments a b (-1) (-1))).size = base.size + 4 := size_piled _ _
  have hfirst : Leads terms 2 (frame base a b (-1) (-1) [] 1)
      (frame base a b (-1) (-1) [number a] 3) :=
    leads_argument (i := 0) rfl rfl rfl rfl rfl (show base.size + 0 + 4 < 1024 by omega)
  have hsecond : Leads terms 2 (frame base a b (-1) (-1) [number a] 3)
      (frame base a b (-1) (-1) [number b, number a] 5) :=
    leads_argument (i := 1) rfl rfl rfl rfl rfl (show base.size + 1 + 4 < 1024 by omega)
  have htarget : Leads terms 1 (frame base a b (-1) (-1) [number b, number a] 5)
      (frame base a b (-1) (-1) [.int 8, number b, number a] 6) :=
    leads_literal rfl rfl (show base.size + 2 + 4 < 1024 by omega)
  have hcall : Leads terms 1 (frame base a b (-1) (-1) [.int 8, number b, number a] 6)
      (frame (piled base (arguments a b (-1) (-1))) a b (Int64.ofNat (base.size + 2)) 7 [] 8) :=
    leads_enter rfl (by omega)
  have hfunction : Leads terms (16 * depth a b + 9)
      (frame (piled base (arguments a b (-1) (-1))) a b (Int64.ofNat (base.size + 2)) 7 [] 8)
      (frame base a b (-1) (-1) [number (a.gcd b), number b, number a] 7) :=
    leads_frame ha hb (by decide) (by rw [hsize]; omega)
  have hall := (((hfirst.trans hsecond).trans htarget).trans hcall).trans hfunction
  rwa [show 2 + 2 + 1 + 1 + (16 * depth a b + 9) = 16 * depth a b + 15 by omega] at hall

/-- The last return ends the run with the value on top. -/
theorem finish_of_frame {base : Array Value} {v : Value} {top : List Value} {m : Machine}
    (hm : m.registers = frame base a b (-1) (-1) (v :: top) 7) (hword : base.size < 1024)
    (hleft : m.steps < terms.budget) :
    ∃ registers, Machine.finish terms m = .ok v (m.resume 1 registers) := by
  have hfp : (Int64.ofNat (base.size + 2)).toInt = (base.size + 2 : Nat) :=
    Int64.toInt_ofNat_of_lt (by omega)
  have hsaved : (piled base (top ++ arguments a b (-1) (-1)))[base.size + 2]? =
      some (.int (-1)) := getElem?_frame top rfl
  have hback : (piled base (top ++ arguments a b (-1) (-1)))[base.size + 2 + 1]? =
      some (.int (-1)) := getElem?_frame (i := 3) top rfl
  exact ⟨_, finish_of_ret hfp (by omega) hsaved hback rfl rfl hm hleft⟩

theorem gcd_lt (ha : a < 2 ^ 63) (hb : b < 2 ^ 63) : a.gcd b < 2 ^ 63 := by
  rcases Nat.eq_zero_or_pos a with rfl | hpos
  · rwa [Nat.gcd_zero_left]
  · exact Nat.lt_of_le_of_lt (Nat.gcd_le_left b hpos) ha

/-- Whatever two numbers it is given, the script returns their greatest common divisor, within
the default limits, and leaves the snapshot and the stores as they are. -/
theorem returns_gcd (hcode : call.callee.code = code)
    (hparams : call.params = .script (toString a ++ " " ++ toString b))
    (ha : a < 2 ^ 63) (hb : b < 2 ^ 63) (hpayers : call.payers.length < 1024) :
    ∃ (outcome : Outcome) (g : Int64), call.run {} w archive = .ok outcome archive ∧
      outcome.value = .int g ∧ g.toInt = a.gcd b ∧ outcome.world = w ∧
      outcome.steps = 16 * depth a b + 16 ∧ outcome.steps ≤ 2032 := by
  have hdepth : depth a b ≤ 2 * 63 := depth_le 63 hb
  have hparse : Script.parseProgram call.callee.code = .ok items := by
    rw [hcode]
    exact parse_code
  have hread : call.params.read = .ok [number a, number b] := by
    rw [hparams]
    exact parseValues_numbers ha hb
  have hfits : ∀ v ∈ call.entries [number a, number b], v.size ≤ 1024 :=
    Invocation.size_le_of_mem_entries hpayers (by simp [number, Value.size])
  have henter : Machine.enter {} 0 100000 call w archive =
      .ok (terms, call.start {} [number a, number b] w archive) :=
    Invocation.enter_of_fits hparse hread (show 2 + 5 ≤ 1024 by decide) hfits
  have hleft : (call.start {} [number a, number b] w archive).steps + (16 * depth a b + 15) ≤
      terms.budget := show 0 + (16 * depth a b + 15) ≤ 100000 by omega
  have hfinish := (leads_run (below call) rfl ha hb).finish rfl hleft
  have hlast : ((call.start {} [number a, number b] w archive).resume (16 * depth a b + 15)
      (frame (below call) a b (-1) (-1) [number (a.gcd b), number b, number a] 7)).registers =
    frame (below call) a b (-1) (-1) [number (a.gcd b), number b, number a] 7 := rfl
  obtain ⟨registers, hreturn⟩ := finish_of_frame hlast (show 3 < 1024 by decide)
    (show 0 + (16 * depth a b + 15) < 100000 by omega)
  rw [hreturn, Machine.resume_resume] at hfinish
  refine ⟨_, _, Invocation.run_of_finish henter hfinish, rfl,
    Int64.toInt_ofNat_of_lt (gcd_lt ha hb), rfl, ?_⟩
  show 0 + (16 * depth a b + 15 + 1) = 16 * depth a b + 16 ∧ 0 + (16 * depth a b + 15 + 1) ≤ 2032
  omega

/-- A call of the script with two neighbours in the sequence of Fibonacci, which take the most
remainders. -/
def neighbours : Invocation :=
  { callee :=
      { pubKey := ⟨Vector.replicate 32 1⟩, balance := 0, code, ownerAccess := false
        storage := [] }
    payers := [], amount := 0
    params := .script
      (toString 7540113804746346429 ++ " " ++ toString 4660046610375530309) }

theorem returns_gcd_neighbours : ∃ outcome : Outcome,
    neighbours.run {} (.empty 0) .empty = .ok outcome .empty ∧ outcome.value = .int 1 ∧
      outcome.world = .empty 0 ∧ outcome.steps ≤ 2032 := by
  have hcode : neighbours.callee.code = code := rfl
  obtain ⟨outcome, g, hrun, hvalue, hg, hworld, -, hsteps⟩ :=
    returns_gcd (w := .empty 0) hcode rfl (by decide) (by decide) (by decide)
  have hone : Nat.gcd 7540113804746346429 4660046610375530309 = 1 := by decide +kernel
  obtain rfl : g = 1 := Int64.toInt_inj.mp (by rw [hg, hone]; rfl)
  exact ⟨outcome, hrun, hvalue, hworld, hsteps⟩

end Gcd

end ScriptLedger
