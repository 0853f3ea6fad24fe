import ScriptLedger.Proofs.Machine.Nesting

/-!
# Stretches of a script

Most items of a script touch nothing but the registers, and then a step is what the item
does to the registers, whatever the snapshot and the stores are.  A stretch is a number of
such steps in a row.  What a closed script does is put together from stretches of one
instruction each, and a run that comes through a stretch goes on behind it.

The instructions of this module are told of on a stack that is written out: what lies on
it is some entries with the operands on top.

## Main results

* `Machine.step_inside` — one step with an item that touches only the registers.
* `Registers.Leads`, `Leads.trans`, `Leads.finish` — stretches, and runs through them.
* `Registers.leads_push`, `leads_pushR`, `leads_call`, `leads_ret`, `leads_jumpC`,
  `leads_binary`, `leads_equ` — a stretch of one instruction.
* `Invocation.enter_of_fits` — the machine a run starts with.
-/

namespace ScriptLedger

open Sequencing Exec

variable {α β : Type} {nested : Terms → Exec Value} {terms : Terms} {m : Machine}

/-! ## The stack, written out -/

namespace Stack

variable {s : Stack} {entries : Array Value} {v : Value}

theorem push_of_room (hroom : s.size < s.limit) (hsize : v.size ≤ s.valueLimit) :
    push v s = .ok () { s with entries := s.entries.push v } := by
  show (if s.limit ≤ s.size then _ else _ : StackM Unit) s = _
  rw [if_neg (by omega)]
  show (if s.valueLimit < v.size then _ else _ : StackM Unit) s = _
  rw [if_neg (by omega)]
  rfl

theorem push_of_full (h : s.limit ≤ s.size) : push v s = .error (.stackOverflow s.limit) s := by
  show (if s.limit ≤ s.size then _ else _ : StackM Unit) s = _
  rw [if_pos h]
  rfl

theorem push_of_large (hroom : s.size < s.limit) (h : s.valueLimit < v.size) :
    push v s = .error (.valueTooLarge v.size s.valueLimit) s := by
  show (if s.limit ≤ s.size then _ else _ : StackM Unit) s = _
  rw [if_neg (Nat.not_le_of_lt hroom)]
  show (if s.valueLimit < v.size then _ else _ : StackM Unit) s = _
  rw [if_pos h]
  rfl

theorem pop_of_push (h : s.entries = entries.push v) : pop s = .ok v { s with entries } := by
  obtain ⟨_, limit, valueLimit⟩ := s
  obtain rfl := h
  have hget : (get : StackM Stack) ⟨entries.push v, limit, valueLimit⟩ = .ok _ _ := rfl
  refine (bind_of_ok hget).trans ?_
  simp only [Array.back?_push, Array.pop_push]
  rfl

theorem popAs_of_push {op : Opcode} {shape : Shape} {read? : Value → Option α} {a : α}
    (h : s.entries = entries.push v) (hread : read? v = some a) :
    popAs op shape read? s = .ok a { s with entries } := by
  unfold popAs
  rw [bind_of_ok (pop_of_push h), hread]
  rfl

theorem popInt_of_push {op : Opcode} {i : Int64} (h : s.entries = entries.push (.int i)) :
    popInt op s = .ok i { s with entries } := popAs_of_push h rfl

theorem slot_of_toInt {index : Int64} {i : Nat} (hindex : index.toInt = i) (hi : i < s.size) :
    s.slot index = .ok i := by
  unfold slot
  rw [if_pos (by omega), hindex, Int.toNat_natCast]

theorem getAt_of_some {index : Int64} {i : Nat} (hindex : index.toInt = i)
    (h : s.entries[i]? = some v) : getAt index s = .ok v s := by
  have hi : i < s.size := (Array.getElem?_eq_some_iff.mp h).1
  have hget : (get : StackM Stack) s = .ok s s := rfl
  refine (bind_of_ok hget).trans ?_
  simp only [slot_of_toInt hindex hi, h]
  rfl

theorem truncate_of_le {length : Nat} (h : length ≤ s.size) :
    truncate length s = .ok () { s with entries := s.entries.take length } := by
  show (if s.size < length then _ else _ : StackM Unit) s = _
  rw [if_neg (by omega), ← Array.shrink_eq_take]
  rfl

end Stack

/-! ## One step -/

namespace Registers

/-- Goes on with the next item. -/
def advance : RegisterM Flow := do pure (.goto ((← get).pc + 1))

/-- What an item does to the registers, if it touches nothing else. -/
def inside? : Script.Item → Option (RegisterM Flow)
  | .push value => some do Registers.push value; advance
  | .op (.crypto op) => some do onStack op.run; advance
  | .op (.stack op) => some do op.run; advance
  | .op (.frame op) => some do op.run; advance
  | .op (.control op) => some op.run
  | .op (.arith op) => some do onStack op.run; advance
  | .op (.list op) => some do onStack op.run; advance
  | .op (.account _) => none
  | .op .kill => none

end Registers

open Registers (inside?)

theorem Exec.onRegisters_of_ok {x : RegisterM α} {a : α} {r : Registers}
    (h : x m.registers = .ok a r) : onRegisters x m = .ok a { m with registers := r } := by
  simp only [onRegisters, h]

theorem Exec.onRegisters_of_error {x : RegisterM α} {e : ScriptError} {r : Registers}
    (h : x m.registers = .error e r) : onRegisters x m = .error e { m with registers := r } := by
  simp only [onRegisters, h]

theorem Exec.onRegisters_bind (x : RegisterM α) (f : α → RegisterM β) :
    onRegisters (x >>= f) = (onRegisters x >>= fun a => onRegisters (f a)) := by
  funext m
  cases hx : x m.registers with
  | ok a r => 
      rw [bind_of_ok (onRegisters_of_ok hx)]
      simp only [onRegisters, bind_of_ok hx]
  | error e r =>
      rw [bind_of_error (onRegisters_of_error hx)]
      exact onRegisters_of_error (bind_of_error hx)

theorem Script.Item.run_inside {item : Script.Item} {x : RegisterM Flow}
    (h : inside? item = some x) : item.run nested terms = onRegisters x := by
  have hadvance : ∀ y : RegisterM Unit, (do onRegisters y; next : Exec Flow) =
      onRegisters (do y; Registers.advance) :=
    fun y => (Exec.onRegisters_bind y fun _ => Registers.advance).symm
  cases item with
  | push value =>
      cases h
      exact hadvance _
  | op instruction =>
      cases instruction with
      | control op => cases h; rfl
      | account op => cases h
      | kill => cases h
      | _ => cases h; exact hadvance _

namespace Machine

/-- The machine with other registers and so many more instructions counted. -/
def resume (m : Machine) (n : Nat) (registers : Registers) : Machine :=
  { m with registers, steps := m.steps + n }

theorem resume_resume (m : Machine) (n k : Nat) (r r' : Registers) :
    (m.resume n r).resume k r' = m.resume (n + k) r' := by
  unfold resume
  rw [Nat.add_assoc]

/-- A step with an item that touches only the registers. -/
theorem step_inside {item : Script.Item} {x : RegisterM Flow} (hleft : m.steps < terms.budget)
    (hitem : terms.item? m.registers.pc = some item) (hinside : inside? item = some x) :
    step terms m = match x m.registers with
      | .ok (.goto pc) r => .ok none (m.resume 1 { r with pc })
      | .ok (.halt value) r => .ok (some value) (m.resume 1 r)
      | .error e r => .error e (m.resume 1 r) := by
  show stepWith _ terms m = _
  rw [stepWith_of_lt hleft, execute_of_some (m := m.counted) hitem,
    Script.Item.run_inside hinside]
  cases hx : x m.registers with
  | error e r =>
      rw [bind_of_error (onRegisters_of_error (m := m.counted) hx)]
      rfl
  | ok flow r =>
      rw [bind_of_ok (onRegisters_of_ok (m := m.counted) hx)]
      cases flow <;> rfl

/-- What such a step has done if it succeeded. -/
theorem inside_of_step {item : Script.Item} {x : RegisterM Flow} {result : Option Value}
    {m' : Machine} (hitem : terms.item? m.registers.pc = some item)
    (hinside : inside? item = some x) (h : step terms m = .ok result m') :
    ∃ flow r, x m.registers = .ok flow r ∧ match flow with
      | .goto pc => result = none ∧ m' = m.resume 1 { r with pc }
      | .halt value => result = some value ∧ m' = m.resume 1 r := by
  have hleft : m.steps < terms.budget := by
    by_contra hspent
    rw [step, stepWith_of_spent (Nat.le_of_not_lt hspent)] at h
    cases h
  rw [step_inside hleft hitem hinside] at h
  cases hx : x m.registers with
  | error e r =>
      rw [hx] at h
      cases h
  | ok flow r =>
      rw [hx] at h
      refine ⟨flow, r, rfl, ?_⟩
      cases flow <;> cases h <;> exact ⟨rfl, rfl⟩

end Machine

/-! ## Stretches -/

namespace Registers

/-- A number of instructions that touch only the registers lead from some registers to
others. -/
inductive Leads (terms : Terms) : Nat → Registers → Registers → Prop
  | refl (r : Registers) : Leads terms 0 r r
  | step {n : Nat} {r r₁ r' : Registers} {item : Script.Item} {x : RegisterM Flow} {pc : Int64}
      (hitem : terms.item? r.pc = some item) (hinside : inside? item = some x)
      (hrun : x r = .ok (.goto pc) r₁) (hrest : Leads terms n { r₁ with pc } r') :
      Leads terms (n + 1) r r'

namespace Leads

variable {n k : Nat} {r r' r'' : Registers}

theorem trans (h : Leads terms n r r') (h' : Leads terms k r' r'') :
    Leads terms (n + k) r r'' := by
  induction h with
  | refl r => rwa [Nat.zero_add]
  | @step n r r₁ r' item x pc hitem hinside hrun hrest ih =>
      rw [Nat.add_right_comm]
      exact .step hitem hinside hrun (ih h')

/-- A run that has the instructions of a stretch left comes through it. -/
theorem finish (h : Leads terms n r r') {m : Machine} (hm : m.registers = r)
    (hleft : m.steps + n ≤ terms.budget) :
    Machine.finish terms m = Machine.finish terms (m.resume n r') := by
  induction h generalizing m with
  | refl r => rw [← hm]; rfl
  | @step n r r₁ r' item x pc hitem hinside hrun hrest ih =>
      subst hm
      rw [Machine.finish_eq, Machine.step_inside (by omega) hitem hinside, hrun]
      show Machine.finish terms (m.resume 1 { r₁ with pc }) = _
      rw [ih rfl (by show m.steps + 1 + n ≤ _; omega), Machine.resume_resume, Nat.add_comm]

end Leads

end Registers

/-! ## Instructions -/

/-- A stack with some values on top of it, the topmost one first. -/
def piled (base : Array Value) : List Value → Array Value
  | [] => base
  | v :: top => (piled base top).push v

theorem piled_append (base : Array Value) (top below : List Value) :
    piled base (top ++ below) = piled (piled base below) top := by
  induction top with
  | nil => rfl
  | cons v top ih => exact congrArg (Array.push · v) ih

theorem piled_eq (base : Array Value) (top : List Value) :
    piled base top = base ++ top.reverse.toArray := by
  induction top with
  | nil => simp [piled]
  | cons v top ih => simp [piled, ih]

theorem size_piled (base : Array Value) (top : List Value) :
    (piled base top).size = base.size + top.length := by
  simp [piled_eq]

/-- The values on top are counted from the lowest one. -/
theorem getElem?_piled (base : Array Value) (top : List Value) (i : Nat) :
    (piled base top)[base.size + i]? = top.reverse[i]? := by
  rw [piled_eq, Array.getElem?_append_right (Nat.le_add_right _ _)]
  simp

/-- The base is what it was. -/
theorem getElem?_piled_of_lt {base : Array Value} {top : List Value} {i : Nat}
    (h : i < base.size) : (piled base top)[i]? = base[i]? := by
  rw [piled_eq, Array.getElem?_append_left h]

theorem take_piled (base : Array Value) (top below : List Value) :
    (piled base (top ++ below)).take (base.size + below.length) = piled base below := by
  rw [piled_append, ← size_piled base below, piled_eq _ top]
  simp

/-- Registers with the stack written out. -/
def Limits.registers (limits : Limits) (entries : Array Value) (pc fp : Int64) : Registers :=
  ⟨⟨entries, limits.maxStackSize, limits.maxValueSize⟩, pc, fp⟩

@[simp]
theorem Limits.registers_fp (limits : Limits) (entries : Array Value) (pc fp : Int64) :
    (limits.registers entries pc fp).fp = fp := rfl

/-- An instruction on two numbers takes them off, and pushes what comes of them if something
does. -/
theorem ArithOp.run_binary {op : BinaryOp} {a b : Int64} {s : Stack} {entries : Array Value}
    (h : s.entries = (entries.push (.int a)).push (.int b)) :
    (ArithOp.binary op).run s = (match op.eval a b with
      | some w => Stack.push (.int w)
      | none => throw (.arithmetic (.arith (.binary op))) : StackM Unit) { s with entries } := by
  refine (bind_of_ok (Stack.popInt_of_push h)).trans ?_
  exact bind_of_ok (Stack.popInt_of_push rfl)

namespace Registers

variable {limits : Limits} {entries : Array Value} {pc fp : Int64}

theorem onStack_of_ok {x : StackM α} {a : α} {r : Registers} {s : Stack}
    (h : x r.stack = .ok a s) : onStack x r = .ok a { r with stack := s } := by
  simp only [onStack, h]

theorem onStack_of_error {x : StackM α} {e : ScriptError} {r : Registers} {s : Stack}
    (h : x r.stack = .error e s) : onStack x r = .error e { r with stack := s } := by
  simp only [onStack, h]

theorem popInt_registers {op : Opcode} {i : Int64} :
    popInt op (limits.registers (entries.push (.int i)) pc fp) =
      .ok i (limits.registers entries pc fp) :=
  onStack_of_ok (Stack.popInt_of_push rfl)

theorem push_registers {v : Value} (hroom : entries.size < limits.maxStackSize)
    (hsize : v.size ≤ limits.maxValueSize) :
    push v (limits.registers entries pc fp) =
      .ok () (limits.registers (entries.push v) pc fp) :=
  onStack_of_ok (Stack.push_of_room hroom hsize)

theorem frameSlot_of_toInt {op : Opcode} {offset index : Int64} {r : Registers}
    (h : index.toInt = r.fp.toInt + offset.toInt) : frameSlot op offset r = .ok index r := by
  have hget : (get : RegisterM Registers) r = .ok r r := rfl
  unfold frameSlot
  rw [bind_of_ok hget, Word.signed?_eq_some_iff.mpr h]
  rfl

section Single

variable {item : Script.Item} {entries' : Array Value} {pc' fp' : Int64}
variable (hitem : terms.item? pc = some item)

include hitem

/-- An instruction is a stretch by itself. -/
theorem leads_goto {x : RegisterM Flow} (hinside : inside? item = some x)
    (hrun : x (limits.registers entries pc fp) =
      .ok (.goto pc') (limits.registers entries' pc fp')) :
    Leads terms 1 (limits.registers entries pc fp) (limits.registers entries' pc' fp') :=
  .step hitem hinside hrun (.refl _)

theorem leads_next {x : RegisterM Unit} (hinside : inside? item = some do x; advance)
    (hrun : x (limits.registers entries pc fp) = .ok () (limits.registers entries' pc fp)) :
    Leads terms 1 (limits.registers entries pc fp) (limits.registers entries' (pc + 1) fp) :=
  leads_goto hitem hinside (bind_of_ok hrun)

end Single

theorem leads_push {v : Value} (hitem : terms.item? pc = some (.push v))
    (hroom : entries.size < limits.maxStackSize) (hsize : v.size ≤ limits.maxValueSize) :
    Leads terms 1 (limits.registers entries pc fp)
      (limits.registers (entries.push v) (pc + 1) fp) :=
  leads_next hitem rfl (push_registers hroom hsize)

/-- The entry at an offset from the frame pointer is read onto the top. -/
theorem leads_pushR {offset : Int64} {i : Nat} {v : Value}
    (hitem : terms.item? pc = some (.op (.frame .pushR)))
    (hindex : fp.toInt + offset.toInt = i) (hword : i < 2 ^ 63) (hv : entries[i]? = some v)
    (hroom : entries.size < limits.maxStackSize) (hsize : v.size ≤ limits.maxValueSize) :
    Leads terms 1 (limits.registers (entries.push (.int offset)) pc fp)
      (limits.registers (entries.push v) (pc + 1) fp) := by
  have hi : (Int64.ofNat i).toInt = i := Int64.toInt_ofNat_of_lt hword
  have hread : (do Stack.push (← Stack.getAt (Int64.ofNat i)) : StackM Unit)
      ⟨entries, limits.maxStackSize, limits.maxValueSize⟩ = .ok () _ :=
    (bind_of_ok (Stack.getAt_of_some hi hv)).trans (Stack.push_of_room hroom hsize)
  refine leads_next hitem rfl ?_
  simp only [FrameOp.run]
  rw [bind_of_ok popInt_registers]
  rw [bind_of_ok (frameSlot_of_toInt (hi.trans hindex.symm))]
  exact onStack_of_ok hread

/-- An entry near the frame is read by its offset, with two instructions. -/
theorem leads_read {offset : Int64} {i : Nat} {v : Value}
    (hliteral : terms.item? pc = some (.push (.int offset)))
    (hitem : terms.item? (pc + 1) = some (.op (.frame .pushR)))
    (hindex : fp.toInt + offset.toInt = i) (hword : i < 2 ^ 63) (hv : entries[i]? = some v)
    (hroom : entries.size < limits.maxStackSize) (hsize : v.size ≤ limits.maxValueSize)
    (hone : 1 ≤ limits.maxValueSize) :
    Leads terms 2 (limits.registers entries pc fp)
      (limits.registers (entries.push v) (pc + 1 + 1) fp) :=
  (leads_push hliteral hroom (by exact hone)).trans
    (leads_pushR hitem hindex hword hv hroom hsize)

theorem leads_binary {op : BinaryOp} {a b w : Int64}
    (hitem : terms.item? pc = some (.op (.arith (.binary op)))) (heval : op.eval a b = some w)
    (hroom : entries.size < limits.maxStackSize) (hsize : 1 ≤ limits.maxValueSize) :
    Leads terms 1 (limits.registers ((entries.push (.int a)).push (.int b)) pc fp)
      (limits.registers (entries.push (.int w)) (pc + 1) fp) := by
  refine leads_next hitem rfl ?_
  refine onStack_of_ok ?_
  rw [ArithOp.run_binary rfl, heval]
  exact Stack.push_of_room hroom hsize

theorem leads_equ {v v' : Value} (hitem : terms.item? pc = some (.op (.arith .equ)))
    (hroom : entries.size < limits.maxStackSize) (hsize : 1 ≤ limits.maxValueSize) :
    Leads terms 1 (limits.registers ((entries.push v).push v') pc fp)
      (limits.registers (entries.push (.ofBool (v = v'))) (pc + 1) fp) := by
  refine leads_next hitem rfl ?_
  refine onStack_of_ok ?_
  simp only [ArithOp.run]
  rw [bind_of_ok (Stack.pop_of_push rfl), bind_of_ok (Stack.pop_of_push rfl)]
  exact Stack.push_of_room hroom hsize

/-- A jump on a condition goes to its target unless the condition is zero. -/
theorem leads_jumpC {target condition : Int64}
    (hitem : terms.item? pc = some (.op (.control .jumpC))) :
    Leads terms 1
      (limits.registers ((entries.push (.int condition)).push (.int target)) pc fp)
      (limits.registers entries (if condition = 0 then pc + 1 else target) fp) := by
  refine leads_goto hitem rfl ?_
  simp only [ControlOp.run]
  rw [bind_of_ok popInt_registers, bind_of_ok popInt_registers]
  by_cases hzero : condition = 0
  · rw [if_pos hzero, if_pos hzero]
    rfl
  · rw [if_neg hzero, if_neg hzero]
    rfl

/-- A call pushes a frame, the frame pointer and the place to return to, and goes to its
target. -/
theorem leads_call {target : Int64} (hitem : terms.item? pc = some (.op (.control .call)))
    (hroom : entries.size + 1 < limits.maxStackSize) (hsize : 1 ≤ limits.maxValueSize) :
    Leads terms 1 (limits.registers (entries.push (.int target)) pc fp)
      (limits.registers ((entries.push (.int fp)).push (.int (pc + 1))) target
        (Int64.ofInt entries.size)) := by
  refine leads_goto hitem rfl ?_
  have hframe : (Int64.ofInt ((entries.push (.int fp)).size) : Int64) - 1 =
      Int64.ofInt entries.size := by
    rw [Array.size_push, Nat.cast_succ, Int64.ofInt_add]
    exact Int64.add_sub_cancel _ _
  simp only [ControlOp.run]
  rw [bind_of_ok popInt_registers]
  show (Registers.push (.int fp) >>= _ : RegisterM Flow) _ = _
  rw [bind_of_ok (push_registers (by omega) (by exact hsize))]
  show (Registers.push (.int (pc + 1)) >>= _ : RegisterM Flow) (limits.registers _ pc
    (Int64.ofInt ((entries.push (.int fp)).size) - 1)) = _
  rw [hframe, bind_of_ok (push_registers (by rw [Array.size_push]; exact hroom) (by exact hsize))]
  rfl

theorem intAt_of_some {op : Opcode} {index i : Int64} {n : Nat} (hindex : index.toInt = n)
    (h : entries[n]? = some (.int i)) :
    intAt op index (limits.registers entries pc fp) = .ok i (limits.registers entries pc fp) := by
  unfold intAt
  rw [bind_of_ok (onStack_of_ok (Stack.getAt_of_some hindex h))]
  rfl

section Return

variable {frame : Nat} {saved back : Int64} {v : Value}
variable (hfp : fp.toInt = frame) (hword : frame + 1 < 2 ^ 63)
variable (hsaved : entries[frame]? = some (.int saved))
variable (hback : entries[frame + 1]? = some (.int back))

include hfp hword hsaved hback

/-- A return reads its frame and cuts the stack down to it. -/
theorem run_ret :
    ControlOp.run .ret (limits.registers (entries.push v) pc fp) =
      (if back = -1 then pure (.halt v)
       else do
        modify fun r => { r with fp := saved }
        Registers.push v
        pure (.goto back) : RegisterM Flow) (limits.registers (entries.take frame) pc fp) := by
  have hpop : onStack Stack.pop (limits.registers (entries.push v) pc fp) =
      .ok v (limits.registers entries pc fp) := onStack_of_ok (Stack.pop_of_push rfl)
  have hget : (get : RegisterM Registers) (limits.registers entries pc fp) =
      .ok (limits.registers entries pc fp) (limits.registers entries pc fp) := rfl
  have hnext : (Int64.ofNat (frame + 1)).toInt = (frame + 1 : Nat) :=
    Int64.toInt_ofNat_of_lt hword
  have hslot : (Int64.ofNat (frame + 1)).toInt = fp.toInt + (1 : Int64).toInt := by
    rw [hnext, hfp]
    rfl
  have hcut : onStack (Stack.truncate fp.toInt.toNat) (limits.registers entries pc fp) =
      .ok () (limits.registers (entries.take frame) pc fp) := by
    have hframe : frame < entries.size := (Array.getElem?_eq_some_iff.mp hsaved).1
    rw [hfp, Int.toNat_natCast]
    exact onStack_of_ok (Stack.truncate_of_le (Nat.le_of_lt hframe))
  simp only [ControlOp.run]
  rw [bind_of_ok hpop, bind_of_ok hget]
  simp only [Limits.registers_fp]
  rw [bind_of_ok (intAt_of_some hfp hsaved), bind_of_ok (frameSlot_of_toInt hslot),
    bind_of_ok (intAt_of_some hnext hback)]
  exact bind_of_ok hcut

/-- A return puts back the value and the frame pointer that its frame has saved. -/
theorem leads_ret (hitem : terms.item? pc = some (.op (.control .ret))) (hinner : back ≠ -1)
    (hroom : frame < limits.maxStackSize) (hsize : v.size ≤ limits.maxValueSize) :
    Leads terms 1 (limits.registers (entries.push v) pc fp)
      (limits.registers ((entries.take frame).push v) back saved) := by
  have hheight : (entries.take frame).size < limits.maxStackSize := by
    rw [Array.size_extract]
    omega
  refine leads_goto hitem rfl ?_
  rw [run_ret hfp hword hsaved hback, if_neg hinner]
  show (Registers.push v >>= _ : RegisterM Flow)
    (limits.registers (entries.take frame) pc saved) = _
  rw [bind_of_ok (push_registers hheight hsize)]
  rfl

/-- A return from the outermost frame ends the run. -/
theorem finish_of_ret {m : Machine} (hitem : terms.item? pc = some (.op (.control .ret)))
    (houter : back = -1) (hm : m.registers = limits.registers (entries.push v) pc fp)
    (hleft : m.steps < terms.budget) :
    Machine.finish terms m =
      .ok v (m.resume 1 (limits.registers (entries.take frame) pc fp)) := by
  rw [Machine.finish_eq, Machine.step_inside hleft (by rw [hm]; exact hitem) rfl, hm,
    run_ret hfp hword hsaved hback, if_pos houter]
  rfl

end Return

end Registers

/-! ## Entry -/

/-- Values that there is room for are put on a stack one by one. -/
theorem Stack.forM_push {s : Stack} {values : List Value}
    (hroom : s.size + values.length ≤ s.limit) (hsize : ∀ v ∈ values, v.size ≤ s.valueLimit) :
    values.forM push s = .ok () { s with entries := s.entries ++ values.toArray } := by
  induction values generalizing s with
  | nil => simp [pure, EStateM.pure]
  | cons v rest ih =>
      obtain ⟨hv, hrest⟩ := List.forall_mem_cons.mp hsize
      rw [List.length_cons] at hroom
      show (push v >>= fun _ => rest.forM push) s = _
      have hheight : (s.entries.push v).size + rest.length ≤ s.limit := by
        rw [Array.size_push]
        show s.size + 1 + _ ≤ _
        omega
      rw [bind_of_ok (push_of_room (by omega) hv),
        ih (s := { s with entries := s.entries.push v }) hheight hrest]
      simp

/-- A limit stopped a run. -/
inductive ScriptError.Exceeds : ScriptError → Prop
  | steps (max : Nat) : Exceeds (.stepLimitExceeded max)
  | depth (depth max : Nat) : Exceeds (.callDepthExceeded depth max)
  | height (max : Nat) : Exceeds (.stackOverflow max)
  | size (size max : Nat) : Exceeds (.valueTooLarge size max)

/-- There is room for values on a stack, or a limit stops them. -/
theorem Stack.forM_push_cases {s : Stack} (hs : s.size ≤ s.limit) (values : List Value) :
    (s.size + values.length ≤ s.limit ∧ ∀ v ∈ values, v.size ≤ s.valueLimit) ∨
      ∃ e s', values.forM push s = .error e s' ∧ e.Exceeds := by
  induction values generalizing s with
  | nil => exact Or.inl ⟨hs, nofun⟩
  | cons v rest ih =>
      show _ ∨ ∃ e s', (push v >>= fun _ => rest.forM push) s = .error e s' ∧ e.Exceeds
      by_cases hfull : s.limit ≤ s.size
      · exact Or.inr ⟨_, _, bind_of_error (push_of_full hfull), .height _⟩
      by_cases hlarge : s.valueLimit < v.size
      · exact Or.inr ⟨_, _, bind_of_error (push_of_large (by omega) hlarge), .size _ _⟩
      have hheight : (s.entries.push v).size = s.size + 1 := Array.size_push _
      have hpushed := ih (s := { s with entries := s.entries.push v })
        (show (s.entries.push v).size ≤ s.limit by omega)
      rw [bind_of_ok (push_of_room (by omega) (by omega))]
      refine hpushed.imp_left fun ⟨hroom, hsizes⟩ => ⟨?_, List.forall_mem_cons.mpr ⟨?_, hsizes⟩⟩
      · have hroom : (s.entries.push v).size + rest.length ≤ s.limit := hroom
        rw [List.length_cons]
        omega
      · omega

theorem Value.sizeItems_bytes (hashes : List Hash) :
    Value.sizeItems (hashes.map (.bytes .hash)) = hashes.length := by
  induction hashes with
  | nil => rfl
  | cons h hashes ih =>
      rw [List.map_cons, Value.sizeItems, ih, List.length_cons]
      exact Nat.add_comm 1 _

/-- The entries of a call are no larger than its params and the list of those who pay. -/
theorem Invocation.size_le_of_mem_entries {call : Invocation} {params : List Value} {n : Nat}
    (hpayers : call.payers.length < n) (hparams : ∀ v ∈ params, v.size ≤ n) :
    ∀ v ∈ call.entries params, v.size ≤ n := by
  have hlist : (Value.list (call.payers.map (.bytes .hash))).size ≤ n := by
    rw [Value.size, Value.sizeItems_bytes]
    omega
  have hone : ∀ v : Value, v.size = 1 → v.size ≤ n := by omega
  intro v hv
  simp only [Invocation.entries, List.mem_append, List.mem_cons, List.not_mem_nil, or_false] at hv
  rcases hv with ((rfl | rfl | rfl) | hv) | rfl | rfl
  · exact hone _ rfl
  · exact hlist
  · exact hone _ rfl
  · exact hparams v hv
  · exact hone _ rfl
  · exact hone _ rfl

theorem Invocation.length_entries (call : Invocation) (params : List Value) :
    (call.entries params).length = params.length + 5 := by
  simp [Invocation.entries]

/-- On the bottom of the stack lie three entries, then the params, and then the frame. -/
theorem Invocation.getElem?_entries (call : Invocation) (params : List Value) (i : Nat) :
    (call.entries params)[3 + i]? = (params ++ [.int (-1), .int (-1)])[i]? := by
  have hdrop : (call.entries params).drop 3 = params ++ [.int (-1), .int (-1)] := rfl
  rw [← hdrop, List.getElem?_drop]

/-- The terms of a run within the default limits that is not nested in another one. -/
def Terms.outermost (items : List Script.Item) : Terms :=
  { program := items.toArray, limits := {}, depth := 0, budget := ({} : Limits).maxSteps }

/-- The machine in front of the first instruction of a call. -/
def Invocation.start (call : Invocation) (limits : Limits) (params : List Value) (world : World)
    (archive : Archive) : Machine :=
  { registers :=
      limits.registers (call.entries params).toArray 1 (Int64.ofInt (params.length + 3 : Nat))
    steps := 0, world, account := call.callee, archive }

/-- A call whose text and params are read, and whose entries are within the limits, starts. -/
theorem Invocation.enter_of_fits {call : Invocation} {limits : Limits} {items : List Script.Item}
    {params : List Value} {budget : Nat} {world : World} {archive : Archive}
    (hparse : Script.parseProgram call.callee.code = .ok items)
    (hparams : call.params.read = .ok params)
    (hroom : params.length + 5 ≤ limits.maxStackSize)
    (hsize : ∀ v ∈ call.entries params, v.size ≤ limits.maxValueSize) :
    Machine.enter limits 0 budget call world archive =
      .ok ({ program := items.toArray, limits, depth := 0, budget },
        call.start limits params world archive) := by
  have hlength : (call.entries params).length = params.length + 3 + 2 :=
    call.length_entries params
  have hpushed := Stack.forM_push (s := Stack.empty limits.maxStackSize limits.maxValueSize)
    (show 0 + (call.entries params).length ≤ limits.maxStackSize by omega) hsize
  have hregisters : Machine.entryRegisters limits (call.entries params) =
      .ok (call.start limits params world archive).registers := by
    unfold Machine.entryRegisters
    rw [hpushed]
    have hfp : Int64.ofInt (call.entries params).length - 2 =
        Int64.ofInt (params.length + 3 : Nat) := by
      rw [hlength, Nat.cast_add, Int64.ofInt_add]
      exact Int64.add_sub_cancel _ _
    simp [Stack.empty, Stack.size, Invocation.start, Limits.registers, hfp]
  have hentry := Machine.entry_eq_ok.mpr
    ⟨Nat.zero_le limits.maxCallDepth, items, params, hparse, hparams, hregisters, rfl⟩
  rw [Machine.enter_eq_map, hentry]
  rfl

/-- A call whose entries are stopped by a limit is stopped by it. -/
theorem Invocation.run_of_stopped {call : Invocation} {limits : Limits}
    {items : List Script.Item} {params : List Value} {world : World} {archive : Archive}
    {e : ScriptError} {s : Stack} (hparse : Script.parseProgram call.callee.code = .ok items)
    (hparams : call.params.read = .ok params)
    (hpush : (call.entries params).forM Stack.push
      (Stack.empty limits.maxStackSize limits.maxValueSize) = .error e s) :
    call.run limits world archive = .error e archive := by
  have hregisters : Machine.entryRegisters limits (call.entries params) = .error e := by
    simp only [Machine.entryRegisters, hpush]
  have hentry : Machine.entry limits 0 call = .error e := by
    unfold Machine.entry
    dsimp only
    rw [if_neg (Nat.not_lt_zero _), hparse, hparams]
    show (Machine.entryRegisters limits (call.entries params) >>= _) = _
    rw [hregisters]
    rfl
  simp only [Invocation.run, Machine.enter_eq_map, hentry]
  rfl

/-- A run that starts returns what its steps come to. -/
theorem Invocation.run_of_finish {call : Invocation} {limits : Limits} {world : World}
    {archive : Archive} {start final : Machine} {v : Value}
    (henter : Machine.enter limits 0 limits.maxSteps call world archive = .ok (terms, start))
    (hfinish : Machine.finish terms start = .ok v final) :
    call.run limits world archive =
      .ok { value := v, world := final.world, steps := final.steps } final.archive := by
  simp only [Invocation.run, henter, hfinish]

theorem Invocation.run_of_error {call : Invocation} {limits : Limits} {world : World}
    {archive : Archive} {start final : Machine} {e : ScriptError}
    (henter : Machine.enter limits 0 limits.maxSteps call world archive = .ok (terms, start))
    (hfinish : Machine.finish terms start = .error e final) :
    call.run limits world archive = .error e final.archive := by
  simp only [Invocation.run, henter, hfinish]

end ScriptLedger
