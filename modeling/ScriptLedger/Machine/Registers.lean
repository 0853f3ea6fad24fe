import ScriptLedger.Key.Seeded
import ScriptLedger.Script.Stack

/-!
# Instructions on the registers

A run has three registers: the stack, the program counter and the frame
pointer.  The instructions of this module read and write nothing else, so what
a script can do to an account is none of their business.

Items are counted from one, so a program counter of one is the first.  The
frame pointer is the position of a saved frame pointer on the stack, with the
place to return to right above it.  `call` makes such a frame and `ret` drops
it: the stack is cut down to the frame, and the returned value is all that is
put back.
-/

namespace ScriptLedger

/-- The registers of a run. -/
structure Registers where
  stack : Stack
  pc : Int64
  fp : Int64
deriving DecidableEq

/-- A computation on registers.  What it did before a failure stays done. -/
abbrev RegisterM := EStateM ScriptError Registers

/-- Where a run goes on. -/
inductive Flow
  /-- With the item at a position. -/
  | goto (pc : Int64)
  /-- Nowhere: the run has returned a value. -/
  | halt (value : Value)

namespace Registers

/-- A computation on the stack alone. -/
def onStack {α : Type} (x : StackM α) : RegisterM α := fun ⟨stack, pc, fp⟩ =>
  match x stack with
  | .ok a stack => .ok a ⟨stack, pc, fp⟩
  | .error e stack => .error e ⟨stack, pc, fp⟩

/-- The height of the stack as a word. -/
def height (r : Registers) : Int64 := Int64.ofInt r.stack.size

/-- Pushes a value. -/
def push (value : Value) : RegisterM Unit := onStack (Stack.push value)

/-- Takes off a whole number. -/
def popInt (op : Opcode) : RegisterM Int64 := onStack (Stack.popInt op)

/-- Turns a missing result into a failure of arithmetic. -/
def exactly (op : Opcode) : Option Int64 → RegisterM Int64
  | some value => pure value
  | none => throw (.arithmetic op)

/-- The position at an offset from the frame pointer. -/
def frameSlot (op : Opcode) (offset : Int64) : RegisterM Int64 := do
  exactly op (Word.signed? ((← get).fp.toInt + offset.toInt))

/-- The program counter at an offset from the current one. -/
def relative (op : Opcode) (offset : Int64) : RegisterM Int64 := do
  exactly op (Word.signed? ((← get).pc.toInt + offset.toInt))

/-- The whole number at a position of the stack. -/
def intAt (op : Opcode) (index : Int64) : RegisterM Int64 := do
  let value ← onStack (Stack.getAt index)
  match value with
  | .int i => pure i
  | other => throw (.typeMismatch op (.aShape .int) other.shape)

end Registers

open Registers

/-! ## Digests, keys and signatures -/

/-- Runs an instruction on digests, keys and signatures. -/
def CryptoOp.run (op : CryptoOp) : StackM Unit :=
  let name := Opcode.crypto op
  match op with
  | .sha256 => do
    let text ← Stack.popStr name
    Stack.push (.bytes .hash (ScriptLedger.sha256 (Bytes.utf8 text)))
  | .hash => do
    let value ← Stack.pop
    Stack.push (.bytes .hash (ScriptLedger.sha256 value.preimage))
  | .pubkeyFromKeypair => do
    let pair : Keypair ← Stack.popBlob name .keypair
    Stack.push (.bytes .pubkey pair.derivedPubkey)
  | .verifySign => do
    let signature ← Stack.popBlob name .signature
    let hash ← Stack.popBlob name .hash
    let key : Pubkey ← Stack.popBlob name .pubkey
    Stack.push (.ofBool (key.verify hash signature))
  | .genPubkey => do
    let seed ← Stack.popInt name
    Stack.push (.bytes .pubkey (Keypair.ofNumber seed.toUInt64).derivedPubkey)

/-! ## Positions on the stack -/

/-- Runs an instruction on stack positions or on a register. -/
def StackOp.run (op : StackOp) : RegisterM Unit :=
  let name := Opcode.stack op
  match op with
  | .dup => onStack do Stack.push (← Stack.peek)
  | .swap => onStack (Stack.swapDown 1)
  | .swapAny => onStack do Stack.swapDown (← Stack.popIndex name)
  | .pushAbs => onStack do
    let index ← Stack.popInt name
    Stack.push (← Stack.getAt index)
  | .popAbs => onStack do
    let index ← Stack.popInt name
    let value ← Stack.pop
    Stack.setAt index value
  | .pushFp => do Registers.push (.int (← get).fp)
  | .popFp => do
    let fp ← Registers.popInt name
    modify fun r => { r with fp }
  | .pushSp => do Registers.push (.int (← get).height)
  | .popSp => onStack do Stack.truncate (← Stack.popIndex name)
  | .popVoid => onStack do let _ ← Stack.pop
  | .pushPc => do Registers.push (.int (← get).pc)

/-- Runs an instruction on positions relative to the frame pointer. -/
def FrameOp.run (op : FrameOp) : RegisterM Unit :=
  let name := Opcode.frame op
  match op with
  | .pushR => do
    let offset ← Registers.popInt name
    let index ← frameSlot name offset
    onStack do Stack.push (← Stack.getAt index)
  | .popR => do
    let offset ← Registers.popInt name
    let value ← onStack Stack.pop
    let index ← frameSlot name offset
    onStack (Stack.setAt index value)
  | .incFp => do
    let offset ← Registers.popInt name
    let fp ← frameSlot name offset
    modify fun r => { r with fp }

/-! ## Control flow -/

/-- Runs an instruction on the order of items. -/
def ControlOp.run (op : ControlOp) : RegisterM Flow :=
  let name := Opcode.control op
  match op with
  | .jump => do pure (.goto (← Registers.popInt name))
  | .jumpR => do
    let offset ← Registers.popInt name
    pure (.goto (← relative name offset))
  | .jumpC => do
    let target ← Registers.popInt name
    let condition ← Registers.popInt name
    if condition = 0 then pure (.goto ((← get).pc + 1)) else pure (.goto target)
  | .jumpRC => do
    let offset ← Registers.popInt name
    let condition ← Registers.popInt name
    if condition = 0 then pure (.goto ((← get).pc + 1))
    else pure (.goto (← relative name offset))
  | .call => do
    let target ← Registers.popInt name
    Registers.push (.int (← get).fp)
    modify fun r => { r with fp := r.height - 1 }
    Registers.push (.int ((← get).pc + 1))
    pure (.goto target)
  | .ret => do
    let value ← onStack Stack.pop
    let fp := (← get).fp
    let savedFp ← intAt name fp
    let returnPc ← intAt name (← frameSlot name 1)
    onStack (Stack.truncate fp.toInt.toNat)
    if returnPc = -1 then pure (.halt value)
    else
      modify fun r => { r with fp := savedFp }
      Registers.push value
      pure (.goto returnPc)

/-! ## Arithmetic and logic -/

/-- A truth value as a word. -/
def BinaryOp.truth (b : Bool) : Option Int64 := some (if b then 1 else 0)

/-- The result of an instruction on two numbers, the deeper one first.
Division goes toward minus infinity, a remainder has the sign of the divisor,
and neither is defined where the quotient is no word. -/
def BinaryOp.eval (op : BinaryOp) (a b : Int64) : Option Int64 :=
  let quotient : Option Int64 :=
    if b = 0 then none else Word.signed? (Int.fdiv a.toInt b.toInt)
  match op with
  | .add => Word.signed? (a.toInt + b.toInt)
  | .sub => Word.signed? (a.toInt - b.toInt)
  | .mul => Word.signed? (a.toInt * b.toInt)
  | .div => quotient
  | .mod => quotient.bind fun _ => Word.signed? (Int.fmod a.toInt b.toInt)
  | .and => some (a &&& b)
  | .or => some (a ||| b)
  | .xor => some (a ^^^ b)
  | .le => truth (a ≤ b)
  | .ge => truth (b ≤ a)
  | .lt => truth (a < b)
  | .gt => truth (b < a)

/-- Runs an instruction of arithmetic or logic. -/
def ArithOp.run (op : ArithOp) : StackM Unit :=
  let name := Opcode.arith op
  match op with
  | .binary op => do
    let first ← Stack.popInt name
    let second ← Stack.popInt name
    match op.eval second first with
    | some value => Stack.push (.int value)
    | none => throw (.arithmetic name)
  | .neg => do
    let value ← Stack.popInt name
    match Word.signed? (-value.toInt) with
    | some value => Stack.push (.int value)
    | none => throw (.arithmetic name)
  | .not => do
    let value ← Stack.popInt name
    if value = 0 ∨ value = 1 then Stack.push (.int (1 - value))
    else throw (.invalidOperand name value)
  | .equ => do
    let first ← Stack.pop
    let second ← Stack.pop
    Stack.push (.ofBool (second = first))

/-! ## Lists -/

/-- Runs an instruction on lists. -/
def ListOp.run (op : ListOp) : StackM Unit :=
  let name := Opcode.list op
  match op with
  | .pack => do
    let items ← Stack.popMany (← Stack.popIndex name)
    Stack.push (.list items)
  | .unpack => do
    let items ← Stack.popList name
    items.forM Stack.push
    Stack.push (.int (Int64.ofInt items.length))

end ScriptLedger
