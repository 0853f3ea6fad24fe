/-!
# Opcodes

The instructions of a script, grouped by what they touch.  All families but
the last work on the stack and the registers of one run; `AccountOp` is the
family that reads or writes accounts.  A name is matched without regard to the
case of ASCII letters.
-/

namespace ScriptLedger

/-- Digests, keys and signatures. -/
inductive CryptoOp
  | sha256
  | hash
  | pubkeyFromKeypair
  | verifySign
  | genPubkey
deriving Repr, DecidableEq

/-- The stack, by position from its top or its bottom. -/
inductive StackOp
  | dup
  | swap
  | swapAny
  | pushAbs
  | popAbs
  | pushFp
  | popFp
  | pushSp
  | popSp
  | popVoid
  | pushPc
deriving Repr, DecidableEq

/-- The stack, by position from the frame pointer. -/
inductive FrameOp
  | pushR
  | popR
  | incFp
deriving Repr, DecidableEq

/-- The order in which instructions run. -/
inductive ControlOp
  | jump
  | jumpR
  | jumpC
  | jumpRC
  | call
  | ret
deriving Repr, DecidableEq

/-- Two whole numbers to one. -/
inductive BinaryOp
  | add
  | sub
  | mul
  | div
  | mod
  | and
  | or
  | xor
  | le
  | ge
  | lt
  | gt
deriving Repr, DecidableEq

/-- Arithmetic and logic. -/
inductive ArithOp
  | binary (op : BinaryOp)
  | neg
  | not
  | equ
deriving Repr, DecidableEq

/-- Lists on the stack. -/
inductive ListOp
  | pack
  | unpack
deriving Repr, DecidableEq

/-- Accounts. -/
inductive AccountOp
  | getBal
  | getOwnBal
  | getStor
  | setStor
  | getCode
  | createContr
  | transfer
deriving Repr, DecidableEq

/-- An instruction. -/
inductive Opcode
  | crypto (op : CryptoOp)
  | stack (op : StackOp)
  | frame (op : FrameOp)
  | control (op : ControlOp)
  | arith (op : ArithOp)
  | list (op : ListOp)
  | account (op : AccountOp)
  | kill
deriving Repr, DecidableEq

namespace Opcode

/-! ## Names -/

/-- Every instruction with its name, in the order of the table. -/
def table : List (Opcode × String) :=
  [(.crypto .sha256, "OP_SHA256"), (.crypto .hash, "OP_HASH"),
    (.crypto .pubkeyFromKeypair, "OP_PUBKEYFROMKEYPAIR"),
    (.crypto .verifySign, "OP_VERIFYSIGN"), (.crypto .genPubkey, "OP_GENPUBKEY"),
    (.stack .dup, "OP_DUP"), (.stack .swap, "OP_SWAP"), (.stack .swapAny, "OP_SWAPANY"),
    (.stack .pushAbs, "OP_PUSHABS"), (.stack .popAbs, "OP_POPABS"),
    (.stack .pushFp, "OP_PUSHFP"), (.stack .popFp, "OP_POPFP"),
    (.stack .pushSp, "OP_PUSHSP"), (.stack .popSp, "OP_POPSP"),
    (.stack .popVoid, "OP_POPVOID"), (.stack .pushPc, "OP_PUSHPC"),
    (.frame .pushR, "OP_PUSHR"), (.frame .popR, "OP_POPR"), (.frame .incFp, "OP_INCFP"),
    (.control .jump, "OP_JUMP"), (.control .jumpR, "OP_JUMPR"),
    (.control .jumpC, "OP_JUMPC"), (.control .jumpRC, "OP_JUMPRC"),
    (.control .call, "OP_CALL"), (.control .ret, "OP_RET"),
    (.arith (.binary .add), "OP_ADD"), (.arith (.binary .sub), "OP_SUB"),
    (.arith (.binary .mul), "OP_MUL"), (.arith (.binary .div), "OP_DIV"),
    (.arith (.binary .mod), "OP_MOD"), (.arith (.binary .and), "OP_AND"),
    (.arith (.binary .or), "OP_OR"), (.arith (.binary .xor), "OP_XOR"),
    (.arith .neg, "OP_NEG"), (.arith .not, "OP_NOT"), (.arith .equ, "OP_EQU"),
    (.arith (.binary .le), "OP_LE"), (.arith (.binary .ge), "OP_GE"),
    (.arith (.binary .lt), "OP_LT"), (.arith (.binary .gt), "OP_GT"),
    (.list .pack, "OP_PACK"), (.list .unpack, "OP_UNPACK"),
    (.account .getBal, "OP_GETBAL"), (.account .getOwnBal, "OP_GETOWNBAL"),
    (.account .getStor, "OP_GETSTOR"), (.account .setStor, "OP_SETSTOR"),
    (.account .getCode, "OP_GETCODE"), (.account .createContr, "OP_CREATECONTR"),
    (.account .transfer, "OP_TRANSFER"), (.kill, "OP_KILL")]

/-- Every instruction, in the order of the table. -/
def all : List Opcode := table.map (·.1)

/-- The name of an instruction, in upper case. -/
def name (op : Opcode) : String :=
  match table.find? fun entry => entry.1 == op with
  | some entry => entry.2
  | none => ""

/-- The instruction with a name, in any case. -/
def ofName? (word : List Char) : Option Opcode :=
  (table.find? fun entry => entry.2.toList == word.map Char.toUpper).map (·.1)

/-- Whether an instruction reads or writes accounts. -/
def touchesState : Opcode → Bool
  | .account _ => true
  | _ => false

end Opcode

end ScriptLedger
