import ScriptLedger.World.Basic

/-!
# The first state

Every chain begins with one account, the factory.  Its script makes an account
from five params, the slots' values and names, an owner flag, a script and a
public key.  The factory's key is a constant of the ledger, and so is its
address.
-/

namespace ScriptLedger.Genesis

/-- The public key of the factory. -/
def pubkey : Pubkey :=
  ⟨#v[0xae, 0x2f, 0x6b, 0x31, 0x7a, 0x09, 0x2d, 0x72, 0x22, 0x26, 0xeb, 0x84, 0x37, 0xf3, 0x8b,
    0x25, 0x0f, 0x29, 0xac, 0x22, 0xf9, 0xd1, 0x89, 0x51, 0x2a, 0xdd, 0xe4, 0xdd, 0xf9, 0x21,
    0xc3, 0x19]⟩

/-- The script of the factory: its five params and the instruction that makes
an account of them. -/
def code : String :=
  "-5 OP_PUSHR -4 OP_PUSHR -3 OP_PUSHR -2 OP_PUSHR -1 OP_PUSHR OP_CREATECONTR OP_RET"

/-- The factory. -/
def account : Account :=
  { pubKey := pubkey, balance := 0, code, ownerAccess := false, storage := [] }

/-- The address of the factory. -/
def address : Hash := account.address

/-- The state that holds the factory alone, over a new store. -/
def world : Archived StateError World := do
  let store ← modifyGet Archive.addStore
  (World.empty store).put account

end ScriptLedger.Genesis
