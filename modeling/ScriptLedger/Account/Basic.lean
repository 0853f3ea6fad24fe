import ScriptLedger.Key.Signing
import ScriptLedger.Record.Basic
import ScriptLedger.Text.Blank

/-!
# Accounts

An account is a public key with a balance, a script that runs when it is paid,
and storage for that script.  It is a value: changing a balance or a slot makes
another account with the same key, and the key alone fixes the address.

Slots keep the order in which they were given, and a change replaces a value
in its place, so nothing else in the text of the record moves.
-/

namespace ScriptLedger

/-- An account record. -/
structure Account where
  pubKey : Pubkey
  balance : UInt64
  code : String
  ownerAccess : Bool
  storage : List Slot
deriving DecidableEq

namespace Account

/-! ## Reading -/

/-- The digest of the public key. -/
def address (account : Account) : Hash := account.pubKey.address

/-- Whether there is a script to run: code that is not all blanks. -/
def hasCode (account : Account) : Bool := Text.hasInk account.code

/-- The value of the slot with a name. -/
def slot? (account : Account) (name : String) : Option SlotValue :=
  (account.storage.find? fun slot => slot.name == name).map (·.value)

/-! ## Rules -/

/-- Checks slots against the names of those before them, then their keypairs. -/
def validateSlots (before : List String) : List Slot → Except RecordError Unit
  | [] => .ok ()
  | slot :: rest =>
    if slot.name ∈ before then .error (.duplicateStorageName slot.name)
    else
      match slot.value with
      | .bytes .keypair pair =>
        match Keypair.validate pair with
        | .error cause => .error (.invalidField "s_value" cause)
        | .ok () => validateSlots (slot.name :: before) rest
      | _ => validateSlots (slot.name :: before) rest

/-- The public key is a point, no two slots share a name, and every keypair in
a slot is consistent. -/
def validate (account : Account) : Except RecordError Unit :=
  match account.pubKey.validate with
  | .error cause => .error (.invalidField "pub_key" cause)
  | .ok () => validateSlots [] account.storage

/-- The account with the given fields, if it follows the rules. -/
def make (pubKey : Pubkey) (balance : UInt64) (code : String) (ownerAccess : Bool)
    (storage : List Slot) : Except RecordError Account :=
  let account : Account := { pubKey, balance, code, ownerAccess, storage }
  account.validate.map fun _ => account

/-- An account that was made has the given fields, and follows the rules. -/
theorem make_eq_ok {pubKey : Pubkey} {balance : UInt64} {code : String} {ownerAccess : Bool}
    {storage : List Slot} {account : Account}
    (h : make pubKey balance code ownerAccess storage = .ok account) :
    account = { pubKey, balance, code, ownerAccess, storage } ∧ account.validate = .ok () := by
  unfold make at h
  dsimp only at h
  cases hvalid : validate { pubKey, balance, code, ownerAccess, storage } with
  | error e => rw [hvalid] at h; cases h
  | ok u => rw [hvalid] at h; cases h; exact ⟨rfl, hvalid⟩

/-! ## Changes -/

/-- The account with an amount added to its balance, or taken from it. -/
def addToBalance (account : Account) (delta : Int64) : Except RecordError Account :=
  match Word.unsigned? (account.balance.toNat + delta.toInt) with
  | some balance => .ok { account with balance }
  | none => .error (.balanceOutOfRange account.balance delta)

/-- The slots with a value put into the first one of a name; the value must
have its type. -/
def setSlot (name : String) (value : SlotValue) : List Slot → Except RecordError (List Slot)
  | [] => .error (.unknownStorageSlot name)
  | slot :: rest =>
    if slot.name = name then
      if value.type = slot.value.type then .ok (⟨name, value⟩ :: rest)
      else .error (.storageTypeMismatch name slot.value.type value.type)
    else (setSlot name value rest).map (slot :: ·)

/-- The account with a value put into a slot. -/
def setStorage (account : Account) (name : String) (value : SlotValue) :
    Except RecordError Account :=
  (setSlot name value account.storage).map fun storage => { account with storage }

/-- A change of balance changes nothing else. -/
theorem addToBalance_eq_ok_iff {account result : Account} {delta : Int64} :
    account.addToBalance delta = .ok result ↔
      result = { account with balance := result.balance } ∧
        (result.balance.toNat : Int) = account.balance.toNat + delta.toInt := by
  unfold addToBalance
  cases h : Word.unsigned? (account.balance.toNat + delta.toInt) with
  | none =>
    simp only [reduceCtorEq, false_iff, not_and]
    intro _ hsum
    rw [← Word.unsigned?_eq_some_iff, h] at hsum
    cases hsum
  | some balance =>
    have hb := Word.unsigned?_eq_some_iff.mp h
    simp only [Except.ok.injEq]
    constructor
    · rintro rfl
      exact ⟨rfl, hb⟩
    · rintro ⟨hr, hsum⟩
      have : balance = result.balance := by
        rw [← UInt64.toNat_inj]; omega
      rw [hr, this]

/-! ## Documents -/

/-- The names of the members of an account, in the order of its fields. -/
def fieldNames : List String := ["pub_key", "balance", "code", "owner_access", "storage"]

/-- The document of an account. -/
def toJson (account : Account) : Json :=
  .object [("balance", .ofUInt64 account.balance), ("code", .text account.code),
    ("owner_access", .bool account.ownerAccess), ("pub_key", .ofBlob account.pubKey),
    ("storage", .array (account.storage.map Slot.toJson))]

/-- The account that a document writes, with no rule checked. -/
def ofJson? (j : Json) : Option Account := do
  match ← j.required? fieldNames with
  | [pubKey, balance, code, ownerAccess, storage] =>
    let pubKey ← pubKey.blob? .pubkey
    let balance ← balance.uint64?
    let code ← code.text?
    let ownerAccess ← ownerAccess.bool?
    let storage ← storage.list? Slot.ofJson?
    pure { pubKey, balance, code, ownerAccess, storage }
  | _ => none

instance : Record Account where
  toJson := toJson
  ofJson? := ofJson?
  validate := validate

end Account

end ScriptLedger
