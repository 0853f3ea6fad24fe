import ScriptLedger.Proofs.Account.Change
import ScriptLedger.Proofs.Record.Canonical

/-!
# Valid accounts

An account is checked when it is made and when it is read: its key is a point, its slots have
names of their own, and every keypair in a slot belongs together.  An update makes an account
too, and checks less.  It changes neither the key nor the names, so nothing can go wrong with
those; but a slot for a keypair takes any sixty-four bytes.  What comes out then is no account
that could be made or read.

## Main results

* `Account.valid_addToBalance` — a change of balance makes no account invalid.
* `Account.valid_setStorage_iff` — a change of a slot makes one invalid exactly if it puts two
  halves of a keypair together that do not belong to each other.
* `Account.Tampered.exists_invalid_setStorage` — which it can.
-/

namespace ScriptLedger

open Sequencing

/-- A keypair in a slot belongs together. -/
def SlotValue.Consistent : SlotValue → Prop
  | .bytes .keypair pair => Keypair.validate pair = .ok ()
  | _ => True

theorem Pubkey.validate_eq_ok_iff {key : Pubkey} :
    key.validate = .ok () ↔ (Curve.Point.decompress? key.bytes).isSome = true := by
  unfold Pubkey.validate
  by_cases hpoint : (Curve.Point.decompress? key.bytes).isSome = true <;> simp [hpoint]

namespace Account

/-- The account follows the rules. -/
def Valid (account : Account) : Prop := account.validate = .ok ()

variable {account result : Account} {before : List String} {slots slots' : List Slot}
variable {name : String} {value : SlotValue} {delta : Int64}

/-! ## What is checked -/

private theorem validateSlots_cons {slot : Slot} :
    validateSlots before (slot :: slots) = .ok () ↔
      slot.name ∉ before ∧ slot.value.Consistent ∧
        validateSlots (slot.name :: before) slots = .ok () := by
  rw [validateSlots]
  by_cases hbefore : slot.name ∈ before
  · simp [hbefore]
  rw [if_neg hbefore]
  obtain ⟨name, value⟩ := slot
  cases value with
  | int word => simp [SlotValue.Consistent, hbefore]
  | str text => simp [SlotValue.Consistent, hbefore]
  | bytes kind blob =>
      cases kind with
      | keypair =>
          rw [SlotValue.Consistent]
          dsimp only
          generalize Keypair.validate blob = checked
          cases checked with
          | error cause => simp
          | ok u => simp [hbefore]
      | hash => simp [SlotValue.Consistent, hbefore]
      | pubkey => simp [SlotValue.Consistent, hbefore]
      | signature => simp [SlotValue.Consistent, hbefore]

private theorem validateSlots_eq_ok_iff :
    validateSlots before slots = .ok () ↔
      (slots.map (·.name)).Nodup ∧ (∀ slot ∈ slots, slot.name ∉ before) ∧
        ∀ slot ∈ slots, slot.value.Consistent := by
  induction slots generalizing before with
  | nil => simp [validateSlots]
  | cons slot rest ih =>
      rw [validateSlots_cons, ih, List.map_cons, List.nodup_cons, List.forall_mem_cons,
        List.forall_mem_cons]
      simp only [List.mem_cons, not_or, List.mem_map, not_exists, not_and]
      constructor
      · rintro ⟨hfresh, hvalue, hnames, hothers, hvalues⟩
        exact ⟨⟨fun other hmem => (hothers other hmem).1, hnames⟩,
          ⟨hfresh, fun other hmem => (hothers other hmem).2⟩, hvalue, hvalues⟩
      · rintro ⟨⟨hdistinct, hnames⟩, ⟨hfresh, hothers⟩, hvalue, hvalues⟩
        exact ⟨hfresh, hvalue, hnames,
          fun other hmem => ⟨hdistinct other hmem, hothers other hmem⟩, hvalues⟩

/-- The key is checked, and then the slots. -/
private theorem validate_eq_ok_iff : account.validate = .ok () ↔
    account.pubKey.validate = .ok () ∧ validateSlots [] account.storage = .ok () := by
  -- The definition is opened as a function: to compare what it says of an account, the kernel
  -- would work the check of its key out.
  have hopen : Account.validate = Account.validate := rfl
  conv at hopen =>
    rhs
    delta Account.validate
  rw [hopen]
  dsimp only
  generalize account.pubKey.validate = checked
  cases checked with
  | error cause => simp
  | ok u => simp

/-- The rules of accounts. -/
theorem valid_iff : account.Valid ↔
    account.pubKey.validate = .ok () ∧ (account.storage.map (·.name)).Nodup ∧
      ∀ slot ∈ account.storage, slot.value.Consistent := by
  rw [Valid, validate_eq_ok_iff, validateSlots_eq_ok_iff]
  simp

/-- An account that was made is valid. -/
theorem valid_of_make {pubKey : Pubkey} {balance : UInt64} {code : String} {ownerAccess : Bool}
    (h : make pubKey balance code ownerAccess slots = .ok account) : account.Valid :=
  (make_eq_ok h).2

/-- A valid account is made of its fields. -/
theorem make_of_valid (h : account.Valid) :
    make account.pubKey account.balance account.code account.ownerAccess account.storage =
      .ok account := by
  obtain ⟨pubKey, balance, code, ownerAccess, storage⟩ := account
  unfold Valid at h
  unfold make
  dsimp only at h ⊢
  rw [h]
  rfl

/-- The accounts that are read back from their texts. -/
theorem read_text_iff :
    Record.read Account (Record.text account) = .ok account ↔ account.Valid :=
  Record.read_text_eq_ok_iff

/-! ## Updates -/

theorem valid_addToBalance (hvalid : account.Valid) (h : account.addToBalance delta = .ok result) :
    result.Valid := by
  have hpersists := persists_addToBalance h
  rw [valid_iff] at hvalid ⊢
  rw [hpersists.pubKey, storage_addToBalance h]
  exact hvalid

/-- A value goes into the first slot of a name, and nothing else is touched. -/
private theorem setSlot_eq_ok (h : setSlot name value slots = .ok slots') :
    ∃ first slot rest, slots = first ++ slot :: rest ∧
      slots' = first ++ ⟨name, value⟩ :: rest := by
  induction slots generalizing slots' with
  | nil => cases h
  | cons slot rest ih =>
      unfold setSlot at h
      by_cases hname : slot.name = name
      · rw [if_pos hname] at h
        by_cases htype : value.type = slot.value.type
        · rw [if_pos htype] at h
          cases h
          exact ⟨[], slot, rest, rfl, rfl⟩
        · rw [if_neg htype] at h
          cases h
      · rw [if_neg hname] at h
        obtain ⟨rest', hrest, rfl⟩ := except_map_eq_ok.mp h
        obtain ⟨first, found, after, rfl, rfl⟩ := ih hrest
        exact ⟨slot :: first, found, after, rfl, rfl⟩

/-- The names of the slots stay what they were. -/
private theorem names_setStorage (h : account.setStorage name value = .ok result) :
    result.storage.map (·.name) = account.storage.map (·.name) := by
  have hslots := congrArg (List.map Prod.fst) (persists_setStorage h).slots
  rw [List.map_map, List.map_map] at hslots
  exact hslots

/-- Put into a slot of a valid account, a value makes an invalid one exactly if it is a keypair
whose halves do not belong to each other. -/
theorem valid_setStorage_iff (hvalid : account.Valid)
    (h : account.setStorage name value = .ok result) : result.Valid ↔ value.Consistent := by
  rw [valid_iff] at hvalid
  obtain ⟨hkey, hnames, hvalues⟩ := hvalid
  rw [valid_iff, (persists_setStorage h).pubKey, names_setStorage h]
  obtain ⟨slots, hset, rfl⟩ := except_map_eq_ok.mp h
  obtain ⟨first, slot, rest, hold, rfl⟩ := setSlot_eq_ok hset
  rw [hold, List.forall_mem_append, List.forall_mem_cons] at hvalues
  obtain ⟨hfirst, -, hrest⟩ := hvalues
  simp only [List.forall_mem_append, List.forall_mem_cons]
  exact ⟨fun hresult => hresult.2.2.2.1, fun hvalue => ⟨hkey, hnames, hfirst, hvalue, hrest⟩⟩

end Account

/-! ## A keypair with a bit flipped -/

namespace Keypair

variable {pair : Keypair}

theorem validate_eq_ok_iff :
    validate pair = .ok () ↔ pair.toList.drop 32 = pair.derivedPubkey.toList := by
  -- Only the definition is opened: the public key of a seed is too long a computation to meet.
  have hopen : Keypair.validate = Keypair.validate := rfl
  conv at hopen =>
    rhs
    delta Keypair.validate
  rw [hopen]
  dsimp only
  generalize pair.derivedPubkey.toList = derived
  by_cases hhalves : pair.toList.drop 32 = derived <;> simp [hhalves]

/-- The keypair of a seed belongs together. -/
theorem validate_ofSeed (seed : Vector UInt8 32) : validate (ofSeed seed) = .ok () := by
  have hlist : (ofSeed seed).toList =
      seed.toList ++ (Secret.ofSeed seed.toList).pubkey.toList := by
    simp [ofSeed, Blob.toList]
  have hderived : (ofSeed seed).derivedPubkey = (Secret.ofSeed seed.toList).pubkey := by
    rw [derivedPubkey, secret, hlist, List.take_left' (by simp)]
  rw [validate_eq_ok_iff, hlist, hderived, List.drop_left' (by simp)]

/-- A keypair with the last bit flipped. -/
def flipped (pair : Keypair) : Keypair := ⟨pair.bytes.set 63 (pair.bytes[63] ^^^ 1)⟩

/-- The public half of a keypair cannot be changed by itself. -/
theorem validate_flipped (h : validate pair = .ok ()) : validate pair.flipped ≠ .ok () := by
  have hlist : pair.flipped.toList = pair.toList.set 63 (pair.bytes[63] ^^^ 1) := by
    rw [flipped, Blob.toList, Blob.toList, Vector.toList_set]
  have hderived : pair.flipped.derivedPubkey = pair.derivedPubkey := by
    rw [derivedPubkey, derivedPubkey, secret, secret, hlist, List.take_set_of_le (by omega)]
  intro hflipped
  rw [validate_eq_ok_iff] at h hflipped
  rw [hderived, ← h, hlist] at hflipped
  have hnew : (pair.toList.set 63 (pair.bytes[63] ^^^ 1))[63]? = some (pair.bytes[63] ^^^ 1) :=
    List.getElem?_set_self (by simp)
  have hold : pair.toList[63]? = some pair.bytes[63] := by simp [Blob.toList]
  have hlast := congrArg (·[31]?) hflipped
  simp only [List.getElem?_drop, hnew, hold, Option.some.injEq] at hlast
  generalize pair.bytes[63] = last at hlast
  have hsame : last ^^^ 1 = last ^^^ 0 := by rw [UInt8.xor_zero, hlast]
  exact absurd ((UInt8.xor_right_inj _).mp hsame) (by decide)

end Keypair

namespace Account

namespace Tampered

/-- A keypair that belongs together. -/
def pair : Keypair := Keypair.ofSeed (Vector.replicate 32 0)

/-- An account that keeps it. -/
def owner : Account :=
  { pubKey := ⟨Vector.replicate 32 1⟩, balance := 0, code := "", ownerAccess := true
    storage := [⟨"k", .bytes .keypair pair⟩] }

theorem storage_owner : owner.storage = [⟨"k", .bytes .keypair pair⟩] := rfl

theorem valid_owner : owner.Valid := by
  have hkey : owner.pubKey.validate = .ok () := by decide +kernel
  rw [valid_iff]
  refine ⟨hkey, by simp [storage_owner], ?_⟩
  simp only [storage_owner, List.forall_mem_cons]
  exact ⟨Keypair.validate_ofSeed _, nofun⟩

/-- The only slot of an account takes any keypair if it has one. -/
private theorem setStorage_single {account : Account} {name : String} {old : Keypair}
    (h : account.storage = [⟨name, .bytes .keypair old⟩]) (new : Keypair) :
    account.setStorage name (.bytes .keypair new) =
      .ok { account with storage := [⟨name, .bytes .keypair new⟩] } := by
  have hslot : setSlot name (.bytes .keypair new) [⟨name, .bytes .keypair old⟩] =
      .ok [⟨name, .bytes .keypair new⟩] := by
    rw [setSlot, if_pos rfl]
    exact if_pos rfl
  rw [setStorage, h, hslot]
  rfl

/-- A slot takes a keypair that does not belong together, and the account that comes out is
not read back from its text. -/
theorem exists_invalid_setStorage : ∃ (account result : Account) (name : String)
    (value : SlotValue), account.Valid ∧ account.setStorage name value = .ok result ∧
      ¬result.Valid ∧ Record.read Account (Record.text result) ≠ .ok result := by
  have hset := setStorage_single storage_owner pair.flipped
  have hinvalid : ¬Valid { owner with storage := [⟨"k", .bytes .keypair pair.flipped⟩] } := by
    rw [valid_setStorage_iff valid_owner hset]
    exact Keypair.validate_flipped (Keypair.validate_ofSeed _)
  exact ⟨owner, _, "k", _, valid_owner, hset, hinvalid,
    fun hread => hinvalid (read_text_iff.mp hread)⟩

end Tampered

end Account

end ScriptLedger
