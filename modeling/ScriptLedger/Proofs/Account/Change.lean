import ScriptLedger.Account.Basic

/-!
# What a change of an account keeps

An account changes in two ways: its balance moves, or a slot gets another value
of its type.  Neither touches the key, the script, the owner flag or the names
and types of the slots, in their order.  `Account.Persists` says that much of an
account and a later state of it.

## Main results

* `Account.persists_addToBalance`, `Account.persists_setStorage` — the two
  changes keep it.
* `Account.balance_of_credit`, `Account.balance_of_debit` — what the change of a
  balance is worth when an amount is given or taken.
* `Account.outside_of_addToBalance` — a balance fails to change for one reason only.
-/

namespace ScriptLedger

/-- The negation of a word that is not negative is exact. -/
theorem Word.toInt_neg_of_nonneg {w : Int64} (h : 0 ≤ w.toInt) : (-w).toInt = -w.toInt := by
  have hlt := Int64.toInt_lt w
  rw [Int64.toInt_neg]
  exact Int.bmod_eq_of_le (by omega) (by omega)

/-- A whole number in the range of the unsigned words is the value of one. -/
theorem Word.exists_unsigned? {i : Int} (hlower : 0 ≤ i) (hupper : i < UInt64.size) :
    ∃ w, Word.unsigned? i = some w := by
  have hfits : i.toNat < UInt64.size := by omega
  refine ⟨.ofNat i.toNat, Word.unsigned?_eq_some_iff.mpr ?_⟩
  rw [UInt64.toNat_ofNat_of_lt' hfits, Int.toNat_of_nonneg hlower]

namespace Account

variable {old mid new account result : Account} {delta : Int64}

/-! ## What an account keeps -/

/-- The second account is a later state of the first one. -/
structure Persists (old new : Account) : Prop where
  pubKey : new.pubKey = old.pubKey
  code : new.code = old.code
  ownerAccess : new.ownerAccess = old.ownerAccess
  slots : (new.storage.map fun slot => (slot.name, slot.value.type)) =
    old.storage.map fun slot => (slot.name, slot.value.type)

namespace Persists

theorem refl (account : Account) : account.Persists account := ⟨rfl, rfl, rfl, rfl⟩

theorem trans (h : old.Persists mid) (h' : mid.Persists new) : old.Persists new where
  pubKey := h'.pubKey.trans h.pubKey
  code := h'.code.trans h.code
  ownerAccess := h'.ownerAccess.trans h.ownerAccess
  slots := h'.slots.trans h.slots

theorem address_eq (h : old.Persists new) : new.address = old.address := by
  rw [address, address, h.pubKey]

theorem hasCode_eq (h : old.Persists new) : new.hasCode = old.hasCode := by
  rw [hasCode, hasCode, h.code]

end Persists

/-! ## Balances -/

theorem persists_addToBalance (h : account.addToBalance delta = .ok result) :
    account.Persists result := by
  obtain ⟨hresult, -⟩ := addToBalance_eq_ok_iff.mp h
  rw [hresult]
  exact ⟨rfl, rfl, rfl, rfl⟩

theorem storage_addToBalance (h : account.addToBalance delta = .ok result) :
    result.storage = account.storage := by
  obtain ⟨hresult, -⟩ := addToBalance_eq_ok_iff.mp h
  rw [hresult]

theorem balance_addToBalance (h : account.addToBalance delta = .ok result) :
    (result.balance.toNat : Int) = account.balance.toNat + delta.toInt :=
  (addToBalance_eq_ok_iff.mp h).2

/-- What is given to an account is added to its balance. -/
theorem balance_of_credit {amount : Int64} (hamount : 0 ≤ amount.toInt)
    (h : account.addToBalance amount = .ok result) :
    result.balance.toNat = account.balance.toNat + amount.toInt.toNat := by
  have hsum := balance_addToBalance h
  omega

/-- What is taken from an account was in its balance. -/
theorem balance_of_debit {amount : Int64} (hamount : 0 ≤ amount.toInt)
    (h : account.addToBalance (-amount) = .ok result) :
    result.balance.toNat + amount.toInt.toNat = account.balance.toNat := by
  have hsum := balance_addToBalance h
  rw [Word.toInt_neg_of_nonneg hamount] at hsum
  omega

/-- A balance fails to change only if it would leave its range. -/
theorem outside_of_addToBalance {cause : RecordError}
    (h : account.addToBalance delta = .error cause) :
    (account.balance.toNat : Int) + delta.toInt < 0 ∨
      UInt64.size ≤ (account.balance.toNat : Int) + delta.toInt := by
  refine Decidable.byContradiction fun hinside => ?_
  obtain ⟨w, hw⟩ := Word.exists_unsigned? (i := account.balance.toNat + delta.toInt) (by omega)
    (by omega)
  unfold addToBalance at h
  rw [hw] at h
  cases h

/-! ## Slots -/

private theorem types_setSlot {name : String} {value : SlotValue} {slots slots' : List Slot}
    (h : setSlot name value slots = .ok slots') :
    (slots'.map fun slot => (slot.name, slot.value.type)) =
      slots.map fun slot => (slot.name, slot.value.type) := by
  induction slots generalizing slots' with
  | nil => cases h
  | cons slot rest ih =>
      unfold setSlot at h
      by_cases hname : slot.name = name
      · rw [if_pos hname] at h
        by_cases htype : value.type = slot.value.type
        · rw [if_pos htype] at h
          cases h
          simp [htype, hname]
        · rw [if_neg htype] at h
          cases h
      · rw [if_neg hname] at h
        cases hrest : setSlot name value rest with
        | error e => rw [hrest] at h; cases h
        | ok rest' =>
            rw [hrest] at h
            cases h
            rw [List.map_cons, List.map_cons, ih hrest]

variable {name : String} {value : SlotValue}

theorem persists_setStorage (h : account.setStorage name value = .ok result) :
    account.Persists result := by
  unfold setStorage at h
  cases hslots : setSlot name value account.storage with
  | error e => rw [hslots] at h; cases h
  | ok slots =>
      rw [hslots] at h
      cases h
      exact ⟨rfl, rfl, rfl, types_setSlot hslots⟩

theorem balance_setStorage (h : account.setStorage name value = .ok result) :
    result.balance = account.balance := by
  unfold setStorage at h
  cases hslots : setSlot name value account.storage with
  | error e => rw [hslots] at h; cases h
  | ok slots => rw [hslots] at h; cases h; rfl

end Account

end ScriptLedger
