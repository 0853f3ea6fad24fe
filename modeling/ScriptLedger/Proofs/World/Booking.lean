import ScriptLedger.Proofs.World.Effect

/-!
# Bookings

A transaction runs scripts and books amounts to balances, one after the other.
`Booked entries` says that this is how one snapshot came from another and which
amounts were booked, in their order; a booking below zero takes from a balance.
Scripts book nothing, since what they move they move between accounts.

## Main results

* `Booked.total` — the total moves by the sum of the bookings.
* `Booked.spared` — an account without script keeps everything but its balance,
  and loses no more than the bookings took from it.
-/

namespace ScriptLedger

open World

/-! ## Entries -/

/-- An amount for the account at an address. -/
structure Booking where
  address : Hash
  amount : Int

namespace Booking

/-- What bookings are worth together. -/
def sum (entries : List Booking) : Int := (entries.map amount).sum

/-- What bookings take from an address. -/
def taken (address : Hash) (entries : List Booking) : Nat :=
  (entries.map fun entry => if entry.address = address then (-entry.amount).toNat else 0).sum

theorem sum_append (entries more : List Booking) :
    sum (entries ++ more) = sum entries + sum more := by
  rw [sum, List.map_append, List.sum_append, sum, sum]

theorem taken_append (address : Hash) (entries more : List Booking) :
    taken address (entries ++ more) = taken address entries + taken address more := by
  rw [taken, List.map_append, List.sum_append, taken, taken]

/-! ### Several of one kind -/

section Items

variable {ι : Type} (items : List ι) (place : ι → Hash) (value : ι → Nat) (address : Hash)

theorem sum_credits :
    sum (items.map fun item => ⟨place item, (value item : Int)⟩) = (items.map value).sum := by
  induction items with
  | nil => rfl
  | cons item rest ih =>
      unfold sum at ih ⊢
      simp only [List.map_cons, List.sum_cons, ih]
      omega

theorem sum_debits :
    sum (items.map fun item => ⟨place item, -(value item : Int)⟩) = -(items.map value).sum := by
  induction items with
  | nil => rfl
  | cons item rest ih =>
      unfold sum at ih ⊢
      simp only [List.map_cons, List.sum_cons, ih]
      omega

theorem taken_credits :
    taken address (items.map fun item => ⟨place item, (value item : Int)⟩) = 0 := by
  induction items with
  | nil => rfl
  | cons item rest ih =>
      unfold taken at ih ⊢
      simp only [List.map_cons, List.sum_cons, ih]
      by_cases haddress : place item = address
      · rw [if_pos haddress]
        omega
      · rw [if_neg haddress]

theorem taken_debits :
    taken address (items.map fun item => ⟨place item, -(value item : Int)⟩) =
      ((items.filter fun item => place item = address).map value).sum := by
  induction items with
  | nil => rfl
  | cons item rest ih =>
      unfold taken at ih ⊢
      simp only [List.map_cons, List.sum_cons, ih]
      by_cases haddress : place item = address
      · rw [if_pos haddress, List.filter_cons_of_pos (by simp [haddress]), List.map_cons,
          List.sum_cons]
        omega
      · rw [if_neg haddress, List.filter_cons_of_neg (by simp [haddress])]
        omega

end Items

end Booking

/-! ## The relation -/

/-- Scripts ran and amounts were booked, in this order. -/
inductive Booked : List Booking → Archive → World → Archive → World → Prop
  /-- Nothing has happened. -/
  | nothing (a : Archive) (w : World) : Booked [] a w a w
  /-- The script of an account ran. -/
  | script {a a' : Archive} {w w' : World} {callee : Account} (hcallee : w.Holds a callee)
      (hcode : callee.hasCode = true) (h : Effect callee.address a w a' w') :
      Booked [] a w a' w'
  /-- An amount was booked. -/
  | entry {a a' : Archive} {w w' : World} {address : Hash} {amount : Int64}
      {old new : Account} (hold : w.account? a address = .ok (some old))
      (hadd : old.addToBalance amount = .ok new) (hput : w.put new a = .ok w' a') :
      Booked [⟨address, amount.toInt⟩] a w a' w'
  /-- One thing after the other. -/
  | trans {a a' a'' : Archive} {w w' w'' : World} {entries more : List Booking}
      (h : Booked entries a w a' w') (h' : Booked more a' w' a'' w'') :
      Booked (entries ++ more) a w a'' w''

variable {a a' : Archive} {w w' : World} {address : Hash} {old new : Account}
variable {entries : List Booking}

namespace Booked

theorem growsTo (h : Booked entries a w a' w') : a.GrowsTo a' := by
  induction h with
  | nothing a w => exact .refl a
  | script hcallee hcode h => exact h.growsTo
  | entry hold hadd hput => exact growsTo_of_put hput
  | trans h h' ih ih' => exact ih.trans ih'

theorem wellFormed (h : Booked entries a w a' w') (hw : w.WellFormed a)
    (hcol : a'.Collisionless) : w'.WellFormed a' := by
  induction h with
  | nothing a w => exact hw
  | script hcallee hcode h => exact h.wellFormed hw hcol
  | entry hold hadd hput => exact hw.put hput (store_lt_of_account? hold) hcol
  | trans h h' ih ih' => exact ih' (ih hw (h'.growsTo.collisionless hcol)) hcol

/-- The total moves by what was booked. -/
theorem total (h : Booked entries a w a' w') (hw : w.WellFormed a) (hcol : a'.Collisionless) :
    (w'.total a' : Int) = w.total a + Booking.sum entries := by
  induction h with
  | nothing a w => simp [Booking.sum]
  | script hcallee hcode h =>
      rw [h.total hw hcol]
      simp [Booking.sum]
  | @entry a a' w w' address amount old new hold hadd hput =>
      have hreplace := total_replace hput hw hcol hold (Account.persists_addToBalance hadd)
      have hbalance := Account.balance_addToBalance hadd
      have hsum : Booking.sum [⟨address, amount.toInt⟩] = amount.toInt := by simp [Booking.sum]
      omega
  | @trans a a' a'' w w' w'' entries more h h' ih ih' =>
      have hcol' := h'.growsTo.collisionless hcol
      have hfirst := ih hw hcol'
      have hsecond := ih' (h.wellFormed hw hcol') hcol
      have hsum := Booking.sum_append entries more
      omega

end Booked

/-! ## Accounts without script -/

/-- The second account is the first one but for its balance, and lost no more than
so much. -/
structure Account.Spared (lost : Nat) (old new : Account) : Prop where
  persists : old.Persists new
  storage : new.storage = old.storage
  balance : old.balance.toNat ≤ new.balance.toNat + lost

theorem Account.Spared.refl (account : Account) : account.Spared 0 account :=
  ⟨.refl account, rfl, Nat.le_refl _⟩

theorem Account.Spared.trans {mid : Account} {lost more : Nat} (h : old.Spared lost mid)
    (h' : mid.Spared more new) : old.Spared (lost + more) new where
  persists := h.persists.trans h'.persists
  storage := h'.storage.trans h.storage
  balance := by
    have hfirst := h.balance
    have hsecond := h'.balance
    omega

/-- An account without script loses no more than was booked against it. -/
theorem Booked.spared (h : Booked entries a w a' w') (hw : w.WellFormed a)
    (hcol : a'.Collisionless) (hold : w.account? a address = .ok (some old))
    (hplain : old.hasCode = false) :
    ∃ new, w'.account? a' address = .ok (some new) ∧
      old.Spared (Booking.taken address entries) new := by
  induction h generalizing old with
  | nothing a w => exact ⟨old, hold, .refl old⟩
  | @script a a' w w' callee hcallee hcode h =>
      -- The callee has a script, so it is another account.
      have hne : address ≠ callee.address := by
        rintro rfl
        rw [World.Holds, hold] at hcallee
        cases hcallee
        rw [hplain] at hcode
        cases hcode
      have hlater := h.later hw hcol address
      rw [hold] at hlater
      obtain ⟨new, hnew, hpersists, hkept⟩ := hlater.exists_new
      obtain ⟨hstorage, hbalance⟩ := hkept hplain hne
      exact ⟨new, hnew, hpersists, hstorage, UInt64.le_iff_toNat_le.mp hbalance⟩
  | @entry a a' w w' place amount source result hsource hadd hput =>
      have hpersists := Account.persists_addToBalance hadd
      have hplace : result.address = place := by
        rw [hpersists.address_eq, hw.address_eq hsource]
      rw [account?_put hput hw (store_lt_of_account? hsource) hcol, hplace]
      by_cases haddress : address = place
      · rw [haddress, hsource] at hold
        cases hold
        rw [if_pos haddress]
        refine ⟨result, rfl, hpersists, Account.storage_addToBalance hadd, ?_⟩
        have hbalance := Account.balance_addToBalance hadd
        have htaken : Booking.taken address [⟨place, amount.toInt⟩] = (-amount.toInt).toNat := by
          simp [Booking.taken, haddress]
        omega
      · rw [if_neg haddress]
        refine ⟨old, hold, .refl old, rfl, Nat.le_add_right _ _⟩
  | @trans a a' a'' w w' w'' entries more h h' ih ih' =>
      have hcol' := h'.growsTo.collisionless hcol
      obtain ⟨mid, hmid, hfirst⟩ := ih hw hcol' hold hplain
      have hplain' : mid.hasCode = false := by rw [hfirst.persists.hasCode_eq, hplain]
      obtain ⟨new, hnew, hsecond⟩ := ih' (h.wellFormed hw hcol') hcol hmid hplain'
      refine ⟨new, hnew, ?_⟩
      rw [Booking.taken_append]
      exact hfirst.trans hsecond

end ScriptLedger
