import ScriptLedger.Proofs.Machine.Coherent
import ScriptLedger.Proofs.World.Fork

/-!
# What a script may touch

A script can move balances, fill slots of accounts that have a script, and make
accounts; it can do nothing else to the accounts, however the calls it makes are
nested.  Both statements below are about every run that returns, whatever its
limits, from a well-formed snapshot that holds the callee as it is called.

They assume that no two different records with one digest were ever given to a
store, those of failed attempts included; a store cannot tell such records apart.

## Main results

* `Invocation.supply_of_run` — the balances add up to what they added up to before.
* `Invocation.persists_of_run` — every account is there afterwards, and what of it
  may have changed.
-/

namespace ScriptLedger.Invocation

open Sequencing

/-! ## A payment -/

namespace Payment

/-- An account whose script pays three to the address in its param. -/
def payer : Account :=
  { pubKey := ⟨Vector.replicate 32 1⟩, balance := 5, code := "[] -1 OP_PUSHR 3 OP_TRANSFER OP_RET"
    ownerAccess := false, storage := [] }

/-- An account without script. -/
def payee : Account :=
  { pubKey := ⟨Vector.replicate 32 2⟩, balance := 1, code := "", ownerAccess := false
    storage := [] }

/-- The payer is called to pay the payee. -/
def order : Invocation :=
  { callee := payer, payers := [], amount := 0, params := .values [.bytes .hash payee.address] }

/-- The snapshot of the two. -/
def opening : Archived StateError World := World.ofAccounts [payee, payer]

/-- The two have addresses of their own, the payment is made, and no digests collide. -/
theorem exists_run : ([payee, payer].map Account.address).Nodup ∧
    ∃ w a, opening Archive.empty = .ok w a ∧ ∃ outcome a', order.run {} w a = .ok outcome a' ∧
      outcome.value = .int 1 ∧ a'.Collisionless := by
  decide +kernel

theorem wellFormed_opening {w : World} {a : Archive}
    (h : opening Archive.empty = .ok w a) (hcol : a.Collisionless) :
    w.WellFormed a ∧ w.Holds a order.callee := by
  obtain ⟨hw, hholds⟩ := World.wellFormed_ofAccounts h hcol
  exact ⟨hw, hholds exists_run.1 payer (by simp)⟩

end Payment

/-! ## Every run -/

variable {call : Invocation} {limits : Limits} {w : World} {a a' : Archive}
variable {outcome : Outcome}

/-- A script neither creates nor destroys value. -/
theorem supply_of_run (hw : w.WellFormed a) (hcallee : w.Holds a call.callee)
    (h : call.run limits w a = .ok outcome a') (hcol : a'.Collisionless) :
    outcome.world.WellFormed a' ∧
      ∃ total, w.supply a = .ok total ∧ outcome.world.supply a' = .ok total := by
  have heffect := effect_of_run hw hcallee h hcol
  have hw' := heffect.wellFormed hw hcol
  refine ⟨hw', w.total a, World.supply_eq hw, ?_⟩
  rw [World.supply_eq hw', heffect.total hw hcol]

theorem supply_of_payment : ∃ w a outcome a', w.WellFormed a ∧ w.Holds a Payment.order.callee ∧
    Payment.order.run {} w a = .ok outcome a' ∧ outcome.value = .int 1 ∧ a'.Collisionless ∧
      outcome.world.WellFormed a' ∧
        ∃ total, w.supply a = .ok total ∧ outcome.world.supply a' = .ok total := by
  obtain ⟨-, w, a, hopen, outcome, a', hrun, hvalue, hcol⟩ := Payment.exists_run
  obtain ⟨hw, hpayer⟩ :=
    Payment.wellFormed_opening hopen ((growsTo_of_run hrun).collisionless hcol)
  exact ⟨w, a, outcome, a', hw, hpayer, hrun, hvalue, hcol, supply_of_run hw hpayer hrun hcol⟩

/-- Every account is there after a run, with its key, its script, its owner flag
and its slots; one that has no script and was not called kept what is in the slots
and lost nothing; and a new one was put where none was. -/
theorem persists_of_run (hw : w.WellFormed a) (hcallee : w.Holds a call.callee)
    (h : call.run limits w a = .ok outcome a') (hcol : a'.Collisionless) :
    (∀ address old, w.account? a address = .ok (some old) →
      ∃ new, outcome.world.account? a' address = .ok (some new) ∧ old.Persists new ∧
        (old.hasCode = false → address ≠ call.callee.address →
          new.storage = old.storage ∧ old.balance ≤ new.balance)) ∧
    (∀ address new, outcome.world.account? a' address = .ok (some new) →
      (∀ old, w.account? a address ≠ .ok (some old)) →
        w.account? a address = .ok none ∧ new.pubKey.address = address) := by
  have hlater := (effect_of_run hw hcallee h hcol).later hw hcol
  constructor
  · intro address old hold
    have hafter := hlater address
    rw [hold] at hafter
    exact hafter.exists_new
  · intro address new hnew
    have hafter := hlater address
    rw [hnew] at hafter
    exact hafter.free_of_new

theorem persists_of_payment : ∃ w a outcome a', w.WellFormed a ∧ w.Holds a Payment.order.callee ∧
    Payment.order.run {} w a = .ok outcome a' ∧ outcome.value = .int 1 ∧ a'.Collisionless ∧
      ∀ address old, w.account? a address = .ok (some old) →
        ∃ new, outcome.world.account? a' address = .ok (some new) ∧ old.Persists new ∧
          (old.hasCode = false → address ≠ Payment.order.callee.address →
            new.storage = old.storage ∧ old.balance ≤ new.balance) := by
  obtain ⟨-, w, a, hopen, outcome, a', hrun, hvalue, hcol⟩ := Payment.exists_run
  obtain ⟨hw, hpayer⟩ :=
    Payment.wellFormed_opening hopen ((growsTo_of_run hrun).collisionless hcol)
  exact ⟨w, a, outcome, a', hw, hpayer, hrun, hvalue, hcol,
    (persists_of_run hw hpayer hrun hcol).1⟩

end ScriptLedger.Invocation
