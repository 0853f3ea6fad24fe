import ScriptLedger.Proofs.Account.Change
import ScriptLedger.Proofs.World.Supply

/-!
# What a script can do to a snapshot

A script reaches the accounts through four kinds of writes: a value into a slot
of the callee, a new account without balance at a free address, an amount from
the callee to a target, and whatever the script of a target does while it is
the callee in turn.  `Effect` is the smallest relation that has these and is
closed under sequence.  What failed attempts leave in the stores counts as no
effect.

Every statement about scripts and accounts is proved about this relation, by
induction on it; that runs have such effects is shown once, elsewhere.

## Main results

* `Effect.wellFormed` — a snapshot stays well formed.
* `Effect.total` — balances are moved, never made or destroyed.
* `Effect.later` — every account that was there is there in a later state, and
  one without script other than the callee kept its slots and lost nothing.
-/

namespace ScriptLedger

open World

/-! ## The relation -/

/-- An amount goes from the account at one address to the one at another, which
are written in this order.  The account that was paid comes out. -/
inductive Payment (payer target : Hash) (amount : Int64) (a : Archive) (w : World) :
    Account → Archive → World → Prop
  | intro {source debited recipient credited : Account} {mid a' : Archive} {between w' : World}
      (hsource : w.account? a payer = .ok (some source))
      (hdebit : source.addToBalance (-amount) = .ok debited)
      (hput : w.put debited a = .ok between mid)
      (hfound : between.account? mid target = .ok (some recipient))
      (hcredit : recipient.addToBalance amount = .ok credited)
      (hput' : between.put credited mid = .ok w' a') :
      Payment payer target amount a w credited a' w'

/-- What the script of a callee can do to a snapshot and the stores behind it. -/
inductive Effect : (callee : Hash) → Archive → World → Archive → World → Prop
  /-- Nothing but records that no snapshot names. -/
  | keep {callee : Hash} {a a' : Archive} {w : World} (h : a.GrowsTo a') :
      Effect callee a w a' w
  /-- A value goes into a slot of the callee. -/
  | write {callee : Hash} {a a' : Archive} {w w' : World} {old new : Account}
      {name : String} {value : SlotValue}
      (hold : w.account? a callee = .ok (some old))
      (hset : old.setStorage name value = .ok new)
      (hput : w.put new a = .ok w' a') : Effect callee a w a' w'
  /-- An account without balance appears at a free address. -/
  | create {callee : Hash} {a a' : Archive} {w w' : World} {new : Account}
      (hstore : w.store < a.stores.size)
      (hfree : w.account? a new.address = .ok none) (hbalance : new.balance = 0)
      (hput : w.put new a = .ok w' a') : Effect callee a w a' w'
  /-- The callee pays somebody. -/
  | pay {callee target : Hash} {amount : Int64} {a a' : Archive} {w w' : World}
      {account : Account} (hamount : 0 ≤ amount.toInt)
      (hpay : Payment callee target amount a w account a' w') : Effect callee a w a' w'
  /-- The script of another account runs. -/
  | call {callee target : Hash} {a a' : Archive} {w w' : World} {account : Account}
      (htarget : w.account? a target = .ok (some account)) (hcode : account.hasCode = true)
      (h : Effect target a w a' w') : Effect callee a w a' w'
  /-- One thing after the other. -/
  | trans {callee : Hash} {a a' a'' : Archive} {w w' w'' : World}
      (h : Effect callee a w a' w') (h' : Effect callee a' w' a'' w'') :
      Effect callee a w a'' w''

/-- The answer at an address before and after a script ran.  An account that
was there is there in a later state; if it has no script and is not the callee,
its slots are the same and it lost nothing. -/
inductive Later (callee address : Hash) :
    Except StateError (Option Account) → Except StateError (Option Account) → Prop
  | same (answer : Except StateError (Option Account)) : Later callee address answer answer
  | created {new : Account} (h : new.address = address) :
      Later callee address (.ok none) (.ok (some new))
  | changed {old new : Account} (hpersists : old.Persists new)
      (hplain : old.hasCode = false → address ≠ callee →
        new.storage = old.storage ∧ old.balance ≤ new.balance) :
      Later callee address (.ok (some old)) (.ok (some new))

variable {a a' : Archive} {w w' : World} {callee payer target address : Hash}
variable {account old new : Account} {amount : Int64}

/-! ## Stores and well-formedness -/

namespace Payment

theorem growsTo (h : Payment payer target amount a w account a' w') : a.GrowsTo a' := by
  cases h with
  | intro hsource hdebit hput hfound hcredit hput' =>
      exact (growsTo_of_put hput).trans (growsTo_of_put hput')

theorem wellFormed (h : Payment payer target amount a w account a' w') (hw : w.WellFormed a)
    (hcol : a'.Collisionless) : w'.WellFormed a' := by
  cases h with
  | intro hsource hdebit hput hfound hcredit hput' =>
      have hcol' := (growsTo_of_put hput').collisionless hcol
      have hbetween := hw.put hput (store_lt_of_account? hsource) hcol'
      exact hbetween.put hput' (store_lt_of_account? hfound) hcol

/-- The account that was paid is recorded as it came out. -/
theorem holds (h : Payment payer target amount a w account a' w') (hw : w.WellFormed a)
    (hcol : a'.Collisionless) : w'.Holds a' account ∧ account.address = target := by
  cases h with
  | intro hsource hdebit hput hfound hcredit hput' =>
      have hcol' := (growsTo_of_put hput').collisionless hcol
      have hbetween := hw.put hput (store_lt_of_account? hsource) hcol'
      refine ⟨holds_put hput' hbetween (store_lt_of_account? hfound) hcol, ?_⟩
      rw [(Account.persists_addToBalance hcredit).address_eq, hbetween.address_eq hfound]

end Payment

namespace Effect

theorem growsTo (h : Effect callee a w a' w') : a.GrowsTo a' := by
  induction h with
  | keep h => exact h
  | write hold hset hput => exact growsTo_of_put hput
  | create hstore hfree hbalance hput => exact growsTo_of_put hput
  | pay hamount hpay => exact hpay.growsTo
  | call htarget hcode h ih => exact ih
  | trans h h' ih ih' => exact ih.trans ih'

theorem wellFormed (h : Effect callee a w a' w') (hw : w.WellFormed a)
    (hcol : a'.Collisionless) : w'.WellFormed a' := by
  induction h with
  | keep h => exact hw.growsTo h
  | write hold hset hput => exact hw.put hput (store_lt_of_account? hold) hcol
  | create hstore hfree hbalance hput => exact hw.put hput hstore hcol
  | pay hamount hpay => exact hpay.wellFormed hw hcol
  | call htarget hcode h ih => exact ih hw hcol
  | trans h h' ih ih' => exact ih' (ih hw (h'.growsTo.collisionless hcol)) hcol

end Effect

/-! ## Balances -/

/-- Replacing an account moves the total by the change of its balance. -/
theorem World.total_replace (hput : w.put new a = .ok w' a') (hw : w.WellFormed a)
    (hcol : a'.Collisionless) (hold : w.account? a address = .ok (some old))
    (hnew : old.Persists new) :
    w'.total a' + old.balance.toNat = w.total a + new.balance.toNat := by
  have haddress : new.address = address := by rw [hnew.address_eq, hw.address_eq hold]
  have hfound : w.account? a new.address = .ok (some old) := by rw [haddress, hold]
  exact total_put hput hw (store_lt_of_account? hold) hcol hfound

theorem Payment.total (h : Payment payer target amount a w account a' w')
    (hamount : 0 ≤ amount.toInt) (hw : w.WellFormed a) (hcol : a'.Collisionless) :
    w'.total a' = w.total a := by
  cases h with
  | intro hsource hdebit hput hfound hcredit hput' =>
      have hcol' := (growsTo_of_put hput').collisionless hcol
      have hbetween := hw.put hput (store_lt_of_account? hsource) hcol'
      have htaken := total_replace hput hw hcol' hsource (Account.persists_addToBalance hdebit)
      have hgiven :=
        total_replace hput' hbetween hcol hfound (Account.persists_addToBalance hcredit)
      have hdebited := Account.balance_of_debit hamount hdebit
      have hcredited := Account.balance_of_credit hamount hcredit
      omega

/-- Scripts move balances; they never make or destroy any. -/
theorem Effect.total (h : Effect callee a w a' w') (hw : w.WellFormed a)
    (hcol : a'.Collisionless) : w'.total a' = w.total a := by
  induction h with
  | keep h => exact total_growsTo hw h
  | write hold hset hput =>
      have hreplace := total_replace hput hw hcol hold (Account.persists_setStorage hset)
      rw [Account.balance_setStorage hset] at hreplace
      omega
  | create hstore hfree hbalance hput =>
      have hadd := total_put hput hw hstore hcol hfree
      rw [hbalance] at hadd
      exact hadd
  | pay hamount hpay => exact hpay.total hamount hw hcol
  | call htarget hcode h ih => exact ih hw hcol
  | trans h h' ih ih' =>
      have hcol' := h'.growsTo.collisionless hcol
      rw [ih' (h.wellFormed hw hcol') hcol, ih hw hcol']

/-! ## Accounts one by one -/

namespace Later

variable {x y z : Except StateError (Option Account)}

theorem trans (h : Later callee address x y) (h' : Later callee address y z) :
    Later callee address x z := by
  cases h with
  | same => exact h'
  | created hnew =>
      cases h' with
      | same => exact .created hnew
      | changed hpersists hplain => exact .created (by rw [hpersists.address_eq, hnew])
  | changed hpersists hplain =>
      cases h' with
      | same => exact .changed hpersists hplain
      | changed hpersists' hplain' =>
          refine .changed (hpersists.trans hpersists') fun hcode hne => ?_
          obtain ⟨hstorage, hbalance⟩ := hplain hcode hne
          obtain ⟨hstorage', hbalance'⟩ := hplain' (by rw [hpersists.hasCode_eq, hcode]) hne
          exact ⟨hstorage'.trans hstorage, UInt64.le_trans hbalance hbalance'⟩

/-- An account that was there is there in a later state. -/
theorem exists_new (h : Later callee address (.ok (some old)) y) :
    ∃ new, y = .ok (some new) ∧ old.Persists new ∧
      (old.hasCode = false → address ≠ callee →
        new.storage = old.storage ∧ old.balance ≤ new.balance) := by
  cases h with
  | same => exact ⟨old, rfl, .refl old, fun _ _ => ⟨rfl, UInt64.le_refl _⟩⟩
  | changed hpersists hplain => exact ⟨_, rfl, hpersists, hplain⟩

/-- An account that was not there before appeared at a free address, its own. -/
theorem free_of_new (h : Later callee address x (.ok (some new)))
    (hnew : ∀ old, x ≠ .ok (some old)) : x = .ok none ∧ new.address = address := by
  cases h with
  | same => exact absurd rfl (hnew new)
  | created haddress => exact ⟨rfl, haddress⟩
  | changed hpersists hplain => exact absurd rfl (hnew _)

/-- Who the callee is matters for accounts without script only. -/
theorem of_call (h : Later target address x y)
    (hcode : address = target → ∀ account, x = .ok (some account) → account.hasCode = true) :
    Later callee address x y := by
  cases h with
  | same => exact .same _
  | created hnew => exact .created hnew
  | changed hpersists hplain =>
      refine .changed hpersists fun hnone _ => hplain hnone fun heq => ?_
      rw [hcode heq _ rfl] at hnone
      cases hnone

variable (callee) in
/-- One account replaced by a later state of it. -/
theorem of_replace (hput : w.put new a = .ok w' a') (hw : w.WellFormed a)
    (hcol : a'.Collisionless) {place : Hash} (hold : w.account? a place = .ok (some old))
    (hnew : old.Persists new)
    (hplain : old.hasCode = false → place ≠ callee →
      new.storage = old.storage ∧ old.balance ≤ new.balance) (address : Hash) :
    Later callee address (w.account? a address) (w'.account? a' address) := by
  have hplace : new.address = place := by rw [hnew.address_eq, hw.address_eq hold]
  rw [account?_put hput hw (store_lt_of_account? hold) hcol, hplace]
  by_cases haddress : address = place
  · rw [if_pos haddress, haddress, hold]
    exact .changed hnew hplain
  · rw [if_neg haddress]
    exact .same _

end Later

theorem Payment.later (h : Payment callee target amount a w account a' w')
    (hamount : 0 ≤ amount.toInt) (hw : w.WellFormed a) (hcol : a'.Collisionless)
    (address : Hash) : Later callee address (w.account? a address) (w'.account? a' address) := by
  cases h with
  | intro hsource hdebit hput hfound hcredit hput' =>
      have hcol' := (growsTo_of_put hput').collisionless hcol
      have hbetween := hw.put hput (store_lt_of_account? hsource) hcol'
      have htaken := Later.of_replace callee hput hw hcol' hsource
        (Account.persists_addToBalance hdebit) (fun _ hne => absurd rfl hne) address
      have hgiven := Later.of_replace callee hput' hbetween hcol hfound
        (Account.persists_addToBalance hcredit)
        (fun _ _ => ⟨Account.storage_addToBalance hcredit, by
          have hcredited := Account.balance_of_credit hamount hcredit
          rw [UInt64.le_iff_toNat_le]
          omega⟩) address
      exact htaken.trans hgiven

/-- Whatever scripts do, each account is there in a later state. -/
theorem Effect.later (h : Effect callee a w a' w') (hw : w.WellFormed a)
    (hcol : a'.Collisionless) (address : Hash) :
    Later callee address (w.account? a address) (w'.account? a' address) := by
  induction h with
  | keep h =>
      rw [hw.account?_growsTo h]
      exact .same _
  | write hold hset hput =>
      exact Later.of_replace _ hput hw hcol hold (Account.persists_setStorage hset)
        (fun _ hne => absurd rfl hne) address
  | @create callee a a' w w' new hstore hfree hbalance hput =>
      rw [account?_put hput hw hstore hcol]
      by_cases haddress : address = new.address
      · rw [if_pos haddress, haddress, hfree]
        exact .created rfl
      · rw [if_neg haddress]
        exact .same _
  | pay hamount hpay => exact hpay.later hamount hw hcol address
  | call htarget hcode h ih =>
      refine (ih hw hcol).of_call ?_
      rintro rfl account haccount
      rw [htarget] at haccount
      cases haccount
      exact hcode
  | trans h h' ih ih' =>
      have hcol' := h'.growsTo.collisionless hcol
      exact (ih hw hcol').trans (ih' (h.wellFormed hw hcol') hcol)

end ScriptLedger
