import ScriptLedger.Proofs.Trie.Canonical
import ScriptLedger.Proofs.World.Relocation

/-!
# What can be done to a snapshot

A snapshot with a canonical trie takes any account whose digest is not zero, and what it
takes it holds, if the records around it have digests of their own.  So balances can be
changed as long as they stay in their range, and nothing else can go wrong on the way.

## Main results

* `World.Settled.exists_put` — an account can be put.
* `World.Settled.exists_pay`, `World.Settled.exists_charge` — balances can be changed.
* `World.Settled.exists_transit` — one account can pay another one.
* `World.transit_of_run` — what a transaction without inputs comes to.
* `World.exists_ofAccounts` — there is a snapshot of some accounts.
* `Trie.Covers.effect` — a snapshot that has all records already does not change.
-/

namespace ScriptLedger

open Sequencing

variable {J : Set Account} {a a' : Archive} {w w' : World} {account old new : Account}

/-- No two of the records have one digest, and no digest is zero. -/
structure Named (J : Set Account) : Prop where
  injOn : J.InjOn Record.hash
  nonzero : ∀ account ∈ J, Record.hash account ≠ Blob.zero

theorem named_of_nodup {accounts : List Account}
    (h : (Blob.zero :: accounts.map Record.hash).Nodup) : Named {x | x ∈ accounts} := by
  obtain ⟨hzero, hnodup⟩ := List.nodup_cons.mp h
  refine ⟨fun x hx y hy heq => List.inj_on_of_nodup_map hnodup hx hy heq, fun x hx heq => ?_⟩
  exact hzero (heq ▸ List.mem_map_of_mem hx)

/-! ## Nothing new -/

/-- A trie has the digests of all records at their addresses. -/
structure Trie.Covers (J : Set Account) (t : Trie) : Prop where
  canonical : t.Canonical
  find : ∀ account ∈ J, t.find account.address = some (Record.hash account)

namespace Trie.Covers

variable {callee : Hash}

/-- Putting an account that is there as it is changes nothing. -/
theorem put (hput : w.put account a = .ok w' a') (ha' : a'.Within J) (h : w.trie.Covers J) :
    w'.trie = w.trie := by
  obtain ⟨rfl, t, ht, rfl⟩ := World.put_eq_ok_iff.mp hput
  rw [eq_assign_of_put h.canonical ht, ← h.find account (ha' account List.mem_cons_self)]
  exact assign_find h.canonical _

/-- If all records in the stores are there as they are, no script changes the trie. -/
theorem effect (heffect : Effect callee a w a' w') (ha' : a'.Within J) (h : w.trie.Covers J) :
    w'.trie = w.trie := by
  induction heffect with
  | keep _ => rfl
  | write _ _ hput => exact h.put hput ha'
  | create _ _ _ hput => exact h.put hput ha'
  | pay _ hpay =>
      cases hpay with
      | intro _ _ hput _ _ hput' =>
          have hbetween := h.put hput (ha'.of_growsTo (World.growsTo_of_put hput'))
          exact (put hput' ha' (hbetween ▸ h)).trans hbetween
  | call _ _ _ ih => exact ih ha' h
  | trans _ hnext ih ih' =>
      have hmid := ih (ha'.of_growsTo hnext.growsTo) h
      exact (ih' ha' (hmid ▸ h)).trans hmid

end Trie.Covers

namespace World

/-! ## Accounts that are there -/

/-- Putting an account that is there as it is changes nothing. -/
theorem put_of_holds (h : w.Holds a account) (hhash : Record.hash account ≠ Blob.zero) :
    w.put account a = .ok w (a.insert w.store account) := by
  obtain ⟨hash, hget, hrecord⟩ := account?_eq_some_iff.mp h
  obtain rfl := Archive.hash_of_get? hrecord
  exact put_eq_ok_iff.mpr ⟨rfl, w.trie, Trie.put_of_get hget hhash, rfl⟩

theorem contains_of_holds (h : w.Holds a account) : w.contains account.address = .ok true := by
  obtain ⟨hash, hget, -⟩ := account?_eq_some_iff.mp h
  rw [contains, Trie.contains, hget]
  rfl

theorem credit_of_holds {amount : Int64} (h : w.Holds a old) (hadd : old.addToBalance amount = .ok new)
    (hput : w.put new a = .ok w' a') : credit old.address amount w a = .ok w' a' := by
  refine bind_eq_ok.mpr ⟨old, a, load_eq_ok.mpr ⟨h, rfl⟩, ?_⟩
  rw [hadd]
  exact adaptExcept_eq_ok.mpr hput

/-! ## Snapshots with canonical tries -/

/-- A snapshot that is there, with a canonical trie, in an archive with records from a
set. -/
structure Settled (J : Set Account) (a : Archive) (w : World) : Prop where
  within : a.Within J
  stored : w.Stored a
  canonical : w.trie.Canonical

/-- Accounts at other addresses than the given one are held as they were. -/
def KeepsBeside (address : Hash) (a : Archive) (w : World) (a' : Archive) (w' : World) : Prop :=
  ∀ other : Account, other.address ≠ address → w.Holds a other → w'.Holds a' other

namespace Settled

theorem exists_put (hJ : Named J) (h : w.Settled J a) (hmem : account ∈ J) :
    ∃ w' a', w.put account a = .ok w' a' ∧ w'.Settled J a' ∧ w'.Holds a' account ∧
      w.KeepsBeside account.address a a' w' := by
  have hhash := hJ.nonzero account hmem
  have hput : w.put account a =
      .ok { w with trie := w.trie.assign account.address (some (Record.hash account)) }
        (a.insert w.store account) :=
    put_eq_ok_iff.mpr ⟨rfl, _, Trie.put_eq h.canonical account.address hhash, rfl⟩
  have hwithin := h.within.insert hmem w.store
  have hcol := hwithin.collisionless hJ.injOn
  refine ⟨_, _, hput, ⟨hwithin, h.stored.put hput hcol, ?_⟩, ?_, fun other hother hheld => ?_⟩
  · exact h.canonical.assign_some account.address hhash
  · exact holds_put hput h.stored.wellFormed h.stored.lt_size hcol
  · exact holds_put_of_ne hput h.stored.wellFormed h.stored.lt_size hcol hheld hother

/-- A fork is settled too, and has the same accounts. -/
theorem exists_fork {ε : Type} (h : w.Settled J a) :
    ∃ w' a', (w.fork : Archived ε World) a = .ok w' a' ∧ w'.Settled J a' ∧
      ∀ account, w.Holds a account → w'.Holds a' account := by
  obtain ⟨w', a', hfork, hwithin, hstored, htrie⟩ :=
    fork_stored (ε := ε) h.within h.stored.wellFormed
  refine ⟨w', a', hfork, ⟨hwithin, hstored, htrie ▸ h.canonical⟩, fun account hheld => ?_⟩
  rw [Holds, (agrees_fork hfork).account?_eq]
  exact hheld

/-- A balance can be changed, if it stays in its range. -/
theorem exists_credit (hJ : Named J) (h : w.Settled J a) {amount : Int64}
    (hold : w.Holds a old) (hadd : old.addToBalance amount = .ok new) (hnew : new ∈ J) :
    ∃ w' a', credit old.address amount w a = .ok w' a' ∧ w'.Settled J a' ∧ w'.Holds a' new ∧
      w.KeepsBeside old.address a a' w' := by
  have hsame : new.address = old.address := by
    rw [(Account.addToBalance_eq_ok_iff.mp hadd).1]
    rfl
  obtain ⟨w', a', hput, hsettled, hholds, hkeeps⟩ := exists_put hJ h hnew
  rw [hsame] at hkeeps
  exact ⟨w', a', credit_of_holds hold hadd hput, hsettled, hholds, hkeeps⟩

/-- An account without script can be paid. -/
theorem exists_pay (hJ : Named J) (h : w.Settled J a) (limits : Limits) (payers : List Hash)
    (params : String) {value : UInt64} {amount : Int64} (hold : w.Holds a old)
    (hplain : old.hasCode = false) (hamount : delta value = .ok amount)
    (hadd : old.addToBalance amount = .ok new) (hnew : new ∈ J) :
    ∃ w' a', pay limits payers w ⟨old.address, params, value⟩ a = .ok w' a' ∧ w'.Settled J a' ∧
      w'.Holds a' new ∧ w.KeepsBeside old.address a a' w' := by
  obtain ⟨w', a', hcredit, hall⟩ := exists_credit hJ h hold hadd hnew
  refine ⟨w', a', bind_eq_ok.mpr ⟨old, a, load_eq_ok.mpr ⟨hold, rfl⟩, ?_⟩, hall⟩
  refine bind_eq_ok.mpr ⟨amount, a, ofExcept_eq_ok.mpr ⟨hamount, rfl⟩, ?_⟩
  refine bind_eq_ok.mpr ⟨w, a, ?_, hcredit⟩
  rw [runScript, hplain]
  rfl

/-- An account with enough balance can be charged. -/
theorem exists_charge (hJ : Named J) (h : w.Settled J a) {value : UInt64} {amount : Int64}
    (hold : w.Holds a old) (hamount : delta value = .ok amount)
    (hadd : old.addToBalance (-amount) = .ok new) (hnew : new ∈ J) :
    ∃ w' a', charge w ⟨old.address, value⟩ a = .ok w' a' ∧ w'.Settled J a' ∧ w'.Holds a' new ∧
      w.KeepsBeside old.address a a' w' := by
  obtain ⟨w', a', hcredit, hall⟩ := exists_credit hJ h hold hadd hnew
  exact ⟨w', a', bind_eq_ok.mpr ⟨amount, a, ofExcept_eq_ok.mpr ⟨hamount, rfl⟩, hcredit⟩, hall⟩

/-- One account pays another one without script, which gets the fee too. -/
theorem exists_transit (hJ : Named J) (h : w.Settled J a) (limits : Limits)
    {data : TransactionData} {payer payer' paid between paid' : Account} {params : String}
    {received spent : UInt64} {income outlay fee : Int64}
    (hinputs : data.inputs.filter (fun input => !input.isNull) = [⟨payer.address, spent⟩])
    (houtputs : data.outputs = [⟨paid.address, params, received⟩])
    (hpayer : w.Holds a payer) (hpaid : w.Holds a paid) (hne : paid.address ≠ payer.address)
    (hplain : paid.hasCode = false)
    (hincome : delta received = .ok income) (hmore : paid.addToBalance income = .ok between)
    (houtlay : delta spent = .ok outlay) (hless : payer.addToBalance (-outlay) = .ok payer')
    (hfee : delta data.fee = .ok fee) (hlast : between.addToBalance fee = .ok paid')
    (hmem : between ∈ J ∧ payer' ∈ J ∧ paid' ∈ J) :
    ∃ w' a', transit limits paid.address data w a = .ok w' a' ∧ w'.Settled J a' ∧
      w'.Holds a' payer' ∧ w'.Holds a' paid' := by
  have hbetween : between.address = paid.address :=
    (Account.persists_addToBalance hmore).address_eq
  have hpayer' : payer'.address = payer.address :=
    (Account.persists_addToBalance hless).address_eq
  obtain ⟨w₁, a₁, hpay, h₁, hpaid₁, hkeep₁⟩ :=
    h.exists_pay hJ limits [payer.address] params hpaid hplain hincome hmore hmem.1
  have hpayer₁ := hkeep₁ payer hne.symm hpayer
  obtain ⟨w₂, a₂, hcharge, h₂, hpayer₂, hkeep₂⟩ :=
    h₁.exists_charge hJ hpayer₁ houtlay hless hmem.2.1
  have hpaid₂ := hkeep₂ between (by rw [hbetween]; exact hne) hpaid₁
  obtain ⟨w₃, a₃, hcredit, h₃, hpaid₃, hkeep₃⟩ := h₂.exists_credit hJ hpaid₂ hlast hmem.2.2
  have hpayer₃ := hkeep₃ payer' (by rw [hpayer', hbetween]; exact hne.symm) hpayer₂
  refine ⟨w₃, a₃, ?_, h₃, hpayer₃, hpaid₃⟩
  rw [transit, hinputs, houtputs]
  refine bind_eq_ok.mpr ⟨w₁, a₁, bind_eq_ok.mpr ⟨w₁, a₁, hpay, rfl⟩, ?_⟩
  refine bind_eq_ok.mpr ⟨w₂, a₂, bind_eq_ok.mpr ⟨w₂, a₂, hcharge, rfl⟩, ?_⟩
  rw [hfee]
  rw [hbetween] at hcredit
  exact bind_eq_ok.mpr ⟨fee, a₂, rfl, hcredit⟩

end Settled

/-! ## A transaction without inputs -/

section Run

variable {limits : Limits} {data : TransactionData} {miner : Hash} {params : String}
variable {value : UInt64} {amount fee : Int64} {outcome : Outcome} {a₁ a₂ : Archive} {w₂ : World}

variable (hinputs : data.inputs.filter (fun input => !input.isNull) = [])
variable (houtputs : data.outputs = [⟨account.address, params, value⟩])
variable (hheld : w.Holds a account) (hcode : account.hasCode = true)
variable (hamount : delta value = .ok amount)

include hinputs houtputs hheld hcode hamount

/-- A transaction without inputs runs the script of the one account that it pays, and then pays
that account and the miner. -/
theorem transit_of_run
    (hrun : Invocation.run { callee := account, payers := [], amount, params := .script params }
      limits w a = .ok outcome a₁)
    (hcredit : credit account.address amount outcome.world a₁ = .ok w₂ a₂)
    (hfee : delta data.fee = .ok fee) (hlast : credit miner fee w₂ a₂ = .ok w' a') :
    transit limits miner data w a = .ok w' a' := by
  have hpay : pay limits [] w ⟨account.address, params, value⟩ a = .ok w₂ a₂ := by
    refine bind_eq_ok.mpr ⟨account, a, load_eq_ok.mpr ⟨hheld, rfl⟩, ?_⟩
    refine bind_eq_ok.mpr ⟨amount, a, ofExcept_eq_ok.mpr ⟨hamount, rfl⟩, ?_⟩
    refine bind_eq_ok.mpr ⟨outcome.world, a₁, ?_, hcredit⟩
    rw [runScript, if_pos hcode]
    exact bind_eq_ok.mpr ⟨outcome, a₁, adaptExcept_eq_ok.mpr hrun, rfl⟩
  rw [transit, hinputs, houtputs]
  refine bind_eq_ok.mpr ⟨w₂, a₂, bind_eq_ok.mpr ⟨w₂, a₂, hpay, rfl⟩, ?_⟩
  refine bind_eq_ok.mpr ⟨w₂, a₂, rfl, ?_⟩
  exact bind_eq_ok.mpr ⟨fee, a₂, ofExcept_eq_ok.mpr ⟨hfee, rfl⟩, hlast⟩

/-- If the script fails, so does the transaction. -/
theorem transit_of_run_error {cause : ScriptError}
    (hrun : Invocation.run { callee := account, payers := [], amount, params := .script params }
      limits w a = .error cause a₁) :
    transit limits miner data w a = .error (.script account.address cause) a₁ := by
  have hpay : pay limits [] w ⟨account.address, params, value⟩ a =
      .error (.script account.address cause) a₁ := by
    refine bind_eq_error.mpr (Or.inr ⟨account, a, load_eq_ok.mpr ⟨hheld, rfl⟩, ?_⟩)
    refine bind_eq_error.mpr (Or.inr ⟨amount, a, ofExcept_eq_ok.mpr ⟨hamount, rfl⟩, ?_⟩)
    refine bind_eq_error.mpr (Or.inl ?_)
    rw [runScript, if_pos hcode]
    exact bind_eq_error.mpr (Or.inl (adaptExcept_eq_error.mpr ⟨cause, hrun, rfl⟩))
  rw [transit, hinputs, houtputs]
  exact bind_eq_error.mpr (Or.inl (bind_eq_error.mpr (Or.inl hpay)))

end Run

/-! ## Some accounts -/

theorem exists_foldlM_put (hJ : Named J) {accounts : List Account}
    (haccounts : ∀ account ∈ accounts, account ∈ J) (h : w.Settled J a) :
    ∃ w' a', accounts.foldlM put w a = .ok w' a' ∧ w'.Settled J a' := by
  induction accounts generalizing w a with
  | nil => exact ⟨w, a, rfl, h⟩
  | cons account rest ih =>
      obtain ⟨hfirst, hrest⟩ := List.forall_mem_cons.mp haccounts
      obtain ⟨w₁, a₁, hput, h₁, -, -⟩ := h.exists_put hJ hfirst
      obtain ⟨w', a', hfold, h'⟩ := ih hrest h₁
      rw [List.foldlM_cons]
      exact ⟨w', a', bind_eq_ok.mpr ⟨w₁, a₁, hput, hfold⟩, h'⟩

/-- There is a snapshot of some accounts. -/
theorem exists_ofAccounts (hJ : Named J) {accounts : List Account}
    (haccounts : ∀ account ∈ accounts, account ∈ J) (ha : a.Within J) :
    ∃ w a', ofAccounts accounts a = .ok w a' ∧ w.Settled J a' := by
  have hempty : (World.empty a.addStore.1).Settled J a.addStore.2 :=
    ⟨ha, stored_empty a, Trie.canonical_empty⟩
  obtain ⟨w, a', hfold, h⟩ := exists_foldlM_put hJ haccounts hempty
  exact ⟨w, a', bind_eq_ok.mpr ⟨_, _, rfl, hfold⟩, h⟩

end World

end ScriptLedger
