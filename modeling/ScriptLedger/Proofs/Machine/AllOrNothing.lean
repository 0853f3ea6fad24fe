import ScriptLedger.Proofs.Machine.Bounded
import ScriptLedger.Proofs.Machine.Fresh

/-!
# Transfers are all or nothing

A transfer writes both its puts into a snapshot of its own, and the script of the account that
was paid goes on from there.  There are many ways out: nobody can be paid, the script cannot
start, it fails, it returns, or there is none.  `Machine.Transfers` names them all, and says of
each of them what the snapshot and the callee are then; everything below is read off it.

That the callee is read back from the snapshot makes no difference when nothing was moved,
because the machine was coherent before.

## Main results

* `Machine.transfers_of_step` — a step with a transfer that returned takes one of these ways.
* `Machine.Transfers.moved_eq_false_iff` — it reports zero for one of five reasons, and for no
  other.
* `Invocation.transfer_all_or_nothing` — what a transfer that reports zero leaves as it was, and
  what one that reports one has changed.
-/

namespace ScriptLedger

open Sequencing Exec

variable {terms inner : Terms} {m m' start : Machine}
variable {target payer : Hash} {amount : Int64} {params : List Value} {moved : Bool}

namespace Machine

/-! ## What a step executes -/

theorem step_eq (terms : Terms) (m : Machine) : step terms m = stepWith finish terms m := by
  refine stepWith_congr fun inner start hcalls => ?_
  obtain ⟨hzero, hless⟩ := hcalls.budget_lt
  exact drive_eq_finish (by omega)

/-- How many instructions the script executes that a step calls: none if there is no such
script. -/
inductive Executes (terms : Terms) (m : Machine) : Nat → Prop
  | alone (halone : ∀ inner start, ¬Calls terms m inner start) : Executes terms m 0
  | calls {inner : Terms} {start : Machine} {trace : Trace}
      {ending : EStateM.Result ScriptError Machine Value} (hcalls : Calls terms m inner start)
      (hruns : Runs inner (.ok none start) trace ending) : Executes terms m trace.instructions

theorem exists_executes (hleft : m.steps < terms.budget) :
    ∃ executed, Executes terms m executed ∧
      (final (step terms m)).steps = m.steps + 1 + executed := by
  rw [step_eq]
  by_cases hcalls : ∃ inner start, Calls terms m inner start
  case neg =>
    have halone : ∀ inner start, ¬Calls terms m inner start :=
      fun inner start h => hcalls ⟨inner, start, h⟩
    exact ⟨0, .alone halone, steps_of_alone hleft halone⟩
  obtain ⟨inner, start, hcalls⟩ := hcalls
  obtain ⟨trace, hruns⟩ := exists_runs inner start
  refine ⟨_, .calls hcalls hruns, ?_⟩
  have hcount := hruns.steps_eq
  rw [final, hcalls.budget_lt.1, Nat.zero_add] at hcount
  rw [steps_of_calls hcalls, hcount]

theorem left_of_step {result : Option Value} (h : step terms m = .ok result m') :
    m.steps < terms.budget := by
  by_contra hspent
  rw [step_eq, stepWith_of_spent (Nat.le_of_not_lt hspent)] at h
  cases h

/-! ## The ways out of a transfer -/

/-- What a transfer that returned reports, and what the snapshot, the callee and the stores are
then. -/
inductive Transfers (terms : Terms) (m : Machine) (target : Hash) (amount : Int64)
    (params : List Value) : Bool → Machine → Prop
  /-- Nobody can be paid. -/
  | unpaid {m' : Machine}
      (hprepared : Prepared m.account m.world m.archive target amount params none m'.archive)
      (halone : ∀ inner start, ¬Calls terms m inner start)
      (hworld : m'.world = m.world) (haccount : m'.account = m.account) :
      Transfers terms m target amount params false m'
  /-- The account that was paid has no script. -/
  | silent {m' : Machine} {call : Invocation} {w : World}
      (hprepared : Prepared m.account m.world m.archive target amount params (some (call, w))
        m'.archive)
      (halone : ∀ inner start, ¬Calls terms m inner start)
      (hcode : call.callee.hasCode = false) (hworld : m'.world = w) :
      Transfers terms m target amount params true m'
  /-- Its script cannot start. -/
  | refused {m' : Machine} {call : Invocation} {w : World} {e : ScriptError}
      (hprepared : Prepared m.account m.world m.archive target amount params (some (call, w))
        m'.archive)
      (halone : ∀ inner start, ¬Calls terms m inner start)
      (hcode : call.callee.hasCode = true)
      (hentry : entry terms.limits (terms.depth + 1) call = .error e)
      (hworld : m'.world = m.world)
      (hback : m'.world.account? m'.archive m.account.address = .ok (some m'.account)) :
      Transfers terms m target amount params false m'
  /-- Its script has failed. -/
  | failed {m' inside last : Machine} {inner : Terms} {e : ScriptError}
      (hcalls : Calls terms m inner inside) (hrun : finish inner inside = .error e last)
      (hworld : m'.world = m.world)
      (hback : m'.world.account? m'.archive m.account.address = .ok (some m'.account)) :
      Transfers terms m target amount params false m'
  /-- Its script has returned. -/
  | returned {m' inside last : Machine} {call : Invocation} {w : World} {archive : Archive}
      {inner : Terms} {value : Value} {entered : Array Script.Item × Registers}
      (hprepared : Prepared m.account m.world m.archive target amount params (some (call, w))
        archive)
      (hgrows : archive.GrowsTo m'.archive)
      (hcode : call.callee.hasCode = true)
      (hentry : entry terms.limits (terms.depth + 1) call = .ok entered)
      (hcalls : Calls terms m inner inside) (hrun : finish inner inside = .ok value last)
      (hworld : m'.world = last.world) : Transfers terms m target amount params true m'

/-- The registers of a machine once its transfer is over: the operands have given way to the
report, and the script goes on with the next item. -/
def reported (m : Machine) (rest : Array Value) (moved : Bool) : Registers :=
  { stack := { m.registers.stack with entries := rest.push (.ofBool moved) }
    pc := m.registers.pc + 1, fp := m.registers.fp }

theorem conclude_eq_ok {result : Option Value}
    (h : (conclude moved >>= proceed : Exec (Option Value)) m = .ok result m') :
    result = none ∧
      m' = { m with registers := m.reported m.registers.stack.entries moved } := by
  obtain ⟨flow, _, hconclude, h⟩ := bind_eq_ok.mp h
  obtain ⟨_, _, hpush, hnext⟩ := bind_eq_ok.mp hconclude
  obtain ⟨stack, hstack, rfl⟩ := onStack_eq_ok.mp hpush
  rw [Stack.eq_of_push hstack] at hnext
  cases hnext
  cases h
  exact ⟨rfl, rfl⟩

/-- The order of a transfer that returned, taken apart into its operands and its payment. -/
theorem prepared_of_order {call : Option (Invocation × World)} {rest : Array Value}
    (hstack : m.registers.stack.entries =
      ((rest.push (.list params)).push (.bytes .hash target)).push (.int amount))
    (h : order m = .ok (payer, call) m') :
    0 ≤ amount.toInt ∧ payer = m.account.address ∧
      Prepared m.account m.world m.archive target amount params call m'.archive ∧
        m' = { withEntries m rest with archive := m'.archive } := by
  obtain ⟨rest', params', target', amount', hentries, hamount, hpayer, hprepare⟩ :=
    exists_prepare_of_order h
  rw [hstack] at hentries
  obtain ⟨hint, hentries⟩ := Array.push_eq_push.mp hentries
  obtain ⟨hhash, hentries⟩ := Array.push_eq_push.mp hentries
  obtain ⟨hlist, rfl⟩ := Array.push_eq_push.mp hentries
  cases hint
  cases hhash
  cases hlist
  obtain ⟨hprepared, hm'⟩ := prepared_of_prepare hprepare
  exact ⟨hamount, hpayer, hprepared, hm'⟩

/-- A step calls what its order says, if that starts. -/
theorem calls_iff_of_order {call : Option (Invocation × World)} {inside : Machine}
    (hleft : m.steps < terms.budget)
    (hitem : terms.item? m.registers.pc = some (.op (.account .transfer)))
    (horder : order m.counted = .ok (payer, call) m') :
    Calls terms m inner inside ↔ ∃ paid world, call = some (paid, world) ∧
      paid.callee.hasCode = true ∧ enter terms.limits (terms.depth + 1)
        (terms.budget - m'.steps) paid world m'.archive = .ok (inner, inside) := by
  constructor
  · rintro ⟨-, -, horder', hcode, henter⟩
    rw [horder] at horder'
    cases horder'
    exact ⟨_, _, rfl, hcode, henter⟩
  · rintro ⟨paid, world, rfl, hcode, henter⟩
    exact .intro hleft hitem horder hcode henter

/-- Once the payment is made, the transfer takes one of the ways out. -/
theorem transfers_of_settle {call : Option (Invocation × World)} {mid : Machine}
    (hleft : m.steps < terms.budget)
    (hitem : terms.item? m.registers.pc = some (.op (.account .transfer)))
    (horder : order m.counted = .ok (payer, call) mid)
    (hprepared : Prepared m.account m.world m.archive target amount params call mid.archive)
    (h : settle finish terms m.account.address call mid = .ok moved m') :
    Transfers terms m target amount params moved m' ∧ m'.registers = mid.registers := by
  obtain ⟨-, hstill, -⟩ := order_eq_ok horder
  have hcalls : ∀ inner inside, Calls terms m inner inside ↔ _ := fun _ _ =>
    calls_iff_of_order hleft hitem horder
  cases call with
  | none =>
      obtain ⟨rfl, rfl⟩ := pure_eq_ok.mp h
      refine ⟨.unpaid hprepared ?_ hstill.world hstill.account, rfl⟩
      intro inner inside h
      obtain ⟨_, _, hsome, -⟩ := (hcalls inner inside).mp h
      cases hsome
  | some paid =>
  obtain ⟨call, world⟩ := paid
  obtain ⟨last, account, hdeliver, hback, rfl⟩ := settle_eq_ok h
  cases answers_of_deliver hdeliver with
  | silent hcode =>
      refine ⟨.silent hprepared ?_ hcode rfl, rfl⟩
      intro inner inside h
      obtain ⟨_, _, hsome, hcode', -⟩ := (hcalls inner inside).mp h
      cases hsome
      rw [hcode] at hcode'
      cases hcode'
  | refused hcode henter =>
      refine ⟨.refused hprepared ?_ hcode (entry_of_enter_error henter) hstill.world hback, rfl⟩
      intro inner inside h
      obtain ⟨_, _, hsome, -, henter'⟩ := (hcalls inner inside).mp h
      cases hsome
      rw [henter] at henter'
      cases henter'
  | @returned inner inside last value hcode henter hrun =>
      have hgrows : mid.archive.GrowsTo last.archive := by
        have hlast := (grows_drive _ inner inside).1 value last hrun
        rw [Grows, (enter_eq_ok henter).2.2] at hlast
        exact hlast
      have hcall : Calls terms m inner inside := (hcalls _ _).mpr ⟨_, _, rfl, hcode, henter⟩
      exact ⟨.returned hprepared hgrows hcode (entry_of_enter henter) hcall hrun rfl, rfl⟩
  | failed hcode henter hrun =>
      have hcall := (hcalls _ _).mpr ⟨_, _, rfl, hcode, henter⟩
      exact ⟨.failed hcall hrun hstill.world hback, rfl⟩

/-- A step with a transfer that returned took one of the ways out. -/
theorem transfers_of_step {rest : Array Value} {result : Option Value}
    (hitem : terms.item? m.registers.pc = some (.op (.account .transfer)))
    (hstack : m.registers.stack.entries =
      ((rest.push (.list params)).push (.bytes .hash target)).push (.int amount))
    (h : step terms m = .ok result m') :
    ∃ moved mid, result = none ∧ m' = { mid with registers := m.reported rest moved } ∧
      0 ≤ amount.toInt ∧ Transfers terms m target amount params moved mid := by
  have hleft := left_of_step h
  rw [step_eq, stepWith_of_lt hleft, execute_transfer (m := m.counted) hitem] at h
  obtain ⟨⟨payer, call⟩, paid, horder, h⟩ := bind_eq_ok.mp h
  obtain ⟨moved, mid, hsettle, hconclude⟩ := bind_eq_ok.mp h
  obtain ⟨rfl, hm'⟩ := conclude_eq_ok hconclude
  obtain ⟨hamount, rfl, hprepared, hpaid⟩ := prepared_of_order (m := m.counted) hstack horder
  obtain ⟨htransfers, hregisters⟩ := transfers_of_settle hleft hitem horder hprepared hsettle
  refine ⟨moved, mid, rfl, ?_, hamount, htransfers⟩
  rw [hm']
  unfold reported
  rw [hregisters, hpaid]
  rfl

end Machine

/-! ## Payments that were made -/

section Paid

variable {source : Account} {w w' : World} {a a' : Archive} {call : Invocation}
variable (hw : w.WellFormed a) (hsource : w.Holds a source)

include hw hsource

/-- The snapshot between the two puts of a payment has less at the source, and is otherwise the
same. -/
theorem World.account?_debited {debited : Account} {between : World} {mid : Archive}
    (hdebit : source.addToBalance (-amount) = .ok debited)
    (hput : w.put debited a = .ok between mid) (hcol : mid.Collisionless) (address : Hash) :
    between.account? mid address =
      if address = source.address then .ok (some debited) else w.account? a address := by
  rw [World.account?_put hput hw (World.store_lt_of_account? hsource) hcol,
    (Account.persists_addToBalance hdebit).address_eq]

/-- A payment that was made has found both accounts; where they are one, the second put starts
from the first one. -/
theorem Exec.Prepared.exists_paid
    (h : Prepared source w a target amount params (some (call, w')) a')
    (hcol : a'.Collisionless) : ∃ debited recipient,
      source.addToBalance (-amount) = .ok debited ∧ w.account? a target = .ok (some recipient) ∧
      (if target = source.address then debited else recipient).addToBalance amount =
        .ok call.callee ∧
      call = { callee := call.callee, payers := [source.address], amount := amount,
               params := .values params } ∧
      ∀ address, w'.account? a' address =
        if address = target then .ok (some call.callee)
        else if address = source.address then .ok (some debited) else w.account? a address := by
  cases h with
  | @paid debited found credited between _ mid _ hthere hdebit hput hfound hcredit hput' =>
  have hcol' := (World.growsTo_of_put hput').collisionless hcol
  have hbetween := hw.put hput (World.store_lt_of_account? hsource) hcol'
  have hdebited := World.account?_debited hw hsource hdebit hput hcol'
  have hcredited : credited.address = target := by
    rw [(Account.persists_addToBalance hcredit).address_eq, hbetween.address_eq hfound]
  have hplaces : ∀ address, w'.account? a' address =
      if address = target then .ok (some credited)
      else if address = source.address then .ok (some debited) else w.account? a address := by
    intro address
    rw [World.account?_put hput' hbetween (World.store_lt_of_account? hfound) hcol, hcredited,
      hdebited]
  rw [hdebited] at hfound
  by_cases hself : target = source.address
  · rw [if_pos hself] at hfound
    cases hfound
    refine ⟨debited, source, hdebit, by rw [hself]; exact hsource, ?_, rfl, hplaces⟩
    rw [if_pos hself]
    exact hcredit
  · rw [if_neg hself] at hfound
    refine ⟨debited, found, hdebit, hfound, ?_, rfl, hplaces⟩
    rw [if_neg hself]
    exact hcredit

/-- The account that is called is a later state of the one that was there. -/
theorem Exec.Prepared.exists_persists
    (h : Prepared source w a target amount params (some (call, w')) a')
    (hcol : a'.Collisionless) :
    ∃ recipient, w.account? a target = .ok (some recipient) ∧ recipient.Persists call.callee := by
  obtain ⟨debited, recipient, hdebit, hfound, hcredit, -, -⟩ := h.exists_paid hw hsource hcol
  refine ⟨recipient, hfound, ?_⟩
  by_cases hself : target = source.address
  · rw [if_pos hself] at hcredit
    rw [hself, hsource] at hfound
    cases hfound
    exact (Account.persists_addToBalance hdebit).trans (Account.persists_addToBalance hcredit)
  · rw [if_neg hself] at hcredit
    exact Account.persists_addToBalance hcredit

end Paid

namespace Machine

/-! ## What was moved -/

/-- The snapshot of the second machine has so much less at the callee and so much more at the
target, and is otherwise that of the first one.  If the two are one, it is that altogether. -/
structure Shifts (m m' : Machine) (target : Hash) (amount : Int64) : Prop where
  known : ∀ address old, m.world.account? m.archive address = .ok (some old) →
    ∃ balance : UInt64, m'.world.account? m'.archive address = .ok (some { old with balance }) ∧
      (balance.toNat : Int) = old.balance.toNat
        - (if address = m.account.address then amount.toInt else 0)
        + (if address = target then amount.toInt else 0)
  free : ∀ address, m.world.account? m.archive address = .ok none →
    m'.world.account? m'.archive address = .ok none

theorem shifts_of_paid {call : Invocation} (hm : m.Coherent) (hamount : 0 ≤ amount.toInt)
    (hprepared : Prepared m.account m.world m.archive target amount params
      (some (call, m'.world)) m'.archive) (hcol : m'.archive.Collisionless) :
    m.Shifts m' target amount := by
  obtain ⟨debited, recipient, hdebit, hfound, hcredit, -, hplaces⟩ :=
    hprepared.exists_paid hm.wellFormed hm.holds hcol
  obtain ⟨hdebited, htaken⟩ := Account.addToBalance_eq_ok_iff.mp hdebit
  obtain ⟨hcredited, hgiven⟩ := Account.addToBalance_eq_ok_iff.mp hcredit
  rw [Word.toInt_neg_of_nonneg hamount] at htaken
  constructor
  · intro address old hold
    rw [hplaces]
    by_cases htarget : address = target
    · subst htarget
      rw [hfound] at hold
      cases hold
      rw [if_pos rfl, if_pos rfl]
      by_cases hself : address = m.account.address
      · -- What is taken from the account is given back to it.
        rw [if_pos hself] at hcredited hgiven ⊢
        have hholds := hm.holds
        rw [World.Holds, ← hself, hfound] at hholds
        cases hholds
        refine ⟨call.callee.balance, ?_, by omega⟩
        rw [hcredited, hdebited]
      · rw [if_neg hself] at hcredited hgiven ⊢
        refine ⟨call.callee.balance, ?_, by omega⟩
        rw [← hcredited]
    · by_cases hself : address = m.account.address
      · rw [if_neg htarget, if_neg htarget, if_pos hself, if_pos hself]
        have hholds := hm.holds
        rw [World.Holds, ← hself, hold] at hholds
        cases hholds
        refine ⟨debited.balance, by rw [← hdebited], by omega⟩
      · rw [if_neg htarget, if_neg htarget, if_neg hself, if_neg hself]
        exact ⟨old.balance, hold, by omega⟩
  · intro address hnone
    have htarget : address ≠ target := by
      rintro rfl
      rw [hfound] at hnone
      cases hnone
    have hself : address ≠ m.account.address := by
      rintro rfl
      have hholds := hm.holds
      rw [World.Holds, hnone] at hholds
      cases hholds
    rw [hplaces, if_neg htarget, if_neg hself]
    exact hnone

/-! ## Why nothing was moved -/

/-- Why a transfer moves nothing. -/
inductive Refuses (terms : Terms) (m : Machine) (target : Hash) (amount : Int64)
    (params : List Value) : Prop
  /-- There is no account at the target. -/
  | missing (hmissing : m.world.account? m.archive target = .ok none)
  /-- The callee has less than the amount. -/
  | poor (hpoor : (m.account.balance.toNat : Int) < amount.toInt)
  /-- Another account has too much to be given the amount. -/
  | full {recipient : Account} (hapart : target ≠ m.account.address)
      (hfound : m.world.account? m.archive target = .ok (some recipient))
      (hfull : UInt64.size ≤ (recipient.balance.toNat : Int) + amount.toInt)
  /-- The script at the target cannot start: it cannot be read, it would be nested too deep, or
  the stack does not take the entries. -/
  | unentered {recipient : Account} {e : ScriptError}
      (hfound : m.world.account? m.archive target = .ok (some recipient))
      (hcode : recipient.hasCode = true)
      (hentry : entry terms.limits (terms.depth + 1)
        { callee := recipient, payers := [m.account.address], amount := amount,
          params := .values params } = .error e)
  /-- The script at the target runs, and fails. -/
  | failed {inner : Terms} {inside last : Machine} {e : ScriptError}
      (hcalls : Calls terms m inner inside) (hrun : finish inner inside = .error e last)

/-- Whether a run can start depends on the script and the address of its callee. -/
theorem entry_congr {call : Invocation} {callee : Account} (h : callee.Persists call.callee)
    (limits : Limits) (depth : Nat) :
    entry limits depth call = entry limits depth { call with callee } := by
  have hentries : ∀ params, call.entries params =
      Invocation.entries { call with callee } params := by
    intro params
    unfold Invocation.entries
    rw [h.address_eq]
  unfold entry
  simp only [h.code, hentries]

/-- If nobody can be paid, it is for one of the first three reasons. -/
theorem refuses_of_unpaid {a : Archive} (hm : m.Coherent) (hamount : 0 ≤ amount.toInt)
    (h : Prepared m.account m.world m.archive target amount params none a)
    (hcol : a.Collisionless) : Refuses terms m target amount params := by
  cases h with
  | missing hthere => exact .missing (World.contains_eq_false_iff.mp hthere)
  | poor hdebit =>
      have houtside := Account.outside_of_addToBalance hdebit
      have hbound := m.account.balance.toNat_lt_size
      rw [Word.toInt_neg_of_nonneg hamount] at houtside
      exact .poor (by omega)
  | full hdebit hput hfound hcredit =>
      have houtside := Account.outside_of_addToBalance hcredit
      rw [World.account?_debited hm.wellFormed hm.holds hdebit hput hcol] at hfound
      by_cases hself : target = m.account.address
      · -- The account is given back what was taken from it, so there is room for it.
        rw [if_pos hself] at hfound
        cases hfound
        have htaken := Account.balance_of_debit hamount hdebit
        have hbound := m.account.balance.toNat_lt_size
        omega
      · rw [if_neg hself] at hfound
        exact .full hself hfound (by omega)

/-- If a payment was made, it was for none of them. -/
theorem Refuses.of_paid {a : Archive} {w : World} {call : Invocation} (hm : m.Coherent)
    (hamount : 0 ≤ amount.toInt)
    (hprepared : Prepared m.account m.world m.archive target amount params (some (call, w)) a)
    (hcol : a.Collisionless) (h : Refuses terms m target amount params) :
    (call.callee.hasCode = true ∧ ∃ e, entry terms.limits (terms.depth + 1) call = .error e) ∨
      ∃ inner inside last e, Calls terms m inner inside ∧ finish inner inside = .error e last := by
  obtain ⟨debited, recipient, hdebit, hfound, hcredit, hcall, -⟩ :=
    hprepared.exists_paid hm.wellFormed hm.holds hcol
  cases h with
  | missing hmissing =>
      rw [hfound] at hmissing
      cases hmissing
  | poor hpoor =>
      have htaken := Account.balance_of_debit hamount hdebit
      omega
  | full hapart hfound' hfull =>
      rw [hfound] at hfound'
      cases hfound'
      rw [if_neg hapart] at hcredit
      have hgiven := Account.balance_of_credit hamount hcredit
      have hbound := call.callee.balance.toNat_lt_size
      omega
  | @unentered _ e hfound' hcode hentry =>
      obtain ⟨recipient', hsame, hpersists⟩ :=
        hprepared.exists_persists hm.wellFormed hm.holds hcol
      rw [hsame] at hfound'
      cases hfound'
      refine .inl ⟨hpersists.hasCode_eq.trans hcode, e, ?_⟩
      rw [entry_congr hpersists, hcall]
      exact hentry
  | failed hcalls hrun => exact .inr ⟨_, _, _, _, hcalls, hrun⟩

namespace Transfers

/-- A transfer that moved nothing has left the snapshot and the callee as they were. -/
theorem unchanged (h : Transfers terms m target amount params false m') (hm : m.Coherent)
    (hgrows : m.Grows m') : m'.world = m.world ∧ m'.account = m.account := by
  have hread : m'.world = m.world →
      m'.world.account? m'.archive m.account.address = .ok (some m'.account) →
        m'.account = m.account := by
    intro hworld hback
    rw [hworld, hm.wellFormed.account?_growsTo hgrows, hm.holds] at hback
    exact (Option.some.inj (Except.ok.inj hback)).symm
  cases h with
  | unpaid hprepared halone hworld haccount => exact ⟨hworld, haccount⟩
  | refused hprepared halone hcode hentry hworld hback => exact ⟨hworld, hread hworld hback⟩
  | failed hcalls hrun hworld hback => exact ⟨hworld, hread hworld hback⟩

/-- A transfer moves nothing if there is a reason, and for no other. -/
theorem moved_eq_false_iff (h : Transfers terms m target amount params moved m')
    (hm : m.Coherent) (hamount : 0 ≤ amount.toInt) (hcol : m'.archive.Collisionless) :
    moved = false ↔ Refuses terms m target amount params := by
  cases h with
  | unpaid hprepared => exact iff_of_true rfl (refuses_of_unpaid hm hamount hprepared hcol)
  | refused hprepared halone hcode hentry =>
      obtain ⟨debited, _, -, -, -, hcall, -⟩ := hprepared.exists_paid hm.wellFormed hm.holds hcol
      obtain ⟨recipient, hfound, hpersists⟩ :=
        hprepared.exists_persists hm.wellFormed hm.holds hcol
      rw [entry_congr hpersists, hcall] at hentry
      exact iff_of_true rfl (.unentered hfound (hpersists.hasCode_eq.symm.trans hcode) hentry)
  | failed hcalls hrun => exact iff_of_true rfl (.failed hcalls hrun)
  | silent hprepared halone hcode =>
      refine iff_of_false (by simp) fun hrefuses => ?_
      rcases hrefuses.of_paid hm hamount hprepared hcol with
        ⟨hscript, -⟩ | ⟨inner, inside, -, -, hcalls, -⟩
      · rw [hcode] at hscript
        cases hscript
      · exact halone inner inside hcalls
  | returned hprepared hgrows hcode hentry hcalls hrun =>
      refine iff_of_false (by simp) fun hrefuses => ?_
      rcases hrefuses.of_paid hm hamount hprepared (hgrows.collisionless hcol) with
        ⟨-, e, hrefused⟩ | ⟨inner, inside, last, e, hcalls', hfailed⟩
      · rw [hentry] at hrefused
        cases hrefused
      · obtain ⟨rfl, rfl⟩ := hcalls.unique hcalls'
        rw [hrun] at hfailed
        cases hfailed

/-- A transfer to an account without script that moved anything has moved just the amount. -/
theorem shifts (h : Transfers terms m target amount params true m') (hm : m.Coherent)
    (hamount : 0 ≤ amount.toInt) (hcol : m'.archive.Collisionless) {recipient : Account}
    (hfound : m.world.account? m.archive target = .ok (some recipient))
    (hcode : recipient.hasCode = false) : m.Shifts m' target amount := by
  cases h with
  | silent hprepared halone hsilent hworld =>
      rw [← hworld] at hprepared
      exact shifts_of_paid hm hamount hprepared hcol
  | returned hprepared hgrows hscript =>
      obtain ⟨recipient', hfound', hpersists⟩ :=
        hprepared.exists_persists hm.wellFormed hm.holds (hgrows.collisionless hcol)
      rw [hfound'] at hfound
      cases hfound
      rw [hpersists.hasCode_eq, hcode] at hscript
      cases hscript

end Transfers

end Machine

namespace Invocation

/-- A transfer is all or nothing.  The machine is one that a run comes to, or one nested in it,
with the operands of a transfer on its stack, and the transfer returns; then it has counted
itself and what the script at the target has executed, its report stands in the place of the
operands, with nothing else changed in the registers, and the copy of the callee is what the
snapshot has.  If it reports zero, for one of the reasons there are, the snapshot and the callee
are what they were; if it reports one and there is no script at the target, the amount was moved
and nothing else has changed. -/
theorem transfer_all_or_nothing {call : Invocation} {limits : Limits} {depth budget : Nat}
    {w : World} {a : Archive} {first : Machine} {rest : Array Value} {result : Option Value}
    (hw : w.WellFormed a) (hcallee : w.Holds a call.callee)
    (henter : Machine.enter limits depth budget call w a = .ok (terms, start))
    (hstarts : Machine.Starts terms start inner first) (hadvances : Machine.Advances inner first m)
    (hitem : inner.item? m.registers.pc = some (.op (.account .transfer)))
    (hstack : m.registers.stack.entries =
      ((rest.push (.list params)).push (.bytes .hash target)).push (.int amount))
    (hstep : Machine.step inner m = .ok result m') (hcol : m'.archive.Collisionless) :
    ∃ moved executed, result = none ∧
      m'.registers = { stack := { m.registers.stack with entries := rest.push (.ofBool moved) }
                       pc := m.registers.pc + 1, fp := m.registers.fp } ∧
      Machine.Executes inner m executed ∧ m'.steps = m.steps + 1 + executed ∧
      m'.world.account? m'.archive m.account.address = .ok (some m'.account) ∧
      (moved = false ↔ Machine.Refuses inner m target amount params) ∧
      (moved = false → m'.world = m.world ∧ m'.account = m.account) ∧
      (moved = true → ∀ recipient, m.world.account? m.archive target = .ok (some recipient) →
        recipient.hasCode = false → m.Shifts m' target amount) := by
  have hleads := (Machine.leads_step inner m).1 _ _ hstep
  have hgrows : m.Grows m' := hleads.grows
  have hm := (hstarts.settles hadvances (Machine.coherent_of_enter hw hcallee henter)
    (Archive.GrowsTo.collisionless hgrows hcol)).coherent
  have hback : m'.world.account? m'.archive m.account.address = .ok (some m'.account) := by
    have hsettled := hleads.settles hm hcol
    rw [← hsettled.callee]
    exact hsettled.coherent.holds
  obtain ⟨executed, hexecutes, hcount⟩ := Machine.exists_executes (Machine.left_of_step hstep)
  rw [hstep, final] at hcount
  obtain ⟨moved, mid, rfl, rfl, hamount, htransfers⟩ :=
    Machine.transfers_of_step hitem hstack hstep
  refine ⟨moved, executed, rfl, rfl, hexecutes, hcount, hback,
    htransfers.moved_eq_false_iff hm hamount hcol, ?_, ?_⟩
  · rintro rfl
    exact htransfers.unchanged hm hgrows
  · rintro rfl recipient hfound hcode
    have hshifts := htransfers.shifts hm hamount hcol hfound hcode
    exact ⟨hshifts.known, hshifts.free⟩

namespace Payment

/-- The item is a transfer. -/
def isTransfer : Option Script.Item → Bool
  | some (.op (.account .transfer)) => true
  | _ => false

theorem eq_of_isTransfer {item : Option Script.Item} (h : isTransfer item = true) :
    item = some (.op (.account .transfer)) := by
  unfold isTransfer at h
  split at h
  · rfl
  · cases h

/-- What lies below the operands when the payer comes to its transfer: the entries that it was
called with. -/
def below : Array Value :=
  #[.bytes .hash Payment.payer.address, .list [], .int 0, .bytes .hash payee.address, .int (-1),
    .int (-1)]

/-- So many steps, one after the other. -/
def steps (terms : Terms) : Nat → Exec Unit
  | 0 => pure ()
  | n + 1 => do
    let _ ← Machine.step terms
    steps terms n

theorem advances_of_steps {first : Machine} {n : Nat} {u : Unit}
    (hfirst : Machine.Advances terms first m) (h : steps terms n m = .ok u m') :
    Machine.Advances terms first m' := by
  induction n generalizing m with
  | zero =>
      obtain ⟨-, rfl⟩ := pure_eq_ok.mp h
      exact hfirst
  | succ n ih =>
      obtain ⟨result, mid, hstep, h⟩ := bind_eq_ok.mp h
      exact ih (.step hfirst hstep) h

set_option synthInstance.maxSize 1024 in
set_option synthInstance.maxHeartbeats 400000 in
/-- Four steps bring the payer to its transfer, and the fifth one reports one. -/
theorem exists_transfer : ∃ w a, opening Archive.empty = .ok w a ∧ ∃ entered,
    Machine.enter {} 0 ({} : Limits).maxSteps order w a = .ok entered ∧
    ∃ u m, steps entered.1 4 entered.2 = .ok u m ∧
    isTransfer (entered.1.item? m.registers.pc) = true ∧
    m.registers.stack.entries =
      ((below.push (.list [])).push (.bytes .hash payee.address)).push (.int 3) ∧
    (∃ found, m.world.account? m.archive payee.address = .ok found ∧ found = some payee) ∧
    ∃ result m', Machine.step entered.1 m = .ok result m' ∧
      m'.registers.stack.entries.back? = some (.int 1) ∧ m'.archive.Collisionless := by
  decide +kernel

end Payment

/-- A transfer of three to an account without script. -/
theorem transfer_all_or_nothing_payment : ∃ w a terms start m result m',
    w.WellFormed a ∧ w.Holds a Payment.order.callee ∧
    Machine.enter {} 0 ({} : Limits).maxSteps Payment.order w a = .ok (terms, start) ∧
    Machine.Advances terms start m ∧
    Machine.step terms m = .ok result m' ∧ m'.archive.Collisionless ∧
    m'.registers.stack.entries = Payment.below.push (.ofBool true) ∧
    m.Shifts m' Payment.payee.address 3 := by
  obtain ⟨w, a, hopen, ⟨terms, start⟩, henter, _, m, hsteps, hitem, hstack, ⟨_, hpayee, rfl⟩,
    result, m', hstep, htop, hcol⟩ := Payment.exists_transfer
  have hadvances := Payment.advances_of_steps .here hsteps
  have hgrows : start.Grows m' := (Machine.Advances.step hadvances hstep).leads.grows
  have hopened : a.Collisionless := by
    rw [← (Machine.enter_eq_ok henter).2.2]
    exact Archive.GrowsTo.collisionless hgrows hcol
  obtain ⟨hw, hpayer⟩ := Payment.wellFormed_opening hopen hopened
  obtain ⟨moved, executed, -, hregisters, -, -, -, -, -, hshifts⟩ := transfer_all_or_nothing hw hpayer
    henter .outermost hadvances (Payment.eq_of_isTransfer hitem) hstack hstep hcol
  have hmoved : moved = true := by
    rw [hregisters, Array.back?_push] at htop
    cases moved with
    | true => rfl
    | false => cases htop
  subst hmoved
  refine ⟨w, a, terms, start, m, result, m', hw, hpayer, henter, hadvances, hstep, hcol, ?_, ?_⟩
  · rw [hregisters]
  · exact hshifts rfl Payment.payee hpayee (by decide)

end Invocation

end ScriptLedger
