import ScriptLedger.Proofs.Machine.Likeness
import ScriptLedger.Proofs.World.Transition

/-!
# Transactions on alike snapshots

A transaction looks at accounts by the same operations as a script, so what can be
applied to one snapshot can be applied to an alike one, and the results are alike.  The
scripts of its outputs must not be blinded; a failure to answer outside of a script
rejects the transaction, and then there is nothing to compare.

## Main results

* `Likeness.transit_of_transit` — a transaction on alike snapshots.
-/

namespace ScriptLedger

open Sequencing

variable {a a' b b' : Archive} {w w' v v' : World} {limits : Limits} {payers : List Hash}

/-- The script that an output runs, and the snapshot that it is run on, after the outputs
before it. -/
inductive World.Runs (limits : Limits) (payers : List Hash) (outputs : List Output) (w : World)
    (a : Archive) (call : Invocation) (w' : World) (a' : Archive) : Prop
  | intro {before after : List Output} {output : Output} {target : Account} {amount : Int64}
      (houtputs : outputs = before ++ output :: after)
      (hbefore : before.foldlM (World.pay limits payers) w a = .ok w' a')
      (htarget : w'.account? a' output.address = .ok (some target))
      (hamount : World.delta output.value = .ok amount)
      (hcode : target.hasCode = true)
      (hcall : call = { callee := target, payers, amount, params := .script output.params })

namespace Likeness

variable {L : Likeness}

variable (L) in
/-- Two snapshots over their stores are alike. -/
structure Alike (a : Archive) (w : World) (b : Archive) (v : World) : Prop where
  stores : L.stores a b
  worlds : L.worlds a w b v

theorem account?_of_account? (halike : L.Alike a w b v) {address : Hash} {account : Account}
    (h : w.account? a address = .ok (some account)) :
    v.account? b address = .ok (some account) := by
  rcases L.account? halike.stores halike.worlds address with ⟨cause, -, hnone⟩ | hsame
  · rw [h] at hnone
    cases hnone
  · rw [← hsame, h]

theorem credit_of_credit (halike : L.Alike a w b v) {address : Hash} {amount : Int64}
    (h : World.credit address amount w a = .ok w' a') (hfinal : L.final a') :
    ∃ v' b', World.credit address amount v b = .ok v' b' ∧ L.Alike a' w' b' v' := by
  obtain ⟨old, new, hold, hadd, hput⟩ := World.credit_eq_ok h
  obtain ⟨v', b', hput', hstores, hworlds⟩ := L.put_ok halike.stores halike.worlds hfinal hput
  have hload := World.load_eq_ok.mpr ⟨account?_of_account? halike hold, rfl⟩
  refine ⟨v', b', bind_eq_ok.mpr ⟨old, b, hload, ?_⟩, hstores, hworlds⟩
  rw [hadd]
  exact adaptExcept_eq_ok.mpr hput'

theorem runScript_of_runScript (halike : L.Alike a w b v) {output : Output} {amount : Int64}
    {target : Account}
    (hseen : target.hasCode = true → ¬ Invocation.Blinded L
      { callee := target, payers, amount, params := .script output.params } limits w a)
    (h : World.runScript limits payers output amount target w a = .ok w' a')
    (hfinal : L.final a') :
    ∃ v' b', World.runScript limits payers output amount target v b = .ok v' b' ∧
      L.Alike a' w' b' v' := by
  unfold World.runScript at h ⊢
  by_cases hcode : target.hasCode = true
  case neg =>
    rw [if_neg hcode] at h ⊢
    obtain ⟨rfl, rfl⟩ := pure_eq_ok.mp h
    exact ⟨v, b, rfl, halike⟩
  rw [if_pos hcode] at h ⊢
  obtain ⟨outcome, mid, hrun, h⟩ := bind_eq_ok.mp h
  obtain ⟨rfl, rfl⟩ := pure_eq_ok.mp h
  obtain ⟨outcome', b', hrun', -, -, hstores, hworlds⟩ :=
    run_of_run halike.stores halike.worlds (hseen hcode) (adaptExcept_eq_ok.mp hrun) hfinal
  exact ⟨outcome'.world, b', bind_eq_ok.mpr ⟨outcome', b', adaptExcept_eq_ok.mpr hrun', rfl⟩,
    hstores, hworlds⟩

theorem pay_of_pay (halike : L.Alike a w b v) {output : Output}
    (hseen : ∀ target amount, w.account? a output.address = .ok (some target) →
      World.delta output.value = .ok amount → target.hasCode = true →
        ¬ Invocation.Blinded L { callee := target, payers, amount, params := .script output.params }
          limits w a)
    (h : World.pay limits payers w output a = .ok w' a') (hfinal : L.final a') :
    ∃ v' b', World.pay limits payers v output b = .ok v' b' ∧ L.Alike a' w' b' v' := by
  obtain ⟨target, _, hload, h₁⟩ := bind_eq_ok.mp h
  obtain ⟨htarget, rfl⟩ := World.load_eq_ok.mp hload
  obtain ⟨amount, _, hamount, h₂⟩ := bind_eq_ok.mp h₁
  obtain ⟨hdelta, rfl⟩ := ofExcept_eq_ok.mp hamount
  obtain ⟨between, mid, hscript, hcredit⟩ := bind_eq_ok.mp h₂
  have hfinal' : L.final mid :=
    L.final_of_growsTo ((World.books_credit _ _).growsTo hcredit) hfinal
  obtain ⟨between', mid', hscript', halike'⟩ :=
    runScript_of_runScript halike (hseen target amount htarget hdelta) hscript hfinal'
  obtain ⟨v', b', hcredit', halike''⟩ := credit_of_credit halike' hcredit hfinal
  have hload' := World.load_eq_ok.mpr ⟨account?_of_account? halike htarget, rfl⟩
  refine ⟨v', b', bind_eq_ok.mpr ⟨target, b, hload', bind_eq_ok.mpr ⟨amount, b, ?_, ?_⟩⟩, halike''⟩
  · exact ofExcept_eq_ok.mpr ⟨hdelta, rfl⟩
  · exact bind_eq_ok.mpr ⟨between', mid', hscript', hcredit'⟩

theorem charge_of_charge (halike : L.Alike a w b v) {input : Input}
    (h : World.charge w input a = .ok w' a') (hfinal : L.final a') :
    ∃ v' b', World.charge v input b = .ok v' b' ∧ L.Alike a' w' b' v' := by
  obtain ⟨amount, _, hamount, h⟩ := bind_eq_ok.mp h
  obtain ⟨hdelta, rfl⟩ := ofExcept_eq_ok.mp hamount
  obtain ⟨v', b', hcredit, halike'⟩ := credit_of_credit halike h hfinal
  exact ⟨v', b', bind_eq_ok.mpr ⟨amount, b, ofExcept_eq_ok.mpr ⟨hdelta, rfl⟩, hcredit⟩, halike'⟩

theorem foldlM_pay_of_foldlM {outputs : List Output} (halike : L.Alike a w b v)
    (hseen : ∀ call w₁ a₁, World.Runs limits payers outputs w a call w₁ a₁ →
      ¬ Invocation.Blinded L call limits w₁ a₁)
    (h : outputs.foldlM (World.pay limits payers) w a = .ok w' a') (hfinal : L.final a') :
    ∃ v' b', outputs.foldlM (World.pay limits payers) v b = .ok v' b' ∧ L.Alike a' w' b' v' := by
  induction outputs generalizing a w b v with
  | nil =>
      obtain ⟨rfl, rfl⟩ := pure_eq_ok.mp h
      exact ⟨v, b, rfl, halike⟩
  | cons output rest ih =>
      rw [List.foldlM_cons] at h
      obtain ⟨between, mid, hpay, hrest⟩ := bind_eq_ok.mp h
      have hgrows := (World.Books.foldlM fun output => World.books_pay limits payers output).growsTo
        hrest
      obtain ⟨between', mid', hpay', halike'⟩ := pay_of_pay halike (fun target amount htarget
        hamount hcode => hseen _ _ _ (.intro (show output :: rest = [] ++ output :: rest from rfl) rfl htarget hamount hcode rfl))
        hpay (L.final_of_growsTo hgrows hfinal)
      have hseen' : ∀ call w₁ a₁, World.Runs limits payers rest between mid call w₁ a₁ →
          ¬ Invocation.Blinded L call limits w₁ a₁ := by
        rintro call w₁ a₁ ⟨rfl, hbefore, htarget, hamount, hcode, hcall⟩
        refine hseen call w₁ a₁ (.intro (List.cons_append ..).symm ?_ htarget hamount hcode hcall)
        rw [List.foldlM_cons]
        exact bind_eq_ok.mpr ⟨between, mid, hpay, hbefore⟩
      obtain ⟨v', b', hrest', halike''⟩ := ih halike' hseen' hrest
      refine ⟨v', b', ?_, halike''⟩
      rw [List.foldlM_cons]
      exact bind_eq_ok.mpr ⟨between', mid', hpay', hrest'⟩

theorem foldlM_charge_of_foldlM {inputs : List Input} (halike : L.Alike a w b v)
    (h : inputs.foldlM World.charge w a = .ok w' a') (hfinal : L.final a') :
    ∃ v' b', inputs.foldlM World.charge v b = .ok v' b' ∧ L.Alike a' w' b' v' := by
  induction inputs generalizing a w b v with
  | nil =>
      obtain ⟨rfl, rfl⟩ := pure_eq_ok.mp h
      exact ⟨v, b, rfl, halike⟩
  | cons input rest ih =>
      rw [List.foldlM_cons] at h
      obtain ⟨between, mid, hcharge, hrest⟩ := bind_eq_ok.mp h
      have hgrows := (World.Books.foldlM fun input => World.books_charge input).growsTo hrest
      obtain ⟨between', mid', hcharge', halike'⟩ :=
        charge_of_charge halike hcharge (L.final_of_growsTo hgrows hfinal)
      obtain ⟨v', b', hrest', halike''⟩ := ih halike' hrest
      refine ⟨v', b', ?_, halike''⟩
      rw [List.foldlM_cons]
      exact bind_eq_ok.mpr ⟨between', mid', hcharge', hrest'⟩

/-- A transaction that can be applied to a snapshot, and runs no script that is blinded,
can be applied to an alike one, and makes alike snapshots of them. -/
theorem transit_of_transit {miner : Hash} {data : TransactionData} (halike : L.Alike a w b v)
    (hseen : ∀ call w₁ a₁,
      World.Runs limits (data.debits.map (·.address)) data.outputs w a call w₁ a₁ →
        ¬ Invocation.Blinded L call limits w₁ a₁)
    (h : World.transit limits miner data w a = .ok w' a') (hfinal : L.final a') :
    ∃ v' b', World.transit limits miner data v b = .ok v' b' ∧ L.Alike a' w' b' v' := by
  obtain ⟨w₁, a₁, houtputs, h⟩ := bind_eq_ok.mp h
  obtain ⟨w₂, a₂, hinputs, h⟩ := bind_eq_ok.mp h
  obtain ⟨fee, _, hfee, hcredit⟩ := bind_eq_ok.mp h
  obtain ⟨hdelta, rfl⟩ := ofExcept_eq_ok.mp hfee
  have hfinal₂ := L.final_of_growsTo ((World.books_credit _ _).growsTo hcredit) hfinal
  have hfinal₁ := L.final_of_growsTo
    ((World.Books.foldlM fun input => World.books_charge input).growsTo hinputs) hfinal₂
  obtain ⟨v₁, b₁, houtputs', halike₁⟩ := foldlM_pay_of_foldlM halike hseen houtputs hfinal₁
  obtain ⟨v₂, b₂, hinputs', halike₂⟩ := foldlM_charge_of_foldlM halike₁ hinputs hfinal₂
  obtain ⟨v', b', hcredit', halike'⟩ := credit_of_credit halike₂ hcredit hfinal
  refine ⟨v', b', bind_eq_ok.mpr ⟨v₁, b₁, houtputs', bind_eq_ok.mpr ⟨v₂, b₂, hinputs', ?_⟩⟩, halike'⟩
  exact bind_eq_ok.mpr ⟨fee, b₂, ofExcept_eq_ok.mpr ⟨hdelta, rfl⟩, hcredit'⟩

end Likeness

end ScriptLedger
