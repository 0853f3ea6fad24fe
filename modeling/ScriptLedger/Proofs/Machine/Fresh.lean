import ScriptLedger.Proofs.Machine.Coherent
import ScriptLedger.Proofs.Machine.Conservation
import ScriptLedger.Proofs.Machine.Nesting

/-!
# The copy of the callee is never stale

A machine reads its own balance and its own slots from the copy that it keeps of its callee,
and writes that copy back whole.  `Machine.Coherent` says that the copy is what the snapshot
has, and every step that returns leads from coherent machines to coherent ones.  What is left
to show is where a run starts: a run that is nested in another one starts on the snapshot that
its caller's payment has made, with the account that was paid, as that payment has left it.

## Main results

* `Machine.coherent_of_calls` — a coherent machine calls coherent machines.
* `Machine.Starts.coherent`, `Machine.Advances.leads` — where runs start, and where their steps
  lead.
* `Invocation.fresh` — wherever a run comes to, the copy of the callee is what the snapshot has.
-/

namespace ScriptLedger

open Sequencing Exec

variable {terms inner : Terms} {m m' start : Machine}

namespace Machine

/-! ## Steps and calls -/

theorem leads_step (terms : Terms) : Within Leads Grows (step terms) := by
  have hstep : ∀ left, Within Leads Grows (stepWith (drive left) terms) := by
    intro left
    refine within_stepWith leads_law leads_setStorage leads_create ?_ ?_
    · exact leads_transfer (leads_drive left)
    · exact fun m => leads_of_grows (Archive.GrowsTo.refl _) rfl rfl
  exact fun m => hstep _ m

/-- The payment of an order is one from the callee, and the call that it makes is that of the
account which was paid. -/
theorem exists_payment_of_order {payer : Hash} {call : Invocation} {world : World}
    (hm : m.Coherent) (h : order m = .ok (payer, some (call, world)) m') :
    ∃ target amount, Payment m.account.address target amount m.archive m.world call.callee
      m'.archive world := by
  obtain ⟨rest, params, target, amount, -, -, -, hprepare⟩ := exists_prepare_of_order h
  cases (prepared_of_prepare hprepare).1 with
  | paid hthere hdebit hput hfound hcredit hput' =>
      exact ⟨target, amount, .intro hm.holds hdebit hput hfound hcredit hput'⟩

/-- A run that is called starts on the snapshot that shows the payment, and with the account
that was paid. -/
theorem coherent_of_calls (h : Calls terms m inner start) (hm : m.Coherent)
    (hcol : start.archive.Collisionless) : start.Coherent := by
  cases h with
  | @intro payer call world m₁ hleft hitem horder hcode henter =>
      obtain ⟨hworld, haccount, harchive⟩ := enter_eq_ok henter
      have hcounted : m.counted.Coherent := ⟨hm.wellFormed, hm.holds⟩
      obtain ⟨target, amount, hpay⟩ := exists_payment_of_order hcounted horder
      rw [harchive] at hcol
      constructor
      · rw [hworld, harchive]
        exact hpay.wellFormed hm.wellFormed hcol
      · rw [hworld, haccount, harchive]
        exact (hpay.holds hm.wellFormed hcol).1

theorem grows_of_calls (h : Calls terms m inner start) : m.Grows start := by
  cases h with
  | intro hleft hitem horder hcode henter =>
      show m.archive.GrowsTo start.archive
      rw [(enter_eq_ok henter).2.2]
      exact (order_eq_ok horder).2.2

/-! ## Where a run comes to -/

/-- The second machine comes after the first one by steps of its run that returned. -/
inductive Advances (terms : Terms) (m : Machine) : Machine → Prop
  | here : Advances terms m m
  | step {m' m'' : Machine} {result : Option Value} (h : Advances terms m m')
      (hstep : step terms m' = .ok result m'') : Advances terms m m''

/-- A run starts: the outermost one, or one that another one calls after steps that
returned. -/
inductive Starts (terms : Terms) (start : Machine) : Terms → Machine → Prop
  | outermost : Starts terms start terms start
  | nested {caller inner : Terms} {first m first' : Machine}
      (h : Starts terms start caller first) (hadvances : Advances caller first m)
      (hcalls : Calls caller m inner first') : Starts terms start inner first'

/-- By induction on the steps, each of which leads on. -/
theorem Advances.leads (h : Advances terms m m') : m.Leads m' := by
  induction h with
  | here => exact leads_law.refl m
  | step h hstep ih => exact leads_law.trans ih ((leads_step terms _).1 _ _ hstep)

/-- By induction on the nesting: the steps of the caller lead to a coherent machine, and that
calls another one. -/
theorem Starts.coherent {first : Machine} (h : Starts terms start inner first)
    (hstart : start.Coherent) (hcol : first.archive.Collisionless) : first.Coherent := by
  induction h with
  | outermost => exact hstart
  | nested h hadvances hcalls ih =>
      have hcaller := Archive.GrowsTo.collisionless (grows_of_calls hcalls) hcol
      have hfirst := ih (Archive.GrowsTo.collisionless hadvances.leads.grows hcaller)
      exact coherent_of_calls hcalls (hadvances.leads.settles hfirst hcaller).coherent hcol

/-- So every run, wherever its steps have come to, has settled there. -/
theorem Starts.settles {first : Machine} (h : Starts terms start inner first)
    (hadvances : Advances inner first m) (hstart : start.Coherent)
    (hcol : m.archive.Collisionless) : first.Settles m := by
  have hfirst := h.coherent hstart
    (Archive.GrowsTo.collisionless hadvances.leads.grows hcol)
  exact hadvances.leads.settles hfirst hcol

/-- The steps of a run that returns follow each other to its end. -/
theorem Advances.drive {first : Machine} {left : Nat} {value : Value}
    (hfirst : Advances terms first m) (hleft : terms.budget - m.steps ≤ left)
    (h : Machine.drive left terms m = .ok value m') : Advances terms first m' := by
  induction left generalizing m with
  | zero => cases h
  | succ left ih =>
      unfold Machine.drive at h
      rw [stepWith_eq_step hleft] at h
      cases hstep : Machine.step terms m with
      | error e m₁ =>
          rw [hstep] at h
          cases h
      | ok result m₁ =>
          rw [hstep] at h
          cases result with
          | some value =>
              cases h
              exact .step hfirst hstep
          | none =>
              have hmore := ((pays_stepWith (pays_drive _) m).1 _ _ hstep).1
              exact ih (.step hfirst hstep) (by omega) h

/-- A run that starts on a well-formed snapshot that holds its callee starts coherent. -/
theorem coherent_of_enter {limits : Limits} {depth budget : Nat} {call : Invocation} {w : World}
    {a : Archive} (hw : w.WellFormed a) (hcallee : w.Holds a call.callee)
    (h : enter limits depth budget call w a = .ok (terms, start)) : start.Coherent := by
  obtain ⟨rfl, haccount, rfl⟩ := enter_eq_ok h
  exact ⟨hw, by rw [haccount]; exact hcallee⟩

end Machine

namespace Invocation

/-- Wherever a run comes to by steps that return, its own or those of a run nested in it, the
snapshot is well formed, it has at the address of the callee just what the machine keeps of
it, and that address is the one the run started with. -/
theorem fresh {call : Invocation} {limits : Limits} {depth budget : Nat} {w : World}
    {a : Archive} {first : Machine} (hw : w.WellFormed a) (hcallee : w.Holds a call.callee)
    (henter : Machine.enter limits depth budget call w a = .ok (terms, start))
    (hstarts : Machine.Starts terms start inner first) (hadvances : Machine.Advances inner first m)
    (hcol : m.archive.Collisionless) :
    m.world.account? m.archive m.account.address = .ok (some m.account) ∧
      m.account.address = first.account.address ∧ m.world.WellFormed m.archive := by
  have hstart := Machine.coherent_of_enter hw hcallee henter
  have hsettled := hstarts.settles hadvances hstart hcol
  exact ⟨hsettled.coherent.holds, hsettled.callee, hsettled.coherent.wellFormed⟩

/-- The machine that has made a payment. -/
theorem fresh_of_payment : ∃ w a terms start m, w.WellFormed a ∧ w.Holds a Payment.order.callee ∧
    Machine.enter {} 0 ({} : Limits).maxSteps Payment.order w a = .ok (terms, start) ∧
    Machine.Advances terms start m ∧ m.archive.Collisionless ∧
    m.world.account? m.archive m.account.address = .ok (some m.account) ∧
      m.account.address = start.account.address ∧ m.world.WellFormed m.archive := by
  obtain ⟨-, w, a, hopen, outcome, a', hrun, -, hcol⟩ := Payment.exists_run
  obtain ⟨hw, hpayer⟩ :=
    Payment.wellFormed_opening hopen ((growsTo_of_run hrun).collisionless hcol)
  obtain ⟨terms, start, value, last, henter, hfinish, rfl, rfl⟩ := exists_finish_of_run hrun
  have hadvances : Machine.Advances terms start last := .drive .here (Nat.le_refl _) hfinish
  exact ⟨w, a, terms, start, last, hw, hpayer, henter, hadvances, hcol,
    fresh hw hpayer henter .outermost hadvances hcol⟩

end Invocation

end ScriptLedger
