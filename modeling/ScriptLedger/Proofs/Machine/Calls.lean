import ScriptLedger.Proofs.Machine.Writes

/-!
# The calls that a script makes

The script of one account is run by that of another in one place only, a transfer.
A transfer first makes its payment, on a snapshot of its own, and then settles: it
runs the script of the account that was paid, if it has one, takes over what came of
it, and reads the callee back.  Only the second part depends on the budget and on how
scripts of others are run; everything else a step does, it does by itself.

## Main results

* `Exec.transfer_eq` — a transfer is its payment and then what settles it.
* `Script.Item.run_eq` — no other item depends on the terms or on how the scripts of
  others are run.
* `Machine.stepWith_of_lt`, `Machine.execute_transfer` — a step with a transfer, taken
  apart into its payment, the script of the account that was paid, and what comes after.
* `Exec.exists_prepare_of_order`, `Exec.prepared_of_prepare` — what a transfer finds on the
  stack, and what came of its payment.
* `Exec.transferred_of_transfer` — how a transfer that returned has changed the machine.
-/

namespace ScriptLedger

open Sequencing Exec

variable {α : Type} {nested nested' : Terms → Exec Value} {terms terms' : Terms}
variable {m m' : Machine}

namespace Exec

/-! ## The two parts of a transfer -/

/-- Makes the payment of a transfer: the call of the account that was paid, and the
snapshot that shows the payment.  There is neither if nobody can be paid. -/
def prepare (target : Hash) (amount : Int64) (params : List Value) :
    Exec (Option (Invocation × World)) := do
  let m ← get
  if !(← ofState (m.world.contains target)) then pure none
  else
    match m.account.addToBalance (-amount) with
    | .error _ => pure none
    | .ok debited =>
      let world ← onArchive (m.world.put debited)
      let recipient ← account world target
      match recipient.addToBalance amount with
      | .error _ => pure none
      | .ok credited =>
        let world ← onArchive (world.put credited)
        pure (some ({ callee := credited, payers := [m.account.address], amount,
                      params := .values params }, world))

/-- Runs the script of the account that was paid, and reads the callee back. -/
def settle (nested : Terms → Exec Value) (terms : Terms) (payer : Hash) :
    Option (Invocation × World) → Exec Bool
  | none => pure false
  | some (call, world) => do
    let moved ← deliver nested terms call world
    reload payer
    pure moved

theorem transfer_eq (target : Hash) (amount : Int64) (params : List Value) :
    Exec.transfer nested terms target amount params = (do
      let payer := (← get).account.address
      settle nested terms payer (← prepare target amount params)) := by
  funext s
  unfold Exec.transfer prepare
  simp only [bind_assoc]
  show (ofState (s.world.contains target) >>= _) s = (ofState (s.world.contains target) >>= _) s
  refine congrFun (bind_congr fun there => ?_) s
  cases there with
  | false => rfl
  | true =>
      simp only [Bool.not_true, Bool.false_eq_true, if_false]
      cases s.account.addToBalance (-amount) with
      | error cause => rfl
      | ok debited =>
          simp only [bind_assoc]
          refine bind_congr fun between => bind_congr fun recipient => ?_
          cases recipient.addToBalance amount with
          | error cause => rfl
          | ok credited =>
              simp only [bind_assoc, pure_bind]
              rfl

/-- Takes the operands of a transfer off the stack and makes its payment.  The address
of the callee comes with it. -/
def order : Exec (Hash × Option (Invocation × World)) := do
  let name := Opcode.account .transfer
  let amount ← onStack (Stack.popInt name)
  let target ← onStack (Stack.popBlob name .hash)
  let params ← onStack (Stack.popList name)
  if amount.toInt < 0 then throw (.invalidOperand name amount)
  let payer := (← get).account.address
  pure (payer, ← prepare target amount params)

end Exec

/-! ## One step -/

theorem AccountOp.run_transfer :
    AccountOp.run nested terms .transfer = (do
      let (payer, call) ← order
      let moved ← settle nested terms payer call
      onStack (Stack.push (.ofBool moved))) := by
  unfold AccountOp.run order
  simp only [bind_assoc, transfer_eq]
  refine bind_congr fun amount => bind_congr fun target => bind_congr fun params => ?_
  by_cases hamount : amount.toInt < 0
  · rw [if_pos hamount, if_pos hamount]
    rfl
  · rw [if_neg hamount, if_neg hamount]
    simp only [pure_bind, bind_assoc]

/-- The script learns what came of a transfer, and goes on with the next item. -/
def conclude (moved : Bool) : Exec Flow := do
  onStack (Stack.push (.ofBool moved))
  next

/-- An item that is no transfer does what it does by itself. -/
theorem Script.Item.run_eq {item : Script.Item} (h : item ≠ .op (.account .transfer)) :
    item.run nested terms = item.run nested' terms' := by
  cases item with
  | push value => rfl
  | op instruction =>
      cases instruction with
      | account op =>
          cases op with
          | transfer => exact absurd rfl h
          | _ => rfl
      | _ => rfl

namespace Machine

/-- Where a run goes on after an item, or the value that it returned. -/
def proceed : Flow → Exec (Option Value)
  | .halt value => pure (some value)
  | .goto pc => do
    onRegisters (modify fun r => { r with pc })
    pure none

/-- The item at the program counter is run, and the run goes on as it says. -/
def execute (nested : Terms → Exec Value) (terms : Terms) : Exec (Option Value) := do
  let pc := (← get).registers.pc
  match terms.item? pc with
  | none => throw (.pcOutOfRange pc terms.program.size)
  | some item => item.run nested terms >>= proceed

/-- The machine with one more instruction counted. -/
def counted (m : Machine) : Machine := { m with steps := m.steps + 1 }

theorem stepWith_of_spent (h : terms.budget ≤ m.steps) :
    stepWith nested terms m = .error (.stepLimitExceeded terms.limits.maxSteps) m := by
  show (if terms.budget ≤ m.steps then _ else _ : Exec (Option Value)) m = _
  rw [if_pos h]
  rfl

theorem stepWith_of_lt (h : m.steps < terms.budget) :
    stepWith nested terms m = execute nested terms m.counted := by
  show (if terms.budget ≤ m.steps then _ else _ : Exec (Option Value)) m = _
  rw [if_neg (Nat.not_le_of_lt h)]
  show (match terms.item? m.registers.pc with | none => _ | some item => _ :
      Exec (Option Value)) m.counted = (match terms.item? m.registers.pc with
    | none => _ | some item => _ : Exec (Option Value)) m.counted
  cases terms.item? m.registers.pc with
  | none => rfl
  | some item =>
      refine congrFun (bind_congr fun flow => ?_) m.counted
      cases flow <;> rfl

theorem execute_of_none (h : terms.item? m.registers.pc = none) :
    execute nested terms m = .error (.pcOutOfRange m.registers.pc terms.program.size) m := by
  show (match terms.item? m.registers.pc with | none => _ | some item => _ :
      Exec (Option Value)) m = _
  rw [h]
  rfl

theorem execute_of_some {item : Script.Item} (h : terms.item? m.registers.pc = some item) :
    execute nested terms m = (item.run nested terms >>= proceed : Exec _) m := by
  show (match terms.item? m.registers.pc with | none => _ | some item => _ :
      Exec (Option Value)) m = _
  rw [h]

/-- A transfer, taken apart into what it does before the script of the account that
was paid, that script, and what it does after it. -/
theorem execute_transfer (h : terms.item? m.registers.pc = some (.op (.account .transfer))) :
    execute nested terms m = (do
      let (payer, call) ← order
      let moved ← settle nested terms payer call
      conclude moved >>= proceed : Exec (Option Value)) m := by
  rw [execute_of_some h]
  show ((AccountOp.run nested terms .transfer >>= fun _ => next) >>= proceed : Exec _) m = _
  rw [AccountOp.run_transfer]
  simp only [bind_assoc, conclude]

/-- What a transfer does when the script of the account that was paid has run. -/
def takeBack (payer : Hash) (moved : Bool) : Exec (Option Value) := do
  reload payer
  conclude moved >>= proceed

section Law

variable {R E : Machine → Machine → Prop} (law : Law R E)

include law

theorem within_proceed (flow : Flow) : Within R E (proceed flow) := by
  cases flow with
  | halt value => exact law.pure _
  | goto pc => exact law.bind (law.onRegisters _) fun _ => law.pure _

theorem within_conclude (moved : Bool) : Within R E (conclude moved >>= proceed) := by
  refine law.bind ?_ fun flow => within_proceed law flow
  exact law.bind (law.onStack _) fun _ => law.next

theorem within_takeBack (payer : Hash) (hreload : Within R E (reload payer)) (moved : Bool) :
    Within R E (takeBack payer moved) :=
  law.bind hreload fun _ => within_conclude law moved

end Law

/-- What comes after a payment. -/
theorem settle_bind (payer : Hash) (call : Invocation) (world : World) :
    (do let moved ← settle nested terms payer (some (call, world))
        conclude moved >>= proceed : Exec (Option Value)) =
      deliver nested terms call world >>= takeBack payer := by
  unfold settle
  simp only [bind_assoc, pure_bind]
  rfl

/-- Two ways to run the scripts of others differ only in transfers. -/
theorem execute_eq (hitem : terms'.item? m.registers.pc = terms.item? m.registers.pc)
    (hprogram : terms'.program = terms.program)
    (h : terms.item? m.registers.pc ≠ some (.op (.account .transfer))) :
    execute nested' terms' m = execute nested terms m := by
  cases hfetch : terms.item? m.registers.pc with
  | none => rw [execute_of_none hfetch, execute_of_none (hitem.trans hfetch), hprogram]
  | some item =>
      have hne : item ≠ .op (.account .transfer) := by
        rintro rfl
        exact h hfetch
      rw [execute_of_some hfetch, execute_of_some (hitem.trans hfetch), Script.Item.run_eq hne]

/-! ## What the parts leave alone -/

/-- Neither the count, nor the snapshot, nor the callee has changed. -/
structure Still (m m' : Machine) : Prop where
  steps : m'.steps = m.steps
  world : m'.world = m.world
  account : m'.account = m.account

theorem still_law : Law Still Still where
  trans h h' :=
    ⟨h'.steps.trans h.steps, h'.world.trans h.world, h'.account.trans h.account⟩
  fail h h' :=
    ⟨h'.steps.trans h.steps, h'.world.trans h.world, h'.account.trans h.account⟩
  registers _ _ := ⟨rfl, rfl, rfl⟩
  failed _ _ := ⟨rfl, rfl, rfl⟩

theorem still_onArchive (x : Archived StateError α) : Within Still Still (onArchive x) := by
  intro m
  have hkept : ∀ m' : Machine, m' = { m with archive := m'.archive } → Still m m' := by
    intro m' h
    rw [h]
    exact ⟨rfl, rfl, rfl⟩
  have hstores : Yields m.archive x (fun _ _ => True) fun _ => True :=
    ⟨fun _ _ _ => trivial, fun _ _ _ => trivial⟩
  exact hstores.onArchive.imp (fun _ m' h => hkept m' h.1) fun m' h => hkept m' h.1

section Prepare

variable {R : Machine → Machine → Prop} (law : Law R R)
variable (hput : ∀ (world : World) account, Within R R (onArchive (world.put account)))

include law hput

/-- A payment reads the snapshot and puts accounts, and does nothing else. -/
theorem within_prepare (target : Hash) (amount : Int64) (params : List Value) :
    Within R R (prepare target amount params) := by
  apply law.bind law.get
  intro m
  apply law.bind (law.ofState _)
  rintro (_ | _)
  · exact law.pure none
  · simp only [Bool.not_true, Bool.false_eq_true, if_false]
    cases m.account.addToBalance (-amount) with
    | error cause => exact law.pure none
    | ok debited =>
        apply law.bind (hput m.world debited)
        intro world
        apply law.bind (law.account world target)
        intro recipient
        cases recipient.addToBalance amount with
        | error cause => exact law.pure none
        | ok credited => exact law.bind (hput world credited) fun _ => law.pure _

theorem within_order : Within R R order := by
  apply law.bind (law.onStack _)
  intro amount
  apply law.bind (law.onStack _)
  intro target
  apply law.bind (law.onStack _)
  intro params
  by_cases hamount : amount.toInt < 0
  · rw [if_pos hamount]
    exact law.throw _
  · rw [if_neg hamount]
    apply law.bind law.get
    intro m
    exact law.bind (within_prepare law hput target amount params) fun _ => law.pure _

end Prepare

theorem still_order : Within Still Still order :=
  within_order still_law fun _ _ => still_onArchive _

theorem grows_order : Within Grows Grows order := within_order grows_law grows_put

end Machine

/-! ## What was paid -/

namespace Exec

/-- What came of a payment from an account on a snapshot, and what the stores are then: nobody
was paid, for one of three reasons, or two puts have made it, that of the account with less and
that of the one that is called. -/
inductive Prepared (source : Account) (w : World) (a : Archive) (target : Hash) (amount : Int64)
    (params : List Value) : Option (Invocation × World) → Archive → Prop
  /-- There is no account at the target. -/
  | missing (hthere : w.contains target = .ok false) :
      Prepared source w a target amount params none a
  /-- There is less than the amount. -/
  | poor {cause : RecordError} (hdebit : source.addToBalance (-amount) = .error cause) :
      Prepared source w a target amount params none a
  /-- The balance of the target would leave its range. -/
  | full {debited recipient : Account} {between : World} {mid : Archive} {cause : RecordError}
      (hdebit : source.addToBalance (-amount) = .ok debited)
      (hput : w.put debited a = .ok between mid)
      (hfound : between.account? mid target = .ok (some recipient))
      (hcredit : recipient.addToBalance amount = .error cause) :
      Prepared source w a target amount params none mid
  | paid {debited recipient credited : Account} {between w' : World} {mid a' : Archive}
      (hthere : w.contains target = .ok true)
      (hdebit : source.addToBalance (-amount) = .ok debited)
      (hput : w.put debited a = .ok between mid)
      (hfound : between.account? mid target = .ok (some recipient))
      (hcredit : recipient.addToBalance amount = .ok credited)
      (hput' : between.put credited mid = .ok w' a') :
      Prepared source w a target amount params
        (some ({ callee := credited, payers := [source.address], amount := amount,
                 params := .values params }, w')) a'

theorem prepared_of_prepare {target : Hash} {amount : Int64} {params : List Value}
    {call : Option (Invocation × World)} (h : prepare target amount params m = .ok call m') :
    Prepared m.account m.world m.archive target amount params call m'.archive ∧
      m' = { m with archive := m'.archive } := by
  obtain ⟨_, _, hget, h⟩ := bind_eq_ok.mp h
  obtain ⟨rfl, rfl⟩ := get_eq_ok.mp hget
  obtain ⟨there, _, hcontains, h⟩ := bind_eq_ok.mp h
  obtain ⟨hthere, rfl⟩ := ofState_eq_ok.mp hcontains
  cases there with
  | false =>
      obtain ⟨rfl, rfl⟩ := pure_eq_ok.mp h
      exact ⟨.missing hthere, rfl⟩
  | true =>
  simp only [Bool.not_true, Bool.false_eq_true, if_false] at h
  cases hdebit : m.account.addToBalance (-amount) with
  | error cause =>
      rw [hdebit] at h
      obtain ⟨rfl, rfl⟩ := pure_eq_ok.mp h
      exact ⟨.poor hdebit, rfl⟩
  | ok debited =>
  rw [hdebit] at h
  obtain ⟨between, _, hput, h⟩ := bind_eq_ok.mp h
  obtain ⟨mid, htaken, rfl⟩ := onArchive_eq_ok.mp hput
  obtain ⟨recipient, _, hread, h⟩ := bind_eq_ok.mp h
  obtain ⟨hfound, rfl⟩ := account_eq_ok.mp hread
  cases hcredit : recipient.addToBalance amount with
  | error cause =>
      rw [hcredit] at h
      obtain ⟨rfl, rfl⟩ := pure_eq_ok.mp h
      exact ⟨.full hdebit htaken hfound hcredit, rfl⟩
  | ok credited =>
  rw [hcredit] at h
  obtain ⟨world, _, hput', h⟩ := bind_eq_ok.mp h
  obtain ⟨archive, hgiven, rfl⟩ := onArchive_eq_ok.mp hput'
  obtain ⟨rfl, rfl⟩ := pure_eq_ok.mp h
  exact ⟨.paid hthere hdebit htaken hfound hcredit hgiven, rfl⟩

/-- A payment, put together from its two puts. -/
theorem prepare_of_put {target : Hash} {amount : Int64} {params : List Value}
    {debited recipient credited : Account} {between world : World}
    {a₁ a₂ : Archive} (hthere : m.world.contains target = .ok true)
    (hdebit : m.account.addToBalance (-amount) = .ok debited)
    (hput : m.world.put debited m.archive = .ok between a₁)
    (hfound : between.account? a₁ target = .ok (some recipient))
    (hcredit : recipient.addToBalance amount = .ok credited)
    (hput' : between.put credited a₁ = .ok world a₂) :
    prepare target amount params m =
      .ok (some ({ callee := credited, payers := [m.account.address], amount := amount,
                   params := .values params }, world)) { m with archive := a₂ } := by
  refine bind_eq_ok.mpr ⟨m, m, rfl, bind_eq_ok.mpr ⟨true, m, ofState_eq_ok.mpr ⟨hthere, rfl⟩, ?_⟩⟩
  simp only [Bool.not_true, Bool.false_eq_true, if_false, hdebit]
  refine bind_eq_ok.mpr ⟨between, _, onArchive_eq_ok.mpr ⟨a₁, hput, rfl⟩, ?_⟩
  refine bind_eq_ok.mpr ⟨recipient, _, account_eq_ok.mpr ⟨hfound, rfl⟩, ?_⟩
  simp only [hcredit]
  exact bind_eq_ok.mpr ⟨world, _, onArchive_eq_ok.mpr ⟨a₂, hput', rfl⟩, rfl⟩

/-- After a payment, the script of the account that was paid has its turn, and the callee is
read back. -/
theorem settle_eq_ok {payer : Hash} {call : Invocation} {world : World} {moved : Bool}
    (h : settle nested terms payer (some (call, world)) m = .ok moved m') :
    ∃ mid account, deliver nested terms call world m = .ok moved mid ∧
      mid.world.account? mid.archive payer = .ok (some account) ∧ m' = { mid with account } := by
  obtain ⟨delivered, mid, hdeliver, h⟩ := bind_eq_ok.mp h
  obtain ⟨_, last, hreload, h⟩ := bind_eq_ok.mp h
  obtain ⟨rfl, rfl⟩ := pure_eq_ok.mp h
  obtain ⟨account, hback, rfl⟩ := reload_eq_ok hreload
  exact ⟨mid, account, hdeliver, hback, rfl⟩

/-- How a transfer that returned has changed the machine, and what it reported. -/
inductive Transferred (nested : Terms → Exec Value) (m : Machine) (target : Hash)
    (amount : Int64) : Bool → Machine → Prop
  /-- Nobody was paid, and the callee was not read back. -/
  | refused {m' : Machine} (hworld : m'.world = m.world) (haccount : m'.account = m.account) :
      Transferred nested m target amount false m'
  /-- An account was paid, its script had its turn, and the callee was read back. -/
  | delivered {m' mid : Machine} {moved : Bool} {account : Account} {a : Archive} {w : World}
      (hpay : Payment m.account.address target amount m.archive m.world account a w)
      (hdelivered : Delivered nested account w { m with archive := a } moved mid)
      (hworld : m'.world = mid.world) (harchive : m'.archive = mid.archive)
      (hback : m'.world.account? m'.archive m.account.address = .ok (some m'.account)) :
      Transferred nested m target amount moved m'

theorem transferred_of_transfer {target : Hash} {amount : Int64} {params : List Value}
    {moved : Bool} (hsource : m.world.Holds m.archive m.account)
    (h : Exec.transfer nested terms target amount params m = .ok moved m') :
    Transferred nested m target amount moved m' := by
  rw [transfer_eq] at h
  obtain ⟨_, _, hget, h⟩ := bind_eq_ok.mp h
  obtain ⟨rfl, rfl⟩ := get_eq_ok.mp hget
  obtain ⟨call, paid, hprepare, h⟩ := bind_eq_ok.mp h
  obtain ⟨hprepared, hpaid⟩ := prepared_of_prepare hprepare
  rw [hpaid] at h
  cases call with
  | none =>
      obtain ⟨rfl, rfl⟩ := pure_eq_ok.mp h
      exact .refused rfl rfl
  | some order =>
  obtain ⟨call, world⟩ := order
  obtain ⟨mid, account, hdeliver, hback, rfl⟩ := settle_eq_ok h
  cases hprepared with
  | paid hthere hdebit hput hfound hcredit hput' =>
      exact .delivered (.intro hsource hdebit hput hfound hcredit hput')
        (delivered_of_deliver hdeliver) rfl rfl hback

section Entered

variable {call : Invocation} {world : World} {inner : Terms} {start final : Machine}

/-- A call returns, and what it came to is taken over. -/
theorem deliver_of_ok {value : Value} (hcode : call.callee.hasCode = true)
    (henter : Machine.enter terms.limits (terms.depth + 1) (terms.budget - m.steps) call world
      m.archive = .ok (inner, start)) (hrun : nested inner start = .ok value final) :
    deliver nested terms call world m =
      .ok true { m with
        steps := m.steps + final.steps, world := final.world, archive := final.archive } := by
  rw [deliver, if_pos hcode]
  simp only [runPaid, henter, hrun]

/-- A call fails, and only its steps and what it put into the stores stay. -/
theorem deliver_of_error {cause : ScriptError} (hcode : call.callee.hasCode = true)
    (henter : Machine.enter terms.limits (terms.depth + 1) (terms.budget - m.steps) call world
      m.archive = .ok (inner, start)) (hrun : nested inner start = .error cause final) :
    deliver nested terms call world m =
      .ok false { m with steps := m.steps + final.steps, archive := final.archive } := by
  rw [deliver, if_pos hcode]
  simp only [runPaid, henter, hrun]

end Entered

/-! ## The operands of a transfer -/

end Exec

/-- A value that was taken off lay on top. -/
theorem Stack.exists_of_pop {value : Value} {s s' : Stack} (h : Stack.pop s = .ok value s') :
    ∃ entries, s.entries = entries.push value ∧ s' = { s with entries } := by
  obtain ⟨_, _, hget, h⟩ := bind_eq_ok.mp h
  obtain ⟨rfl, rfl⟩ := get_eq_ok.mp hget
  cases hback : s.entries.back? with
  | none =>
      rw [hback] at h
      exact absurd h throw_ne_ok
  | some top =>
      rw [hback] at h
      obtain ⟨entries, hentries⟩ := Array.back?_eq_some_iff.mp hback
      cases h
      exact ⟨entries, hentries, by rw [hentries, Array.pop_push]⟩

/-- An operand that was taken off lay on top and is of the type that was asked for. -/
theorem Stack.exists_of_popAs {op : Opcode} {shape : Shape} {read? : Value → Option α} {a : α}
    {s s' : Stack} (h : Stack.popAs op shape read? s = .ok a s') :
    ∃ entries value, s.entries = entries.push value ∧ read? value = some a ∧
      s' = { s with entries } := by
  obtain ⟨value, _, hpop, h⟩ := bind_eq_ok.mp h
  obtain ⟨entries, hentries, rfl⟩ := Stack.exists_of_pop hpop
  cases hread : read? value with
  | none =>
      rw [hread] at h
      exact absurd h throw_ne_ok
  | some b =>
      rw [hread] at h
      obtain ⟨rfl, rfl⟩ := pure_eq_ok.mp h
      exact ⟨entries, value, hentries, hread, rfl⟩

/-- A value that was pushed lies on top, and below it is what was there. -/
theorem Stack.eq_of_push {value : Value} {u : Unit} {s s' : Stack}
    (h : Stack.push value s = .ok u s') : s' = { s with entries := s.entries.push value } := by
  obtain ⟨_, _, hget, h⟩ := bind_eq_ok.mp h
  obtain ⟨rfl, rfl⟩ := get_eq_ok.mp hget
  by_cases hfull : s.limit ≤ s.size
  · rw [if_pos hfull] at h
    exact absurd h throw_ne_ok
  rw [if_neg hfull] at h
  by_cases hlarge : s.valueLimit < value.size
  · simp only [if_pos hlarge] at h
    exact absurd h throw_ne_ok
  simp only [if_neg hlarge] at h
  cases h
  rfl

theorem Value.int?_eq_some {value : Value} {i : Int64} : value.int? = some i ↔ value = .int i := by
  cases value <;> simp [Value.int?]

theorem Value.list?_eq_some {value : Value} {items : List Value} :
    value.list? = some items ↔ value = .list items := by
  cases value <;> simp [Value.list?]

theorem Value.blob?_eq_some {k : Kind} {value : Value} {blob : Blob k} :
    value.blob? k = some blob ↔ value = .bytes k blob := by
  cases value with
  | bytes kind other =>
      unfold Value.blob?
      by_cases hkind : kind = k
      · subst hkind
        simp
      · simp [hkind]
  | _ => simp [Value.blob?]

namespace Exec

theorem onStack_eq_ok {x : StackM α} {a : α} :
    onStack x m = .ok a m' ↔ ∃ stack, x m.registers.stack = .ok a stack ∧
      m' = { m with registers := { m.registers with stack } } := by
  obtain ⟨⟨stack, pc, fp⟩, steps, world, account, archive⟩ := m
  unfold onStack onRegisters Registers.onStack
  cases hx : x stack with
  | ok b stack' =>
      simp only [hx, EStateM.Result.ok.injEq]
      constructor
      · rintro ⟨rfl, rfl⟩
        exact ⟨stack', ⟨rfl, rfl⟩, rfl⟩
      · rintro ⟨_, ⟨rfl, rfl⟩, rfl⟩
        exact ⟨rfl, rfl⟩
  | error e stack' => simp [hx]

/-- The machine with other entries on its stack. -/
def withEntries (m : Machine) (entries : Array Value) : Machine :=
  { m with registers := { m.registers with stack := { m.registers.stack with entries } } }

theorem exists_of_popAs {op : Opcode} {shape : Shape} {read? : Value → Option α} {a : α}
    (h : onStack (Stack.popAs op shape read?) m = .ok a m') :
    ∃ entries value, m.registers.stack.entries = entries.push value ∧ read? value = some a ∧
      m' = withEntries m entries := by
  obtain ⟨stack, hpop, rfl⟩ := onStack_eq_ok.mp h
  obtain ⟨entries, value, hentries, hread, rfl⟩ := Stack.exists_of_popAs hpop
  exact ⟨entries, value, hentries, hread, rfl⟩

/-- What an order that returned has found on the stack: an amount, a target and a list of
params.  It takes them off and then makes the payment. -/
theorem exists_prepare_of_order {payer : Hash} {call : Option (Invocation × World)}
    (h : order m = .ok (payer, call) m') : ∃ rest params target amount,
      m.registers.stack.entries =
        ((rest.push (.list params)).push (.bytes .hash target)).push (.int amount) ∧
      0 ≤ amount.toInt ∧ payer = m.account.address ∧
      prepare target amount params (withEntries m rest) = .ok call m' := by
  obtain ⟨amount, m₁, hamount, h⟩ := bind_eq_ok.mp h
  obtain ⟨entries₁, _, hentries₁, hint, rfl⟩ := exists_of_popAs hamount
  obtain rfl := Value.int?_eq_some.mp hint
  obtain ⟨target, m₂, htarget, h⟩ := bind_eq_ok.mp h
  obtain ⟨entries₂, _, hentries₂, hblob, rfl⟩ := exists_of_popAs htarget
  obtain rfl := Value.blob?_eq_some.mp hblob
  obtain ⟨params, m₃, hparams, h⟩ := bind_eq_ok.mp h
  obtain ⟨rest, _, hrest, hlist, rfl⟩ := exists_of_popAs hparams
  obtain rfl := Value.list?_eq_some.mp hlist
  change entries₁ = _ at hentries₂
  change entries₂ = _ at hrest
  subst hentries₂ hrest
  by_cases hneg : amount.toInt < 0
  · rw [if_pos hneg] at h
    exact absurd h throw_ne_ok
  rw [if_neg hneg] at h
  obtain ⟨_, _, hget, h⟩ := bind_eq_ok.mp h
  obtain ⟨rfl, rfl⟩ := get_eq_ok.mp hget
  obtain ⟨_, _, hprepare, h⟩ := bind_eq_ok.mp h
  obtain ⟨hpair, rfl⟩ := pure_eq_ok.mp h
  cases hpair
  exact ⟨rest, params, target, amount, hentries₁, Int.not_lt.mp hneg, rfl, hprepare⟩

/-- What an order leaves behind when it returns. -/
theorem order_eq_ok {payer : Hash} {call : Option (Invocation × World)}
    (h : order m = .ok (payer, call) m') : payer = m.account.address ∧ m.Still m' ∧ m.Grows m' := by
  obtain ⟨_, _, _, _, -, -, hpayer, -⟩ := exists_prepare_of_order h
  exact ⟨hpayer, (Machine.still_order m).1 _ _ h, (Machine.grows_order m).1 _ _ h⟩

end Exec

end ScriptLedger
