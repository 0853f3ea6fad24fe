import ScriptLedger.Machine.Run
import ScriptLedger.Proofs.Sequencing

/-!
# Computations of a run, seen from outside

What a computation does to the machine is described by two relations between
the machine before and after it, one for when it returns and one for when it
fails.  If the two can be put one after the other and do not look at the
registers, then only four parts of the machine have to be looked at to know that
they hold of every step and of every run: the count of instructions, and the
three instructions that write accounts.

## Main results

* `Machine.within_stepWith` — from those four parts to one step.
* `Machine.within_drive` — from the steps to a whole run, by induction on the
  budget; the runs nested in a step have less of it.
* `Sequencing.Yields.runPaid`, `Sequencing.Yields.drive`, `Sequencing.Yields.invocation` — a
  nested run, a run and an invocation, from one machine on.
-/

namespace ScriptLedger

open Sequencing

/-- Whenever a computation returns, `R` relates the machines before and after,
and whenever it fails, `E` does. -/
def Exec.Within (R E : Machine → Machine → Prop) {α : Type} (x : Exec α) : Prop :=
  ∀ m, (∀ a m', x m = .ok a m' → R m m') ∧ (∀ e m', x m = .error e m' → E m m')

/-- Two relations, of success and of failure, that can be put together and that
no change of the registers matters to. -/
structure Exec.Law (R E : Machine → Machine → Prop) : Prop where
  trans : ∀ {m m' m''}, R m m' → R m' m'' → R m m''
  fail : ∀ {m m' m''}, R m m' → E m' m'' → E m m''
  registers : ∀ m registers, R m { m with registers }
  failed : ∀ m registers, E m { m with registers }

namespace Exec

variable {R E : Machine → Machine → Prop} {α β : Type}

theorem Within.imp {R' : Machine → Machine → Prop} {x : Exec α}
    (h : ∀ m m', R m m' → R' m m') (hx : Within R E x) : Within R' E x := by
  intro m
  exact ⟨fun a m' hok => h m m' ((hx m).1 a m' hok), (hx m).2⟩

namespace Law

variable (law : Law R E)

include law

theorem refl (m : Machine) : R m m := law.registers m m.registers

theorem bind {x : Exec α} {f : α → Exec β} (hx : Within R E x) (hf : ∀ a, Within R E (f a)) :
    Within R E (x >>= f) := by
  intro m
  constructor
  · intro b m' h
    obtain ⟨a, mid, ha, hb⟩ := bind_eq_ok.mp h
    exact law.trans ((hx m).1 a mid ha) ((hf a mid).1 b m' hb)
  · intro e m' h
    rcases bind_eq_error.mp h with he | ⟨a, mid, ha, he⟩
    · exact (hx m).2 e m' he
    · exact law.fail ((hx m).1 a mid ha) ((hf a mid).2 e m' he)

theorem pure (a : α) : Within R E (Pure.pure a : Exec α) := fun m => Yields.pure (law.refl m)

theorem throw (e : ScriptError) : Within R E (MonadExcept.throw e : Exec α) :=
  fun m => Yields.throw (law.failed m m.registers)

theorem get : Within R E (MonadState.get : Exec Machine) :=
  fun m => Yields.of_ok rfl (law.refl m)

theorem ofExcept (x : Except ScriptError α) : Within R E (MonadExcept.ofExcept x : Exec α) := by
  cases x with
  | ok a => exact law.pure a
  | error e => exact law.throw e

theorem ofState (x : Except StateError α) : Within R E (Exec.ofState x) := by
  cases x with
  | ok a => exact law.pure a
  | error cause => exact law.throw (.state cause)

theorem onRegisters (x : RegisterM α) : Within R E (Exec.onRegisters x) := by
  rintro ⟨registers, steps, world, account, archive⟩
  constructor
  · intro b m' h
    simp only [Exec.onRegisters] at h
    split at h
    · cases h
      exact law.registers _ _
    · cases h
  · intro e m' h
    simp only [Exec.onRegisters] at h
    split at h
    · cases h
    · cases h
      exact law.failed _ _

theorem onStack (x : StackM α) : Within R E (Exec.onStack x) := law.onRegisters _

theorem next : Within R E Exec.next := law.bind law.get fun _ => law.pure _

theorem account? (world : World) (address : Hash) : Within R E (Exec.account? world address) :=
  law.bind law.get fun _ => law.ofState _

theorem account (world : World) (address : Hash) : Within R E (Exec.account world address) := by
  apply law.bind (law.account? world address)
  intro found
  cases found with
  | none => exact law.throw _
  | some account => exact law.pure account

theorem balanceWord (op : Opcode) (balance : UInt64) :
    Within R E (Exec.balanceWord op balance) := by
  unfold Exec.balanceWord
  generalize Word.signed? balance.toNat = value
  cases value with
  | none => exact law.throw _
  | some value => exact law.pure value

end Law

end Exec

/-! ## Stores and nested runs -/

namespace Sequencing.Yields

variable {m : Machine}

/-- What happens to stores happens to those of the machine. -/
theorem onArchive {α : Type} {x : Archived StateError α} {P : α → Archive → Prop}
    {F : Archive → Prop} (h : Yields m.archive x P F) :
    Yields m (Exec.onArchive x)
      (fun a m' => m' = { m with archive := m'.archive } ∧ P a m'.archive)
      fun m' => m' = { m with archive := m'.archive } ∧ F m'.archive := by
  cases hx : x m.archive with
  | ok a archive => exact .of_ok (by rw [Exec.onArchive, hx]) ⟨rfl, h.1 a archive hx⟩
  | error cause archive =>
      exact .of_error (by rw [Exec.onArchive, hx]) ⟨rfl, h.2 cause archive hx⟩

/-- A nested run never makes its caller fail.  What it has written and counted until it failed
stays written and counted. -/
theorem runPaid {nested : Terms → Exec Value} {terms : Terms} {call : Invocation} {world : World}
    {P : Bool → Machine → Prop} {E : Machine → Prop}
    (hrefused : ∀ e, Machine.enter terms.limits (terms.depth + 1) (terms.budget - m.steps) call
      world m.archive = .error e → P false m)
    (hentered : ∀ inner start, Machine.enter terms.limits (terms.depth + 1)
        (terms.budget - m.steps) call world m.archive = .ok (inner, start) →
      Yields start (nested inner)
        (fun _ last => P true
          { m with steps := m.steps + last.steps, world := last.world, archive := last.archive })
        fun last => P false
          { m with steps := m.steps + last.steps, archive := last.archive }) :
    Yields m (Exec.runPaid nested terms call world) P E := by
  cases henter : Machine.enter terms.limits (terms.depth + 1) (terms.budget - m.steps) call world
      m.archive with
  | error e => exact .of_ok (by simp only [Exec.runPaid, henter]) (hrefused e henter)
  | ok entry =>
      obtain ⟨inner, start⟩ := entry
      obtain ⟨hreturned, hfailed⟩ := hentered inner start henter
      cases hrun : nested inner start with
      | ok value last =>
          exact .of_ok (by simp only [Exec.runPaid, henter, hrun]) (hreturned value last hrun)
      | error e last =>
          exact .of_ok (by simp only [Exec.runPaid, henter, hrun]) (hfailed e last hrun)

/-- A run is a step and, unless that ends it, the rest. -/
theorem drive {left : Nat} {terms : Terms} {P : Value → Machine → Prop} {E : Machine → Prop}
    (hfailed : ∀ e m', Machine.stepWith (Machine.drive left) terms m = .error e m' → E m')
    (hended : ∀ value m',
      Machine.stepWith (Machine.drive left) terms m = .ok (some value) m' → P value m')
    (hrest : ∀ m', Machine.stepWith (Machine.drive left) terms m = .ok none m' →
      Yields m' (Machine.drive left terms) P E) :
    Yields m (Machine.drive (left + 1) terms) P E := by
  cases hstep : Machine.stepWith (Machine.drive left) terms m with
  | error e m' =>
      exact .of_error (e := e) (by simp only [Machine.drive, hstep]) (hfailed e m' hstep)
  | ok result m' =>
      cases result with
      | some value => exact .of_ok (by simp only [Machine.drive, hstep]) (hended value m' hstep)
      | none => exact .congr (by simp only [Machine.drive, hstep]) (hrest m' hstep)

/-- An outcome is what a machine shows at its end. -/
theorem invocation {call : Invocation} {limits : Limits} {w : World} {a : Archive}
    {P : Outcome → Archive → Prop} {E : Archive → Prop}
    (hrefused : ∀ e, Machine.enter limits 0 limits.maxSteps call w a = .error e → E a)
    (hentered : ∀ terms start,
      Machine.enter limits 0 limits.maxSteps call w a = .ok (terms, start) →
        Yields start (Machine.finish terms)
          (fun value last => P { value, world := last.world, steps := last.steps } last.archive)
          fun last => E last.archive) :
    Yields a (call.run limits w) P E := by
  cases henter : Machine.enter limits 0 limits.maxSteps call w a with
  | error e =>
      exact .of_error (e := e) (by simp only [Invocation.run, henter]) (hrefused e henter)
  | ok entry =>
      obtain ⟨terms, start⟩ := entry
      obtain ⟨hreturned, hfailed⟩ := hentered terms start henter
      cases hrun : Machine.finish terms start with
      | ok value last =>
          exact .of_ok (by simp only [Invocation.run, henter, hrun]) (hreturned value last hrun)
      | error e last =>
          exact .of_error (e := e) (by simp only [Invocation.run, henter, hrun])
            (hfailed e last hrun)

end Sequencing.Yields

open Exec

/-! ## Instructions -/

section Step

variable {R E : Machine → Machine → Prop} {nested : Terms → Exec Value} {terms : Terms}
variable (law : Law R E)

include law

theorem AccountOp.within_run (op : AccountOp)
    (hset : op = .setStor → ∀ name value, Within R E (setStorage name value))
    (hcreate : op = .createContr → ∀ op key code ownerAccess names values,
      Within R E (create op key code ownerAccess names values))
    (htransfer : op = .transfer → ∀ target (amount : Int64) params, 0 ≤ amount.toInt →
      Within R E (Exec.transfer nested terms target amount params)) :
    Within R E (op.run nested terms) := by
  cases op with
  | getBal =>
      apply law.bind (law.onStack _)
      intro target
      apply law.bind law.get
      intro m
      apply law.bind (law.account? _ _)
      intro found
      cases found with
      | none => exact law.onStack _
      | some account => exact law.bind (law.balanceWord _ _) fun _ => law.onStack _
  | getOwnBal =>
      exact law.bind law.get fun m => law.bind (law.balanceWord _ _) fun _ => law.onStack _
  | getStor =>
      apply law.bind (law.onStack _)
      intro name
      apply law.bind law.get
      intro m
      cases m.account.slot? name with
      | none => exact law.throw _
      | some value => exact law.onStack _
  | setStor =>
      apply law.bind (law.onStack _)
      intro value
      apply law.bind (law.ofExcept _)
      intro value
      exact law.bind (law.onStack _) fun name => hset rfl name value
  | getCode =>
      apply law.bind (law.onStack _)
      intro target
      apply law.bind law.get
      intro m
      exact law.bind (law.account _ _) fun account => law.onStack _
  | createContr =>
      apply law.bind (law.onStack _)
      intro key
      apply law.bind (law.onStack _)
      intro code
      apply law.bind (law.onStack _)
      intro owner
      apply law.bind (law.onStack _)
      intro names
      apply law.bind (law.onStack _)
      intro values
      exact law.bind (hcreate rfl _ key code _ names values) fun _ => law.onStack _
  | transfer =>
      apply law.bind (law.onStack _)
      intro amount
      apply law.bind (law.onStack _)
      intro target
      apply law.bind (law.onStack _)
      intro params
      by_cases hamount : amount.toInt < 0
      · rw [if_pos hamount]
        exact law.throw _
      · rw [if_neg hamount]
        exact law.bind (htransfer rfl target amount params (by omega)) fun _ => law.onStack _

theorem Opcode.within_run (op : Opcode)
    (hset : op = .account .setStor → ∀ name value, Within R E (setStorage name value))
    (hcreate : op = .account .createContr → ∀ op key code ownerAccess names values,
      Within R E (create op key code ownerAccess names values))
    (htransfer : op = .account .transfer → ∀ target (amount : Int64) params, 0 ≤ amount.toInt →
      Within R E (Exec.transfer nested terms target amount params)) :
    Within R E (op.run nested terms) := by
  cases op with
  | crypto op => exact law.bind (law.onStack _) fun _ => law.next
  | stack op => exact law.bind (law.onRegisters _) fun _ => law.next
  | frame op => exact law.bind (law.onRegisters _) fun _ => law.next
  | control op => exact law.onRegisters _
  | arith op => exact law.bind (law.onStack _) fun _ => law.next
  | list op => exact law.bind (law.onStack _) fun _ => law.next
  | account op =>
      refine law.bind (AccountOp.within_run law op ?_ ?_ ?_) fun _ => law.next
      · exact fun h => hset (congrArg Opcode.account h)
      · exact fun h => hcreate (congrArg Opcode.account h)
      · exact fun h => htransfer (congrArg Opcode.account h)
  | kill => exact law.throw _

/-- An item is within the two relations if what it writes is. -/
theorem Script.Item.within_run (item : Script.Item)
    (hset : item = .op (.account .setStor) → ∀ name value, Within R E (setStorage name value))
    (hcreate : item = .op (.account .createContr) → ∀ op key code ownerAccess names values,
      Within R E (create op key code ownerAccess names values))
    (htransfer : item = .op (.account .transfer) → ∀ target (amount : Int64) params,
      0 ≤ amount.toInt → Within R E (Exec.transfer nested terms target amount params)) :
    Within R E (item.run nested terms) := by
  cases item with
  | push value => exact law.bind (law.onStack _) fun _ => law.next
  | op instruction =>
      refine Opcode.within_run law instruction ?_ ?_ ?_
      · exact fun h => hset (congrArg Script.Item.op h)
      · exact fun h => hcreate (congrArg Script.Item.op h)
      · exact fun h => htransfer (congrArg Script.Item.op h)

/-! ## Steps and runs -/

/-- One step is within the two relations if counting it is. -/
theorem Machine.within_stepWith (hset : ∀ name value, Within R E (setStorage name value))
    (hcreate : ∀ op key code ownerAccess names values,
      Within R E (create op key code ownerAccess names values))
    (htransfer : ∀ target (amount : Int64) params, 0 ≤ amount.toInt →
      Within R E (Exec.transfer nested terms target amount params))
    (hcount : ∀ m : Machine, R m { m with steps := m.steps + 1 }) :
    Within R E (Machine.stepWith nested terms) := by
  have hcounted : Within R E
      (modify fun m => { m with steps := m.steps + 1 } : Exec PUnit) :=
    fun m => Yields.modify (hcount m)
  apply law.bind law.get
  intro m
  by_cases hbudget : terms.budget ≤ m.steps
  · rw [if_pos hbudget]
    exact law.throw _
  · rw [if_neg hbudget]
    apply law.bind hcounted
    intro _
    apply law.bind law.get
    intro m
    dsimp only
    cases terms.item? m.registers.pc with
    | none => exact law.throw _
    | some item =>
        apply law.bind (Script.Item.within_run law item (fun _ => hset) (fun _ => hcreate)
          fun _ => htransfer)
        intro flow
        cases flow with
        | goto pc => exact law.bind (law.onRegisters _) fun _ => law.pure _
        | halt value => exact law.pure _

end Step

/-- A whole run is within the two relations if the writing instructions are,
where those that run another script may take it that the other run is. -/
theorem Machine.within_drive {R E : Machine → Machine → Prop} (law : Law R E)
    (hcount : ∀ m : Machine, R m { m with steps := m.steps + 1 })
    (hset : ∀ name value, Within R E (setStorage name value))
    (hcreate : ∀ op key code ownerAccess names values,
      Within R E (create op key code ownerAccess names values))
    (htransfer : ∀ nested terms, (∀ terms, Within R E (nested terms)) →
      ∀ target (amount : Int64) params, 0 ≤ amount.toInt →
        Within R E (Exec.transfer nested terms target amount params))
    (left : Nat) (terms : Terms) : Within R E (Machine.drive left terms) := by
  induction left generalizing terms with
  | zero => exact fun m => Yields.of_error rfl (law.failed m m.registers)
  | succ left ih =>
      -- The runs nested in a step may be as long as the rest of this one.
      have hstep : Within R E (Machine.stepWith (Machine.drive left) terms) :=
        Machine.within_stepWith law hset hcreate (htransfer _ terms ih) hcount
      intro m
      refine Yields.drive (hstep m).2 (fun value => (hstep m).1 (some value)) fun mid hmid => ?_
      have hmoved := (hstep m).1 none mid hmid
      exact Yields.imp (ih terms mid) (fun _ _ => law.trans hmoved) fun _ => law.fail hmoved

end ScriptLedger
