import ScriptLedger.Proofs.Machine.Conservation
import ScriptLedger.Proofs.Machine.Housed
import ScriptLedger.Proofs.Machine.Nesting

/-!
# The step limit

A script cannot find out its step limit and return.  A nested run that meets the limit
fails, and its caller gets a zero that it could branch on; but such a run has used up
what its caller had left as well, and so the caller is stopped before its next item,
and the caller's caller after it, up to the outermost run.

The proof compares a run with the same run under a smaller budget.  Either the smaller
budget makes no difference at all, or the run under it fails with nothing left, and
the other one has executed at least as many instructions.

## Main results

* `Machine.drive_capped` — the comparison, by induction on the smaller budget.
* `Invocation.run_of_maxSteps` — a run that returned returns the same under every
  limit that it keeps to, and fails for the limit under every other one.
-/

namespace ScriptLedger

open Sequencing Exec

variable {α : Type} {nested nested' : Terms → Exec Value} {terms : Terms} {m m' : Machine}

/-- The same terms with another limit and a budget that goes with it. -/
def Terms.capped (terms : Terms) (maxSteps budget : Nat) : Terms :=
  { terms with limits := { terms.limits with maxSteps }, budget }

theorem Terms.capped_capped (h : terms.budget = terms.limits.maxSteps) (maxSteps : Nat) :
    (terms.capped maxSteps maxSteps).capped terms.budget terms.budget = terms := by
  obtain ⟨program, limits, depth, budget⟩ := terms
  dsimp only at h
  subst h
  rfl

namespace Machine

/-- The limit has no part in how a run starts. -/
theorem enter_capped (limits : Limits) (depth budget maxSteps budget' : Nat) (call : Invocation)
    (world : World) (archive : Archive) :
    enter { limits with maxSteps } depth budget' call world archive =
      (enter limits depth budget call world archive).map fun (inner, start) =>
        (inner.capped maxSteps budget', start) := by
  have hentry : entry { limits with maxSteps } depth call = entry limits depth call := rfl
  rw [enter_eq_map, enter_eq_map, hentry]
  cases entry limits depth call with
  | error e => rfl
  | ok given => rfl

/-! ## After the script of the account that was paid -/

/-- Two truth values can be pushed on the same stacks. -/
private theorem push_ofBool {stack stack' : Stack} {b : Bool} {u : Unit}
    (h : Stack.push (.ofBool b) stack = .ok u stack') (b' : Bool) :
    ∃ pushed, Stack.push (.ofBool b') stack = .ok () pushed := by
  have hpush : ∀ b : Bool, Stack.push (.ofBool b) stack =
      if stack.limit ≤ stack.size then .error (.stackOverflow stack.limit) stack
      else if stack.valueLimit < 1 then .error (.valueTooLarge 1 stack.valueLimit) stack
      else .ok () { stack with entries := stack.entries.push (.ofBool b) } := by
    intro b
    unfold Stack.push
    show (if stack.limit ≤ stack.size then _ else _ : StackM Unit) stack = _
    by_cases hfull : stack.limit ≤ stack.size
    · rw [if_pos hfull, if_pos hfull]
      rfl
    · rw [if_neg hfull, if_neg hfull]
      show (if stack.valueLimit < 1 then _ else _ : StackM Unit) stack = _
      by_cases hlarge : stack.valueLimit < 1
      · rw [if_pos hlarge, if_pos hlarge]
        rfl
      · rw [if_neg hlarge, if_neg hlarge]
        rfl
  rw [hpush] at h
  rw [hpush]
  by_cases hfull : stack.limit ≤ stack.size
  · rw [if_pos hfull] at h
    cases h
  · rw [if_neg hfull] at h ⊢
    by_cases hlarge : stack.valueLimit < 1
    · rw [if_pos hlarge] at h
      cases h
    · rw [if_neg hlarge]
      exact ⟨_, rfl⟩

/-- A transfer never ends a run. -/
theorem result_of_conclude {g g' : Machine} {moved : Bool} {result : Option Value}
    (h : (conclude moved >>= proceed) g = .ok result g') : result = none := by
  obtain ⟨flow, g₂, hconclude, hproceed⟩ := bind_eq_ok.mp h
  obtain ⟨_, g₁, -, hnext⟩ := bind_eq_ok.mp hconclude
  have hflow : ∃ pc, flow = .goto pc := by
    cases hnext
    exact ⟨_, rfl⟩
  obtain ⟨pc, rfl⟩ := hflow
  obtain ⟨_, _, -, hpure⟩ := bind_eq_ok.mp hproceed
  exact (pure_eq_ok.mp hpure).1.symm

/-- Whether a script can be told what came of a transfer depends on the registers
alone. -/
theorem exists_conclude {f g g' : Machine} {moved : Bool} {result : Option Value}
    (h : (conclude moved >>= proceed) g = .ok result g') (hregisters : f.registers = g.registers)
    (moved' : Bool) : ∃ f', (conclude moved' >>= proceed) f = .ok none f' := by
  obtain ⟨_, _, hconclude, -⟩ := bind_eq_ok.mp h
  obtain ⟨_, _, hpush, -⟩ := bind_eq_ok.mp hconclude
  obtain ⟨⟨stack, pc, fp⟩, gsteps, gworld, gaccount, garchive⟩ := g
  obtain ⟨fregisters, steps, world, account, archive⟩ := f
  dsimp only at hregisters
  subst hregisters
  have hstack : ∃ stack', Stack.push (.ofBool moved) stack = .ok () stack' := by
    unfold onStack onRegisters Registers.onStack at hpush
    dsimp only at hpush
    cases hon : Stack.push (.ofBool moved) stack with
    | ok u stack' => exact ⟨stack', rfl⟩
    | error e stack' => rw [hon] at hpush; cases hpush
  obtain ⟨stack', hstack⟩ := hstack
  obtain ⟨pushed, hpushed⟩ := push_ofBool hstack moved'
  have htold : conclude moved' ⟨⟨stack, pc, fp⟩, steps, world, account, archive⟩ =
      .ok (.goto (pc + 1)) ⟨⟨pushed, pc, fp⟩, steps, world, account, archive⟩ := by
    refine bind_eq_ok.mpr ⟨(), ⟨⟨pushed, pc, fp⟩, steps, world, account, archive⟩, ?_, rfl⟩
    unfold onStack onRegisters Registers.onStack
    dsimp only
    rw [hpushed]
  exact ⟨_, bind_eq_ok.mpr ⟨_, _, htold, rfl⟩⟩

theorem result_of_takeBack {payer : Hash} {g g' : Machine} {moved : Bool}
    {result : Option Value} (h : takeBack payer moved g = .ok result g') : result = none := by
  obtain ⟨_, _, -, hconclude⟩ := bind_eq_ok.mp h
  exact result_of_conclude hconclude

/-- As long as the callee can be read back, a transfer goes on. -/
theorem exists_takeBack {payer : Hash} {f g g' : Machine} {moved : Bool} {result : Option Value}
    (h : takeBack payer moved g = .ok result g') (hregisters : f.registers = g.registers)
    (hfound : f.world.Houses f.archive payer) (moved' : Bool) :
    ∃ f', takeBack payer moved' f = .ok none f' := by
  obtain ⟨_, g₁, hreload, hconclude⟩ := bind_eq_ok.mp h
  have hsame : g₁.registers = g.registers := by
    obtain ⟨_, _, hget, hreload⟩ := bind_eq_ok.mp hreload
    obtain ⟨rfl, rfl⟩ := get_eq_ok.mp hget
    obtain ⟨account, _, haccount, hreload⟩ := bind_eq_ok.mp hreload
    obtain ⟨-, rfl⟩ := account_eq_ok.mp haccount
    cases hreload
    rfl
  obtain ⟨account, hfound, -⟩ := hfound
  have hback : reload payer f = .ok () { f with account } := by
    refine bind_eq_ok.mpr ⟨f, f, rfl, bind_eq_ok.mpr ⟨account, f, ?_, rfl⟩⟩
    exact account_eq_ok.mpr ⟨hfound, rfl⟩
  have hregisters' : { f with account }.registers = g₁.registers := by rw [hsame, hregisters]
  obtain ⟨f', hf'⟩ := exists_conclude hconclude hregisters' moved'
  exact ⟨f', bind_eq_ok.mpr ⟨(), _, hback, hf'⟩⟩

/-! ## Two budgets -/

/-- A run that failed with its budget used up, and the same run under a larger budget,
which went on for at least as long.  If that one returned, the first one failed for the
limit. -/
inductive Cut (maxSteps budget : Nat) (m : Machine) :
    EStateM.Result ScriptError Machine Value → EStateM.Result ScriptError Machine Value → Prop
  | failed {e e' : ScriptError} {f g : Machine} (hspent : f.steps = budget)
      (hlonger : budget ≤ g.steps) : Cut maxSteps budget m (.error e f) (.error e' g)
  | returned {e : ScriptError} {value : Value} {f g : Machine} (hspent : f.steps = budget)
      (hlonger : budget < g.steps)
      (hlimit : m.Housed → f.archive.Collisionless → e = .stepLimitExceeded maxSteps) :
      Cut maxSteps budget m (.error e f) (.ok value g)

theorem Cut.mono {maxSteps budget : Nat} {small large : EStateM.Result ScriptError Machine Value}
    (h : Cut maxSteps budget m' small large)
    (hhoused : ∀ e f, small = .error e f → f.archive.Collisionless → m.Housed → m'.Housed) :
    Cut maxSteps budget m small large := by
  cases h with
  | failed hspent hlonger => exact .failed hspent hlonger
  | returned hspent hlonger hlimit =>
      exact .returned hspent hlonger fun hm hcol => hlimit (hhoused _ _ rfl hcol hm) hcol

/-- With the budget spent, a run fails for the limit; under a larger one it goes on. -/
theorem cut_of_spent {maxSteps budget left : Nat} {result : EStateM.Result ScriptError Machine Value}
    (hlarge : drive left terms m = result) {f : Machine} (hspent : f.steps = budget)
    (hm : budget ≤ m.steps) :
    Cut maxSteps budget m' (.error (.stepLimitExceeded maxSteps) f) result := by
  cases result with
  | error e g =>
      have hlonger := ((pays_drive left terms m).2 e g hlarge).1
      exact .failed hspent (Nat.le_trans hm hlonger)
  | ok value g =>
      have hlonger := ((pays_drive left terms m).1 value g hlarge).1
      exact .returned hspent (Nat.lt_of_le_of_lt hm hlonger) fun _ _ => rfl

/-- A smaller budget makes no difference, or cuts the run short. -/
def Compares (maxSteps left' : Nat) : Prop :=
  ∀ {terms : Terms} {m : Machine} {budget left : Nat}, budget ≤ terms.budget → m.steps ≤ budget →
    budget - m.steps ≤ left' → terms.budget - m.steps ≤ left →
      drive left' (terms.capped maxSteps budget) m = drive left terms m ∨
        Cut maxSteps budget m (drive left' (terms.capped maxSteps budget) m) (drive left terms m)

/-- A step that used up its budget, and the same step under a larger one.  Neither ends
its run. -/
structure Parts (budget : Nat) (m : Machine)
    (small large : EStateM.Result ScriptError Machine (Option Value)) : Prop where
  spent : (∃ e f, small = .error e f ∧ f.steps = budget) ∨
    ∃ f, small = .ok none f ∧ f.steps = budget
  longer : (∃ e g, large = .error e g ∧ budget ≤ g.steps) ∨
    ∃ g, large = .ok none g ∧ budget ≤ g.steps
  caught : m.Housed → ∀ g, large = .ok none g → ∃ f, small = .ok none f

section Step

variable {maxSteps budget left left' : Nat} (ih : Compares maxSteps left')
variable (hbudget : budget ≤ terms.budget) (hm : m.steps ≤ budget)
variable (hleft' : budget - m.steps ≤ left') (hleft : terms.budget - m.steps ≤ left)

include ih hbudget hm hleft' hleft

/-- If the script of an account that was paid is cut short, the budget of its caller is
used up, too, and what the caller has is just as it was before. -/
theorem deliver_capped (call : Invocation) (world : World) :
    deliver (drive left') (terms.capped maxSteps budget) call world m =
        deliver (drive left) terms call world m ∨
      ∃ moved f g, deliver (drive left') (terms.capped maxSteps budget) call world m = .ok false f ∧
        deliver (drive left) terms call world m = .ok moved g ∧ f.steps = budget ∧
          budget ≤ g.steps ∧ f.world = m.world ∧ f.registers = g.registers := by
  unfold deliver
  by_cases hcode : call.callee.hasCode = true
  case neg =>
    rw [if_neg hcode, if_neg hcode]
    exact Or.inl rfl
  rw [if_pos hcode, if_pos hcode]
  have hlimits : (terms.capped maxSteps budget).limits = { terms.limits with maxSteps } := rfl
  have henter := enter_capped terms.limits (terms.depth + 1) (terms.budget - m.steps) maxSteps
    (budget - m.steps) call world m.archive
  unfold runPaid
  rw [hlimits, show (terms.capped maxSteps budget).depth = terms.depth from rfl,
    show (terms.capped maxSteps budget).budget = budget from rfl, henter]
  cases hentry : enter terms.limits (terms.depth + 1) (terms.budget - m.steps) call world
      m.archive with
  | error e => exact Or.inl rfl
  | ok entry =>
      obtain ⟨inner, start⟩ := entry
      obtain ⟨hinner, hstart⟩ := enter_eq hentry
      have hgiven : inner.budget = terms.budget - m.steps := by rw [hinner]
      have hzero : start.steps = 0 := by rw [hstart]
      have hcompare := @ih inner start (budget - m.steps) left (by omega) (by omega) (by omega)
        (by omega)
      simp only [Except.map]
      rcases hcompare with hsame | hcut
      · rw [hsame]
        exact Or.inl rfl
      · right
        cases hsmall : drive left' (inner.capped maxSteps (budget - m.steps)) start with
        | ok value f =>
            rw [hsmall] at hcut
            cases hcut
        | error e f =>
            cases hlarge : drive left inner start with
            | error e' g =>
                rw [hsmall, hlarge] at hcut
                cases hcut with
                | failed hspent hlonger =>
                    exact ⟨false, _, _, rfl, rfl, by dsimp only; omega, by dsimp only; omega,
                      rfl, rfl⟩
            | ok value g =>
                rw [hsmall, hlarge] at hcut
                cases hcut with
                | returned hspent hlonger _ =>
                    exact ⟨true, _, _, rfl, rfl, by dsimp only; omega, by dsimp only; omega,
                      rfl, rfl⟩

/-- A step is cut short by a transfer only, which then goes on if it does so under the
larger budget and the callee can be read back. -/
theorem execute_capped :
    execute (drive left') (terms.capped maxSteps budget) m = execute (drive left) terms m ∨
      Parts budget m (execute (drive left') (terms.capped maxSteps budget) m)
        (execute (drive left) terms m) := by
  by_cases hitem : terms.item? m.registers.pc = some (.op (.account .transfer))
  case neg => exact Or.inl (execute_eq rfl rfl hitem)
  rw [execute_transfer hitem,
    execute_transfer (show (terms.capped maxSteps budget).item? m.registers.pc = _ from hitem)]
  cases horder : order m with
  | error e m₁ =>
      rw [bind_of_error horder, bind_of_error horder]
      exact Or.inl rfl
  | ok paid m₁ =>
  rw [bind_of_ok horder, bind_of_ok horder]
  obtain ⟨payer, call⟩ := paid
  cases call with
  | none => exact Or.inl rfl
  | some call =>
  obtain ⟨call, world⟩ := call
  obtain ⟨hpayer, hstill, hgrows⟩ := order_eq_ok horder
  dsimp only
  rw [settle_bind, settle_bind]
  have hsteps := hstill.steps
  rcases deliver_capped (m := m₁) ih hbudget (by omega) (by omega)
    (show terms.budget - m₁.steps ≤ left by omega) call world with hsame | ⟨moved, f, g, hsmall, hlarge, hspent, hlonger, hworld, hregisters⟩
  · left
    cases hdelivered : deliver (drive left) terms call world m₁ with
    | error e m₂ => rw [bind_of_error hdelivered, bind_of_error (hsame.trans hdelivered)]
    | ok moved m₂ => rw [bind_of_ok hdelivered, bind_of_ok (hsame.trans hdelivered)]
  · right
    rw [bind_of_ok hsmall, bind_of_ok hlarge]
    have hlevel := level_takeBack payer
    refine ⟨?_, ?_, ?_⟩
    · cases hback : takeBack payer false f with
      | error e f' => exact Or.inl ⟨e, f', rfl, ((hlevel false f).2 _ _ hback).trans hspent⟩
      | ok result f' =>
          rw [result_of_takeBack hback]
          exact Or.inr ⟨f', rfl, ((hlevel false f).1 _ _ hback).trans hspent⟩
    · cases hback : takeBack payer moved g with
      | error e g' =>
          have hlonger' : budget ≤ g'.steps := by rw [(hlevel moved g).2 _ _ hback]; exact hlonger
          exact Or.inl ⟨e, g', rfl, hlonger'⟩
      | ok result g' =>
          have hlonger' : budget ≤ g'.steps := by rw [(hlevel moved g).1 _ _ hback]; exact hlonger
          rw [result_of_takeBack hback]
          exact Or.inr ⟨g', rfl, hlonger'⟩
    · intro hhoused g' hback
      have hgrows' : m₁.Grows f := (grows_deliver (grows_drive left') call world m₁).1 _ _ hsmall
      refine exists_takeBack hback hregisters ?_ false
      rw [hworld, hstill.world, hpayer]
      exact hhoused.growsTo (grows_law.trans hgrows hgrows')

end Step

/-! ## Runs -/

/-- A run under a smaller budget is the same run, or it is cut short. -/
theorem drive_capped (maxSteps left' : Nat) : Compares maxSteps left' := by
  induction left' with
  | zero =>
      intro terms m budget left hbudget hm hleft' hleft
      right
      exact cut_of_spent rfl (by omega) (by omega)
  | succ left' ih =>
      intro terms m budget left hbudget hm hleft' hleft
      by_cases hspent : m.steps = budget
      · right
        have hfailed := drive_of_spent (m := m) (left' + 1)
          (show (terms.capped maxSteps budget).budget ≤ m.steps from Nat.le_of_eq hspent.symm)
        rw [hfailed]
        exact cut_of_spent rfl hspent (by omega)
      obtain ⟨left, rfl⟩ : ∃ k, left = k + 1 := ⟨left - 1, by omega⟩
      have hsmall : stepWith (drive left') (terms.capped maxSteps budget) m =
          execute (drive left') (terms.capped maxSteps budget) m.counted :=
        stepWith_of_lt (show m.steps < budget by omega)
      have hlarge : stepWith (drive left) terms m = execute (drive left) terms m.counted :=
        stepWith_of_lt (by omega)
      have hcounted : m.counted.steps = m.steps + 1 := rfl
      rcases execute_capped (m := m.counted) ih hbudget (by omega) (by omega)
        (show terms.budget - m.counted.steps ≤ left by omega) with hsame | hparts
      · -- The same step, and then the rest of two runs.
        unfold drive
        rw [hsmall, hlarge, hsame]
        cases hstep : execute (drive left) terms m.counted with
        | error e m₁ => exact Or.inl rfl
        | ok result m₁ =>
            cases result with
            | some value => exact Or.inl rfl
            | none =>
                have hrun := hsmall.trans (hsame.trans hstep)
                obtain ⟨hmore, hkept⟩ := (pays_stepWith (pays_drive left') m).1 _ _ hrun
                have hkept' : m₁.steps ≤ budget := hkept
                dsimp only
                rcases ih hbudget hkept' (by omega)
                  (show terms.budget - m₁.steps ≤ left by omega) with hrest | hcut
                · exact Or.inl hrest
                · right
                  refine hcut.mono fun e f hf hcol hhoused => ?_
                  have hkeeps := (keeps_stepWith left' _ m).1 _ _ hrun
                  have hgrows := (grows_drive left' _ m₁).2 e f hf
                  exact hkeeps.housed hhoused (Archive.GrowsTo.collisionless hgrows hcol)
      · right
        unfold drive
        rw [hsmall, hlarge]
        rcases hparts.spent with ⟨e, f, hf, hspent⟩ | ⟨f, hf, hspent⟩
        · rw [hf]
          rcases hparts.longer with ⟨e', g, hg, hlonger⟩ | ⟨g, hg, hlonger⟩
          · rw [hg]
            exact .failed hspent hlonger
          · rw [hg]
            dsimp only
            cases hrest : drive left terms g with
            | error e' g' =>
                have hmore := ((pays_drive left terms g).2 e' g' hrest).1
                exact .failed hspent (Nat.le_trans hlonger hmore)
            | ok value g' =>
                have hmore := ((pays_drive left terms g).1 value g' hrest).1
                refine .returned hspent (Nat.lt_of_le_of_lt hlonger hmore) fun hhoused _ => ?_
                obtain ⟨_, hcaught⟩ := hparts.caught hhoused g hg
                rw [hf] at hcaught
                cases hcaught
        · rw [hf]
          dsimp only
          rw [drive_of_spent (m := f) left'
            (show (terms.capped maxSteps budget).budget ≤ f.steps from Nat.le_of_eq hspent.symm)]
          rcases hparts.longer with ⟨e', g, hg, hlonger⟩ | ⟨g, hg, hlonger⟩
          · rw [hg]
            exact .failed hspent hlonger
          · rw [hg]
            exact cut_of_spent rfl hspent hlonger

/-! ## Whole runs -/

/-- A run from the start that returned returns the same under every budget that it
keeps to, and under any other it is cut short. -/
theorem finish_capped {terms : Terms} {start final : Machine} {value : Value}
    (hbudget : terms.budget = terms.limits.maxSteps) (hzero : start.steps = 0)
    (h : finish terms start = .ok value final) (maxSteps : Nat) :
    (final.steps ≤ maxSteps ∧ finish (terms.capped maxSteps maxSteps) start = .ok value final) ∨
      ∃ e f, maxSteps < final.steps ∧
        finish (terms.capped maxSteps maxSteps) start = .error e f ∧
          (start.Housed → f.archive.Collisionless → e = .stepLimitExceeded maxSteps) := by
  have hwithin := ((pays_drive _ terms start).1 value final h).2
  unfold finish at h ⊢
  rcases Nat.le_total maxSteps terms.budget with hle | hle
  · rcases drive_capped maxSteps ((terms.capped maxSteps maxSteps).budget - start.steps) hle
      (by omega) (Nat.le_refl _) (Nat.le_refl _) with hsame | hcut
    · left
      rw [h] at hsame
      exact ⟨((pays_drive _ _ start).1 value final hsame).2, hsame⟩
    · right
      rw [h] at hcut
      cases hsmall : drive ((terms.capped maxSteps maxSteps).budget - start.steps)
          (terms.capped maxSteps maxSteps) start with
      | ok value' f =>
          rw [hsmall] at hcut
          cases hcut
      | error e f =>
          rw [hsmall] at hcut
          cases hcut with
          | returned hspent hlonger hlimit => exact ⟨e, f, hlonger, rfl, hlimit⟩
  · -- Here the given limit is the smaller one, and the run under it was not cut short.
    left
    refine ⟨Nat.le_trans hwithin hle, ?_⟩
    have hback := Terms.capped_capped hbudget maxSteps
    rcases drive_capped terms.budget (terms.budget - start.steps)
      (show terms.budget ≤ (terms.capped maxSteps maxSteps).budget from hle) (by omega)
      (Nat.le_refl _) (Nat.le_refl _) with hsame | hcut
    · rw [← hsame, hback, h]
    · rw [hback, h] at hcut
      cases hcut

end Machine

namespace Invocation

variable {call : Invocation} {limits : Limits} {w : World} {a a' : Archive} {outcome : Outcome}

/-- A run that returned has executed an instruction. -/
theorem steps_pos_of_run (h : call.run limits w a = .ok outcome a') : 0 < outcome.steps := by
  obtain ⟨terms, start, value, final, -, hrun, rfl, rfl⟩ := exists_finish_of_run h
  exact Nat.zero_lt_of_lt ((Machine.pays_drive _ terms start).1 value final hrun).1

/-- The step limit is nothing that a script that returns can find out: it returns the
same under every limit that it keeps to, and under any other it fails, for the limit
unless digests collide. -/
theorem run_of_maxSteps (hcallee : w.Holds a call.callee)
    (h : call.run limits w a = .ok outcome a') (maxSteps : Nat) :
    (outcome.steps ≤ maxSteps → call.run { limits with maxSteps } w a = .ok outcome a') ∧
      (maxSteps < outcome.steps → ∃ e a'',
        call.run { limits with maxSteps } w a = .error e a'' ∧
          (a''.Collisionless → e = .stepLimitExceeded maxSteps)) := by
  have hcapped := Machine.enter_capped limits 0 limits.maxSteps maxSteps maxSteps call w a
  unfold Invocation.run at h ⊢
  rw [hcapped]
  cases henter : Machine.enter limits 0 limits.maxSteps call w a with
  | error e => rw [henter] at h; cases h
  | ok entry =>
  obtain ⟨terms, start⟩ := entry
  obtain ⟨hterms, hstart⟩ := Machine.enter_eq henter
  rw [henter] at h
  simp only [Except.map] at h ⊢
  cases hrun : Machine.finish terms start with
  | error e final => rw [hrun] at h; cases h
  | ok value final =>
  rw [hrun] at h
  cases h
  have hbudget : terms.budget = terms.limits.maxSteps := by rw [hterms]
  have hzero : start.steps = 0 := by rw [hstart]
  have hhoused : start.Housed := by
    rw [Machine.Housed, hstart]
    exact hcallee.houses
  rcases Machine.finish_capped hbudget hzero hrun maxSteps with
    ⟨hle, hsame⟩ | ⟨e, f, hlt, hfailed, hlimit⟩
  · rw [hsame]
    refine ⟨fun _ => rfl, fun hlt => absurd hle (Nat.not_le_of_lt hlt)⟩
  · rw [hfailed]
    exact ⟨fun hle => absurd hle (Nat.not_le_of_lt hlt), fun _ => ⟨e, _, rfl, hlimit hhoused⟩⟩

/-- A payment, just within its limit and with none at all. -/
theorem run_of_maxSteps_payment : ∃ w a outcome a', w.Holds a Payment.order.callee ∧
    Payment.order.run {} w a = .ok outcome a' ∧ outcome.value = .int 1 ∧ 0 < outcome.steps ∧
      Payment.order.run { maxSteps := outcome.steps } w a = .ok outcome a' ∧
        ∃ e a'', Payment.order.run { maxSteps := 0 } w a = .error e a'' ∧
          (a''.Collisionless → e = .stepLimitExceeded 0) := by
  obtain ⟨-, w, a, hopen, outcome, a', hrun, hvalue, hcol⟩ := Payment.exists_run
  obtain ⟨-, hpayer⟩ := Payment.wellFormed_opening hopen ((growsTo_of_run hrun).collisionless hcol)
  have hpositive := steps_pos_of_run hrun
  exact ⟨w, a, outcome, a', hpayer, hrun, hvalue, hpositive,
    (run_of_maxSteps hpayer hrun outcome.steps).1 (Nat.le_refl _),
    (run_of_maxSteps hpayer hrun 0).2 hpositive⟩

end Invocation

end ScriptLedger
