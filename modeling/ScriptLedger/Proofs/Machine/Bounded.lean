import ScriptLedger.Proofs.Machine.Nesting

/-!
# Runs come to an end

Scripts jump where they like, call themselves, and pay accounts whose scripts pay them back.
`Machine.Runs` says what a run does without any bound on its length: it executes an
instruction, and with it the script of an account that was paid, until a step ends it.  What
was executed is written down as a trace, and a trace is counted without asking the machine
what it has counted.

Every run has such a trace and no other.  As many instructions as the trace has are what the
machine counts, those of nested runs that failed included, so the budget bounds the trace;
and each nested run is given what its caller has left at that moment, or less.

## Main results

* `Machine.exists_runs`, `Machine.Runs.unique` — a run comes to an end, in one way.
* `Machine.Runs.steps_eq` — the machine counts what the trace has.
* `Invocation.run_bounded` — the limits bound every run.
-/

namespace ScriptLedger

open Sequencing Exec

variable {α : Type} {nested : Terms → Exec Value} {terms inner inner' : Terms}
variable {m m' start start' : Machine}

/-! ## Traces -/

/-- What a run executed, in order. -/
inductive Trace
  /-- The run has ended. -/
  | done
  /-- An instruction by itself, and the rest. -/
  | item (rest : Trace)
  /-- An instruction that ran the script of another account within a budget, and the rest. -/
  | call (budget : Nat) (inner rest : Trace)

namespace Trace

/-- How many instructions were executed, those of nested runs included. -/
def instructions : Trace → Nat
  | done => 0
  | item rest => 1 + rest.instructions
  | call _ inner rest => 1 + inner.instructions + rest.instructions

/-- How deep runs were nested. -/
def nesting : Trace → Nat
  | done => 0
  | item rest => rest.nesting
  | call _ inner rest => max (1 + inner.nesting) rest.nesting

/-- The run and all that are nested in it keep to their budgets, if so many instructions of
its budget had been used before: a nested run is given no more than what is left of the
budget of its caller. -/
def Fits (budget : Nat) : (used : Nat) → Trace → Prop
  | used, done => used ≤ budget
  | used, item rest => Fits budget (used + 1) rest
  | used, call given inner rest =>
    given + (used + 1) ≤ budget ∧ Fits given 0 inner ∧
      Fits budget (used + 1 + inner.instructions) rest

/-- A run that keeps to its budget executes no more instructions than that. -/
theorem Fits.instructions_le {budget used : Nat} {trace : Trace} (h : Fits budget used trace) :
    used + trace.instructions ≤ budget := by
  induction trace generalizing used with
  | done => exact h
  | item rest ih =>
      have hrest := ih h
      rw [instructions]
      omega
  | call given inner rest _ ih =>
      have hrest := ih h.2.2
      rw [instructions]
      omega

end Trace

namespace Machine

/-! ## Runs without a bound -/

/-- The scripts of others have run already, and this is what came of it. -/
def answering (told : EStateM.Result ScriptError Machine Value) : Terms → Exec Value :=
  fun _ _ => told

/-- How a run goes on after a step and what it executes from then on, for as long as it
takes.  A step that finds its budget used up executes nothing; any other one counts as an
instruction, even if there is no item at the program counter. -/
inductive Runs : Terms → EStateM.Result ScriptError Machine (Option Value) → Trace →
    EStateM.Result ScriptError Machine Value → Prop
  | returned {terms : Terms} {value : Value} {m : Machine} :
      Runs terms (.ok (some value) m) .done (.ok value m)
  | failed {terms : Terms} {e : ScriptError} {m : Machine} :
      Runs terms (.error e m) .done (.error e m)
  | spent {terms : Terms} {m : Machine} (hspent : terms.budget ≤ m.steps) :
      Runs terms (.ok none m) .done (.error (.stepLimitExceeded terms.limits.maxSteps) m)
  | item {terms : Terms} {m : Machine} {nested : Terms → Exec Value} {rest : Trace}
      {ending : EStateM.Result ScriptError Machine Value} (hleft : m.steps < terms.budget)
      (halone : ∀ inner start, ¬Calls terms m inner start)
      (hrest : Runs terms (stepWith nested terms m) rest ending) :
      Runs terms (.ok none m) (.item rest) ending
  | call {terms inner : Terms} {m start : Machine} {called rest : Trace}
      {told ending : EStateM.Result ScriptError Machine Value} (hcalls : Calls terms m inner start)
      (hinner : Runs inner (.ok none start) called told)
      (hrest : Runs terms (stepWith (answering told) terms m) rest ending) :
      Runs terms (.ok none m) (.call inner.budget called rest) ending

/-! ## Nested runs -/

theorem Calls.left (h : Calls terms m inner start) : m.steps < terms.budget := by
  cases h with
  | intro hleft => exact hleft

/-- A step runs the script of one account at most. -/
theorem Calls.unique (h : Calls terms m inner start) (h' : Calls terms m inner' start') :
    inner' = inner ∧ start' = start := by
  cases h with
  | intro hleft hitem horder hcode henter =>
  cases h' with
  | intro hleft' hitem' horder' hcode' henter' =>
      rw [horder] at horder'
      cases horder'
      rw [henter] at henter'
      cases henter'
      exact ⟨rfl, rfl⟩

/-- A run that has started is nested no deeper than the limit. -/
theorem depth_le_of_enter {limits : Limits} {depth budget : Nat} {call : Invocation}
    {world : World} {archive : Archive}
    (h : enter limits depth budget call world archive = .ok (inner, start)) :
    depth ≤ limits.maxCallDepth :=
  (entry_eq_ok.mp (entry_of_enter h)).1

/-- A run that is nested is nested one deeper than its caller, and no deeper than the limit. -/
theorem Calls.depth (h : Calls terms m inner start) :
    inner.limits = terms.limits ∧ inner.depth = terms.depth + 1 ∧
      inner.depth ≤ terms.limits.maxCallDepth := by
  cases h with
  | intro hleft hitem horder hcode henter =>
      obtain ⟨hinner, -⟩ := enter_eq henter
      have hdepth := depth_le_of_enter henter
      rw [hinner]
      exact ⟨rfl, rfl, hdepth⟩

/-! ## A run comes to an end, in one way -/

theorem Runs.unique {r : EStateM.Result ScriptError Machine (Option Value)}
    {trace trace' : Trace} {ending ending' : EStateM.Result ScriptError Machine Value}
    (h : Runs terms r trace ending) (h' : Runs terms r trace' ending') :
    trace' = trace ∧ ending' = ending := by
  induction h generalizing trace' ending' with
  | returned =>
      cases h'
      exact ⟨rfl, rfl⟩
  | failed =>
      cases h'
      exact ⟨rfl, rfl⟩
  | spent hspent =>
      cases h' with
      | spent => exact ⟨rfl, rfl⟩
      | item hleft => exact absurd hleft (Nat.not_lt_of_le hspent)
      | call hcalls => exact absurd hcalls.left (Nat.not_lt_of_le hspent)
  | item hleft halone hrest ih =>
      cases h' with
      | spent hspent => exact absurd hleft (Nat.not_lt_of_le hspent)
      | item hleft' halone' hrest' =>
          -- The two were found with different runs of other scripts, and asked for none of them.
          rw [stepWith_congr fun inner start hcalls => absurd hcalls (halone inner start)] at hrest'
          obtain ⟨rfl, rfl⟩ := ih hrest'
          exact ⟨rfl, rfl⟩
      | call hcalls => exact absurd hcalls (halone _ _)
  | call hcalls hinner hrest ihinner ih =>
      cases h' with
      | spent hspent => exact absurd hcalls.left (Nat.not_lt_of_le hspent)
      | item hleft' halone' => exact absurd hcalls (halone' _ _)
      | call hcalls' hinner' hrest' =>
          obtain ⟨rfl, rfl⟩ := hcalls.unique hcalls'
          obtain ⟨rfl, rfl⟩ := ihinner hinner'
          obtain ⟨rfl, rfl⟩ := ih hrest'
          exact ⟨rfl, rfl⟩

/-- Every run comes to an end: by induction on what is left of its budget, which both the
rest of the run and the run nested in its first step have less of. -/
theorem exists_runs (terms : Terms) (m : Machine) :
    ∃ trace, Runs terms (.ok none m) trace (finish terms m) := by
  induction hleft : terms.budget - m.steps using Nat.strong_induction_on
    generalizing terms m with
  | _ left ih =>
  by_cases hspent : terms.budget ≤ m.steps
  · refine ⟨.done, ?_⟩
    unfold finish
    rw [drive_of_spent _ hspent]
    exact .spent hspent
  have hafter : ∃ rest, Runs terms (step terms m) rest (finish terms m) := by
    rw [finish_eq]
    cases hstep : step terms m with
    | error e m' => exact ⟨.done, .failed⟩
    | ok result m' =>
        cases result with
        | some value => exact ⟨.done, .returned⟩
        | none =>
            have hmore := ((pays_stepWith (pays_drive _) m).1 _ _ hstep).1
            exact ih _ (by omega) terms m' rfl
  obtain ⟨rest, hrest⟩ := hafter
  by_cases hcalls : ∃ inner start, Calls terms m inner start
  case neg =>
    have halone : ∀ inner start, ¬Calls terms m inner start :=
      fun inner start h => hcalls ⟨inner, start, h⟩
    exact ⟨.item rest, .item (Nat.lt_of_not_le hspent) halone hrest⟩
  obtain ⟨inner, start, hcalls⟩ := hcalls
  obtain ⟨hzero, hless⟩ := hcalls.budget_lt
  obtain ⟨called, hcalled⟩ := ih _ (by omega) inner start rfl
  have htold : stepWith (answering (finish inner start)) terms m = step terms m := by
    apply stepWith_congr
    intro inner' start' hcalls'
    obtain ⟨rfl, rfl⟩ := hcalls.unique hcalls'
    exact (drive_eq_finish (by omega)).symm
  refine ⟨.call inner.budget called rest, .call hcalls hcalled ?_⟩
  rw [htold]
  exact hrest

/-! ## What is counted -/

theorem steps_of_level {x : Exec α} (h : Within Level Level x) (m : Machine) :
    (final (x m)).steps = m.steps := by
  cases hx : x m with
  | ok a m' => exact (h m).1 a m' hx
  | error e m' => exact (h m).2 e m' hx

/-- Runs of other scripts that fail before their first instruction. -/
private def stillborn (_ : Terms) : Exec Value := throw .killed

/-- An item counts nothing by itself. -/
private theorem level_stillborn : Within Level Level (execute stillborn terms) := by
  have hpaid : ∀ call world, Within Level Level (runPaid stillborn terms call world) := by
    intro call world m
    refine Yields.runPaid (fun _ _ => level_law.refl m) fun inner start henter => .throw ?_
    obtain ⟨-, hstart⟩ := enter_eq henter
    show m.steps + start.steps = m.steps
    rw [hstart]
    rfl
  apply level_law.bind level_law.get
  intro m
  dsimp only
  cases terms.item? m.registers.pc with
  | none => exact level_law.throw _
  | some item =>
      refine level_law.bind ?_ (within_proceed level_law)
      refine Script.Item.within_run level_law item (fun _ => level_setStorage)
        (fun _ => level_create) ?_
      intro _ target amount params _
      rw [transfer_eq]
      apply level_law.bind level_law.get
      intro m
      apply level_law.bind (within_prepare level_law level_put target amount params)
      intro call
      cases call with
      | none => exact level_law.pure false
      | some order =>
          obtain ⟨call, world⟩ := order
          refine level_law.bind ?_ fun moved =>
            level_law.bind (level_reload _) fun _ => level_law.pure moved
          unfold deliver
          by_cases hcode : call.callee.hasCode = true
          · rw [if_pos hcode]
            exact hpaid call world
          · rw [if_neg hcode]
            exact level_law.bind (level_modify fun _ => rfl) fun _ => level_law.pure true

/-- A step that runs no other script counts itself. -/
theorem steps_of_alone (hleft : m.steps < terms.budget)
    (halone : ∀ inner start, ¬Calls terms m inner start) :
    (final (stepWith nested terms m)).steps = m.steps + 1 := by
  have hsame : stepWith nested terms m = stepWith stillborn terms m :=
    stepWith_congr fun inner start hcalls => absurd hcalls (halone inner start)
  rw [hsame, stepWith_of_lt hleft]
  exact steps_of_level level_stillborn m.counted

/-- A step that runs another script counts itself and what that run has counted, whether it
returned or failed. -/
theorem steps_of_calls (h : Calls terms m inner start) :
    (final (stepWith nested terms m)).steps =
      m.steps + 1 + (final (nested inner start)).steps := by
  cases h with
  | @intro payer call world m' hleft hitem horder hcode henter =>
      have hordered : m'.steps = m.steps + 1 := (order_eq_ok horder).2.1.steps
      have hdelivered : ∃ moved delivered, deliver nested terms call world m' =
          .ok moved delivered ∧ delivered.steps = m'.steps + (final (nested inner start)).steps := by
        cases hrun : nested inner start with
        | ok value m'' => exact ⟨true, _, deliver_of_ok hcode henter hrun, rfl⟩
        | error cause m'' => exact ⟨false, _, deliver_of_error hcode henter hrun, rfl⟩
      obtain ⟨moved, delivered, hdeliver, hsteps⟩ := hdelivered
      rw [stepWith_of_lt hleft, execute_transfer (m := m.counted) hitem, bind_of_ok horder]
      dsimp only
      rw [settle_bind, bind_of_ok hdeliver, steps_of_level (level_takeBack payer moved), hsteps,
        hordered]

namespace Runs

variable {r : EStateM.Result ScriptError Machine (Option Value)} {trace : Trace}
variable {ending : EStateM.Result ScriptError Machine Value}

/-- A machine has counted what its run executed, nested runs included. -/
theorem steps_eq (h : Runs terms r trace ending) :
    (final ending).steps = (final r).steps + trace.instructions := by
  induction h with
  | returned => rfl
  | failed => rfl
  | spent => rfl
  | item hleft halone hrest ih =>
      rw [ih, steps_of_alone hleft halone, Trace.instructions, final]
      omega
  | call hcalls hinner hrest ihinner ih =>
      obtain ⟨hzero, -⟩ := hcalls.budget_lt
      rw [ih, steps_of_calls hcalls, answering, ihinner, Trace.instructions, final, final, hzero]
      omega

/-- A run that starts within its budget keeps to it, and so do the runs nested in it. -/
theorem fits (h : Runs terms r trace ending) (hkept : (final r).steps ≤ terms.budget) :
    trace.Fits terms.budget (final r).steps := by
  induction h with
  | returned => exact hkept
  | failed => exact hkept
  | spent => exact hkept
  | @item terms m nested _ _ hleft halone hrest ih =>
      have hcounted : (final (stepWith nested terms m)).steps = m.steps + 1 :=
        steps_of_alone hleft halone
      have hfits := ih (by rw [hcounted]; exact hleft)
      rw [hcounted] at hfits
      exact hfits
  | @call terms inner m start _ _ told _ hcalls hinner hrest ihinner ih =>
      obtain ⟨hzero, hless⟩ := hcalls.budget_lt
      have hcalled := ihinner (by rw [final, hzero]; exact Nat.zero_le _)
      have hcount := hinner.steps_eq
      rw [final, hzero] at hcalled hcount
      have hspent := hcalled.instructions_le
      have hcounted : (final (stepWith (answering told) terms m)).steps =
          m.steps + 1 + (final told).steps := steps_of_calls hcalls
      rw [hcount] at hcounted
      have hfits := ih (by rw [hcounted]; omega)
      rw [hcounted, Nat.zero_add] at hfits
      exact ⟨by rw [final]; omega, hcalled, hfits⟩

/-- No run is nested deeper than the limit. -/
theorem depth_le (h : Runs terms r trace ending) (hdepth : terms.depth ≤ terms.limits.maxCallDepth) :
    terms.depth + trace.nesting ≤ terms.limits.maxCallDepth := by
  induction h with
  | returned => exact hdepth
  | failed => exact hdepth
  | spent => exact hdepth
  | item hleft halone hrest ih => exact ih hdepth
  | call hcalls hinner hrest ihinner ih =>
      obtain ⟨hlimits, hdeeper, hinside⟩ := hcalls.depth
      have hcalled := ihinner (by rw [hlimits]; exact hinside)
      have hlater := ih hdepth
      rw [hlimits] at hcalled
      rw [Trace.nesting]
      omega

end Runs

/-- What is reported of the end of a run that has executed so many instructions. -/
def report (steps : Nat) :
    EStateM.Result ScriptError Machine Value → EStateM.Result ScriptError Archive Outcome
  | .ok value m => .ok { value, world := m.world, steps } m.archive
  | .error e m => .error e m.archive

end Machine

namespace Invocation

/-- The limits bound every run.  One that starts has a trace and an end, and no other, and
reports as its steps the instructions of the trace; they are no more than the limit, every
nested run is given what is left of the budget of its caller or less, and none is nested
deeper than the limit. -/
theorem run_bounded (call : Invocation) (limits : Limits) (w : World) (a : Archive) :
    (∃ e, Machine.enter limits 0 limits.maxSteps call w a = .error e ∧
      call.run limits w a = .error e a) ∨
    ∃ terms start trace ending,
      Machine.enter limits 0 limits.maxSteps call w a = .ok (terms, start) ∧
      (∀ trace' ending', Machine.Runs terms (.ok none start) trace' ending' ↔
        trace' = trace ∧ ending' = ending) ∧
      call.run limits w a = Machine.report trace.instructions ending ∧
      (final ending).steps = trace.instructions ∧
      trace.instructions ≤ limits.maxSteps ∧ trace.Fits limits.maxSteps 0 ∧
      trace.nesting ≤ limits.maxCallDepth := by
  cases henter : Machine.enter limits 0 limits.maxSteps call w a with
  | error e =>
      left
      refine ⟨e, rfl, ?_⟩
      unfold Invocation.run
      rw [henter]
  | ok entry =>
  right
  obtain ⟨terms, start⟩ := entry
  obtain ⟨hterms, hstart⟩ := Machine.enter_eq henter
  have hzero : start.steps = 0 := by rw [hstart]
  have hbudget : terms.budget = limits.maxSteps := by rw [hterms]
  have hlimits : terms.limits = limits := by rw [hterms]
  have hdepth : terms.depth = 0 := by rw [hterms]
  obtain ⟨trace, hruns⟩ := Machine.exists_runs terms start
  have hcount := hruns.steps_eq
  have hfits := hruns.fits (by rw [final, hzero]; exact Nat.zero_le _)
  have hnesting := hruns.depth_le (by rw [hdepth]; exact Nat.zero_le _)
  rw [final, hzero, Nat.zero_add] at hcount
  rw [final, hzero, hbudget] at hfits
  rw [hdepth, hlimits, Nat.zero_add] at hnesting
  have htotal := hfits.instructions_le
  rw [Nat.zero_add] at htotal
  refine ⟨terms, start, trace, Machine.finish terms start, rfl, ?_, ?_, hcount, htotal, hfits,
    hnesting⟩
  · intro trace' ending'
    constructor
    · exact hruns.unique
    · rintro ⟨rfl, rfl⟩
      exact hruns
  · unfold Invocation.run
    rw [henter]
    dsimp only
    cases hend : Machine.finish terms start with
    | ok value m =>
        rw [hend] at hcount
        rw [Machine.report, ← hcount, final]
    | error e m => rfl

end Invocation

end ScriptLedger
