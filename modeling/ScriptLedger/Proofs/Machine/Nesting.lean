import ScriptLedger.Proofs.Machine.Spending

/-!
# Runs and the runs nested in them

A transfer that pays an account with a script starts a run of that script, and
`Machine.Calls` says from which machine it starts.  `Machine.Visits` puts steps and
calls together: it says which machines a run comes through, those of the runs nested in
it included.

A run is given a number of steps that bounds its recursion.  As long as that number is
not below what is left of the budget it makes no difference, so a run may be spoken of
without it.

## Main results

* `Machine.stepWith_congr` — a step depends on how the scripts of others are run only
  in the machines that it calls.
* `Machine.drive_eq_finish` — every number of steps that is large enough gives the same
  run.
* `Machine.finish_eq` — a run is its first step and the rest.
-/

namespace ScriptLedger

open Sequencing Exec

variable {α : Type} {nested nested' : Terms → Exec Value} {terms : Terms} {m m' : Machine}

theorem Terms.mem_of_item? {pc : Int64} {item : Script.Item} (h : terms.item? pc = some item) :
    item ∈ terms.program := by
  unfold Terms.item? at h
  by_cases hpc : 1 ≤ pc.toInt
  · rw [if_pos hpc] at h
    exact Array.mem_of_getElem? h
  · rw [if_neg hpc] at h
    cases h

namespace Machine

/-! ## The start of a run -/

/-- The program and the registers that a run starts with. -/
def entry (limits : Limits) (depth : Nat) (call : Invocation) :
    Except ScriptError (Array Script.Item × Registers) := do
  if limits.maxCallDepth < depth then throw (.callDepthExceeded depth limits.maxCallDepth)
  let items ←
    match Script.parseProgram call.callee.code with
    | .ok items => .ok items
    | .error error => .error (.parse error)
  let params ← call.params.read
  let registers ← entryRegisters limits (call.entries params)
  pure (items.toArray, registers)

/-- The budget, the snapshot and the stores have no part in whether a run starts. -/
theorem enter_eq_map (limits : Limits) (depth budget : Nat) (call : Invocation) (world : World)
    (archive : Archive) :
    enter limits depth budget call world archive =
      (entry limits depth call).map fun (program, registers) =>
        ({ program, limits, depth, budget },
          { registers, steps := 0, world, account := call.callee, archive }) := by
  unfold enter entry
  by_cases hdepth : limits.maxCallDepth < depth
  · rw [if_pos hdepth, if_pos hdepth]
    rfl
  rw [if_neg hdepth, if_neg hdepth]
  cases Script.parseProgram call.callee.code with
  | error e => rfl
  | ok items =>
      cases call.params.read with
      | error e => rfl
      | ok params =>
          show (entryRegisters limits (call.entries params) >>= _) =
            Except.map _ (entryRegisters limits (call.entries params) >>= _)
          cases entryRegisters limits (call.entries params) with
          | error e => rfl
          | ok registers => rfl

/-- What a run needs to start: it is not nested too deep, the text of the callee and the
params are read, and the stack takes the entries. -/
theorem entry_eq_ok {limits : Limits} {depth : Nat} {call : Invocation}
    {program : Array Script.Item} {registers : Registers} :
    entry limits depth call = .ok (program, registers) ↔
      depth ≤ limits.maxCallDepth ∧ ∃ items params,
        Script.parseProgram call.callee.code = .ok items ∧ call.params.read = .ok params ∧
          entryRegisters limits (call.entries params) = .ok registers ∧
            program = items.toArray := by
  unfold entry
  dsimp only
  by_cases hdepth : limits.maxCallDepth < depth
  · rw [if_pos hdepth]
    refine iff_of_false (fun h => by cases h) fun h => ?_
    exact absurd h.1 (Nat.not_le_of_lt hdepth)
  rw [if_neg hdepth]
  cases Script.parseProgram call.callee.code with
  | error error => exact iff_of_false (fun h => by cases h) fun ⟨_, _, _, h, _⟩ => by cases h
  | ok items =>
  constructor
  · intro h
    obtain ⟨_, hitems, h⟩ := except_bind_eq_ok.mp h
    obtain ⟨params, hparams, h⟩ := except_bind_eq_ok.mp h
    obtain ⟨_, hregisters, h⟩ := except_bind_eq_ok.mp h
    cases hitems
    cases h
    exact ⟨Nat.le_of_not_lt hdepth, items, params, rfl, hparams, hregisters, rfl⟩
  · rintro ⟨-, items', params, hitems, hparams, hregisters, rfl⟩
    cases hitems
    exact except_bind_eq_ok.mpr ⟨items, rfl, except_bind_eq_ok.mpr ⟨params, hparams,
      except_bind_eq_ok.mpr ⟨registers, hregisters, rfl⟩⟩⟩

/-- A run starts with the registers of its entry, and executes the items of the text of the
callee. -/
theorem entry_of_enter {limits : Limits} {depth budget : Nat} {call : Invocation}
    {world : World} {archive : Archive} {inner : Terms} {start : Machine}
    (h : enter limits depth budget call world archive = .ok (inner, start)) :
    entry limits depth call = .ok (inner.program, start.registers) := by
  rw [enter_eq_map] at h
  obtain ⟨⟨program, registers⟩, hentry, h⟩ := except_map_eq_ok.mp h
  cases h
  exact hentry

theorem entry_of_enter_error {limits : Limits} {depth budget : Nat} {call : Invocation}
    {world : World} {archive : Archive} {e : ScriptError}
    (h : enter limits depth budget call world archive = .error e) :
    entry limits depth call = .error e := by
  rw [enter_eq_map] at h
  exact except_map_eq_error.mp h

theorem program_of_enter {limits : Limits} {depth budget : Nat} {call : Invocation}
    {world : World} {archive : Archive} {inner : Terms} {start : Machine}
    (h : enter limits depth budget call world archive = .ok (inner, start)) :
    ∃ items, Script.parseProgram call.callee.code = .ok items ∧
      inner.program = items.toArray := by
  obtain ⟨-, items, params, hparse, -, -, hprogram⟩ := entry_eq_ok.mp (entry_of_enter h)
  exact ⟨items, hparse, hprogram⟩

/-! ## Calls -/

/-- The next step pays an account that has a script, and runs it. -/
inductive Calls (terms : Terms) (m : Machine) (inner : Terms) (start : Machine) : Prop
  | intro {payer : Hash} {call : Invocation} {world : World} {m' : Machine}
      (hleft : m.steps < terms.budget)
      (hitem : terms.item? m.registers.pc = some (.op (.account .transfer)))
      (horder : order m.counted = .ok (payer, some (call, world)) m')
      (hcode : call.callee.hasCode = true)
      (henter : enter terms.limits (terms.depth + 1) (terms.budget - m'.steps) call world
        m'.archive = .ok (inner, start))

/-- A called run starts with nothing counted, and with less to spend. -/
theorem Calls.budget_lt {inner : Terms} {start : Machine} (h : Calls terms m inner start) :
    start.steps = 0 ∧ inner.budget + m.steps < terms.budget := by
  cases h with
  | intro hleft hitem horder hcode henter =>
      obtain ⟨hinner, hstart⟩ := enter_eq henter
      have hsteps : _ = m.steps + 1 := (order_eq_ok horder).2.1.steps
      rw [hinner, hstart]
      dsimp only
      exact ⟨rfl, by omega⟩

theorem stepWith_congr
    (h : ∀ inner start, Calls terms m inner start → nested' inner start = nested inner start) :
    stepWith nested' terms m = stepWith nested terms m := by
  by_cases hleft : m.steps < terms.budget
  case neg =>
    rw [stepWith_of_spent (Nat.le_of_not_lt hleft), stepWith_of_spent (Nat.le_of_not_lt hleft)]
  rw [stepWith_of_lt hleft, stepWith_of_lt hleft]
  by_cases hitem : terms.item? m.registers.pc = some (.op (.account .transfer))
  case neg => exact execute_eq (m := m.counted) rfl rfl hitem
  rw [execute_transfer (m := m.counted) hitem, execute_transfer (m := m.counted) hitem]
  cases horder : order m.counted with
  | error e m₁ => rw [bind_of_error horder, bind_of_error horder]
  | ok paid m₁ =>
  rw [bind_of_ok horder, bind_of_ok horder]
  obtain ⟨payer, call⟩ := paid
  cases call with
  | none => rfl
  | some call =>
  obtain ⟨call, world⟩ := call
  dsimp only
  rw [settle_bind, settle_bind]
  have hdeliver : deliver nested' terms call world m₁ = deliver nested terms call world m₁ := by
    unfold deliver
    by_cases hcode : call.callee.hasCode = true
    case neg => rw [if_neg hcode, if_neg hcode]
    rw [if_pos hcode, if_pos hcode]
    unfold runPaid
    cases henter : enter terms.limits (terms.depth + 1) (terms.budget - m₁.steps) call world
        m₁.archive with
    | error e => rfl
    | ok entry =>
        obtain ⟨inner, start⟩ := entry
        dsimp only
        rw [h inner start (.intro hleft hitem horder hcode henter)]
  show EStateM.bind _ _ m₁ = EStateM.bind _ _ m₁
  unfold EStateM.bind
  rw [hdeliver]

/-! ## Enough steps -/

theorem drive_of_spent (left : Nat) (h : terms.budget ≤ m.steps) :
    drive left terms m = .error (.stepLimitExceeded terms.limits.maxSteps) m := by
  cases left with
  | zero => rfl
  | succ left =>
      unfold drive
      rw [stepWith_of_spent h]

/-- Two numbers of steps that are large enough give the same run. -/
theorem drive_eq_drive {left left' : Nat} (hleft : terms.budget - m.steps ≤ left)
    (hleft' : terms.budget - m.steps ≤ left') : drive left' terms m = drive left terms m := by
  induction left generalizing left' terms m with
  | zero =>
      have hspent : terms.budget ≤ m.steps := by omega
      rw [drive_of_spent _ hspent, drive_of_spent _ hspent]
  | succ left ih =>
      by_cases hspent : terms.budget ≤ m.steps
      · rw [drive_of_spent _ hspent, drive_of_spent _ hspent]
      obtain ⟨left', rfl⟩ : ∃ k, left' = k + 1 := ⟨left' - 1, by omega⟩
      have hstep : stepWith (drive left') terms m = stepWith (drive left) terms m := by
        apply stepWith_congr
        intro inner start hcalls
        obtain ⟨hzero, hless⟩ := hcalls.budget_lt
        exact ih (by omega) (by omega)
      unfold drive
      rw [hstep]
      cases hrun : stepWith (drive left) terms m with
      | error e m₁ => rfl
      | ok result m₁ =>
          cases result with
          | some value => rfl
          | none =>
              have hmore := ((pays_stepWith (pays_drive left) m).1 _ _ hrun).1
              exact ih (by omega) (by omega)

theorem drive_eq_finish {left : Nat} (h : terms.budget - m.steps ≤ left) :
    drive left terms m = finish terms m := drive_eq_drive (Nat.le_refl _) h

/-- The step that a run starts with, whatever number of steps it is given. -/
theorem stepWith_eq_step {left : Nat} (h : terms.budget - m.steps ≤ left + 1) :
    stepWith (drive left) terms m = step terms m := by
  apply stepWith_congr
  intro inner start hcalls
  obtain ⟨hzero, hless⟩ := hcalls.budget_lt
  rw [drive_eq_finish (by omega), drive_eq_finish (by omega)]

/-- A run is its first step and the rest. -/
theorem finish_eq :
    finish terms m = match step terms m with
      | .ok (some value) m' => .ok value m'
      | .ok none m' => finish terms m'
      | .error e m' => .error e m' := by
  rw [← drive_eq_finish (Nat.le_succ _)]
  unfold drive
  rw [stepWith_eq_step (Nat.le_succ _)]
  cases hrun : step terms m with
  | error e m' => rfl
  | ok result m' =>
      cases result with
      | some value => rfl
      | none =>
          have hmore := ((pays_stepWith (pays_drive _) m).1 _ _ hrun).1
          exact drive_eq_finish (by omega)

/-! ## The machines that a run comes through -/

/-- A run comes through a machine, by its own steps or by those of the runs nested in
it. -/
inductive Visits : Terms → Machine → Terms → Machine → Prop
  | here {terms : Terms} {m : Machine} : Visits terms m terms m
  | step {terms terms' : Terms} {m m' m'' : Machine} (hstep : step terms m = .ok none m')
      (hrest : Visits terms m' terms' m'') : Visits terms m terms' m''
  | call {terms inner terms' : Terms} {m start m' : Machine} (hcall : Calls terms m inner start)
      (hinner : Visits inner start terms' m') : Visits terms m terms' m'

end Machine

end ScriptLedger
