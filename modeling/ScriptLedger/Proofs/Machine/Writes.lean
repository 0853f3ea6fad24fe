import ScriptLedger.Proofs.Machine.Within
import ScriptLedger.Proofs.World.Effect

/-!
# What the writing instructions write

Three instructions write accounts: one puts a value into a slot of the callee, one
makes an account, and one pays another account and runs its script.  For each of
them this module says what the machine looks like when it returned, and that it
lost nothing from the stores, whether it returned or failed.

## Main results

* `Machine.grows_drive` — a run loses nothing from the stores.
* `Exec.setStorage_eq_ok`, `Exec.create_eq_ok` — the machine after each of the first two.
* `Exec.answers_of_deliver` — the machine after the script of an account that was paid.
-/

namespace ScriptLedger

open Sequencing Exec

variable {α : Type} {nested : Terms → Exec Value} {terms : Terms} {m m' m'' : Machine}

/-! ## Stores only grow -/

namespace Machine

/-- Nothing is lost from the stores. -/
def Grows (m m' : Machine) : Prop := m.archive.GrowsTo m'.archive

theorem grows_law : Law Grows Grows where
  trans h h' := Archive.GrowsTo.trans h h'
  fail h h' := Archive.GrowsTo.trans h h'
  registers _ _ := Archive.GrowsTo.refl _
  failed _ _ := Archive.GrowsTo.refl _

theorem grows_modify {f : Machine → Machine} (hf : ∀ m, (f m).archive = m.archive) :
    Within Grows Grows (modify f : Exec PUnit) := by
  refine fun m => Yields.modify ?_
  show m.archive.GrowsTo (f m).archive
  rw [hf m]
  exact Archive.GrowsTo.refl _

theorem grows_put (world : World) (account : Account) :
    Within Grows Grows (onArchive (world.put account)) := by
  intro m
  have hput : Yields m.archive (world.put account) (fun _ => m.archive.GrowsTo)
      m.archive.GrowsTo :=
    ⟨fun _ _ => World.growsTo_of_put, fun _ _ => World.growsTo_of_put_error⟩
  exact hput.onArchive.imp (fun _ _ h => h.2) fun _ h => h.2

theorem grows_setStorage (name : String) (value : SlotValue) :
    Within Grows Grows (setStorage name value) := by
  apply grows_law.bind grows_law.get
  intro m
  cases m.account.setStorage name value with
  | error cause => exact grows_law.throw _
  | ok account =>
      refine grows_law.bind (grows_modify fun _ => rfl) fun _ => ?_
      apply grows_law.bind grows_law.get
      intro m
      exact grows_law.bind (grows_put m.world account) fun _ => grows_modify fun _ => rfl

theorem grows_create (op : Opcode) (key : Pubkey) (code : String) (ownerAccess : Bool)
    (names values : List Value) :
    Within Grows Grows (create op key code ownerAccess names values) := by
  unfold create
  by_cases harity : names.length ≠ values.length
  · rw [if_pos harity]
    exact grows_law.throw _
  · rw [if_neg harity]
    apply grows_law.bind grows_law.get
    intro m
    apply grows_law.bind (grows_law.ofState _)
    rintro (_ | _)
    · apply grows_law.bind (grows_law.ofExcept _)
      intro slots
      cases Account.make key 0 code ownerAccess slots with
      | error cause => exact grows_law.throw _
      | ok account =>
          apply grows_law.bind (grows_put _ account)
          intro _
          exact grows_law.bind (grows_modify fun _ => rfl) fun _ => grows_law.pure true
    · exact grows_law.pure false

/-- A run starts with the terms it is given, on the snapshot and the stores it is
given, and has counted nothing. -/
theorem enter_eq {limits : Limits} {depth budget : Nat} {call : Invocation} {world : World}
    {archive : Archive} {inner : Terms} {start : Machine}
    (h : enter limits depth budget call world archive = .ok (inner, start)) :
    inner = { program := inner.program, limits, depth, budget } ∧
      start = { registers := start.registers, steps := 0, world, account := call.callee
                archive } := by
  unfold enter at h
  dsimp only at h
  by_cases hdepth : limits.maxCallDepth < depth
  · rw [if_pos hdepth] at h
    cases h
  rw [if_neg hdepth] at h
  cases hparse : Script.parseProgram call.callee.code with
  | error error => rw [hparse] at h; cases h
  | ok items =>
  rw [hparse] at h
  obtain ⟨_, -, h⟩ := except_bind_eq_ok.mp h
  obtain ⟨params, -, h⟩ := except_bind_eq_ok.mp h
  obtain ⟨registers, -, h⟩ := except_bind_eq_ok.mp h
  cases h
  exact ⟨rfl, rfl⟩

theorem enter_eq_ok {limits : Limits} {depth budget : Nat} {call : Invocation} {world : World}
    {archive : Archive} {inner : Terms} {start : Machine}
    (h : enter limits depth budget call world archive = .ok (inner, start)) :
    start.world = world ∧ start.account = call.callee ∧ start.archive = archive := by
  obtain ⟨-, hstart⟩ := enter_eq h
  rw [hstart]
  exact ⟨rfl, rfl, rfl⟩

theorem grows_runPaid (hnested : ∀ terms, Within Grows Grows (nested terms))
    (call : Invocation) (world : World) :
    Within Grows Grows (runPaid nested terms call world) := by
  intro m
  refine Yields.runPaid (fun _ _ => Archive.GrowsTo.refl _) fun inner start henter => ?_
  obtain ⟨-, -, harchive⟩ := enter_eq_ok henter
  have hgrows : ∀ last : Machine, start.Grows last → m.archive.GrowsTo last.archive := by
    rw [← harchive]
    exact fun _ h => h
  exact Yields.imp (hnested inner start) (fun _ => hgrows) hgrows

theorem grows_deliver (hnested : ∀ terms, Within Grows Grows (nested terms))
    (call : Invocation) (world : World) :
    Within Grows Grows (deliver nested terms call world) := by
  unfold deliver
  by_cases hcode : call.callee.hasCode = true
  · rw [if_pos hcode]
    exact grows_runPaid hnested call world
  · rw [if_neg hcode]
    exact grows_law.bind (grows_modify fun _ => rfl) fun _ => grows_law.pure true

theorem grows_reload (payer : Hash) : Within Grows Grows (reload payer) := by
  apply grows_law.bind grows_law.get
  intro m
  apply grows_law.bind (grows_law.account _ _)
  exact fun account => grows_modify fun _ => rfl

theorem grows_transfer (hnested : ∀ terms, Within Grows Grows (nested terms))
    (target : Hash) (amount : Int64) (params : List Value) :
    Within Grows Grows (Exec.transfer nested terms target amount params) := by
  apply grows_law.bind grows_law.get
  intro m
  apply grows_law.bind (grows_law.ofState _)
  rintro (_ | _)
  · exact grows_law.pure false
  · dsimp only
    simp only [Bool.not_true, Bool.false_eq_true, if_false]
    cases m.account.addToBalance (-amount) with
    | error cause => exact grows_law.pure false
    | ok debited =>
        apply grows_law.bind (grows_put m.world debited)
        intro world
        apply grows_law.bind (grows_law.account world target)
        intro recipient
        cases recipient.addToBalance amount with
        | error cause => exact grows_law.pure false
        | ok credited =>
            apply grows_law.bind (grows_put world credited)
            intro world
            apply grows_law.bind (grows_deliver hnested _ world)
            intro moved
            exact grows_law.bind (grows_reload _) fun _ => grows_law.pure moved

theorem grows_drive (left : Nat) (terms : Terms) : Within Grows Grows (drive left terms) := by
  refine within_drive grows_law ?_ grows_setStorage grows_create ?_ left terms
  · intro m
    exact Archive.GrowsTo.refl _
  · intro nested terms hnested target amount params _
    exact grows_transfer hnested target amount params

end Machine

namespace Invocation

variable {call : Invocation} {limits : Limits} {w : World} {a a' : Archive} {outcome : Outcome}

/-- A run that returned was entered, and came to an end that shows its outcome. -/
theorem exists_finish_of_run (h : call.run limits w a = .ok outcome a') :
    ∃ terms start value final,
      Machine.enter limits 0 limits.maxSteps call w a = .ok (terms, start) ∧
      Machine.finish terms start = .ok value final ∧
      outcome = { value, world := final.world, steps := final.steps } ∧ a' = final.archive := by
  unfold Invocation.run at h
  cases henter : Machine.enter limits 0 limits.maxSteps call w a with
  | error e => rw [henter] at h; cases h
  | ok entry =>
      obtain ⟨terms, start⟩ := entry
      rw [henter] at h
      dsimp only at h
      cases hrun : Machine.finish terms start with
      | error e final => rw [hrun] at h; cases h
      | ok value final =>
          rw [hrun] at h
          cases h
          exact ⟨terms, start, value, final, rfl, hrun, rfl, rfl⟩

/-- It is the steps of a machine that starts on the snapshot, with the callee as it is
called. -/
theorem exists_drive_of_run (h : call.run limits w a = .ok outcome a') :
    ∃ left terms start value final, Machine.drive left terms start = .ok value final ∧
      (start.world = w ∧ start.account = call.callee ∧ start.archive = a) ∧
        outcome.world = final.world ∧ a' = final.archive := by
  obtain ⟨terms, start, value, final, henter, hrun, rfl, rfl⟩ := exists_finish_of_run h
  exact ⟨_, terms, start, value, final, hrun, Machine.enter_eq_ok henter, rfl, rfl⟩

/-- A script that returned has lost nothing from the stores. -/
theorem growsTo_of_run (h : call.run limits w a = .ok outcome a') : a.GrowsTo a' := by
  obtain ⟨left, terms, start, value, final, hrun, ⟨-, -, rfl⟩, -, rfl⟩ := exists_drive_of_run h
  exact (Machine.grows_drive left terms start).1 value final hrun

end Invocation

/-! ## What an instruction did when it returned -/

namespace Exec

theorem onArchive_eq_ok {x : Archived StateError α} {a : α} :
    onArchive x m = .ok a m' ↔
      ∃ archive, x m.archive = .ok a archive ∧ m' = { m with archive } := by
  unfold onArchive
  cases x m.archive with
  | ok b archive =>
      simp only [EStateM.Result.ok.injEq]
      constructor
      · rintro ⟨rfl, rfl⟩
        exact ⟨archive, ⟨rfl, rfl⟩, rfl⟩
      · rintro ⟨_, ⟨rfl, rfl⟩, rfl⟩
        exact ⟨rfl, rfl⟩
  | error cause archive => simp

theorem ofState_eq_ok {x : Except StateError α} {a : α} :
    ofState x m = .ok a m' ↔ x = .ok a ∧ m = m' := by
  cases x with
  | ok b =>
      show (pure b : Exec α) m = .ok a m' ↔ _
      rw [pure_eq_ok]
      simp
  | error cause =>
      show (throw (.state cause) : Exec α) m = .ok a m' ↔ _
      simp [throw_ne_ok]

theorem account?_of_error {w : World} {address : Hash} {cause : StateError}
    (h : w.account? m.archive address = .error cause) :
    Exec.account? w address m = .error (.state cause) m := by
  show ofState (w.account? m.archive address) m = _
  rw [h]
  rfl

theorem account_eq_ok {world : World} {address : Hash} {account : Account} :
    Exec.account world address m = .ok account m' ↔
      world.account? m.archive address = .ok (some account) ∧ m = m' := by
  unfold Exec.account Exec.account?
  rw [bind_eq_ok]
  constructor
  · rintro ⟨found, mid, hfound, h⟩
    obtain ⟨_, _, hget, hread⟩ := bind_eq_ok.mp hfound
    obtain ⟨rfl, rfl⟩ := get_eq_ok.mp hget
    obtain ⟨hanswer, rfl⟩ := ofState_eq_ok.mp hread
    cases found with
    | none => exact absurd h throw_ne_ok
    | some other =>
        obtain ⟨rfl, rfl⟩ := pure_eq_ok.mp h
        exact ⟨hanswer, rfl⟩
  · rintro ⟨hread, rfl⟩
    refine ⟨some account, m, bind_eq_ok.mpr ⟨m, m, rfl, ofState_eq_ok.mpr ⟨hread, rfl⟩⟩, rfl⟩

/-- The callee is read back from the snapshot, and nothing else changes. -/
theorem reload_eq_ok {payer : Hash} {u : Unit} (h : reload payer m = .ok u m') :
    ∃ account, m.world.account? m.archive payer = .ok (some account) ∧
      m' = { m with account } := by
  obtain ⟨_, _, hget, h⟩ := bind_eq_ok.mp h
  obtain ⟨rfl, rfl⟩ := get_eq_ok.mp hget
  obtain ⟨account, _, haccount, h⟩ := bind_eq_ok.mp h
  obtain ⟨hread, rfl⟩ := account_eq_ok.mp haccount
  cases h
  exact ⟨account, hread, rfl⟩

theorem setStorage_eq_ok {name : String} {value : SlotValue} {u : Unit}
    (h : setStorage name value m = .ok u m') :
    ∃ new, m.account.setStorage name value = .ok new ∧
      m.world.put new m.archive = .ok m'.world m'.archive ∧ m'.account = new := by
  obtain ⟨_, _, hget, h⟩ := bind_eq_ok.mp h
  obtain ⟨rfl, rfl⟩ := get_eq_ok.mp hget
  cases hset : m.account.setStorage name value with
  | error cause =>
      rw [hset] at h
      exact absurd h throw_ne_ok
  | ok new =>
      rw [hset] at h
      obtain ⟨_, _, hwrite, h⟩ := bind_eq_ok.mp h
      cases hwrite
      obtain ⟨_, _, hget, h⟩ := bind_eq_ok.mp h
      obtain ⟨rfl, rfl⟩ := get_eq_ok.mp hget
      obtain ⟨world, _, hput, h⟩ := bind_eq_ok.mp h
      obtain ⟨archive, hnew, rfl⟩ := onArchive_eq_ok.mp hput
      cases h
      exact ⟨new, rfl, hnew, rfl⟩

/-- A creation changes nothing, or puts an account without balance where none was. -/
theorem create_eq_ok {op : Opcode} {key : Pubkey} {code : String} {ownerAccess : Bool}
    {names values : List Value} {created : Bool}
    (h : create op key code ownerAccess names values m = .ok created m') :
    m' = m ∨ ∃ new : Account, new.balance = 0 ∧
      m.world.account? m.archive new.address = .ok none ∧
      m.world.put new m.archive = .ok m'.world m'.archive ∧ m'.account = m.account := by
  unfold create at h
  by_cases harity : names.length ≠ values.length
  · rw [if_pos harity] at h
    exact absurd h throw_ne_ok
  rw [if_neg harity] at h
  obtain ⟨_, _, hget, h⟩ := bind_eq_ok.mp h
  obtain ⟨rfl, rfl⟩ := get_eq_ok.mp hget
  obtain ⟨taken, _, htaken, h⟩ := bind_eq_ok.mp h
  obtain ⟨hcontains, rfl⟩ := ofState_eq_ok.mp htaken
  cases taken with
  | true =>
      obtain ⟨-, rfl⟩ := pure_eq_ok.mp h
      exact Or.inl rfl
  | false =>
      obtain ⟨slots, _, hslots, h⟩ := bind_eq_ok.mp h
      obtain ⟨-, rfl⟩ := ofExcept_eq_ok.mp hslots
      cases hmake : Account.make key 0 code ownerAccess slots with
      | error cause =>
          rw [hmake] at h
          exact absurd h throw_ne_ok
      | ok new =>
          rw [hmake] at h
          obtain ⟨hfields, -⟩ := Account.make_eq_ok hmake
          have hbalance : new.balance = 0 := by rw [hfields]
          have haddress : new.address = key.address := by rw [hfields, Account.address]
          obtain ⟨world, _, hput, h⟩ := bind_eq_ok.mp h
          obtain ⟨archive, hnew, rfl⟩ := onArchive_eq_ok.mp hput
          cases h
          refine Or.inr ⟨new, hbalance, ?_, hnew, rfl⟩
          rw [haddress]
          exact World.contains_eq_false_iff.mp hcontains

/-- What became of the call of an account that was paid on a snapshot, what the transfer
reports, and the machine after it. -/
inductive Answers (nested : Terms → Exec Value) (terms : Terms) (call : Invocation)
    (world : World) (m : Machine) : Bool → Machine → Prop
  /-- There was no script. -/
  | silent (hcode : call.callee.hasCode = false) :
      Answers nested terms call world m true { m with world }
  /-- The script did not start. -/
  | refused {e : ScriptError} (hcode : call.callee.hasCode = true)
      (henter : Machine.enter terms.limits (terms.depth + 1) (terms.budget - m.steps) call world
        m.archive = .error e) : Answers nested terms call world m false m
  /-- The script returned. -/
  | returned {inner : Terms} {inside last : Machine} {value : Value}
      (hcode : call.callee.hasCode = true)
      (henter : Machine.enter terms.limits (terms.depth + 1) (terms.budget - m.steps) call world
        m.archive = .ok (inner, inside)) (hrun : nested inner inside = .ok value last) :
      Answers nested terms call world m true
        { m with steps := m.steps + last.steps, world := last.world, archive := last.archive }
  /-- The script failed. -/
  | failed {inner : Terms} {inside last : Machine} {e : ScriptError}
      (hcode : call.callee.hasCode = true)
      (henter : Machine.enter terms.limits (terms.depth + 1) (terms.budget - m.steps) call world
        m.archive = .ok (inner, inside)) (hrun : nested inner inside = .error e last) :
      Answers nested terms call world m false
        { m with steps := m.steps + last.steps, archive := last.archive }

theorem answers_of_deliver {call : Invocation} {world : World} {moved : Bool}
    (h : deliver nested terms call world m = .ok moved m') :
    Answers nested terms call world m moved m' := by
  unfold deliver at h
  cases hcode : call.callee.hasCode with
  | false =>
      rw [hcode] at h
      cases h
      exact .silent hcode
  | true =>
  rw [hcode, if_pos rfl] at h
  unfold runPaid at h
  cases henter : Machine.enter terms.limits (terms.depth + 1) (terms.budget - m.steps) call
      world m.archive with
  | error e =>
      rw [henter] at h
      cases h
      exact .refused hcode henter
  | ok entered =>
  obtain ⟨inner, inside⟩ := entered
  rw [henter] at h
  dsimp only at h
  cases hrun : nested inner inside with
  | ok value last =>
      rw [hrun] at h
      cases h
      exact .returned hcode henter hrun
  | error e last =>
      rw [hrun] at h
      cases h
      exact .failed hcode henter hrun

/-- What came of the script of an account that was paid on a snapshot, and what the
transfer reports. -/
inductive Delivered (nested : Terms → Exec Value) (callee : Account) (world : World)
    (m : Machine) : Bool → Machine → Prop
  /-- The script failed, and the old snapshot stays. -/
  | failed {m' : Machine} (hworld : m'.world = m.world) :
      Delivered nested callee world m false m'
  /-- There was none. -/
  | silent {m' : Machine} (hworld : m'.world = world) (harchive : m'.archive = m.archive) :
      Delivered nested callee world m true m'
  /-- The script returned. -/
  | ran {m' start final : Machine} {inner : Terms} {value : Value}
      (hcode : callee.hasCode = true) (hrun : nested inner start = .ok value final)
      (hstart : start.world = world ∧ start.account = callee ∧ start.archive = m.archive)
      (hworld : m'.world = final.world) (harchive : m'.archive = final.archive) :
      Delivered nested callee world m true m'

theorem delivered_of_deliver {call : Invocation} {world : World} {moved : Bool}
    (h : deliver nested terms call world m = .ok moved m') :
    Delivered nested call.callee world m moved m' := by
  cases answers_of_deliver h with
  | silent hcode => exact .silent rfl rfl
  | refused hcode henter => exact .failed rfl
  | returned hcode henter hrun => exact .ran hcode hrun (Machine.enter_eq_ok henter) rfl rfl
  | failed hcode henter hrun => exact .failed rfl

end Exec

end ScriptLedger
