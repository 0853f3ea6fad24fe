import ScriptLedger.Proofs.Machine.Calls

/-!
# What a run spends

Every step counts one instruction, a run that is nested in it counts more, and nothing
else counts any.  A nested run may execute what its caller has left, so a run and all
that are nested in it together keep to the one budget.

## Main results

* `Machine.pays_drive` — a run never goes over its budget, and one that returns has
  counted something.
-/

namespace ScriptLedger

open Sequencing Exec

variable {α : Type} {nested : Terms → Exec Value} {terms : Terms} {m m' : Machine}

namespace Machine

/-! ## What counts nothing -/

/-- The count does not change. -/
def Level (m m' : Machine) : Prop := m'.steps = m.steps

theorem level_law : Law Level Level where
  trans h h' := Eq.trans h' h
  fail h h' := Eq.trans h' h
  registers _ _ := rfl
  failed _ _ := rfl

theorem level_modify {f : Machine → Machine} (hf : ∀ m, (f m).steps = m.steps) :
    Within Level Level (modify f : Exec PUnit) := fun m => Yields.modify (hf m)

theorem level_put (world : World) (account : Account) :
    Within Level Level (onArchive (world.put account)) := by
  intro m
  exact ⟨fun a m' h => ((still_onArchive _ m).1 a m' h).steps,
    fun e m' h => ((still_onArchive _ m).2 e m' h).steps⟩

theorem level_setStorage (name : String) (value : SlotValue) :
    Within Level Level (setStorage name value) := by
  apply level_law.bind level_law.get
  intro m
  cases m.account.setStorage name value with
  | error cause => exact level_law.throw _
  | ok account =>
      refine level_law.bind (level_modify fun _ => rfl) fun _ => ?_
      apply level_law.bind level_law.get
      intro m
      exact level_law.bind (level_put m.world account) fun _ => level_modify fun _ => rfl

theorem level_create (op : Opcode) (key : Pubkey) (code : String) (ownerAccess : Bool)
    (names values : List Value) :
    Within Level Level (create op key code ownerAccess names values) := by
  unfold create
  by_cases harity : names.length ≠ values.length
  · rw [if_pos harity]
    exact level_law.throw _
  · rw [if_neg harity]
    apply level_law.bind level_law.get
    intro m
    apply level_law.bind (level_law.ofState _)
    rintro (_ | _)
    · apply level_law.bind (level_law.ofExcept _)
      intro slots
      cases Account.make key 0 code ownerAccess slots with
      | error cause => exact level_law.throw _
      | ok account =>
          apply level_law.bind (level_put _ account)
          intro _
          exact level_law.bind (level_modify fun _ => rfl) fun _ => level_law.pure true
    · exact level_law.pure false

theorem level_reload (payer : Hash) : Within Level Level (reload payer) := by
  apply level_law.bind level_law.get
  intro m
  exact level_law.bind (level_law.account _ _) fun account => level_modify fun _ => rfl

theorem level_takeBack (payer : Hash) (moved : Bool) :
    Within Level Level (takeBack payer moved) :=
  within_takeBack level_law payer (level_reload payer) moved

/-- The count grows, and keeps to a budget that it kept to before. -/
def Spends (budget : Nat) (m m' : Machine) : Prop :=
  m.steps ≤ m'.steps ∧ (m.steps ≤ budget → m'.steps ≤ budget)

/-- Something was counted, and the budget was enough. -/
def Pays (budget : Nat) (m m' : Machine) : Prop := m.steps < m'.steps ∧ m'.steps ≤ budget

theorem spends_law (budget : Nat) : Law (Spends budget) (Spends budget) where
  trans h h' := ⟨Nat.le_trans h.1 h'.1, fun hm => h'.2 (h.2 hm)⟩
  fail h h' := ⟨Nat.le_trans h.1 h'.1, fun hm => h'.2 (h.2 hm)⟩
  registers _ _ := ⟨Nat.le_refl _, fun h => h⟩
  failed _ _ := ⟨Nat.le_refl _, fun h => h⟩

theorem Pays.spends {budget : Nat} (h : Pays budget m m') : Spends budget m m' :=
  ⟨Nat.le_of_lt h.1, fun _ => h.2⟩

theorem spends_of_level {x : Exec α} (h : Within Level Level x) (budget : Nat) :
    Within (Spends budget) (Spends budget) x := by
  have hle : ∀ m m', Level m m' → Spends budget m m' := by
    intro m m' hlevel
    rw [Level] at hlevel
    exact ⟨Nat.le_of_eq hlevel.symm, fun hm => by rw [hlevel]; exact hm⟩
  intro m
  exact ⟨fun a m' hok => hle _ _ ((h m).1 a m' hok), fun e m' herror => hle _ _ ((h m).2 e m' herror)⟩

variable (hnested : ∀ inner : Terms,
  Within (Pays inner.budget) (Spends inner.budget) (nested inner))

include hnested

theorem spends_runPaid (call : Invocation) (world : World) :
    Within (Spends terms.budget) (Spends terms.budget) (runPaid nested terms call world) := by
  intro m
  refine Yields.runPaid (fun _ _ => (spends_law _).refl _) fun inner start henter => ?_
  obtain ⟨hinner, hstart⟩ := enter_eq henter
  have hbudget : inner.budget = terms.budget - m.steps := by rw [hinner]
  have hzero : start.steps = 0 := by rw [hstart]
  have hspent : ∀ last : Machine, Spends inner.budget start last →
      m.steps ≤ m.steps + last.steps ∧
        (m.steps ≤ terms.budget → m.steps + last.steps ≤ terms.budget) := by
    intro last hlast
    have hle := hlast.2 (by omega)
    omega
  exact Yields.imp (hnested inner start) (fun _ last h => hspent last h.spends) hspent

theorem spends_transfer (target : Hash) (amount : Int64) (params : List Value) :
    Within (Spends terms.budget) (Spends terms.budget)
      (Exec.transfer nested terms target amount params) := by
  have law := spends_law terms.budget
  rw [transfer_eq]
  apply law.bind law.get
  intro m
  apply law.bind (spends_of_level (within_prepare level_law level_put target amount params) _)
  intro call
  cases call with
  | none => exact law.pure false
  | some order =>
      obtain ⟨call, world⟩ := order
      have hdeliver : Within (Spends terms.budget) (Spends terms.budget)
          (deliver nested terms call world) := by
        unfold deliver
        by_cases hcode : call.callee.hasCode = true
        · rw [if_pos hcode]
          exact spends_runPaid hnested call world
        · rw [if_neg hcode]
          have hshow : Within Level Level (modify fun m => { m with world } : Exec PUnit) :=
            level_modify fun _ => rfl
          exact law.bind (spends_of_level hshow _) fun _ => law.pure true
      apply law.bind hdeliver
      intro moved
      exact law.bind (spends_of_level (level_reload _) _) fun _ => law.pure moved

/-- What an item does keeps to the budget. -/
theorem spends_execute : Within (Spends terms.budget) (Spends terms.budget)
    (execute nested terms) := by
  have law := spends_law terms.budget
  apply law.bind law.get
  intro m
  dsimp only
  cases terms.item? m.registers.pc with
  | none => exact law.throw _
  | some item =>
      have hset := fun name value => spends_of_level (level_setStorage name value) terms.budget
      have hcreate := fun op key code ownerAccess names values =>
        spends_of_level (level_create op key code ownerAccess names values) terms.budget
      apply law.bind (Script.Item.within_run law item (fun _ => hset) (fun _ => hcreate) ?_)
      · exact within_proceed law
      · intro _ target amount params _
        exact spends_transfer hnested target amount params

theorem pays_stepWith : Within (Pays terms.budget) (Spends terms.budget)
    (stepWith nested terms) := by
  intro m
  by_cases hlt : m.steps < terms.budget
  · rw [stepWith_of_lt hlt]
    have hexecute : Within (Spends terms.budget) (Spends terms.budget) (execute nested terms) :=
      spends_execute hnested
    have hcount : m.counted.steps = m.steps + 1 := rfl
    constructor
    · intro result m' h
      have hspent := (hexecute _).1 result m' h
      rw [Spends, hcount] at hspent
      exact ⟨by omega, hspent.2 hlt⟩
    · intro e m' h
      have hspent := (hexecute _).2 e m' h
      rw [Spends, hcount] at hspent
      exact ⟨by omega, fun _ => hspent.2 hlt⟩
  · exact Yields.of_error (stepWith_of_spent (Nat.le_of_not_lt hlt)) ((spends_law _).refl m)

omit hnested

/-- A run keeps to its budget, and one that returns has counted something. -/
theorem pays_drive (left : Nat) (terms : Terms) :
    Within (Pays terms.budget) (Spends terms.budget) (drive left terms) := by
  induction left generalizing terms with
  | zero => exact fun m => Yields.of_error rfl ((spends_law _).refl m)
  | succ left ih =>
      have hstep : Within (Pays terms.budget) (Spends terms.budget)
          (stepWith (drive left) terms) := pays_stepWith ih
      intro m
      refine Yields.drive (hstep m).2 (fun value => (hstep m).1 (some value)) fun mid hmid => ?_
      have hpaid := (hstep m).1 none mid hmid
      refine Yields.imp (ih terms mid) (fun _ _ hrest => ?_) fun _ hrest => ?_
      · exact ⟨Nat.lt_trans hpaid.1 hrest.1, hrest.2⟩
      · exact (spends_law _).trans hpaid.spends hrest

end Machine

end ScriptLedger
