import ScriptLedger.Proofs.Machine.Confined
import ScriptLedger.Proofs.Machine.Nesting
import ScriptLedger.Proofs.World.Given

/-!
# What scripts write is valid, up to keypairs

A script gives accounts to the store in three ways.  It makes one, which checks it; it moves
balances, which cannot make a valid account invalid; and it puts a value into a slot, which
can, as the value is a keypair of any bytes.  `Machine.Stores` says that the next step does the
last of these, and with which value.

The other two need a callee that is valid and a snapshot that shows valid accounts only, and
both are kept from step to step: what is written is what is read later.  A nested run starts
from a snapshot of the run that it is nested in, and what it gave to the store stays there even
if it fails.

## Main results

* `Machine.writes_step` — what one step gives to the store.
* `Machine.writes_drive` — and what a run does, by induction on its length.
* `Invocation.yields_run` — a whole run, from outside.
-/

namespace ScriptLedger

open Sequencing Exec

variable {α : Type} {P : Prop} {nested : Terms → Exec Value} {terms inner : Terms}
variable {m m' start : Machine} {value : SlotValue}

namespace Machine

/-- The callee is valid, and so is every account of the snapshot. -/
def Valid (m : Machine) : Prop := m.account.Valid ∧ m.world.Valid m.archive

/-- What is given to stores is valid exactly if the machine was careful, and then it stays
valid itself. -/
def Writes (careful : Prop) (m m' : Machine) : Prop :=
  Archive.Gives careful m.Valid m.archive m'.Valid m'.archive

/-- What is given to stores is valid exactly if the machine was careful. -/
def Leaves (careful : Prop) (m m' : Machine) : Prop :=
  Archive.Gives careful m.Valid m.archive True m'.archive

theorem writes_law : Law (Writes True) (Leaves True) where
  trans h h' := Archive.Gives.followed h h'
  fail h h' := Archive.Gives.followed h h'
  registers _ _ := .refl id
  failed _ _ := .refl fun _ => trivial

theorem leaves_self (m : Machine) : m.Leaves True m := writes_law.failed m m.registers

section Sequence

variable {careful careful' : Prop} {x : Exec α}

theorem writes_congr (h : Yields m' x (fun _ => m.Writes careful) (m.Leaves careful))
    (hiff : careful ↔ careful') :
    Yields m' x (fun _ => m.Writes careful') (m.Leaves careful') := by
  rwa [← propext hiff]

/-- Nothing can go wrong after what was written. -/
theorem Writes.then (h : m.Writes careful m') (hx : Within (Writes True) (Leaves True) x) :
    Yields m' x (fun _ => m.Writes careful) (m.Leaves careful) :=
  Yields.imp (hx m') (fun _ _ => Archive.Gives.followed h) fun _ => Archive.Gives.followed h

end Sequence

/-- Written accounts are seen in the snapshot that they were written to, and the machine shows
that or another one. -/
theorem yields_put {careful : Prop} {world : World} {new : Account}
    (hvalid : P → world.Valid m.archive ∧ (new.Valid ↔ careful)) :
    Yields m (onArchive (world.put new))
      (fun world' m' => m' = { m with archive := m'.archive } ∧
        Archive.Gives careful P m.archive (world'.Valid m'.archive) m'.archive)
      fun m' => Archive.Gives careful P m.archive True m'.archive := by
  refine (Yields.onArchive (Archive.Gives.put hvalid)).imp (fun _ _ h => h) fun m' h => ?_
  exact h.2

/-! ## Writing instructions -/

theorem writes_setStorage {name : String} {new : Account}
    (hset : m.account.setStorage name value = .ok new) :
    Yields m (setStorage name value) (fun _ => m.Writes value.Consistent)
      (m.Leaves value.Consistent) := by
  have hnew : m.Valid → (new.Valid ↔ value.Consistent) :=
    fun hm => Account.valid_setStorage_iff hm.1 hset
  refine .get_bind ?_
  rw [hset]
  refine .modify_bind (.get_bind (.bind (yields_put (P := m.Valid) fun hm => ⟨hm.2, hnew hm⟩) ?_))
  rintro world m' ⟨hm', given, hadds, hgives⟩
  refine .modify ⟨given, hadds, fun hm hcol => ⟨(hgives hm hcol).1, fun hcareful => ⟨?_, ?_⟩⟩⟩
  · rw [hm']
    exact (hnew hm).mpr hcareful
  · exact (hgives hm hcol).2 hcareful

theorem writes_create (op : Opcode) (key : Pubkey) (code : String) (ownerAccess : Bool)
    (names values : List Value) :
    Within (Writes True) (Leaves True) (create op key code ownerAccess names values) := by
  intro m
  show Yields m _ (fun _ => m.Writes True) (m.Leaves True)
  unfold create
  by_cases harity : names.length ≠ values.length
  · rw [if_pos harity]
    exact .throw (leaves_self m)
  rw [if_neg harity]
  refine .get_bind (.bind (P := fun _ m' => m' = m)
    (.ofState (fun _ => rfl) (leaves_self m)) ?_)
  rintro (_ | _) m' rfl
  · refine .bind (P := fun _ m'' => m'' = m')
      (.ofExcept (fun _ _ => rfl) (leaves_self m')) ?_
    rintro slots m' rfl
    cases hmake : Account.make key 0 code ownerAccess slots with
    | error cause => exact .throw (leaves_self m')
    | ok new =>
        have hnew : new.Valid ↔ True := iff_true_intro (Account.valid_of_make hmake)
        refine .bind (yields_put (P := m'.Valid) fun hm => ⟨hm.2, hnew⟩) ?_
        rintro world m'' ⟨hm'', hgives⟩
        refine .modify_bind (.pure (hgives.imp fun hm hworld => ⟨?_, hworld⟩))
        rw [hm'']
        exact hm.1
  · exact .pure (writes_law.refl m')

/-! ## Payments -/

/-- An account that is read from a snapshot is one of its accounts. -/
theorem yields_account {world : World} {address : Hash} {E : Machine → Prop} (herror : E m) :
    Yields m (Exec.account world address)
      (fun account m' => m' = m ∧ (world.Valid m.archive → account.Valid)) E := by
  constructor
  · intro account m' h
    obtain ⟨hread, rfl⟩ := account_eq_ok.mp h
    exact ⟨rfl, fun hworld => hworld address account hread⟩
  · exact (Yields.account (P := fun _ _ => True) (fun _ => trivial) herror).2

/-- The account that a payment calls is valid, and the snapshot that shows the payment has
valid accounts only. -/
theorem yields_prepare (target : Hash) (amount : Int64) (params : List Value) :
    Yields m (prepare target amount params)
      (fun call m' => Archive.Gives True m.Valid m.archive
        (m'.Valid ∧ ∀ order ∈ call, order.1.callee.Valid ∧ order.2.Valid m'.archive) m'.archive)
      (m.Leaves True) := by
  refine .get_bind (.bind (P := fun _ m' => m' = m) (.ofState (fun _ => rfl) (leaves_self m)) ?_)
  rintro (_ | _) m' rfl
  · exact .pure (.refl fun hm => ⟨hm, nofun⟩)
  simp only [Bool.not_true, Bool.false_eq_true, if_false]
  cases hdebit : m'.account.addToBalance (-amount) with
  | error cause => exact .pure (.refl fun hm => ⟨hm, nofun⟩)
  | ok debited =>
  refine .bind (yields_put (P := m'.Valid) fun hm =>
    ⟨hm.2, iff_true_intro (Account.valid_addToBalance hm.1 hdebit)⟩) ?_
  rintro between m₁ ⟨hm₁, hbetween⟩
  -- The snapshot that the machine shows is the one before the payment.
  have hkept := (hbetween.keeps fun hm => hm.2).imp fun hm hworlds => And.intro hm.1 hworlds
  refine .bind (yields_account (hbetween.imp fun _ _ => trivial)) ?_
  rintro recipient m₂ ⟨rfl, hrecipient⟩
  cases hcredit : recipient.addToBalance amount with
  | error cause =>
      refine .pure (hkept.imp fun _ hbefore => ⟨?_, nofun⟩)
      rw [hm₁]
      exact ⟨hbefore.1, hbefore.2.2⟩
  | ok credited =>
  have hcredited : World.Valid m₂.archive between → credited.Valid :=
    fun hworld => Account.valid_addToBalance (hrecipient hworld) hcredit
  refine .bind (.imp (yields_put fun hbefore =>
    ⟨hbefore.2.1, iff_true_intro (hcredited hbefore.2.1)⟩)
    (fun _ _ h => h) fun _ h => hkept.followed h) ?_
  rintro world m₃ ⟨hm₃, hworld⟩
  have hafter := hworld.keeps fun hbefore => hbefore.2.2
  refine .pure (hkept.followed (hafter.imp fun hbefore hworlds => ⟨?_, ?_⟩))
  · rw [hm₃, hm₁]
    exact ⟨hbefore.1, hworlds.2⟩
  · rintro order ⟨⟩
    exact ⟨hcredited hbefore.2.1, hworlds.1⟩

theorem yields_order : Yields m order
    (fun paid m' => Archive.Gives True m.Valid m.archive
      (m'.Valid ∧ ∀ order ∈ paid.2, order.1.callee.Valid ∧ order.2.Valid m'.archive) m'.archive)
    (m.Leaves True) := by
  have law := writes_law
  refine .bind (law.onStack _ m) fun amount m₁ h₁ => ?_
  refine .bind (.imp (law.onStack _ m₁) (fun _ _ => law.trans h₁) fun _ => law.fail h₁) ?_
  intro target m₂ h₂
  refine .bind (.imp (law.onStack _ m₂) (fun _ _ => law.trans h₂) fun _ => law.fail h₂) ?_
  intro params m₃ h₃
  by_cases hneg : amount.toInt < 0
  · rw [if_pos hneg]
    exact .throw (law.fail h₃ (law.failed m₃ m₃.registers))
  · rw [if_neg hneg]
    refine .get_bind (.bind (.imp (yields_prepare target amount params)
      (fun _ _ => Archive.Gives.followed h₃) fun _ => Archive.Gives.followed h₃) ?_)
    exact fun call m₄ h₄ => .pure h₄

section Nested

variable {careful : Terms → Machine → Prop} {call : Invocation} {world : World}

section Deliver

variable (hpaid : Archive.Gives True m.Valid m.archive
  (m'.Valid ∧ call.callee.Valid ∧ world.Valid m'.archive) m'.archive)

include hpaid

/-- When the run of the account that was paid is over, the account and the snapshot of its caller
are still valid. -/
theorem gives_over {depth budget : Nat} {inner : Terms} {start : Machine}
    (henter : enter terms.limits depth budget call world m'.archive = .ok (inner, start))
    {one Q : Prop} {b : Archive} (h : Archive.Gives one start.Valid start.archive Q b) :
    Archive.Gives one m.Valid m.archive (Q ∧ m'.account.Valid ∧ m'.world.Valid b) b := by
  obtain ⟨hworld, hcallee, harchive⟩ := enter_eq_ok henter
  have hstart : Archive.Gives True m.Valid m.archive (m'.Valid ∧ start.Valid) start.archive := by
    rw [harchive]
    refine hpaid.imp fun _ hafter => ⟨hafter.1, ?_⟩
    rw [Machine.Valid, hworld, hcallee, harchive]
    exact hafter.2
  have hboth : Archive.Gives one (m'.Valid ∧ start.Valid) start.archive Q b :=
    .preceded (.refl And.right) h
  have hkept := hboth.keeps fun hbefore => by
    rw [harchive]
    exact hbefore.1.2
  refine hstart.preceded ?_
  exact hkept.imp fun hbefore hafter => ⟨hafter.1, hbefore.1.1, hafter.2⟩

/-- The script of the account that was paid decides what is given to the store.  Whatever came
of it, the machine shows a snapshot of valid accounts. -/
theorem writes_deliver
    (hnested : call.callee.hasCode = true → ∀ inner start,
      enter terms.limits (terms.depth + 1) (terms.budget - m'.steps) call world m'.archive =
          .ok (inner, start) →
        Yields start (nested inner) (fun _ => start.Writes (careful inner start))
          (start.Leaves (careful inner start)))
    {all : Prop} (hall : all ↔ (call.callee.hasCode = true → ∀ inner start,
      enter terms.limits (terms.depth + 1) (terms.budget - m'.steps) call world m'.archive =
        .ok (inner, start) → careful inner start)) :
    Yields m' (deliver nested terms call world) (fun _ => m.Writes all) (m.Leaves all) := by
  unfold deliver
  by_cases hcode : call.callee.hasCode = true
  case neg =>
    rw [if_neg hcode]
    have hnone : True ↔ all := iff_of_true trivial (hall.mpr fun h => absurd h hcode)
    refine .modify_bind (.pure ((hpaid.congr hnone).imp fun _ hafter => ?_))
    exact ⟨hafter.1.1, hafter.2.2⟩
  rw [if_pos hcode]
  refine Yields.runPaid (fun e henter => ?_) fun inner start henter => ?_
  · have hnone : True ↔ all :=
      iff_of_true trivial (hall.mpr fun _ inner start h => by rw [henter] at h; cases h)
    exact (hpaid.congr hnone).imp fun _ hafter => hafter.1
  -- There is one run that was entered, so to be careful is to be careful in it.
  have hone : careful inner start ↔ all := by
    rw [hall, henter]
    refine ⟨?_, fun h => h hcode inner start rfl⟩
    rintro h - _ _ ⟨⟩
    exact h
  refine (hnested hcode inner start henter).imp (fun _ last h => ?_) fun last h => ?_
  · exact ((gives_over hpaid henter h).congr hone).imp fun _ hafter => ⟨hafter.2.1, hafter.1.2⟩
  · exact ((gives_over hpaid henter h).congr hone).imp fun _ hafter => hafter.2

end Deliver

theorem writes_reload (payer : Hash) : Within (Writes True) (Leaves True) (reload payer) := by
  intro m
  refine Yields.get_bind (Yields.bind (yields_account (leaves_self m)) ?_)
  rintro account m' ⟨rfl, haccount⟩
  exact .modify (.refl fun hm => ⟨haccount hm.2, hm.2⟩)

/-! ## Steps -/

/-- Takes a value and the name of the slot that it goes to off the stack. -/
def parcel : Exec (SlotValue × String) := do
  let value ← onStack Stack.pop
  let value ← ofExcept (value.toSlot (.account .setStor))
  let name ← onStack (Stack.popStr (.account .setStor))
  pure (value, name)

theorem run_setStor : AccountOp.run nested terms .setStor = (do
    let (value, name) ← parcel
    setStorage name value) := by
  unfold AccountOp.run parcel
  simp only [bind_assoc, pure_bind]

theorem within_parcel {R E : Machine → Machine → Prop} (law : Law R E) : Within R E parcel := by
  refine law.bind (law.onStack _) fun value => ?_
  exact law.bind (law.ofExcept _) fun slot => law.bind (law.onStack _) fun name => law.pure _

/-- The next step puts a value into a slot of the callee. -/
inductive Stores (terms : Terms) (m : Machine) (value : SlotValue) : Prop
  | intro {name : String} {m' : Machine} {new : Account} (hleft : m.steps < terms.budget)
      (hitem : terms.item? m.registers.pc = some (.op (.account .setStor)))
      (hparcel : parcel m.counted = .ok (value, name) m')
      (hset : m'.account.setStorage name value = .ok new)

/-- If the next step puts a value into a slot, the value belongs together. -/
def Tidy (terms : Terms) (m : Machine) : Prop :=
  ∀ value, Stores terms m value → value.Consistent

/-- A step that puts nothing into a slot is tidy. -/
theorem tidy_of_not (h : ∀ value, ¬Stores terms m value) : True ↔ Tidy terms m :=
  iff_of_true trivial fun value hstores => absurd hstores (h value)

theorem writes_setStor (hleft : m.steps < terms.budget)
    (hitem : terms.item? m.registers.pc = some (.op (.account .setStor))) :
    Yields m.counted (AccountOp.run nested terms .setStor)
      (fun _ => m.counted.Writes (Tidy terms m)) (m.counted.Leaves (Tidy terms m)) := by
  obtain ⟨hok, herror⟩ := within_parcel writes_law m.counted
  rw [run_setStor]
  refine .split (fun e m₁ hparcel => ?_) ?_
  · refine Archive.Gives.congr (herror e m₁ hparcel) (tidy_of_not ?_)
    rintro value ⟨-, -, hparcel', -⟩
    rw [hparcel] at hparcel'
    cases hparcel'
  rintro ⟨value, name⟩ m₁ hparcel
  have hbefore := hok _ m₁ hparcel
  cases hset : m₁.account.setStorage name value with
  | error cause =>
      refine .get_bind ?_
      rw [hset]
      refine .throw (Archive.Gives.congr (writes_law.fail hbefore (leaves_self m₁)) ?_)
      refine tidy_of_not ?_
      rintro value' ⟨-, -, hparcel', hset'⟩
      rw [hparcel] at hparcel'
      cases hparcel'
      rw [hset] at hset'
      cases hset'
  | ok new =>
      have hone : value.Consistent ↔ Tidy terms m := by
        constructor
        · rintro hvalue value' ⟨-, -, hparcel', -⟩
          rw [hparcel] at hparcel'
          cases hparcel'
          exact hvalue
        · exact fun h => h value (.intro hleft hitem hparcel hset)
      exact (writes_congr (writes_setStorage hset) hone).imp
        (fun _ _ => Archive.Gives.preceded hbefore) fun _ => Archive.Gives.preceded hbefore

variable (hnested : ∀ inner start, Calls terms m inner start →
  Yields start (nested inner) (fun _ => start.Writes (careful inner start))
    (start.Leaves (careful inner start)))

include hnested

/-- The script that a transfer runs decides what the transfer gives to the store. -/
theorem writes_transfer (hleft : m.steps < terms.budget)
    (hitem : terms.item? m.registers.pc = some (.op (.account .transfer))) {all : Prop}
    (hall : all ↔ ∀ inner start, Calls terms m inner start → careful inner start) :
    Yields m.counted (execute nested terms) (fun _ => m.counted.Writes all)
      (m.counted.Leaves all) := by
  have hnothing : (∀ inner start, ¬Calls terms m inner start) → (True ↔ all) := fun hnone =>
    iff_of_true trivial (hall.mpr fun inner start hcalls => absurd hcalls (hnone inner start))
  obtain ⟨hok, herror⟩ := yields_order (m := m.counted)
  refine .congr (execute_transfer (m := m.counted) hitem) (.split (fun e m₁ horder => ?_) ?_)
  · refine Archive.Gives.congr (herror e m₁ horder) (hnothing ?_)
    rintro inner start ⟨-, -, horder', -, -⟩
    rw [horder] at horder'
    cases horder'
  rintro ⟨payer, call⟩ m₁ horder
  have hpaid := hok _ m₁ horder
  cases call with
  | none =>
      have hnone : True ↔ all := hnothing <| by
        rintro inner start ⟨-, -, horder', -, -⟩
        rw [horder] at horder'
        cases horder'
      have hafter : m.counted.Writes True m₁ := hpaid.imp fun _ h => h.1
      exact writes_congr (hafter.then (within_conclude writes_law false)) hnone
  | some call =>
      obtain ⟨call, world⟩ := call
      have hcall := hpaid.imp fun _ h => And.intro h.1 (h.2 (call, world) rfl)
      have hdelivered : Yields m₁ (deliver nested terms call world)
          (fun _ => m.counted.Writes all) (m.counted.Leaves all) := by
        refine writes_deliver hcall (fun hcode inner start henter =>
          hnested inner start (.intro hleft hitem horder hcode henter)) (hall.trans ⟨?_, ?_⟩)
        · exact fun h hcode inner start henter =>
            h inner start (.intro hleft hitem horder hcode henter)
        · rintro h inner start ⟨-, -, horder', hcode, henter⟩
          rw [horder] at horder'
          cases horder'
          exact h hcode inner start henter
      dsimp only
      rw [settle_bind]
      refine .bind hdelivered fun moved m₂ h₂ => ?_
      exact h₂.then (within_takeBack writes_law payer (writes_reload payer) moved)

/-- What one step gives to the store. -/
theorem writes_step {all : Prop} (hall : all ↔
      Tidy terms m ∧ ∀ inner start, Calls terms m inner start → careful inner start) :
    Yields m (stepWith nested terms) (fun _ => m.Writes all) (m.Leaves all) := by
  -- Only one of two instructions decides anything, and both take a step that is left.
  have hnothing : (m.steps < terms.budget →
      terms.item? m.registers.pc ≠ some (.op (.account .setStor)) ∧
        terms.item? m.registers.pc ≠ some (.op (.account .transfer))) → (True ↔ all) := by
    intro hneither
    refine iff_of_true trivial (hall.mpr ⟨?_, ?_⟩)
    · rintro value ⟨hleft, hitem, -, -⟩
      exact absurd hitem (hneither hleft).1
    · rintro inner start ⟨hleft, hitem, -, -, -⟩
      exact absurd hitem (hneither hleft).2
  by_cases hleft : m.steps < terms.budget
  case neg =>
    refine .congr (y := throw _) (stepWith_of_spent (Nat.le_of_not_lt hleft)) (.throw ?_)
    exact Archive.Gives.congr (leaves_self m) (hnothing fun h => absurd h hleft)
  refine .congr (stepWith_of_lt hleft) ?_
  show Yields m.counted _ (fun _ => m.counted.Writes all) (m.counted.Leaves all)
  cases hitem : terms.item? m.registers.pc with
  | none =>
      refine .congr (y := throw _) (execute_of_none (m := m.counted) hitem) (.throw ?_)
      exact Archive.Gives.congr (leaves_self m.counted) (hnothing fun _ => by simp [hitem])
  | some item =>
  by_cases htransfer : item = .op (.account .transfer)
  · subst htransfer
    refine writes_transfer hnested hleft hitem (hall.trans (and_iff_right ?_))
    rintro value ⟨-, hitem', -, -⟩
    rw [hitem] at hitem'
    cases hitem'
  refine .congr (execute_of_some (m := m.counted) hitem) ?_
  by_cases hset : item = .op (.account .setStor)
  · subst hset
    have hone : Tidy terms m ↔ all := by
      refine (hall.trans (and_iff_left ?_)).symm
      rintro inner start ⟨-, hitem', -, -, -⟩
      rw [hitem] at hitem'
      cases hitem'
    refine .bind (P := fun _ => m.counted.Writes all)
      (.bind (writes_congr (writes_setStor hleft hitem) hone) ?_) ?_
    · exact fun _ m₁ h₁ => h₁.then writes_law.next
    · exact fun flow m₁ h₁ => h₁.then (within_proceed writes_law flow)
  · have hrun : Within (Writes True) (Leaves True) (item.run nested terms) :=
      item.within_run writes_law (fun h => absurd h hset) (fun _ => writes_create)
        fun h => absurd h htransfer
    refine writes_congr (writes_law.bind hrun (within_proceed writes_law) m.counted) ?_
    refine hnothing fun _ => ⟨fun h => hset ?_, fun h => htransfer ?_⟩
    · exact Option.some.inj (hitem.symm.trans h)
    · exact Option.some.inj (hitem.symm.trans h)

end Nested

/-! ## Runs -/

/-- From here on, the run and those nested in it are tidy. -/
def Careful (terms : Terms) (m : Machine) : Prop :=
  ∀ terms' m', Visits terms m terms' m' → Tidy terms' m'

/-- A run is careful if its first step is and the rest is. -/
theorem careful_iff : Careful terms m ↔
    (Tidy terms m ∧ ∀ inner start, Calls terms m inner start → Careful inner start) ∧
      ∀ m', step terms m = .ok none m' → Careful terms m' := by
  constructor
  · intro h
    refine ⟨⟨h terms m .here, ?_⟩, ?_⟩
    · exact fun inner start hcalls terms' m' hvisits => h terms' m' (.call hcalls hvisits)
    · exact fun m₁ hstep terms' m' hvisits => h terms' m' (.step hstep hvisits)
  · rintro ⟨⟨hhere, hcalled⟩, hrest⟩ terms' m' hvisits
    cases hvisits with
    | here => exact hhere
    | step hstep hlater => exact hrest _ hstep terms' m' hlater
    | call hcall hinner => exact hcalled _ _ hcall terms' m' hinner

theorem careful_of_last (h : ∀ m', step terms m ≠ .ok none m') :
    (Tidy terms m ∧ ∀ inner start, Calls terms m inner start → Careful inner start) ↔
      Careful terms m :=
  (careful_iff.trans (and_iff_left fun m' hstep => absurd hstep (h m'))).symm

theorem careful_of_spent (h : terms.budget ≤ m.steps) : Careful terms m := by
  refine careful_iff.mpr ⟨⟨?_, ?_⟩, fun m' hstep => ?_⟩
  · rintro value ⟨hleft, -, -, -⟩
    exact absurd h (Nat.not_le_of_lt hleft)
  · rintro inner start ⟨hleft, -, -, -, -⟩
    exact absurd h (Nat.not_le_of_lt hleft)
  · rw [step, stepWith_of_spent h] at hstep
    cases hstep

/-- What a run gives to stores.  The induction is on the number of steps, which is what a nested
run is given less of. -/
theorem writes_drive {left : Nat} (hleft : terms.budget - m.steps ≤ left) :
    Yields m (drive left terms) (fun _ => m.Writes (Careful terms m))
      (m.Leaves (Careful terms m)) := by
  induction left generalizing terms m with
  | zero =>
      have hspent : terms.budget ≤ m.steps := by omega
      refine .congr (y := throw _) (drive_of_spent 0 hspent) (.throw ?_)
      exact Archive.Gives.congr (leaves_self m) (iff_of_true trivial (careful_of_spent hspent))
  | succ left ih =>
      have hnested : ∀ inner start, Calls terms m inner start →
          Yields start (drive left inner) (fun _ => start.Writes (Careful inner start))
            (start.Leaves (Careful inner start)) := by
        intro inner start hcalls
        obtain ⟨hzero, hless⟩ := hcalls.budget_lt
        exact ih (by omega)
      obtain ⟨hok, herror⟩ := writes_step hnested Iff.rfl
      have hstep : stepWith (drive left) terms m = step terms m := stepWith_eq_step hleft
      refine Yields.drive (fun e m₁ hrun => ?_) (fun value m₁ hrun => ?_) fun m₁ hrun => ?_
      · refine Archive.Gives.congr (herror e m₁ hrun) (careful_of_last ?_)
        rw [← hstep, hrun]
        exact nofun
      · refine Archive.Gives.congr (hok (some value) m₁ hrun) (careful_of_last ?_)
        rw [← hstep, hrun]
        exact nofun
      have hmore := ((pays_stepWith (pays_drive left) m).1 _ _ hrun).1
      have hall : Careful terms m ↔
          (Tidy terms m ∧ ∀ inner start, Calls terms m inner start → Careful inner start) ∧
            Careful terms m₁ := by
        refine careful_iff.trans (and_congr_right fun _ => ⟨fun h => h m₁ ?_, ?_⟩)
        · rw [← hstep, hrun]
        · intro h m' hsame
          rw [← hstep, hrun] at hsame
          cases hsame
          exact h
      have hlater : terms.budget - m₁.steps ≤ left := by omega
      refine (ih hlater).imp (fun _ m₂ h₂ => ?_) fun m₂ h₂ => ?_
      · exact (Archive.Gives.trans (hok none m₁ hrun) h₂).congr hall.symm
      · exact (Archive.Gives.trans (hok none m₁ hrun) h₂).congr hall.symm

end Machine

namespace Invocation

/-- The run and those nested in it are tidy. -/
def Careful (call : Invocation) (limits : Limits) (w : World) (a : Archive) : Prop :=
  ∀ terms start, Machine.enter limits 0 limits.maxSteps call w a = .ok (terms, start) →
    Machine.Careful terms start

/-- What the run of a valid account gives to stores, on a snapshot of valid accounts. -/
theorem yields_run (call : Invocation) (limits : Limits) (w : World) (a : Archive) :
    Yields a (call.run limits w)
      (fun outcome b => Archive.Gives (call.Careful limits w a) (call.callee.Valid ∧ w.Valid a) a
        (outcome.world.Valid b) b)
      (Archive.Gives (call.Careful limits w a) (call.callee.Valid ∧ w.Valid a) a True) := by
  refine Yields.invocation (fun e henter => ?_) fun terms start henter => ?_
  · refine Archive.Gives.congr (.refl fun _ => trivial) (iff_of_true trivial fun _ _ h => ?_)
    rw [henter] at h
    cases h
  obtain ⟨hworld, hcallee, harchive⟩ := Machine.enter_eq_ok henter
  have hcareful : Machine.Careful terms start ↔ call.Careful limits w a := by
    constructor
    · intro h _ _ henter'
      rw [henter] at henter'
      cases henter'
      exact h
    · exact fun h => h terms start henter
  have hstart : start.Valid ↔ call.callee.Valid ∧ w.Valid a := by
    rw [Machine.Valid, hworld, hcallee, harchive]
  refine .congr (y := Machine.drive (terms.budget - start.steps) terms) rfl
    ((Machine.writes_drive (Nat.le_refl _)).imp (fun value last h => ?_) fun last h => ?_)
  · rw [Machine.Writes, hcareful, hstart, harchive] at h
    exact h.imp fun _ hm => hm.2
  · rwa [Machine.Leaves, hcareful, hstart, harchive] at h

end Invocation

end ScriptLedger
