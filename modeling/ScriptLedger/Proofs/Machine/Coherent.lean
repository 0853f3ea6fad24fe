import ScriptLedger.Proofs.Machine.Calls

/-!
# The callee and its copy

A machine has the balance and the slots of its callee twice: in the snapshot, and
in the account that it keeps beside it and writes back whole.  A machine is
coherent when the snapshot is well formed and holds exactly that account.  Every
instruction keeps it so, re-entrant calls included, because a transfer reads the
callee back after the script of the target has run.

From a coherent machine a run has no other effect than `Effect` allows, and so
every theorem about `Effect` is one about runs.

## Main results

* `Machine.leads_drive` — a run leads from coherent machines to coherent machines,
  with an effect of the callee between their snapshots.
* `Invocation.effect_of_run` — the same of a whole run, from a snapshot that holds
  the callee.
-/

namespace ScriptLedger

open Exec

variable {nested : Terms → Exec Value} {terms : Terms} {m m' : Machine}

namespace Machine

/-- The snapshot is well formed, and holds the callee just as the machine has it. -/
structure Coherent (m : Machine) : Prop where
  wellFormed : m.world.WellFormed m.archive
  holds : m.world.Holds m.archive m.account

/-- From the first machine, coherent, a script comes to the second one, coherent
and with the same callee, by what it did to the snapshot. -/
structure Settles (m m' : Machine) : Prop where
  coherent : m'.Coherent
  callee : m'.account.address = m.account.address
  effect : Effect m.account.address m.archive m.world m'.archive m'.world

/-- The stores grow; and the second machine is what a script makes of the first
one, if that was coherent and no digests collide. -/
structure Leads (m m' : Machine) : Prop where
  grows : m.Grows m'
  settles : m.Coherent → m'.archive.Collisionless → m.Settles m'

/-! ## Sequence -/

theorem Settles.trans {m'' : Machine} (h : m.Settles m') (h' : m'.Settles m'') :
    m.Settles m'' where
  coherent := h'.coherent
  callee := h'.callee.trans h.callee
  effect := by
    have hnext := h'.effect
    rw [h.callee] at hnext
    exact h.effect.trans hnext

/-- Nothing but the stores has changed. -/
theorem leads_of_grows (hgrows : m.Grows m') (hworld : m'.world = m.world)
    (haccount : m'.account = m.account) : m.Leads m' where
  grows := hgrows
  settles hm _ := by
    refine ⟨⟨?_, ?_⟩, by rw [haccount], ?_⟩
    · rw [hworld]
      exact hm.wellFormed.growsTo hgrows
    · rw [hworld, haccount]
      exact (hm.wellFormed.holds_growsTo hgrows).mpr hm.holds
    · rw [hworld]
      exact .keep hgrows

theorem leads_law : Law Leads Grows where
  trans h h' :=
    { grows := grows_law.trans h.grows h'.grows
      settles := fun hm hcol => by
        have hfirst := h.settles hm (Archive.GrowsTo.collisionless h'.grows hcol)
        exact hfirst.trans (h'.settles hfirst.coherent hcol) }
  fail h h' := grows_law.trans h.grows h'
  registers _ _ := leads_of_grows (grows_law.registers _ _) rfl rfl
  failed _ _ := Archive.GrowsTo.refl _

/-! ## The writing instructions -/

/-- What loses nothing from the stores has to be looked at only when it returned, and
only from a coherent machine. -/
theorem leads_of_settles {α : Type} {x : Exec α} (hgrows : Within Grows Grows x)
    (hsettles : ∀ m a m', x m = .ok a m' → m.Grows m' → m.Coherent →
      m'.archive.Collisionless → m.Settles m') : Within Leads Grows x := by
  intro m
  constructor
  · intro a m' h
    have hstores := (hgrows m).1 a m' h
    exact ⟨hstores, hsettles m a m' h hstores⟩
  · exact (hgrows m).2

theorem leads_setStorage (name : String) (value : SlotValue) :
    Within Leads Grows (setStorage name value) := by
  apply leads_of_settles (grows_setStorage name value)
  intro m u m' h _ hm hcol
  obtain ⟨new, hset, hput, haccount⟩ := setStorage_eq_ok h
  have hstore := World.store_lt_of_account? hm.holds
  refine ⟨⟨hm.wellFormed.put hput hstore hcol, ?_⟩, ?_, .write hm.holds hset hput⟩
  · rw [haccount]
    exact World.holds_put hput hm.wellFormed hstore hcol
  · rw [haccount, (Account.persists_setStorage hset).address_eq]

theorem leads_create (op : Opcode) (key : Pubkey) (code : String) (ownerAccess : Bool)
    (names values : List Value) :
    Within Leads Grows (create op key code ownerAccess names values) := by
  apply leads_of_settles (grows_create op key code ownerAccess names values)
  intro m created m' h _ hm hcol
  rcases create_eq_ok h with rfl | ⟨new, hbalance, hfree, hput, haccount⟩
  · exact (leads_law.refl _).settles hm hcol
  · have hstore := World.store_lt_of_account? hm.holds
    -- The callee is recorded, and the address of the new account was free.
    have hne : m.account.address ≠ new.address := by
      intro heq
      have hfound := hm.holds
      rw [World.Holds, heq, hfree] at hfound
      cases hfound
    refine ⟨⟨hm.wellFormed.put hput hstore hcol, ?_⟩, by rw [haccount], ?_⟩
    · rw [haccount]
      exact World.holds_put_of_ne hput hm.wellFormed hstore hcol hm.holds hne
    · exact .create hstore hfree hbalance hput

/-- What the script of a paid account did is an effect of the account that paid. -/
theorem effect_of_delivered (hnested : ∀ terms, Within Leads Grows (nested terms))
    {target : Hash} {amount : Int64} {moved : Bool} {account : Account} {a : Archive}
    {w : World} {mid : Machine} (hm : m.Coherent) (hamount : 0 ≤ amount.toInt)
    (hpay : Payment m.account.address target amount m.archive m.world account a w)
    (hdelivered : Delivered nested account w { m with archive := a } moved mid)
    (hgrows : m.Grows mid) (hcol : mid.archive.Collisionless) :
    Effect m.account.address m.archive m.world mid.archive mid.world := by
  cases hdelivered with
  | failed hworld =>
      rw [hworld]
      exact .keep hgrows
  | silent hworld harchive =>
      rw [hworld, harchive]
      exact .pay hamount hpay
  | @ran _ start final inner value hcode hrun hstart hworld harchive =>
      have hleads := (hnested inner start).1 value final hrun
      obtain ⟨rfl, rfl, rfl⟩ := hstart
      rw [harchive] at hcol
      have hcol' := Archive.GrowsTo.collisionless hleads.grows hcol
      -- The target is called just as the payment has left it, so its machine is coherent.
      obtain ⟨hholds, htarget⟩ := hpay.holds hm.wellFormed hcol'
      have hcalled := (hleads.settles ⟨hpay.wellFormed hm.wellFormed hcol', hholds⟩ hcol).effect
      rw [hworld, harchive]
      exact .trans (.pay hamount hpay) (.call hholds hcode hcalled)

theorem leads_transfer (hnested : ∀ terms, Within Leads Grows (nested terms)) (target : Hash)
    (amount : Int64) (params : List Value) (hamount : 0 ≤ amount.toInt) :
    Within Leads Grows (Exec.transfer nested terms target amount params) := by
  have hgrows : ∀ terms, Within Grows Grows (nested terms) := by
    intro terms
    exact (hnested terms).imp fun _ _ h => h.grows
  apply leads_of_settles (grows_transfer hgrows target amount params)
  intro m moved m' h hstores hm hcol
  cases transferred_of_transfer hm.holds h with
  | refused hworld haccount =>
      exact (leads_of_grows hstores hworld haccount).settles hm hcol
  | @delivered _ mid _ account a w hpay hdelivered hworld harchive hback =>
      have heffect : Effect m.account.address m.archive m.world m'.archive m'.world := by
        have hmid : m.Grows mid := by
          show m.archive.GrowsTo mid.archive
          rw [← harchive]
          exact hstores
        have hcol' : mid.archive.Collisionless := by
          rw [← harchive]
          exact hcol
        have h := effect_of_delivered hnested hm hamount hpay hdelivered hmid hcol'
        rw [hworld, harchive]
        exact h
      have hworld' := heffect.wellFormed hm.wellFormed hcol
      have hcallee := hworld'.address_eq hback
      exact ⟨⟨hworld', hworld'.holds hback⟩, hcallee, heffect⟩

/-! ## Runs -/

theorem leads_drive (left : Nat) (terms : Terms) : Within Leads Grows (drive left terms) := by
  refine within_drive leads_law ?_ leads_setStorage leads_create ?_ left terms
  · intro m
    exact leads_of_grows (Archive.GrowsTo.refl _) rfl rfl
  · intro nested terms hnested target amount params hamount
    exact leads_transfer hnested target amount params hamount

end Machine

/-- The whole run of a script has an effect of its callee. -/
theorem Invocation.effect_of_run {call : Invocation} {limits : Limits} {w : World}
    {a a' : Archive} {outcome : Outcome} (hw : w.WellFormed a) (hcallee : w.Holds a call.callee)
    (h : call.run limits w a = .ok outcome a') (hcol : a'.Collisionless) :
    Effect call.callee.address a w a' outcome.world := by
  obtain ⟨left, terms, start, value, final, hrun, ⟨rfl, hstart, rfl⟩, hworld, rfl⟩ :=
    exists_drive_of_run h
  have hleads := (Machine.leads_drive left terms start).1 value final hrun
  rw [← hstart] at hcallee ⊢
  rw [hworld]
  exact (hleads.settles ⟨hw, hcallee⟩ hcol).effect

end ScriptLedger
