import ScriptLedger.Proofs.Machine.Calls

/-!
# A callee can always be read back

After a transfer the callee is read back from the snapshot.  Nothing is assumed here
of the snapshot as a whole: some of its accounts may be unknown, and some may lie at
an address that is not their own.  All it takes is that the callee lies at its own
address when the run starts.  No write moves an account away from its address, so it
lies there whenever it is read back.

Two records with one digest could be mixed up on the way; `Archive.Collisionless` says
that there were none.

## Main results

* `World.Houses.put` — no put drives an account from its address.
* `Machine.keeps_drive` — nor does a run, and it goes on with the same callee.
-/

namespace ScriptLedger

open Sequencing Exec

variable {a a' : Archive} {w w' : World} {account : Account} {address : Hash}

namespace World

/-- The account at an address is there, and belongs there. -/
def Houses (a : Archive) (w : World) (address : Hash) : Prop :=
  ∃ account, w.account? a address = .ok (some account) ∧ account.address = address

theorem Holds.houses (h : w.Holds a account) : w.Houses a account.address := ⟨account, h, rfl⟩

theorem Houses.growsTo (h : w.Houses a address) (hgrows : a.GrowsTo a') :
    w.Houses a' address := by
  obtain ⟨account, hfound, haddress⟩ := h
  exact ⟨account, account?_of_growsTo hfound hgrows, haddress⟩

theorem Houses.store_lt (h : w.Houses a address) : w.store < a.stores.size := by
  obtain ⟨account, hfound, -⟩ := h
  exact store_lt_of_account? hfound

section Put

variable (h : w.put account a = .ok w' a') (hcol : a'.Collisionless)

include h hcol

/-- What was put can be read. -/
theorem holds_of_put (hstore : w.store < a.stores.size) : w'.Holds a' account := by
  obtain ⟨rfl, trie, hput, rfl⟩ := put_eq_ok_iff.mp h
  have hget := Trie.get_put hput account.address
  rw [if_pos rfl] at hget
  exact account?_eq_some_iff.mpr ⟨_, hget, Archive.get?_insert_self hstore hcol⟩

theorem Houses.put (hhouses : w.Houses a address) : w'.Houses a' address := by
  by_cases haddress : address = account.address
  · rw [haddress]
    exact (holds_of_put h hcol hhouses.store_lt).houses
  · obtain ⟨old, hfound, hold⟩ := hhouses.growsTo (growsTo_of_put h)
    obtain ⟨-, trie, hput, rfl⟩ := put_eq_ok_iff.mp h
    obtain ⟨hash, hget, hrecord⟩ := account?_eq_some_iff.mp hfound
    have hget' := Trie.get_put hput address
    rw [if_neg haddress, hget] at hget'
    exact ⟨old, account?_eq_some_iff.mpr ⟨hash, hget', hrecord⟩, hold⟩

end Put

end World

/-! ## Runs -/

namespace Machine

variable {nested : Terms → Exec Value} {terms : Terms} {m m' : Machine}

/-- The callee lies at its address in the snapshot. -/
def Housed (m : Machine) : Prop := m.world.Houses m.archive m.account.address

/-- Nothing is lost from the stores; and no account is driven from its address, nor is
the callee another one, if no digests collide. -/
structure Keeps (m m' : Machine) : Prop where
  grows : m.Grows m'
  houses : m'.archive.Collisionless → ∀ address, m.world.Houses m.archive address →
    m'.world.Houses m'.archive address
  callee : m'.archive.Collisionless → m.Housed → m'.account.address = m.account.address

theorem Keeps.housed (h : m.Keeps m') (hm : m.Housed) (hcol : m'.archive.Collisionless) :
    m'.Housed := by
  rw [Housed, h.callee hcol hm]
  exact h.houses hcol _ hm

theorem keeps_of_grows (hgrows : m.Grows m') (hworld : m'.world = m.world)
    (haccount : m'.account = m.account) : m.Keeps m' where
  grows := hgrows
  houses _ address h := by
    rw [hworld]
    exact h.growsTo hgrows
  callee _ _ := by rw [haccount]

theorem keeps_law : Law Keeps Grows where
  trans h h' :=
    { grows := grows_law.trans h.grows h'.grows
      houses := fun hcol address hm =>
        h'.houses hcol address (h.houses (Archive.GrowsTo.collisionless h'.grows hcol) address hm)
      callee := fun hcol hm => by
        have hcol' := Archive.GrowsTo.collisionless h'.grows hcol
        rw [h'.callee hcol (h.housed hm hcol'), h.callee hcol' hm] }
  fail h h' := grows_law.trans h.grows h'
  registers _ _ := keeps_of_grows (Archive.GrowsTo.refl _) rfl rfl
  failed _ _ := Archive.GrowsTo.refl _

theorem keeps_setStorage (name : String) (value : SlotValue) :
    Within Keeps Grows (setStorage name value) := by
  intro m
  refine ⟨fun u m' h => ?_, (grows_setStorage name value m).2⟩
  obtain ⟨new, hset, hput, haccount⟩ := setStorage_eq_ok h
  refine ⟨World.growsTo_of_put hput, fun hcol address hm => hm.put hput hcol, fun _ _ => ?_⟩
  rw [haccount, (Account.persists_setStorage hset).address_eq]

theorem keeps_create (op : Opcode) (key : Pubkey) (code : String) (ownerAccess : Bool)
    (names values : List Value) :
    Within Keeps Grows (create op key code ownerAccess names values) := by
  intro m
  refine ⟨fun created m' h => ?_, (grows_create op key code ownerAccess names values m).2⟩
  rcases create_eq_ok h with rfl | ⟨new, -, -, hput, haccount⟩
  · exact keeps_law.refl _
  · refine ⟨World.growsTo_of_put hput, fun hcol address hm => hm.put hput hcol, fun _ _ => ?_⟩
    rw [haccount]

/-- The script of an account that was paid drives nobody from his address either. -/
theorem houses_of_delivered (hnested : ∀ terms, Within Keeps Grows (nested terms))
    {callee : Account} {world : World} {moved : Bool}
    (h : Delivered nested callee world m moved m') (hgrows : m.Grows m')
    (hcol : m'.archive.Collisionless) (hm : m.world.Houses m.archive address)
    (hworld : world.Houses m.archive address) : m'.world.Houses m'.archive address := by
  cases h with
  | failed hsame =>
      rw [hsame]
      exact hm.growsTo hgrows
  | silent hsame harchive =>
      rw [hsame, harchive]
      exact hworld
  | @ran _ start final inner value hcode hrun hstart hsame harchive =>
      obtain ⟨rfl, -, hstores⟩ := hstart
      rw [hsame, harchive]
      rw [harchive] at hcol
      rw [← hstores] at hworld
      exact ((hnested inner start).1 value final hrun).houses hcol address hworld

theorem keeps_transfer (hnested : ∀ terms, Within Keeps Grows (nested terms)) (target : Hash)
    (amount : Int64) (params : List Value) :
    Within Keeps Grows (Exec.transfer nested terms target amount params) := by
  have hnested' : ∀ terms, Within Grows Grows (nested terms) := fun terms =>
    (hnested terms).imp fun _ _ h => h.grows
  intro m
  refine ⟨fun moved m' h => ?_, (grows_transfer hnested' target amount params m).2⟩
  have hgrows := (grows_transfer hnested' target amount params m).1 _ _ h
  rw [transfer_eq] at h
  obtain ⟨_, _, hget, h⟩ := bind_eq_ok.mp h
  obtain ⟨rfl, rfl⟩ := get_eq_ok.mp hget
  obtain ⟨call, m₁, hprepare, h⟩ := bind_eq_ok.mp h
  have hgrows₁ : m.Grows m₁ :=
    (within_prepare grows_law grows_put target amount params m).1 _ _ hprepare
  obtain ⟨hprepared, hpaid⟩ := prepared_of_prepare hprepare
  have hworld : m₁.world = m.world := by rw [hpaid]
  cases call with
  | none =>
      obtain ⟨-, rfl⟩ := pure_eq_ok.mp h
      exact keeps_of_grows hgrows hworld (by rw [hpaid])
  | some order =>
      obtain ⟨call, world⟩ := order
      obtain ⟨m₂, account, hdeliver, hback, rfl⟩ := settle_eq_ok h
      have hgrows₂ : m₁.Grows m₂ := (grows_deliver hnested' call world m₁).1 _ _ hdeliver
      have hhouses : m₂.archive.Collisionless → ∀ address, m.world.Houses m.archive address →
          m₂.world.Houses m₂.archive address := by
        intro hcol address hm
        have hcol₁ : m₁.archive.Collisionless := Archive.GrowsTo.collisionless hgrows₂ hcol
        cases hprepared with
        | paid hthere hdebit hput hfound hcredit hput' =>
            refine houses_of_delivered hnested (delivered_of_deliver hdeliver) hgrows₂ hcol ?_ ?_
            · rw [hworld]
              exact hm.growsTo hgrows₁
            · exact (hm.put hput ((World.growsTo_of_put hput').collisionless hcol₁)).put hput' hcol₁
      refine ⟨hgrows, hhouses, fun hcol hm => ?_⟩
      obtain ⟨found, hfound, haddress⟩ := hhouses hcol _ hm
      rw [hback] at hfound
      cases hfound
      exact haddress

/-- A run drives no account from its address, and goes on with the same callee. -/
theorem keeps_drive (left : Nat) (terms : Terms) : Within Keeps Grows (drive left terms) := by
  refine within_drive keeps_law ?_ keeps_setStorage keeps_create ?_ left terms
  · intro m
    exact keeps_of_grows (Archive.GrowsTo.refl _) rfl rfl
  · intro nested terms hnested target amount params _
    exact keeps_transfer hnested target amount params

theorem keeps_stepWith (left : Nat) (terms : Terms) :
    Within Keeps Grows (stepWith (drive left) terms) := by
  refine within_stepWith keeps_law keeps_setStorage keeps_create ?_ ?_
  · intro target amount params _
    exact keeps_transfer (keeps_drive left) target amount params
  · intro m
    exact keeps_of_grows (Archive.GrowsTo.refl _) rfl rfl

end Machine

end ScriptLedger
