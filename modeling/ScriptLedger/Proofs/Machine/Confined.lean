import ScriptLedger.Proofs.Machine.Calls
import ScriptLedger.Proofs.World.Confined

/-!
# A run writes to one store

All snapshots that come up in a run share the store of the first one, those of nested
runs included, and so does what is left of a nested run that failed.  Whether a run
returns or fails, no other store has been written to.

Nothing is assumed of the snapshot that a run starts from.

The relations of `Exec.Within` do not look at what a computation returns, and a transfer
makes snapshots that the machine does not show until it is over.  `Yields` does: it is
about one start, and follows the snapshots from hand to hand.

## Main results

* `Machine.follows_drive` — a run, and the steps that it is made of.
* `Invocation.follows_run` — a whole run, whether it returned or failed.
-/

namespace ScriptLedger

open Sequencing

variable {α : Type} {nested : Terms → Exec Value} {terms : Terms} {m m' m'' : Machine}
variable {world : World}

namespace Sequencing.Yields

variable {P : α → Machine → Prop} {E : Machine → Prop}

theorem ofState {y : Except StateError α} (hok : ∀ a, P a m) (herror : E m) :
    Yields m (Exec.ofState y) P E := by
  cases y with
  | ok a => exact .pure (hok a)
  | error e => exact .throw herror

theorem account {P : Account → Machine → Prop} {address : Hash}
    (hok : ∀ account, P account m) (herror : E m) :
    Yields m (Exec.account world address) P E := by
  refine .bind (P := fun _ m' => m' = m) (.get_bind (.ofState (fun _ => rfl) herror)) ?_
  rintro found m' rfl
  cases found with
  | none => exact .throw herror
  | some account => exact .pure (hok account)

/-- A put, as a machine makes it. -/
theorem put {given : Account} (hE : ∀ archive, Archive.Confined world.store m.archive archive →
      E { m with archive }) :
    Yields m (Exec.onArchive (world.put given))
      (fun world' m' => m' = { m with archive := m'.archive } ∧
        world.Follows m.archive m'.archive world') E := by
  have hput : Yields m.archive (world.put given)
      (fun world' archive => world.Follows m.archive archive world')
      (Archive.Confined world.store m.archive) :=
    ⟨fun _ _ => World.follows_of_put, fun _ _ => World.confined_of_put_error⟩
  refine hput.onArchive.imp (fun _ _ h => h) fun m' h => ?_
  rw [h.1]
  exact hE m'.archive h.2

end Sequencing.Yields

namespace Machine

open Exec

/-! ## Instructions -/

/-- The snapshot comes from the one before, and no store but its own was written to. -/
def Follows (m m' : Machine) : Prop := World.Follows m.archive m.world m'.archive m'.world

/-- No store but that of the snapshot before was written to. -/
def Confined (m m' : Machine) : Prop := Archive.Confined m.world.store m.archive m'.archive

theorem follows_of_confined (hworld : m'.world = m.world) (h : m.Confined m') :
    m.Follows m' := by
  unfold Follows
  rw [hworld]
  exact World.follows_of_confined h

theorem follows_law : Law Follows Confined where
  trans h h' := World.Follows.trans h h'
  fail h h' := World.Follows.fail h h'
  registers _ _ := World.Follows.refl _ _
  failed _ _ := .refl _ _

theorem follows_setStorage (name : String) (value : SlotValue) :
    Within Follows Confined (setStorage name value) := by
  intro m
  show Yields m _ (fun _ => Follows m) (Confined m)
  refine .get_bind ?_
  cases m.account.setStorage name value with
  | error cause => exact .throw (.refl _ _)
  | ok new =>
      refine .modify_bind (.get_bind (.bind (.put fun _ hconfined => hconfined) ?_))
      rintro world m' ⟨hm', hworld⟩
      exact .modify_bind (.pure hworld)

theorem follows_create (op : Opcode) (key : Pubkey) (code : String) (ownerAccess : Bool)
    (names values : List Value) :
    Within Follows Confined (create op key code ownerAccess names values) := by
  intro m
  show Yields m _ (fun _ => Follows m) (Confined m)
  unfold create
  by_cases harity : names.length ≠ values.length
  · rw [if_pos harity]
    exact .throw (.refl _ _)
  rw [if_neg harity]
  refine .get_bind (.bind (P := fun _ m' => m' = m) (.ofState (fun _ => rfl) (.refl _ _)) ?_)
  rintro (_ | _) m' rfl
  · refine .bind (P := fun _ m'' => m'' = m') (.ofExcept (fun _ _ => rfl) (.refl _ _)) ?_
    rintro slots m' rfl
    cases Account.make key 0 code ownerAccess slots with
    | error cause => exact .throw (.refl _ _)
    | ok account =>
        refine .bind (.put fun _ hconfined => hconfined) ?_
        rintro world m'' ⟨-, hworld⟩
        exact .modify_bind (.pure hworld)
  · exact .pure (World.Follows.refl _ _)

/-! ## Transfers -/

/-- The script of an account that was paid, on a snapshot that comes from that of the
machine. -/
theorem yields_deliver (hnested : ∀ terms, Within Follows Confined (nested terms))
    {call : Invocation} (hsame : m'.world = m.world)
    (hworld : World.Follows m.archive m.world m'.archive world) :
    Yields m' (deliver nested terms call world) (fun _ => Follows m) (Confined m) := by
  unfold deliver
  by_cases hcode : call.callee.hasCode = true
  · rw [if_pos hcode]
    refine Yields.runPaid (fun _ _ => follows_of_confined hsame hworld.confined)
      fun inner start henter => ?_
    obtain ⟨rfl, -, hstart⟩ := enter_eq_ok henter
    rw [← hstart] at hworld
    exact Yields.imp (hnested inner start) (fun _ _ h => hworld.trans h)
      fun _ h => follows_of_confined hsame (hworld.fail h)
  · rw [if_neg hcode]
    exact .modify_bind (.pure hworld)

theorem follows_transfer (hnested : ∀ terms, Within Follows Confined (nested terms))
    (target : Hash) (amount : Int64) (params : List Value) :
    Within Follows Confined (Exec.transfer nested terms target amount params) := by
  intro m
  show Yields m _ (fun _ => Follows m) (Confined m)
  unfold Exec.transfer
  refine .get_bind (.bind (P := fun _ m' => m' = m) (.ofState (fun _ => rfl) (.refl _ _)) ?_)
  rintro (_ | _) m' rfl
  · exact .pure (World.Follows.refl _ _)
  simp only [Bool.not_true, Bool.false_eq_true, if_false]
  cases m'.account.addToBalance (-amount) with
  | error cause => exact .pure (World.Follows.refl _ _)
  | ok debited =>
  refine .bind (.put fun _ hconfined => hconfined) ?_
  rintro between m₁ ⟨hm₁, hbetween⟩
  have hsame₁ : m₁.world = m'.world := by rw [hm₁]
  refine .bind (P := fun _ m₂ => m₂ = m₁) (.account (fun _ => rfl) hbetween.confined) ?_
  rintro recipient m₂ rfl
  cases recipient.addToBalance amount with
  | error cause => exact .pure (follows_of_confined hsame₁ hbetween.confined)
  | ok credited =>
  refine .bind (.put fun _ hconfined => hbetween.fail hconfined) ?_
  rintro world m₃ ⟨hm₃, hworld⟩
  have hsame₃ : m₃.world = m'.world := by rw [hm₃, hsame₁]
  refine .bind (yields_deliver hnested hsame₃ (hbetween.trans hworld)) ?_
  intro moved m₄ hdelivered
  refine .bind (P := fun _ => Follows m') ?_ fun _ _ hreloaded => .pure hreloaded
  refine .get_bind (.bind (P := fun _ m₅ => m₅ = m₄)
    (.account (fun _ => rfl) hdelivered.confined) ?_)
  rintro account m₅ rfl
  exact .modify hdelivered

/-! ## Runs -/

/-- A run writes to the store of its snapshot and to no other one, and so does each of
the runs that are nested in it. -/
theorem follows_drive (left : Nat) (terms : Terms) : Within Follows Confined (drive left terms) := by
  refine within_drive follows_law ?_ follows_setStorage follows_create ?_ left terms
  · intro m
    exact World.Follows.refl _ _
  · intro nested terms hnested target amount params _
    exact follows_transfer hnested target amount params

end Machine

namespace Invocation

theorem follows_run (call : Invocation) (limits : Limits) (w : World) (a : Archive) :
    Yields a (call.run limits w) (fun outcome b => w.Follows a b outcome.world)
      (Archive.Confined w.store a) := by
  refine Yields.invocation (fun _ _ => .refl _ _) fun terms start henter => ?_
  obtain ⟨rfl, -, rfl⟩ := Machine.enter_eq_ok henter
  exact .congr (y := Machine.drive (terms.budget - start.steps) terms) rfl
    (Machine.follows_drive _ terms start)

end Invocation

end ScriptLedger
