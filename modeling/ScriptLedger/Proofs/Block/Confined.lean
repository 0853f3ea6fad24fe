import ScriptLedger.Proofs.Block.Build
import ScriptLedger.Proofs.Machine.Confined

/-!
# A candidate is written to stores of its own

Transactions write to the store of the snapshot that they are applied to, whether they
can be applied or not.  A block is built on a fork, or on a first state of its own; so
no store that was there before is touched by a build, and a candidate that is thrown away
leaves nothing behind.

## Main results

* `World.steady_transit` — what a transaction writes.
* `Skeleton.yields_build` — what a build leaves behind, whether it succeeds or not.
-/

namespace ScriptLedger

open Sequencing

variable {ε : Type} {a a' : Archive} {w w' : World}

/-! ## Transactions -/

namespace World

/-- Whether it succeeds or not, a computation on a snapshot writes to the store of that
snapshot, and what it returns comes from that snapshot. -/
def Steady (f : World → Archived ε World) : Prop :=
  ∀ w a, Yields a (f w) (fun w' a' => w.Follows a a' w') (Archive.Confined w.store a)

namespace Steady

variable {f g : World → Archived ε World}

theorem bind (hf : Steady f) (hg : Steady g) : Steady fun w => f w >>= g := by
  intro w a
  refine (hf w a).bind fun w' a' h => (hg w' a').imp ?_ ?_
  · intro w'' a'' h'
    exact h.trans h'
  · intro a'' h'
    exact h.fail h'

/-- A loop is steady if its rounds are. -/
theorem foldlM {ι : Type} {items : List ι} {f : World → ι → Archived ε World}
    (hf : ∀ item, Steady fun w => f w item) : Steady fun w => items.foldlM f w := by
  induction items with
  | nil => exact fun w a => .pure (.refl a w)
  | cons item rest ih =>
      simp only [List.foldlM_cons]
      exact (hf item).bind ih

theorem ofExcept {α : Type} {x : Except ε α} {f : α → World → Archived ε World}
    (hf : ∀ value, Steady (f value)) :
    Steady fun w => (do f (← MonadExcept.ofExcept x) w) := by
  intro w a
  refine .bind (P := fun _ a' => a' = a) (.ofExcept (fun _ _ => rfl) (.refl _ a)) ?_
  rintro value a' rfl
  exact hf value w a'

end Steady

theorem yields_put (account : Account) :
    Yields a (w.put account) (fun w' a' => w.Follows a a' w') (Archive.Confined w.store a) :=
  ⟨fun _ _ => follows_of_put, fun _ _ => confined_of_put_error⟩

theorem steady_credit (address : Hash) (amount : Int64) : Steady (credit address amount) := by
  intro w a
  refine .bind (P := fun _ a' => a' = a) (yields_load (fun _ _ => rfl) (.refl _ a)) ?_
  rintro account a' rfl
  cases account.addToBalance amount with
  | error cause => exact .throw (.refl _ _)
  | ok account => exact .adaptExcept (yields_put account)

theorem steady_runScript (limits : Limits) (payers : List Hash) (output : Output)
    (amount : Int64) (target : Account) : Steady (runScript limits payers output amount target) := by
  intro w a
  unfold runScript
  by_cases hcode : target.hasCode = true
  · rw [if_pos hcode]
    refine .bind (P := fun outcome a' => w.Follows a a' outcome.world)
      (.adaptExcept (Invocation.follows_run _ _ _ _)) ?_
    intro outcome a' h
    exact .pure h
  · rw [if_neg hcode]
    exact .pure (.refl a w)

theorem steady_pay (limits : Limits) (payers : List Hash) (output : Output) :
    Steady fun w => pay limits payers w output := by
  intro w a
  refine .bind (P := fun _ a' => a' = a) (yields_load (fun _ _ => rfl) (.refl _ a)) ?_
  rintro target a' rfl
  have hrest := Steady.ofExcept (x := delta output.value) fun amount =>
    (steady_runScript limits payers output amount target).bind
      (steady_credit output.address amount)
  exact hrest w a'

theorem steady_charge (input : Input) : Steady fun w => charge w input :=
  .ofExcept fun amount => steady_credit input.address (-amount)

/-- Whether it can be applied or not, a transaction writes to the store of the snapshot that
it is applied to. -/
theorem steady_transit (limits : Limits) (miner : Hash) (data : TransactionData) :
    Steady (transit limits miner data) := by
  refine .bind (.foldlM fun output => steady_pay limits _ output) ?_
  refine .bind (.foldlM fun input => steady_charge input) ?_
  exact .ofExcept fun fee => steady_credit miner fee

end World

/-! ## Blocks -/

namespace Skeleton

variable {start : World}

theorem yields_addTransaction (limits : Limits) (miner : Hash) (state : World × Trie)
    (entry : Hash × Transaction) :
    Yields a (addTransaction limits miner state entry)
      (fun state' a' => state.1.Follows a a' state'.1) (Archive.Confined state.1.store a) := by
  obtain ⟨w, t⟩ := state
  obtain ⟨hash, tx⟩ := entry
  refine .bind (P := fun _ a' => a' = a) (.ofExcept (fun _ _ => rfl) (.refl _ a)) ?_
  rintro (_ | _) a' rfl
  · refine .get_bind ?_
    by_cases hsigned : tx.isSigned (w.pubkey? a') = true
    · simp only [hsigned, Bool.not_true, Bool.false_eq_true, if_false]
      refine .bind (.adaptExcept (World.steady_transit limits miner tx.data w a')) ?_
      intro w' a'' h
      refine .bind (P := fun _ a₃ => a₃ = a'') (.ofExcept (fun _ _ => rfl) h.confined) ?_
      rintro t' a₃ rfl
      exact .pure h
    · simp only [hsigned, Bool.not_false, if_true]
      exact .throw (.refl _ _)
  · exact .throw (.refl _ _)

/-- A snapshot over a new store. -/
structure Apart (a a' : Archive) (w : World) : Prop where
  untouched : a.Untouched a'
  size_le : a.stores.size ≤ w.store

/-- What a block with a parent starts from is backed and formed if the parent is, and what
a first block starts from always is. -/
def Sprung (parent : Option Block) (a a' : Archive) (w : World) : Prop :=
  ((∀ b, parent = some b → b.skeleton.world.Backed a) → w.Backed a') ∧
    ((∀ b, parent = some b → b.skeleton.world.trie.Formed) → w.trie.Formed)

theorem yields_fork {v : World} :
    Yields a (v.fork : Archived ε World)
      (fun w a' => Apart a a' w ∧ (v.Backed a → w.Backed a') ∧ w.trie = v.trie) a.Untouched := by
  refine ⟨fun w a' h => ?_, fun _ _ h => by cases h⟩
  obtain ⟨rfl, rfl⟩ := World.fork_eq_ok h
  exact ⟨⟨.addOverlay a v.store, Nat.le_refl _⟩, fun hv => hv.fork h, rfl⟩

theorem yields_genesis :
    Yields a Genesis.world (fun w a' => a.Untouched a' ∧ w.Backed a' ∧ w.trie.Formed)
      a.Untouched := by
  refine .bind (P := fun store a' => a' = a.addStore.2 ∧ store = a.addStore.1)
    ⟨fun _ _ h => by cases h; exact ⟨rfl, rfl⟩, fun _ _ h => by cases h⟩ ?_
  rintro _ _ ⟨rfl, rfl⟩
  have hnew : a.stores.size ≤ a.addStore.1 := Nat.le_refl _
  refine (World.yields_put Genesis.account).imp (fun w a' h => ?_) fun a' h => ?_
  · exact ⟨(Archive.Untouched.addStore a).confined h.confined hnew,
      h.backed (World.stored_empty a).backed, h.formed Trie.formed_empty⟩
  · exact (Archive.Untouched.addStore a).confined h hnew

theorem yields_base (parent : Option Block) :
    Yields a (base parent) (fun w a' => Apart a a' w ∧ Sprung parent a a' w) a.Untouched := by
  cases parent with
  | some b =>
      refine yields_fork.imp ?_ fun _ h => h
      rintro w a' ⟨hapart, hbacked, htrie⟩
      refine ⟨hapart, fun h => hbacked (h b rfl), fun h => ?_⟩
      rw [htrie]
      exact h b rfl
  | none =>
      refine .bind (.adaptExcept yields_genesis) ?_
      rintro first mid ⟨huntouched, hbacked, hformed⟩
      refine yields_fork.imp ?_ fun _ h => huntouched.trans h
      rintro w a' ⟨hapart, hkeeps, htrie⟩
      refine ⟨⟨huntouched.trans hapart.untouched, ?_⟩, fun _ => hkeeps hbacked, fun _ => ?_⟩
      · exact Nat.le_trans huntouched.toGrowsTo.size_le hapart.size_le
      · rw [htrie]
        exact hformed

/-- A build touches no store that was there before, whether it succeeds or not.  What it
builds on a backed parent is backed, and on a formed one is formed. -/
theorem yields_build (rules : Rules) (parent : Option Block) (transactions : List Transaction)
    (miner : Hash) (timestamp : UInt64) :
    Yields a (build rules parent transactions miner timestamp)
      (fun skeleton a' => a.Untouched a' ∧ Sprung parent a a' skeleton.world) a.Untouched := by
  refine (yields_base parent).bind ?_
  rintro start mid ⟨hapart, hbacked, hformed⟩
  refine .bind (P := fun state a' => start.Follows mid a' state.1)
    ((Yields.foldlM (E := Archive.Confined start.store mid) ?_ (.refl mid start)).imp
      (fun _ _ h => h) fun a' h => ?_) ?_
  · intro state entry a' h
    exact (yields_addTransaction rules.limits miner state entry).imp (fun _ _ => h.trans)
      fun _ => h.fail
  · exact hapart.untouched.confined h hapart.size_le
  rintro ⟨world, txTrie⟩ a' h
  have huntouched := hapart.untouched.confined h.confined hapart.size_le
  refine .bind (P := fun _ a'' => a'' = a') (.ofExcept (fun _ _ => rfl) huntouched) ?_
  rintro place a'' rfl
  exact .pure ⟨huntouched, fun hp => h.backed (hbacked hp), fun hp => h.formed (hformed hp)⟩

end Skeleton

end ScriptLedger
