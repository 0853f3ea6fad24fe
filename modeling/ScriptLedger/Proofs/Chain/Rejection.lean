import ScriptLedger.Proofs.Chain.Stage

/-!
# Rejection leaves no trace

A block can be refused at any moment: before anything is built, in the middle of a script,
when the last transaction has been applied and the header turns out to be another one, or
when no nonce is found.  What has been written by then was written to stores that nobody
else has, because a candidate is built on a fork.  A commit would write to the store at the
bottom, which all blocks share; but it cannot fail half way, since the snapshot of every
block that there is shows a record under every digest that its trie names.

None of this depends on digests being different.

## Main results

* `Stage.Reached.backed` — the snapshots of all blocks are backed.
* `Stage.Reached.unchanged_of_error` — a failed attempt changes nothing that can be seen.
-/

namespace ScriptLedger

open Sequencing

variable {R : Set Rules} {rules : Rules} {s s' : Stage} {x : Attempt}
variable {a a' : Archive} {c : Chain} {b : Block}

/-- The chain is the same, and all stores that its blocks read show the same records. -/
structure Stage.Unchanged (s s' : Stage) : Prop where
  contains : ∀ hash, s'.chain.contains hash = s.chain.contains hash
  get? : ∀ hash, s'.chain.get? hash = s.chain.get? hash
  heads : s'.chain.heads.toList = s.chain.heads.toList
  canonicalHead : s'.chain.canonicalHead = s.chain.canonicalHead
  layers : ∀ hash b, s.chain.get? hash = some b →
    s'.archive.layers b.skeleton.world.store = s.archive.layers b.skeleton.world.store
  shown : ∀ hash b, s.chain.get? hash = some b →
    ∀ id ∈ s.archive.layers b.skeleton.world.store, ∀ digest,
      s'.archive.contains id digest = s.archive.contains id digest ∧
        s'.archive.get? id digest = s.archive.get? id digest

/-- A backed block is committed without failure, so a chain that refuses it has not written
anything. -/
theorem Chain.eq_of_insert_error {e : BlockError} (hb : b.skeleton.world.Backed a)
    (h : c.insert b a = .error e a') : a' = a := by
  rcases insert_eq_error h with rfl | ⟨cause, hfail⟩
  · rfl
  · obtain ⟨w, mid, hcommit, -⟩ := hb.exists_commit
    rw [hfail] at hcommit
    cases hcommit

/-- What is committed stays backed. -/
theorem Block.backed_of_commit {stored : Block} (h : b.commit a = .ok stored a')
    (hb : b.skeleton.world.Backed a) : stored.skeleton.world.Backed a' := by
  obtain ⟨w, mid, hdone, hw⟩ := hb.exists_commit
  obtain ⟨world, last, hworld, h⟩ := bind_eq_ok.mp h
  obtain ⟨rfl, rfl⟩ := pure_eq_ok.mp h
  rw [hworld] at hdone
  cases hdone
  exact hw

namespace Stage

theorem inherited_backed :
    Inherited (fun _ => True) fun a _ b => b.skeleton.world.Backed a where
  build hparent hbuild :=
    ((Skeleton.yields_build _ _ _ _ _).1 _ _ hbuild).2.1 fun p hp => (hparent p hp).2.elim
      fun _ hp => hp
  grow hgrows hb := hb.growsTo hgrows
  commit hcommit hb := Block.backed_of_commit hcommit hb
  reseal hb := hb

/-- The snapshots of all blocks are backed. -/
theorem Reached.backed (h : Reached R rules s) (hb : s.Has b) :
    b.skeleton.world.Backed s.archive :=
  ((h.each inherited_backed fun _ _ => trivial).of_has hb).elim fun _ hb => hb

/-- An attempt that fails touches no store that was there before. -/
theorem Reached.untouched_of_error (h : Reached R rules s) (hx : s.Allows R x)
    {e : BlockError ⊕ RequestError} (hrun : x.run s.chain s.archive = .error e a') :
    s.archive.Untouched a' := by
  refine (Attempt.yields_run (P := fun _ _ => True) trivial (.refl _) ?_ ?_).2 e a' hrun
  · rintro b rfl
    obtain ⟨other, -, hmem⟩ := hx b rfl
    refine ⟨fun _ _ _ => trivial, fun e a' hfail => ?_⟩
    rw [Chain.eq_of_insert_error (h.backed (Or.inl ⟨other, hmem⟩)) hfail]
    exact .refl _
  · intro parent transactions miner timestamp hparent
    refine (Skeleton.yields_build _ parent transactions miner timestamp).imp ?_ fun _ h => h
    rintro skeleton mid ⟨huntouched, hbacked, -⟩
    refine ⟨huntouched, fun nonce => ⟨fun _ _ _ => trivial, fun e a' hfail => ?_⟩⟩
    have hskeleton : skeleton.world.Backed mid :=
      hbacked fun p hp => h.backed (Or.inr (hparent p hp))
    rw [Chain.eq_of_insert_error (b := ⟨skeleton, nonce⟩) hskeleton hfail]
    exact huntouched

/-- Whatever is tried and wherever it fails, a chain that refuses is as it was before, and
so is everything that its blocks read. -/
theorem Reached.unchanged_of_error (h : Reached R rules s) (hx : s.Allows R x)
    {e : BlockError ⊕ RequestError} (hrun : x.run s.chain s.archive = .error e a') :
    (s.after x).archive = a' ∧ s.Unchanged (s.after x) := by
  have huntouched := h.untouched_of_error hx hrun
  rw [after_of_error hrun]
  have hstore : ∀ hash b, s.chain.get? hash = some b →
      b.skeleton.world.store < s.archive.stores.size :=
    fun hash b hget => (h.backed (Or.inr ⟨hash, hget⟩)).lt_size
  refine ⟨rfl, fun _ => rfl, fun _ => rfl, rfl, rfl, fun hash b hget => ?_, ?_⟩
  · exact huntouched.toGrowsTo.layers_eq (hstore hash b hget)
  · intro hash b hget id hid digest
    have hsame := huntouched.get?_eq (Archive.lt_size_of_mem_layers hid) digest
    refine ⟨?_, hsame⟩
    rw [Archive.contains_eq, Archive.contains_eq]
    exact congrArg Option.isSome hsame

/-- A block with a wrong height is built again and then refused. -/
theorem exists_unchanged_of_error :
    ∃ s hash b x e a', Reached Set.univ { difficulty := 1 } s ∧ s.Allows Set.univ x ∧
      s.chain.get? hash = some b ∧ x.run s.chain s.archive = .error e a' ∧
        s.Unchanged (s.after x) := by
  obtain ⟨skeleton, a, stored, a', hbuild, hcommit, hreached, hprev, hcol⟩ :=
    exists_reached_first (Set.mem_univ _)
  obtain ⟨-, -, hminer, htimestamp⟩ := Skeleton.asked_of_build hbuild
  obtain ⟨again, mid, hagain, hcontent⟩ :=
    Skeleton.exists_build_again hbuild (Block.content_of_commit hcommit).1 hcol
  let wrong : SkeletonHeader := { skeleton.header with height := skeleton.header.height + 1 }
  have hwrong : again.header ≠ wrong := by
    intro heq
    have hheight : skeleton.header.height = skeleton.header.height + 1 :=
      (congrArg (·.1.height) hcontent).symm.trans (congrArg (·.height) heq)
    simp at hheight
  let s : Stage := ⟨a', [({ difficulty := 1 }, ⟨skeleton, Blob.zero⟩)],
    (Chain.empty { difficulty := 1 }).add stored.hash stored⟩
  let cause := BlockError.headerMismatch (Record.hash wrong) (Record.hash again.header)
  have hrebuild : s.chain.rebuild ⟨Blob.zero, wrong⟩ [] a' = .error cause mid := by
    have hparent : s.chain.parent wrong.prevBlockHash = .ok none := by
      rw [Chain.parent, if_pos hprev]
    have hbuilt : Skeleton.build s.chain.rules none [] wrong.minerAddress wrong.timestamp a' =
        .ok again mid := by
      rw [← hagain, ← hminer, ← htimestamp]
      rfl
    refine (bind_of_ok (ofExcept_eq_ok.mpr ⟨hparent, rfl⟩)).trans ((bind_of_ok hbuilt).trans ?_)
    rw [if_pos hwrong]
    rfl
  have hrun : (Attempt.receive ⟨Blob.zero, wrong⟩ []).run s.chain s.archive =
      .error (.inl cause) mid :=
    bind_of_error (adaptExcept_eq_error.mpr ⟨cause, bind_of_error hrebuild, rfl⟩)
  have hallowed : s.Allows Set.univ (.receive ⟨Blob.zero, wrong⟩ []) := fun b hb => by cases hb
  exact ⟨s, stored.hash, stored, _, _, mid, hreached, hallowed,
    Chain.get?_add_self .., hrun, (hreached.unchanged_of_error hallowed hrun).2⟩

end Stage

end ScriptLedger
