import ScriptLedger.Proofs.Chain.Ancestry
import ScriptLedger.Proofs.World.Supply

/-!
# Blocks can be checked again at any time

A block of a chain was built on the parent that the chain has for it, or on another one with
the same name, and its records were copied to a store that many blocks share.  Whatever has
happened since, all of its accounts can be read, and building it again on its parent gives
the same block.

The parent that a block was built on may come from anywhere; it may even have been built by
other rules.  If it has the header of the one that the chain has, it is the same block,
because a header commits to the accounts and to the transactions.

## Main results

* `Block.Recorded.content_eq` — a header commits to the content of a block.
* `Stage.Reached.sound` — each block of a chain was built on the parent that the chain has.
* `Stage.Reached.revalidates` — a block that was accepted can be checked at any later time.
-/

namespace ScriptLedger

open Sequencing

variable {K : Digested} {R : Set Rules} {rules other : Rules} {s : Stage} {H : Block → Prop}
variable {a a' : Archive} {c : Chain} {b x y : Block} {p q : Option Block} {hash : Hash}

/-! ## What a header commits to -/

/-- The header has the roots of the tries, and these are as updates form them. -/
structure Block.Committed (b : Block) : Prop where
  tabled : b.skeleton.Tabled
  formed : b.skeleton.world.trie.Formed
  root : b.skeleton.header.stateRoot = b.skeleton.world.rootHash

/-- All digests that a block and its tries were given are among the ones that were taken. -/
structure Block.Recorded (K : Digested) (b : Block) : Prop extends Block.Within K b,
    Block.Committed b where
  states : ∀ hashes, b.skeleton.world.trie.root.Digests hashes → hashes ∈ K.branches

namespace Block

theorem Recorded.of_part {L : Digested} (hKL : K.Part L) (h : b.Recorded K) : b.Recorded L :=
  { toCommitted := h.toCommitted
    header := hKL.headers h.header
    transactions := fun tx htx => hKL.transactions (h.transactions tx htx)
    branches := fun hashes hdigests => hKL.branches (h.branches hashes hdigests)
    states := fun hashes hdigests => hKL.branches (h.states hashes hdigests) }

theorem Committed.of_content (h : x.Committed) (hxy : x.content = y.content) : y.Committed where
  tabled := h.tabled.of_content (congrArg Prod.fst hxy)
  formed := trie_of_content hxy ▸ h.formed
  root := by
    rw [World.rootHash, ← trie_of_content hxy, ← skeletonHeader_of_content hxy]
    exact h.root

/-- Two blocks with one header are the same. -/
theorem Recorded.content_eq (hK : K.Faithful) (hx : x.Recorded K) (hy : y.Recorded K)
    (h : x.header = y.header) : x.content = y.content := by
  have hheader : x.skeleton.header = y.skeleton.header := congrArg (·.skeleton) h
  have hnonce : x.nonce = y.nonce := congrArg (·.nonce) h
  obtain ⟨htransactions, htxTrie⟩ := hx.tabled.transactions_eq hK hy.tabled hx.toWithin hy.toWithin
    (congrArg (·.txRoot) hheader)
  have htrie : x.skeleton.world.trie = y.skeleton.world.trie := by
    refine Trie.eq_of_rootHash_eq hx.formed hy.formed hK.branches hK.nonzero hx.states hy.states ?_
    rw [← World.rootHash, ← World.rootHash, ← hx.root, ← hy.root, hheader]
  rw [content, content, Skeleton.content, Skeleton.content, hheader, htransactions, htxTrie, htrie,
    hnonce]

end Block

namespace Stage

theorem inherited_committed : Inherited H fun _ _ b => b.Committed where
  build hparent hbuild := by
    refine ⟨Skeleton.tabled_of_build hbuild, ?_, ?_⟩
    · refine ((Skeleton.yields_build _ _ _ _ _).1 _ _ hbuild).2.2 fun p hp => ?_
      obtain ⟨-, -, hparent⟩ := hparent p hp
      exact hparent.formed
    · obtain ⟨_, _, _, _, _, -, -, -, rfl⟩ := Skeleton.build_eq_ok_iff.mp hbuild
      rfl
  grow _ hb := hb
  commit hcommit hb := hb.of_content (Block.content_of_commit hcommit).2.symm
  reseal hb := ⟨hb.tabled, hb.formed, hb.root⟩

/-! ## Where blocks come from -/

/-- The block was built by the given rules, on a block that is as `H` says. -/
structure Sprung (K : Digested) (H : Block → Prop) (rules : Rules) (b : Block)
    (q : Option Block) : Prop where
  succeeds : b.Succeeds q
  parent : ∀ p, q = some p → H p
  built : ∀ nonce, Block.Within K ⟨b.skeleton, nonce⟩ → Block.Built K rules q ⟨b.skeleton, nonce⟩

theorem inherited_sprung (hK : K.Faithful) : Inherited H fun a rules b =>
    a.Within K.accounts → b.Stored a ∧ ∃ q, Sprung K H rules b q where
  build := by
    intro a a' rules parent transactions miner timestamp skeleton nonce hparent hbuild ha'
    have ha := ha'.of_growsTo (Skeleton.growsTo_of_build hbuild)
    have hstored : ∀ p, parent = some p → p.Stored a := fun p hp =>
      (hparent p hp).2.elim fun _ hp => (hp ha).1
    exact ⟨Skeleton.stored_of_build hK.accounts hbuild ha' hstored, parent,
      Skeleton.succeeds_of_build hbuild, fun p hp => (hparent p hp).1,
      fun _ => Block.built_of_build hbuild ha' hstored⟩
  grow hgrows hb ha' := by
    obtain ⟨hstored, hsprung⟩ := hb (ha'.of_growsTo hgrows)
    exact ⟨World.Stored.growsTo hstored hgrows, hsprung⟩
  commit := by
    intro a a' rules b stored hcommit hb ha'
    obtain ⟨hgrows, hcontent⟩ := Block.content_of_commit hcommit
    have ha := ha'.of_growsTo hgrows
    obtain ⟨hstored, q, hq⟩ := hb ha
    obtain ⟨_, _, hdone, -, hthere⟩ := Block.commit_stored hK.accounts ha hstored
    rw [hcommit] at hdone
    cases hdone
    refine ⟨hthere, q, hq.succeeds.of_header (Block.skeletonHeader_of_content hcontent).symm,
      hq.parent, fun nonce hwithin => ?_⟩
    have hsame : Block.content ⟨stored.skeleton, nonce⟩ = Block.content ⟨b.skeleton, nonce⟩ :=
      congrArg (·.1, nonce) hcontent
    exact (hq.built nonce (hwithin.of_content hsame)).of_content hsame.symm rfl
  reseal := by
    intro a rules b nonce hb ha
    obtain ⟨hstored, q, hq⟩ := hb ha
    exact ⟨hstored, q, hq.succeeds.of_header rfl, hq.parent, hq.built⟩

/-- A block was built on the one that the chain has for its parent. -/
theorem Sprung.exists_parent (hK : K.Faithful) (hc : c.Sound K a)
    (hknown : ∀ hash x, c.get? hash = some x → x.Recorded K)
    (hb : Sprung K (Block.Recorded K) rules b q) (hwithin : b.Within K)
    (hparent : c.parent b.prevBlockHash = .ok p) : b.Built K rules p := by
  have hbuilt : b.Built K rules q := hb.built b.nonce hwithin
  cases q with
  | none =>
      rw [hb.succeeds.prev, Option.elim, Chain.parent_zero] at hparent
      cases hparent
      exact hbuilt
  | some x =>
      have hx := hb.parent x rfl
      rw [hb.succeeds.prev] at hparent
      -- Only one header may have the digest zero, and a block and its parent have two.
      have hzero : x.hash ≠ Blob.zero := hK.named hx.header hwithin.header hb.succeeds.header_ne
      obtain ⟨y, rfl, hy⟩ := Chain.exists_of_parent hparent hzero
      have hyK := hknown _ y hy
      have hheader : x.header = y.header :=
        hK.headers hx.header hyK.header (hc.named _ y hy).symm
      exact hbuilt.of_content rfl (congrArg some (hx.content_eq hK hyK hheader))

/-- What digests were taken of on a stage: the accounts that were given to the stores, the
headers and the transactions of all blocks, and the branches of their tries. -/
def digested (s : Stage) : Digested where
  accounts := {account | account ∈ s.archive.journal}
  headers := s.headers
  transactions := {tx | ∃ b, s.Has b ∧ tx ∈ b.skeleton.transactions}
  branches := {hashes | ∃ b, s.Has b ∧ (b.skeleton.txTrie.root.Digests hashes ∨
    b.skeleton.world.trie.root.Digests hashes)}

theorem Reached.recorded (h : Reached R rules s) (hb : s.Has b) : b.Recorded s.digested := by
  obtain ⟨-, hcommitted⟩ :=
    (h.each (inherited_committed (H := fun _ => True)) fun _ _ => trivial).of_has hb
  exact
    { header := ⟨b, hb, rfl⟩
      transactions := fun tx htx => ⟨b, hb, htx⟩
      branches := fun hashes hdigests => ⟨b, hb, Or.inl hdigests⟩
      states := fun hashes hdigests => ⟨b, hb, Or.inr hdigests⟩
      tabled := hcommitted.tabled
      formed := hcommitted.formed
      root := hcommitted.root }

/-- Each block of a chain was built on the parent that the chain has for it, and its records
lie in a store of their own. -/
theorem Reached.sound (h : Reached {rules} rules s) (hK : K.Faithful) (hs : s.digested.Part K) :
    s.chain.Sound K s.archive ∧ ∀ hash b, s.chain.get? hash = some b →
      s.archive.isOverlay b.skeleton.world.store = false := by
  refine h.chain_invariant (H := Block.Recorded K)
    (I := fun a c => a.Within K.accounts → c.Sound K a ∧
      ∀ hash b, c.get? hash = some b → a.isOverlay b.skeleton.world.store = false)
    (inherited_sprung hK) (fun b hb => (h.recorded hb).of_part hs) ?_ ?_ ?_ hs.accounts
  · refine fun _ => ⟨.empty _ _ _, fun hash b hget => ?_⟩
    simp at hget
  · intro a a' c hgrows hc ha'
    obtain ⟨hsound, hbare⟩ := hc (ha'.of_growsTo hgrows)
    refine ⟨hsound.growsTo hgrows, fun hash b hget => ?_⟩
    rw [hgrows.isOverlay_eq (hsound.stored hash b hget).lt_size]
    exact hbare hash b hget
  · intro a c other b hrules hother hb hrecorded hknown hgains hc ha
    obtain rfl : other = rules := hother.elim id id
    obtain ⟨hsound, hbare⟩ := hc ha
    obtain ⟨hstored, q, hq⟩ := hb ha
    obtain ⟨p, hparent⟩ := hgains.parent
    have hbuilt := hq.exists_parent hK hsound hknown hrecorded.toWithin hparent
    rw [← hrules] at hbuilt
    refine ⟨hsound.add hgains.new hgains.worked hstored hparent hbuilt, fun hash x hget => ?_⟩
    rcases Chain.get?_add_cases hget with ⟨-, rfl⟩ | hget
    · exact hgains.bare
    · exact hbare hash x hget

/-- Whatever has happened since a block was accepted, its accounts can be read, each at its
address, from a store that is no overlay; its header has the roots of its tries and its
name, which meets the target; and building it again on its parent gives the same block. -/
theorem Reached.revalidates (h : Reached {rules} rules s) (hs : s.digested.Faithful)
    (hget : s.chain.get? hash = some b) :
    (∃ accounts, b.skeleton.world.accounts s.archive = .ok accounts ∧
      (accounts.map fun account => (account.address, Record.hash account)) =
        b.skeleton.world.trie.leaves) ∧
    s.archive.isOverlay b.skeleton.world.store = false ∧
    b.skeleton.world.rootHash = b.skeleton.header.stateRoot ∧
    b.skeleton.txTrie.rootHash = b.skeleton.header.txRoot ∧
    Record.hash b.header = hash ∧ b.meetsTarget = true ∧
    ∃ p skeleton a', s.chain.parent b.prevBlockHash = .ok p ∧
      Skeleton.build rules p b.skeleton.transactions b.skeleton.header.minerAddress
        b.skeleton.header.timestamp s.archive = .ok skeleton a' ∧
      skeleton.content = b.skeleton.content ∧ skeleton.header = b.skeleton.header := by
  obtain ⟨hsound, hbare⟩ := h.sound hs (.refl _)
  have hrecorded := h.recorded (Or.inr ⟨hash, hget⟩)
  obtain ⟨accounts, haccounts, hleaves, -⟩ :=
    World.accounts_eq_ok (hsound.stored hash b hget).wellFormed
  obtain ⟨p, hparent, hbuilt⟩ := hsound.built hash b hget
  obtain ⟨skeleton, a', hbuild, -, -, hcontent⟩ :=
    hbuilt.build hs (fun _ hmem => hmem) (hsound.stored_parent hparent)
  rw [h.rules_eq] at hbuild
  exact ⟨⟨accounts, haccounts, hleaves⟩, hbare hash b hget, hrecorded.root.symm,
    hrecorded.tabled.root.symm, hsound.named hash b hget, hsound.worked hash b hget, p, skeleton,
    a', hparent, hbuild, hcontent, congrArg Prod.fst hcontent⟩

/-- If all blocks are one without transactions over the first state, the digests of all that
was digested are known to be different. -/
theorem Single.faithful (h : s.Single b) : s.digested.Faithful := by
  have hskeleton : ∀ x, s.Has x → x.skeleton.transactions = [] ∧ x.skeleton.txTrie = Trie.empty ∧
      x.skeleton.world.trie = Genesis.trie := by
    intro x hx
    have hcontent := (congrArg Prod.fst (h.only x hx)).trans h.content
    simp only [Block.content, Skeleton.content, Prod.mk.injEq] at hcontent
    exact ⟨hcontent.2.1, hcontent.2.2.2, hcontent.2.2.1⟩
  have htransactions : ∀ tx, tx ∉ s.digested.transactions := by
    rintro tx ⟨x, hx, hmem⟩
    rw [(hskeleton x hx).1] at hmem
    exact absurd hmem List.not_mem_nil
  have hbranches : ∀ hashes ∈ s.digested.branches, Genesis.trie.root.Digests hashes := by
    rintro hashes ⟨x, hx, hdigests | hdigests⟩
    · rw [(hskeleton x hx).2.1] at hdigests
      cases hdigests
    · rwa [(hskeleton x hx).2.2] at hdigests
  have honly : ∀ x ∈ s.headers, ∀ y ∈ s.headers, x = y := by
    rintro _ ⟨x, hx, rfl⟩ _ ⟨y, hy, rfl⟩
    exact Block.header_of_content ((h.only x hx).trans (h.only y hy).symm)
  obtain ⟨hzero, hnodup⟩ := List.nodup_cons.mp Genesis.nodup_lineHashes
  exact
    { accounts := fun x hx y hy => h.collisionless x hx y hy
      headers := fun x hx y hy _ => honly x hx y hy
      named := fun x hx y hy hne => absurd (honly x hx y hy) hne
      transactions := fun x hx => absurd hx (htransactions x)
      branches := (Node.injOn_digests_line hnodup).mono hbranches
      nonzero := fun hashes hmem heq =>
        hzero (heq ▸ Node.hashOfChildren_mem_lineHashes (hbranches hashes hmem)) }

/-- The first block can be built again on what has been written since. -/
theorem exists_revalidates :
    ∃ s b, Reached { { difficulty := 1 } } { difficulty := 1 } s ∧ s.digested.Faithful ∧
      s.chain.get? b.hash = some b ∧
      ∃ p skeleton a', s.chain.parent b.prevBlockHash = .ok p ∧
        Skeleton.build { difficulty := 1 } p b.skeleton.transactions b.skeleton.header.minerAddress
          b.skeleton.header.timestamp s.archive = .ok skeleton a' ∧
        skeleton.content = b.skeleton.content := by
  obtain ⟨s, b, hreached, hsingle⟩ := exists_single (Set.mem_singleton _)
  obtain ⟨-, -, -, -, -, -, p, skeleton, a', hparent, hbuild, hcontent, -⟩ :=
    hreached.revalidates hsingle.faithful hsingle.get?
  exact ⟨s, b, hreached, hsingle.faithful, hsingle.get?, p, skeleton, a', hparent, hbuild, hcontent⟩

end Stage

end ScriptLedger
