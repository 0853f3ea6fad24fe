import ScriptLedger.Proofs.Chain.First

/-!
# Ancestors

A block names its parent, and counts height and work on from it.  It counts on from the
block that it was built on, though, and not from the one that a chain finds under the
name; these are the same as far as their headers go, if no two headers have one digest.

That following the parents ends is not written in any of them.  It ends because a block is
added after its parent: `Chain.Lineage` is the list that a block is added with, it has as
many blocks as the height says, and no chain has a height that is greater than its size.

## Main results

* `Skeleton.succeeds_of_build` — how a block counts on from its parent.
* `Chain.Lineage.walks` — the lineage of a block is what following the parents gives.
* `Stage.Reached.ancestors_sound` — what `ancestors` lists.
-/

namespace ScriptLedger

open Sequencing

variable {R : Set Rules} {rules : Rules} {s : Stage} {H : Block → Prop}
variable {a a' : Archive} {c c' : Chain} {b x y : Block} {p q : Option Block} {hash : Hash}
variable {l : List Block}

/-! ## Counting on -/

/-- The block comes right after its parent, or is a first one. -/
structure Block.Succeeds (parent : Option Block) (b : Block) : Prop where
  prev : b.prevBlockHash = parent.elim Blob.zero Block.hash
  height : b.height.toNat = parent.elim 0 (·.height.toNat) + 1
  work : b.accumulatedDifficulty.toNat =
    b.skeleton.header.difficulty.toNat + parent.elim 0 (·.accumulatedDifficulty.toNat)

namespace Skeleton

theorem counter_eq_ok {m n sum : UInt64} (h : counter m n = .ok sum) :
    sum.toNat = m.toNat + n.toNat := by
  unfold counter at h
  cases hsum : Word.unsigned? (m.toNat + n.toNat) with
  | none => rw [hsum] at h; cases h
  | some word =>
      rw [hsum] at h
      cases h
      have hvalue := Word.unsigned?_eq_some_iff.mp hsum
      omega

/-- A block with the place that a parent gives to it comes right after this parent. -/
theorem succeeds_of_position {place : Hash × UInt64 × UInt64}
    (h : position b.skeleton.header.difficulty p = .ok place) (hprev : b.prevBlockHash = place.1)
    (hheight : b.height = place.2.1) (hwork : b.accumulatedDifficulty = place.2.2) :
    b.Succeeds p := by
  cases p with
  | none =>
      cases h
      exact ⟨hprev, congrArg UInt64.toNat hheight, congrArg UInt64.toNat hwork⟩
  | some parent =>
      obtain ⟨height, hcounted, h⟩ := except_bind_eq_ok.mp h
      obtain ⟨work, hsum, h⟩ := except_bind_eq_ok.mp h
      cases h
      refine ⟨hprev, (congrArg UInt64.toNat hheight).trans (counter_eq_ok hcounted), ?_⟩
      rw [hwork, Nat.add_comm]
      exact counter_eq_ok hsum

/-- A block that was built counts on from the block that it was built on. -/
theorem succeeds_of_build {transactions : List Transaction} {miner nonce : Hash}
    {timestamp : UInt64} {skeleton : Skeleton}
    (h : build rules p transactions miner timestamp a = .ok skeleton a') :
    Block.Succeeds p ⟨skeleton, nonce⟩ := by
  obtain ⟨start, mid, world, txTrie, place, -, -, hplace, rfl⟩ := build_eq_ok_iff.mp h
  exact succeeds_of_position hplace rfl rfl rfl

end Skeleton

namespace Block.Succeeds

theorem of_header (h : x.Succeeds p) (hxy : x.skeleton.header = y.skeleton.header) :
    y.Succeeds p := by
  refine ⟨?_, ?_, ?_⟩
  · rw [← h.prev, prevBlockHash, prevBlockHash, hxy]
  · rw [← h.height, Block.height, Block.height, hxy]
  · rw [← hxy, ← h.work, accumulatedDifficulty, accumulatedDifficulty, hxy]

/-- Only the header of the parent matters. -/
theorem of_parent_header (h : b.Succeeds (some x)) (hxy : x.header = y.header) :
    b.Succeeds (some y) := by
  have hskeleton : x.skeleton.header = y.skeleton.header := congrArg (·.skeleton) hxy
  refine ⟨h.prev.trans (congrArg Record.hash hxy), ?_, ?_⟩
  · rw [h.height, Option.elim, Option.elim, Block.height, Block.height, hskeleton]
  · rw [h.work, Option.elim, Option.elim, accumulatedDifficulty, accumulatedDifficulty, hskeleton]

/-- A block and its parent have two headers. -/
theorem header_ne (h : b.Succeeds (some x)) : x.header ≠ b.header := by
  intro heq
  have hheight : b.height.toNat = x.height.toNat + 1 := h.height
  have hsame : x.height = b.height := congrArg (·.skeleton.height) heq
  rw [hsame] at hheight
  exact absurd hheight (Nat.ne_of_lt (Nat.lt_succ_self _))

end Block.Succeeds

/-- Every block counts on from the block that it was built on. -/
theorem Stage.inherited_succeeds : Inherited H fun _ _ b =>
    ∃ q, b.Succeeds q ∧ ∀ p, q = some p → H p where
  build hparent hbuild :=
    ⟨_, Skeleton.succeeds_of_build hbuild, fun p hp => (hparent p hp).1⟩
  grow _ hb := hb
  commit hcommit := by
    rintro ⟨q, hb, hq⟩
    have hcontent := (Block.content_of_commit hcommit).2
    exact ⟨q, hb.of_header (Block.skeletonHeader_of_content hcontent).symm, hq⟩
  reseal := fun ⟨q, hb, hq⟩ => ⟨q, hb.of_header rfl, hq⟩

namespace Chain

/-! ## Following the parents -/

/-- What following the parents from a name on comes to, if it comes to an end. -/
inductive Walks (c : Chain) : Hash → List Block → Prop
  | stop {hash : Hash} (hget : c.get? hash = none) : Walks c hash []
  | step {hash : Hash} {b : Block} {l : List Block} (hget : c.get? hash = some b)
      (hrest : Walks c b.prevBlockHash l) : Walks c hash (b :: l)

theorem Walks.walk_eq (h : c.Walks hash l) {left : Nat} (hleft : l.length ≤ left) :
    c.walk left hash = l := by
  induction h generalizing left with
  | stop hget =>
      cases left with
      | zero => rfl
      | succ left => rw [walk, hget]
  | step hget hrest ih =>
      cases left with
      | zero => simp at hleft
      | succ left =>
          rw [walk, hget]
          exact congrArg (List.cons _) (ih (Nat.le_of_succ_le_succ hleft))

/-- A block with all of its ancestors, newest first. -/
inductive Lineage (c : Chain) : Block → List Block → Prop
  | first {b : Block} (hget : c.get? b.hash = some b) (hb : b.Succeeds none) : Lineage c b [b]
  | next {b p : Block} {l : List Block} (hget : c.get? b.hash = some b)
      (hparent : c.get? b.prevBlockHash = some p) (hb : b.Succeeds (some p))
      (hl : Lineage c p l) : Lineage c b (b :: l)

namespace Lineage

theorem mono (h : c.Lineage b l) (hextends : c.Extends c') : c'.Lineage b l := by
  induction h with
  | first hget hb => exact .first (hextends.get? _ _ hget) hb
  | next hget hparent hb _ ih =>
      exact .next (hextends.get? _ _ hget) (hextends.get? _ _ hparent) hb ih

theorem head?_eq (h : c.Lineage b l) : l.head? = some b := by
  cases h <;> rfl

theorem get?_of_mem (h : c.Lineage b l) : ∀ x ∈ l, c.get? x.hash = some x := by
  induction h with
  | first hget _ => exact List.forall_mem_singleton.mpr hget
  | next hget _ _ _ ih => exact List.forall_mem_cons.mpr ⟨hget, ih⟩

/-- There are as many blocks as the height says. -/
theorem length_eq (h : c.Lineage b l) : l.length = b.height.toNat := by
  induction h with
  | first _ hb => exact hb.height.symm
  | next _ _ hb _ ih =>
      rw [List.length_cons, ih]
      exact hb.height.symm

theorem work_eq (h : c.Lineage b l) :
    b.accumulatedDifficulty.toNat = (l.map (·.skeleton.header.difficulty.toNat)).sum := by
  induction h with
  | first _ hb => exact hb.work
  | next _ _ hb _ ih =>
      rw [List.map_cons, List.sum_cons, ← ih]
      exact hb.work

theorem exists_first (h : c.Lineage b l) :
    ∃ first, l.getLast? = some first ∧ first.prevBlockHash = Blob.zero ∧ first.height = 1 := by
  induction h with
  | first _ hb => exact ⟨_, rfl, hb.prev, UInt64.toNat_inj.mp hb.height⟩
  | next _ _ _ hl ih =>
      obtain ⟨first, hlast, hfirst⟩ := ih
      refine ⟨first, ?_, hfirst⟩
      rw [List.getLast?_cons, hlast]
      rfl

/-- Each block is followed by the one that it names, one lower. -/
theorem isChain (h : c.Lineage b l) :
    l.IsChain fun x y => c.get? x.prevBlockHash = some y ∧ x.height.toNat = y.height.toNat + 1 := by
  induction h with
  | first _ _ => exact .singleton _
  | next _ hparent hb hl ih =>
      refine List.isChain_cons.mpr ⟨fun y hy => ?_, ih⟩
      rw [hl.head?_eq] at hy
      cases hy
      exact ⟨hparent, hb.height⟩

/-- The lineage of a block is what following the parents gives. -/
theorem walks (h : c.Lineage b l) (hzero : c.get? Blob.zero = none) : c.Walks b.hash l := by
  induction h with
  | first hget hb =>
      refine .step hget (.stop ?_)
      rw [hb.prev]
      exact hzero
  | next hget _ hb _ ih =>
      refine .step hget ?_
      rw [hb.prev]
      exact ih

end Lineage

/-! ## Rooted chains -/

/-- Blocks lie under their names, zero is none of these, every block has a lineage, and none
is higher than there are blocks. -/
structure Rooted (c : Chain) : Prop where
  named : ∀ hash b, c.get? hash = some b → b.hash = hash
  nonzero : c.get? Blob.zero = none
  lineage : ∀ hash b, c.get? hash = some b → ∃ l, c.Lineage b l
  height_le : ∀ hash b, c.get? hash = some b → b.height.toNat ≤ c.size

theorem rooted_empty (rules : Rules) : (Chain.empty rules).Rooted := by
  have hnone : ∀ hash b, (Chain.empty rules).get? hash ≠ some b := by simp
  exact ⟨fun _ _ h => absurd h (hnone _ _), Option.eq_none_iff_forall_ne_some.mpr (hnone _),
    fun _ _ h => absurd h (hnone _ _), fun _ _ h => absurd h (hnone _ _)⟩

theorem size_add (hnew : c.contains hash = false) : (c.add hash b).size = c.size + 1 := by
  unfold size add
  rw [Std.TreeMap.size_insert, if_neg]
  rw [← Bool.not_eq_true] at hnew
  exact hnew

/-- A block that comes right after its parent keeps the chain rooted. -/
theorem Rooted.add (hc : c.Rooted) (hnew : c.contains b.hash = false)
    (hzero : b.hash ≠ Blob.zero) (hparent : c.parent b.prevBlockHash = .ok p)
    (hb : b.Succeeds p) : (c.add b.hash b).Rooted := by
  have hextends := Extends.add hnew b
  have hget := c.get?_add_self b.hash b
  have hown : (∃ l, (c.add b.hash b).Lineage b l) ∧ b.height.toNat ≤ c.size + 1 := by
    cases p with
    | none => exact ⟨⟨_, .first hget hb⟩, by rw [hb.height]; exact Nat.le_add_left 1 _⟩
    | some x =>
        have hx := parent_eq_some hparent
        obtain ⟨l, hl⟩ := hc.lineage _ x hx
        refine ⟨⟨_, .next hget (hextends.get? _ _ hx) hb (hl.mono hextends)⟩, ?_⟩
        rw [hb.height]
        exact Nat.succ_le_succ (hc.height_le _ x hx)
  refine ⟨fun hash other hother => ?_, ?_, fun hash other hother => ?_, fun hash other hother => ?_⟩
  · rcases get?_add_cases hother with ⟨rfl, rfl⟩ | hother
    · rfl
    · exact hc.named hash other hother
  · rw [get?_add_eq, if_neg (Ne.symm hzero)]
    exact hc.nonzero
  · rcases get?_add_cases hother with ⟨rfl, rfl⟩ | hother
    · exact hown.1
    · obtain ⟨l, hl⟩ := hc.lineage hash other hother
      exact ⟨l, hl.mono hextends⟩
  · rw [size_add hnew]
    rcases get?_add_cases hother with ⟨rfl, rfl⟩ | hother
    · exact hown.2
    · exact Nat.le_succ_of_le (hc.height_le hash other hother)

namespace Rooted

theorem ne_zero (hc : c.Rooted) (hget : c.get? hash = some b) : hash ≠ Blob.zero := by
  rintro rfl
  rw [hc.nonzero] at hget
  cases hget

/-- The parents of all blocks are there. -/
theorem exists_parent (hc : c.Rooted) (hget : c.get? hash = some b) :
    ∃ p, c.parent b.prevBlockHash = .ok p := by
  obtain ⟨l, hl⟩ := hc.lineage hash b hget
  cases hl with
  | first _ hb => exact ⟨none, by rw [hb.prev]; exact c.parent_zero⟩
  | next _ hparent _ _ => exact ⟨_, parent_of_get? hparent (hc.ne_zero hparent)⟩

/-- In a rooted chain, following the parents of a block ends, and `ancestors` does not stop
before that. -/
theorem lineage_ancestors (hc : c.Rooted) (hget : c.get? hash = some b) :
    b.hash = hash ∧ c.Lineage b (c.ancestors hash) ∧ c.Walks hash (c.ancestors hash) := by
  have hname := hc.named hash b hget
  obtain ⟨l, hl⟩ := hc.lineage hash b hget
  have hwalks : c.Walks hash l := hname ▸ hl.walks hc.nonzero
  have hall : c.ancestors hash = l := by
    refine hwalks.walk_eq ?_
    rw [hl.length_eq]
    exact hc.height_le hash b hget
  rw [hall]
  exact ⟨hname, hl, hwalks⟩

end Rooted

end Chain

/-! ## Every chain there can be -/

namespace Stage

/-- The headers of all blocks that were built or accepted. -/
def headers (s : Stage) : Set BlockHeader := {header | ∃ b, s.Has b ∧ b.header = header}

/-- No two headers have the same digest, and no digest of a header is zero. -/
structure Distinct (s : Stage) : Prop where
  injOn : s.headers.InjOn Record.hash
  nonzero : ∀ header ∈ s.headers, Record.hash header ≠ Blob.zero

/-- A block comes right after the one that a chain has for its parent, because this has the
header of the one that it was built on. -/
theorem Distinct.succeeds (hs : s.Distinct) (hc : c.Rooted)
    (hknown : ∀ hash x, c.get? hash = some x → x.header ∈ s.headers) (hb : b.Succeeds q)
    (hq : ∀ x, q = some x → x.header ∈ s.headers) (hparent : c.parent b.prevBlockHash = .ok p) :
    b.Succeeds p := by
  cases q with
  | none =>
      rw [hb.prev, Option.elim, Chain.parent_zero] at hparent
      cases hparent
      exact hb
  | some x =>
      have hx := hq x rfl
      rw [hb.prev] at hparent
      obtain ⟨y, rfl, hy⟩ := Chain.exists_of_parent hparent (hs.nonzero _ hx)
      exact hb.of_parent_header (hs.injOn hx (hknown _ y hy) (hc.named _ y hy).symm)

/-- What is true of a chain without blocks and stays true when a block is added right after
its parent is true of the chain of every stage. -/
theorem Reached.rooted_invariant {I : Chain → Prop} (h : Reached R rules s) (hs : s.Distinct)
    (hempty : I (Chain.empty rules))
    (hadd : ∀ {c b p}, c.Rooted → c.contains b.hash = false → c.parent b.prevBlockHash = .ok p →
      b.Succeeds p → I c → I (c.add b.hash b)) : s.chain.Rooted ∧ I s.chain := by
  refine h.chain_invariant (H := fun b => b.header ∈ s.headers) (I := fun _ c => c.Rooted ∧ I c)
    inherited_succeeds (fun b hb => ⟨b, hb, rfl⟩) ⟨Chain.rooted_empty rules, hempty⟩
    (fun _ hc => hc) ?_
  rintro a c other b - - ⟨q, hb, hq⟩ hhas hknown hgains ⟨hc, hI⟩
  obtain ⟨p, hparent⟩ := hgains.parent
  have hsucceeds := hs.succeeds hc hknown hb hq hparent
  exact ⟨hc.add hgains.new (hs.nonzero _ hhas) hparent hsucceeds,
    hadd hc hgains.new hparent hsucceeds hI⟩

theorem Reached.rooted (h : Reached R rules s) (hs : s.Distinct) : s.chain.Rooted :=
  (h.rooted_invariant (I := fun _ => True) hs trivial fun _ _ _ _ _ => trivial).1

/-- The ancestors of a block of any chain: the list begins with the block, goes on with the
parent that each names, and ends at a first block.  It has as many blocks as the height
says, and their difficulties sum up to the work. -/
theorem Reached.ancestors_sound (h : Reached R rules s) (hs : s.Distinct)
    (hget : s.chain.get? hash = some b) :
    b.hash = hash ∧ s.chain.Walks hash (s.chain.ancestors hash) ∧
      (s.chain.ancestors hash).head? = some b ∧
      (∃ first, (s.chain.ancestors hash).getLast? = some first ∧
        first.prevBlockHash = Blob.zero ∧ first.height = 1) ∧
      ((s.chain.ancestors hash).IsChain fun x y =>
        s.chain.get? x.prevBlockHash = some y ∧ x.height.toNat = y.height.toNat + 1) ∧
      (s.chain.ancestors hash).length = b.height.toNat ∧
      b.accumulatedDifficulty.toNat =
        ((s.chain.ancestors hash).map (·.skeleton.header.difficulty.toNat)).sum := by
  obtain ⟨hname, hl, hwalks⟩ := (h.rooted hs).lineage_ancestors hget
  exact ⟨hname, hwalks, hl.head?_eq, hl.exists_first, hl.isChain, hl.length_eq, hl.work_eq⟩

/-- If all blocks are one, there is only one header, and its digest has been computed. -/
theorem Single.distinct (h : s.Single b) : s.Distinct := by
  have honly : ∀ header ∈ s.headers, header = b.header := by
    rintro header ⟨x, hx, rfl⟩
    exact Block.header_of_content (h.only x hx)
  refine ⟨fun x hx y hy _ => (honly x hx).trans (honly y hy).symm, fun header hmem => ?_⟩
  rw [honly header hmem]
  exact h.hash_ne_zero

/-- The first block is its only ancestor. -/
theorem exists_ancestors_sound :
    ∃ s b, Reached Set.univ { difficulty := 1 } s ∧ s.Distinct ∧
      s.chain.get? b.hash = some b ∧ s.chain.Walks b.hash (s.chain.ancestors b.hash) ∧
      (s.chain.ancestors b.hash).length = b.height.toNat := by
  obtain ⟨s, b, hreached, hsingle⟩ := exists_single (Set.mem_univ _)
  obtain ⟨-, hwalks, -, -, -, hlength, -⟩ :=
    hreached.ancestors_sound hsingle.distinct hsingle.get?
  exact ⟨s, b, hreached, hsingle.distinct, hsingle.get?, hwalks, hlength⟩

end Stage

end ScriptLedger
