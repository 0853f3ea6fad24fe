import ScriptLedger.Proofs.Peer.Interleaving

/-!
# Mining on the canonical head

A peer mines on the canonical head, which no head has more work than.  What is mined has more
work than that, so it is the canonical head afterwards, and the old one is no head any more.

That anything is added at all is less obvious, because a block that is there already is accepted
too.  It cannot be there: it names a head as its parent, and nothing does that but a first block,
which is too low.  `Chain.Linked` is what this rests on.  It holds however many callers there
were before, and it asks nothing of digests.

## Main results

* `Chain.Linked.add`, `Site.Leads.linked` — the invariant of blocks and heads, for any run.
* `Chain.canonicalHead_add` — a block with more work than the canonical head takes its place.
* `Peer.mining_extends` — what one call adds, and what comes of many.
-/

namespace ScriptLedger

open Digest Sequencing

variable {rules : Rules} {a a' : Archive} {c c' : Chain} {b p x : Block} {hash : Hash}

namespace Chain

/-! ## Blocks and heads -/

/-- Blocks lie under their names and come right after their parents.  Heads are blocks, and there
is one if there is a block; what names a head as its parent is a first block. -/
structure Linked (c : Chain) : Prop where
  named : ∀ hash b, c.get? hash = some b → b.hash = hash
  succeeds : ∀ hash b, c.get? hash = some b →
    ∃ parent, b.Succeeds parent ∧ ∀ p, parent = some p → c.get? b.prevBlockHash = some p
  known : ∀ hash ∈ c.heads, c.contains hash = true
  childless : ∀ hash b, c.get? hash = some b → b.prevBlockHash ∈ c.heads → b.Succeeds none
  headed : ∀ hash b, c.get? hash = some b → ∃ place, place ∈ c.heads

theorem linked_empty (rules : Rules) : (Chain.empty rules).Linked where
  named hash b hget := by simp at hget
  succeeds hash b hget := by simp at hget
  known hash hmem := absurd hmem (by simp [Chain.empty])
  childless hash b hget := by simp at hget
  headed hash b hget := by simp at hget

namespace Linked

/-- A block that comes right after a parent that is there keeps a chain linked. -/
theorem add {parent : Option Block} (hc : c.Linked) (hnew : c.contains b.hash = false)
    (hparent : c.Knows parent) (hb : b.Succeeds parent) : (c.add b.hash b).Linked := by
  have hextends := Extends.add hnew b
  have hunknown : ∀ p, c.get? b.hash ≠ some p := by
    intro p hget
    rw [get?_eq_none hnew] at hget
    cases hget
  have hprev : ∀ p, parent = some p → c.get? b.prevBlockHash = some p := by
    rintro p rfl
    rw [hb.prev]
    exact hparent p rfl
  refine ⟨fun hash x hget => ?_, fun hash x hget => ?_, fun hash hmem => ?_,
    fun hash x hget hmem => ?_, fun _ _ _ => ⟨b.hash, mem_heads_add.mpr (Or.inl rfl)⟩⟩
  · rcases get?_add_cases hget with ⟨rfl, rfl⟩ | hget
    · rfl
    · exact hc.named hash x hget
  · rcases get?_add_cases hget with ⟨rfl, rfl⟩ | hget
    · exact ⟨parent, hb, fun p hp => hextends.get? _ _ (hprev p hp)⟩
    · obtain ⟨q, hx, hq⟩ := hc.succeeds hash x hget
      exact ⟨q, hx, fun p hp => hextends.get? _ _ (hq p hp)⟩
  · rcases mem_heads_add.mp hmem with rfl | ⟨-, hmem⟩
    · exact contains_of_get? (get?_add_self ..)
    · obtain ⟨x, hget⟩ := exists_get? (hc.known hash hmem)
      exact contains_of_get? (hextends.get? _ _ hget)
  · rcases get?_add_cases hget with ⟨rfl, rfl⟩ | hget
    -- The new block does not name itself, since its parent was there before.
    · rcases mem_heads_add.mp hmem with hself | ⟨hne, -⟩
      · cases parent with
        | none => exact hb
        | some p => exact absurd (hself ▸ hprev p rfl) (hunknown p)
      · exact absurd rfl hne
    -- Nor does an old one name the new one.
    · rcases mem_heads_add.mp hmem with hself | ⟨-, hmem⟩
      · obtain ⟨q, hx, hq⟩ := hc.succeeds hash x hget
        cases q with
        | none => exact hx
        | some p => exact absurd (hself ▸ hq p rfl) (hunknown p)
      · exact hc.childless hash x hget hmem

/-- The canonical head is a head. -/
theorem canonicalHead_mem (hc : c.Linked) (hbest : c.canonicalHead = some p) :
    p.hash ∈ c.heads ∧ c.get? p.hash = some p := by
  obtain ⟨place, hplace, hget⟩ := mem_headBlocks.mp (firstHeaviest_canonicalHead hbest).mem
  rw [hc.named place p hget]
  exact ⟨hplace, hget⟩

/-- There is a canonical head just if there is a block. -/
theorem canonicalHead_eq_none_iff (hc : c.Linked) :
    c.canonicalHead = none ↔ ∀ hash, c.get? hash = none := by
  constructor
  · intro hnone hash
    by_contra hsome
    obtain ⟨x, hget⟩ := Option.ne_none_iff_exists'.mp hsome
    obtain ⟨place, hplace⟩ := hc.headed hash x hget
    obtain ⟨y, hy⟩ := exists_get? (hc.known place hplace)
    rcases c.canonicalHead_cases with ⟨-, hnil⟩ | ⟨best, hbest, -⟩
    · exact absurd (mem_headBlocks.mpr ⟨place, hplace, hy⟩) (hnil ▸ List.not_mem_nil)
    · rw [hnone] at hbest
      cases hbest
  · intro hall
    cases hbest : c.canonicalHead with
    | none => rfl
    | some best =>
        rw [← hall best.hash, (hc.canonicalHead_mem hbest).2]

/-- A block on the canonical head is new: if it is there under its name, it names a head as its
parent, so it is a first block, and a block on a head is higher. -/
theorem contains_eq_false (hc : c.Linked) (hb : b.Succeeds c.canonicalHead)
    (hsame : ∀ x, c.get? b.hash = some x → x.header = b.header) : c.contains b.hash = false := by
  by_contra hthere
  obtain ⟨x, hget⟩ := exists_get? (Bool.not_eq_false _ ▸ hthere)
  cases hbest : c.canonicalHead with
  | none =>
      rw [hc.canonicalHead_eq_none_iff.mp hbest] at hget
      cases hget
  | some best =>
      rw [hbest] at hb
      obtain ⟨hhead, hgetbest⟩ := hc.canonicalHead_mem hbest
      have hheader := congrArg (·.skeleton) (hsame x hget)
      have hprev : x.prevBlockHash = best.hash := (congrArg (·.prevBlockHash) hheader).trans hb.prev
      have hfirst : x.height.toNat = 0 + 1 := (hc.childless _ x hget (hprev ▸ hhead)).height
      have hheight : x.height.toNat = best.height.toNat + 1 :=
        (congrArg (·.height.toNat) hheader).trans hb.height
      obtain ⟨q, hq, -⟩ := hc.succeeds _ best hgetbest
      have hpositive := hq.height
      omega

end Linked

/-! ## A heavier block -/

/-- A block with more work than the canonical head takes its place. -/
theorem canonicalHead_add (hnew : c.contains b.hash = false)
    (hheavier : ∀ best, c.canonicalHead = some best →
      best.accumulatedDifficulty < b.accumulatedDifficulty) :
    (c.add b.hash b).canonicalHead = some b := by
  have hmem : b ∈ (c.add b.hash b).headBlocks :=
    mem_headBlocks.mpr ⟨b.hash, mem_heads_add.mpr (Or.inl rfl), get?_add_self ..⟩
  rcases (c.add b.hash b).canonicalHead_cases with ⟨-, hnil⟩ | ⟨best, hbest, hfirst⟩
  · exact absurd hmem (hnil ▸ List.not_mem_nil)
  obtain ⟨place, hplace, hget⟩ := mem_headBlocks.mp hfirst.mem
  rcases get?_add_cases hget with ⟨-, rfl⟩ | hget
  · exact hbest
  -- An old head is not heavier than the old canonical one.
  have hold : best ∈ c.headBlocks := by
    rcases mem_heads_add.mp hplace with rfl | ⟨-, hplace⟩
    · rw [get?_eq_none hnew] at hget
      cases hget
    · exact mem_headBlocks.mpr ⟨place, hplace, hget⟩
  rcases c.canonicalHead_cases with ⟨-, hnil⟩ | ⟨old, hsome, hmost⟩
  · exact absurd hold (hnil ▸ List.not_mem_nil)
  · have hle := UInt64.le_trans (hfirst.le hmem) (hmost.le hold)
    exact absurd (UInt64.lt_of_lt_of_le (hheavier old hsome) hle) (UInt64.lt_irrefl _)

/-! ## One block more -/

theorem isEmpty_iff : c.isEmpty = true ↔ ∀ hash, c.get? hash = none := by
  rw [isEmpty, Std.TreeMap.isEmpty_iff_forall_contains]
  refine forall_congr' fun hash => ?_
  rw [← Option.isNone_iff_eq_none, ← Option.not_isSome, Bool.not_eq_true', ← contains_eq]
  rfl

/-- The second chain has all that the first one has, and one block more, on what was the canonical
head.  The block is the canonical head now, and the old one is no head any more. -/
structure Grows (c : Chain) (b : Block) (c' : Chain) : Prop where
  keeps : c.Extends c'
  new : c.get? b.hash = none
  size : c'.size = c.size + 1
  canonical : ∃ stored, stored.content = b.content ∧ c'.canonicalHead = some stored ∧
    ∀ place, c'.get? place = if place = b.hash then some stored else c.get? place
  succeeds : b.Succeeds c.canonicalHead
  heads : ∀ place, place ∈ c'.heads ↔ place = b.hash ∨
    place ∈ c.heads ∧ ∀ best, c.canonicalHead = some best → place ≠ best.hash
  replaced : ∀ best, c.canonicalHead = some best → best.hash ∈ c.heads ∧ best.hash ∉ c'.heads
  founded : c.canonicalHead = none ↔ c.isEmpty = true

/-- What is built on the canonical head and takes any work is added on top of it. -/
theorem Linked.grows (hc : c.Linked) (hb : b.Succeeds c.canonicalHead)
    (hdifficulty : 1 ≤ b.skeleton.header.difficulty)
    (hsame : ∀ x, c.get? b.hash = some x → x.header = b.header)
    (hinsert : c.insert b a = .ok (c', hash) a') : hash = b.hash ∧ c.Grows b c' := by
  have hnew := hc.contains_eq_false hb hsame
  obtain ⟨-, -, rfl, ⟨hthere, -⟩ | ⟨-, stored, hcommit, rfl⟩⟩ := insert_eq_ok_iff.mp hinsert
  · rw [hnew] at hthere
    cases hthere
  have hcontent := (Block.content_of_commit hcommit).2
  have hhash := Block.hash_of_content hcontent
  have hheader := Block.skeletonHeader_of_content hcontent
  have hstored := hb.of_header hheader.symm
  have hheavier : ∀ best, c.canonicalHead = some best →
      best.accumulatedDifficulty < stored.accumulatedDifficulty := by
    intro best hbest
    rw [hbest] at hstored
    have hwork : stored.accumulatedDifficulty.toNat =
        stored.skeleton.header.difficulty.toNat + best.accumulatedDifficulty.toNat := hstored.work
    rw [hheader] at hwork
    rw [UInt64.lt_iff_toNat_lt]
    rw [UInt64.le_iff_toNat_le, UInt64.toNat_one] at hdifficulty
    omega
  have hheads : ∀ place, place ∈ (c.add b.hash stored).heads ↔ place = b.hash ∨
      place ∈ c.heads ∧ ∀ best, c.canonicalHead = some best → place ≠ best.hash := by
    intro place
    rw [← hhash, mem_heads_add, hstored.prev]
    refine or_congr_right ?_
    cases hbest : c.canonicalHead with
    | none =>
        have hnone : place ∉ c.heads := by
          intro hmem
          obtain ⟨x, hget⟩ := exists_get? (hc.known place hmem)
          rw [hc.canonicalHead_eq_none_iff.mp hbest] at hget
          cases hget
        exact iff_of_false (fun h => hnone h.2) fun h => hnone h.1
    | some best =>
        rw [and_comm]
        simp only [Option.elim, Option.some.injEq, forall_eq']
  refine ⟨rfl, Extends.add hnew stored, get?_eq_none hnew, size_add hnew, ?_, hb, hheads,
    fun best hbest => ⟨(hc.canonicalHead_mem hbest).1, ?_⟩, ?_⟩
  · refine ⟨stored, hcontent, ?_, get?_add_eq c b.hash stored⟩
    rw [← hhash] at hnew ⊢
    exact canonicalHead_add hnew hheavier
  · rw [hheads]
    rintro (heq | ⟨-, hne⟩)
    · rw [← heq, contains_of_get? (hc.canonicalHead_mem hbest).2] at hnew
      cases hnew
    · exact hne best hbest rfl
  · rw [hc.canonicalHead_eq_none_iff, isEmpty_iff]

end Chain

/-! ## Any run -/

/-- An act keeps the chain linked. -/
theorem Act.linked {job job' : Job} (h : Act a c job a' c' job') (hjob : job.Sound a c)
    (hc : c.Linked) : c'.Linked := by
  cases h with
  | insert hinsert =>
      obtain ⟨-, -, parent, hparent, hb⟩ := hjob
      rcases Chain.insert_cases hinsert with ⟨rfl, -⟩ | ⟨stored, hcommit, hgains, rfl⟩
      · exact hc
      have hcontent := (Block.content_of_commit hcommit).2
      exact hc.add hgains.new hparent
        (hb.of_header (Block.skeletonHeader_of_content hcontent).symm)
  | _ => exact hc

/-- However the callers act, the chain stays linked. -/
theorem Site.Leads.linked {s : Site} (h : (Site.start rules).Leads s) : s.chain.Linked := by
  induction h with
  | refl => exact Chain.linked_empty rules
  | tail h hstep ih =>
      have hsound := Site.Leads.sound h (Site.sound_start rules)
      cases hstep with
      | turn i hact => exact hact.linked (hsound.jobs i) ih

/-! ## Peers that mine -/

namespace Chain

/-- The blocks of the chain in a line, newest first, each the parent of the one before it.  All of
them have the same difficulty. -/
structure Line (difficulty : UInt64) (c : Chain) (blocks : List Block) : Prop where
  size : c.size = blocks.length
  get?_eq_some_iff : ∀ hash x, c.get? hash = some x ↔ x ∈ blocks ∧ x.hash = hash
  canonical : c.canonicalHead = blocks.head?
  heads : ∀ place, place ∈ c.heads ↔ blocks.head?.map Block.hash = some place
  lineage : ∀ best, blocks.head? = some best → c.Lineage best blocks ∧
    best.height.toNat = blocks.length ∧
      best.accumulatedDifficulty.toNat = blocks.length * difficulty.toNat

theorem line_empty (rules : Rules) : (Chain.empty rules).Line rules.difficulty [] where
  size := by simp [size, Chain.empty]
  get?_eq_some_iff hash x := by simp
  canonical := (linked_empty rules).canonicalHead_eq_none_iff.mpr fun hash => by simp
  heads place := by simp [Chain.empty]
  lineage best hbest := by cases hbest

/-- One block more makes the line longer by one. -/
theorem Line.grow {difficulty : UInt64} {blocks : List Block} (h : c.Line difficulty blocks)
    (hgrows : c.Grows b c') (hdifficulty : b.skeleton.header.difficulty = difficulty) :
    ∃ stored, stored.content = b.content ∧ c'.Line difficulty (stored :: blocks) := by
  obtain ⟨stored, hcontent, hcanonical, hget⟩ := hgrows.canonical
  have hhash := Block.hash_of_content hcontent
  have hheader := Block.skeletonHeader_of_content hcontent
  have hself : c'.get? stored.hash = some stored := by rw [hget, if_pos hhash]
  have hstored := hgrows.succeeds.of_header hheader.symm
  rw [h.canonical] at hstored
  refine ⟨stored, hcontent, hgrows.size.trans (congrArg (· + 1) h.size), fun hash x => ?_,
    hcanonical, fun place => ?_, fun best hbest => ?_⟩
  · rw [hget, List.mem_cons]
    by_cases hplace : hash = b.hash
    · rw [if_pos hplace, Option.some.injEq]
      constructor
      · rintro rfl
        exact ⟨Or.inl rfl, hhash.trans hplace.symm⟩
      · rintro ⟨rfl | hold, hname⟩
        · rfl
        · have hthere := (h.get?_eq_some_iff b.hash x).mpr ⟨hold, hname.trans hplace⟩
          rw [hgrows.new] at hthere
          cases hthere
    · rw [if_neg hplace, h.get?_eq_some_iff]
      refine and_congr_left fun hname => (or_iff_right ?_).symm
      rintro rfl
      exact hplace (hname.symm.trans hhash)
  · rw [hgrows.heads, h.heads, h.canonical, List.head?_cons, Option.map_some, Option.some.injEq,
      hhash, or_iff_left]
    · exact eq_comm
    · rintro ⟨hhead, hne⟩
      obtain ⟨best, hbest, rfl⟩ := Option.map_eq_some_iff.mp hhead
      exact hne best hbest rfl
  · obtain rfl : stored = best := Option.some.inj hbest
    have hline : c'.Lineage stored (stored :: blocks) := by
      cases blocks with
      | nil => exact .first hself hstored
      | cons y rest =>
          have hy := (h.lineage y rfl).1
          refine .next hself ?_ hstored (hy.mono hgrows.keeps)
          rw [hstored.prev]
          exact hgrows.keeps.get? _ _ (hy.get?_of_mem y List.mem_cons_self)
    refine ⟨hline, hline.length_eq.symm, ?_⟩
    rw [hstored.work, hheader, hdifficulty, List.length_cons, Nat.succ_mul, Nat.add_comm]
    refine congrArg (· + difficulty.toNat) ?_
    cases blocks with
    | nil => exact (Nat.zero_mul _).symm
    | cons y rest => exact (h.lineage y rfl).2.2

end Chain

namespace Peer

variable {p p' : Peer} {transactions : List Transaction} {timestamp : UInt64} {l : List Block}
variable {mid : Archive}

/-- The headers of the blocks that a peer has. -/
def headers (p : Peer) : Set BlockHeader :=
  {header | ∃ hash b, p.chain.get? hash = some b ∧ b.header = header}

/-- If the blocks are in a line, they are the ones in the line. -/
theorem headers_subset {difficulty : UInt64} {blocks : List Block}
    (h : p.chain.Line difficulty blocks)
    (hcontent : blocks.map Block.content = l.map Block.content) :
    p.headers ⊆ {header | ∃ b ∈ l, b.header = header} := by
  rintro _ ⟨place, x, hget, rfl⟩
  have hx := List.mem_map_of_mem (f := Block.content) ((h.get?_eq_some_iff place x).mp hget).1
  rw [hcontent] at hx
  obtain ⟨y, hy, hsame⟩ := List.mem_map.mp hx
  exact ⟨y, hy, Block.header_of_content hsame⟩

theorem difficulty_of_sealed (h : p.sealed transactions timestamp a = .ok b a') :
    b.skeleton.header.difficulty = p.chain.rules.difficulty := by
  obtain ⟨skeleton, nonce, hbuild, rfl⟩ := sealed_eq_ok h
  obtain ⟨_, _, _, _, _, -, -, -, rfl⟩ := Skeleton.build_eq_ok_iff.mp hbuild
  rfl

namespace Called

variable (h : Called rules a p)

include h

theorem linked : p.chain.Linked := (Site.leads_of_called h).linked

theorem rules_eq : p.chain.rules = rules := (Site.leads_of_called h).chain_extends.rules

/-- What a peer has sealed and inserts at once is added on top of the canonical head. -/
theorem grows (hdifficulty : 1 ≤ rules.difficulty)
    (hsealed : p.sealed transactions timestamp a = .ok b mid)
    (hinsert : p.chain.insert b mid = .ok (c', hash) a')
    (hheaders : (insert b.header p.headers).InjOn Record.hash) :
    hash = b.hash ∧ p.chain.Grows b c' := by
  have hworth : b.skeleton.header.difficulty = rules.difficulty :=
    (difficulty_of_sealed hsealed).trans (congrArg _ h.rules_eq)
  obtain ⟨skeleton, nonce, hbuild, rfl⟩ := sealed_eq_ok hsealed
  refine h.linked.grows (Skeleton.succeeds_of_build hbuild) (hworth ▸ hdifficulty)
    (fun x hget => ?_) hinsert
  exact hheaders (Or.inr ⟨_, x, hget, rfl⟩) (Or.inl rfl) (h.linked.named _ x hget)

end Called

/-- What comes of a peer that does nothing but mine, with the blocks that it has sealed in the
calls that succeeded, newest first. -/
inductive Mined (rules : Rules) : List Block → Archive → Peer → Prop
  | start (miner : Miner) (minerAddress : Hash) :
      Mined rules [] Archive.empty { chain := Chain.empty rules, miner, minerAddress }
  | mined {l : List Block} {a mid a' : Archive} {p p' : Peer} {transactions : List Transaction}
      {timestamp : UInt64} {b : Block} {hash : Hash} (h : Mined rules l a p)
      (hsealed : p.sealed transactions timestamp a = .ok b mid)
      (hmine : p.mine transactions timestamp a = .ok (p', hash) a') : Mined rules (b :: l) a' p'
  | failed {l : List Block} {a a' : Archive} {p : Peer} {transactions : List Transaction}
      {timestamp : UInt64} {cause : BlockError} (h : Mined rules l a p)
      (hmine : p.mine transactions timestamp a = .error cause a') : Mined rules l a' p

namespace Mined

theorem called (h : Mined rules l a p) : Called rules a p := by
  induction h with
  | start miner minerAddress => exact .start miner minerAddress
  | mined _ _ hmine ih => exact .mined ih hmine
  | failed _ hmine ih => exact .failed ih hmine

/-- Each call that succeeds makes the line longer by one. -/
theorem line (hdifficulty : 1 ≤ rules.difficulty) (h : Mined rules l a p)
    (hheaders : {header | ∃ b ∈ l, b.header = header}.InjOn Record.hash) :
    ∃ blocks, blocks.map Block.content = l.map Block.content ∧
      p.chain.Line rules.difficulty blocks := by
  induction h with
  | start miner minerAddress => exact ⟨[], rfl, Chain.line_empty rules⟩
  | failed _ _ ih => exact ih hheaders
  | @mined l a mid a' p p' transactions timestamp b hash h hsealed hmine ih =>
      have hrest : {header | ∃ x ∈ l, x.header = header} ⊆
          {header | ∃ x ∈ b :: l, x.header = header} :=
        fun header ⟨x, hx, heq⟩ => ⟨x, List.mem_cons_of_mem b hx, heq⟩
      obtain ⟨blocks, hcontent, hline⟩ := ih (hheaders.mono hrest)
      -- The headers in the chain are those of the blocks that were sealed before.
      have hall : insert b.header p.headers ⊆ {header | ∃ x ∈ b :: l, x.header = header} :=
        Set.insert_subset ⟨b, List.mem_cons_self, rfl⟩ ((headers_subset hline hcontent).trans hrest)
      obtain ⟨b', mid', chain, hsealed', hinsert, rfl⟩ := mine_eq_ok_iff.mp hmine
      obtain ⟨rfl, rfl⟩ : b = b' ∧ mid = mid' := by
        rw [hsealed] at hsealed'
        cases hsealed'
        exact ⟨rfl, rfl⟩
      obtain ⟨-, hgrows⟩ := h.called.grows hdifficulty hsealed hinsert (hheaders.mono hall)
      obtain ⟨stored, hstored, hline'⟩ := hline.grow hgrows
        ((difficulty_of_sealed hsealed).trans (congrArg _ h.called.rules_eq))
      exact ⟨stored :: blocks, congrArg₂ List.cons hstored hcontent, hline'⟩

end Mined

/-- Whatever calls were made before, a call of a peer that mines and returns a name has added one
block, unless its header has the digest of another one: the block has this name, it is the
canonical head now, and it comes right after the old one, which is no head any more, or it is a
first block; all else is as it was.  So a peer that does nothing but mine has its blocks in a
line. -/
theorem mining_extends (hdifficulty : 1 ≤ rules.difficulty) :
    (∀ {a a' : Archive} {p p' : Peer} {transactions : List Transaction} {timestamp : UInt64}
      {hash : Hash}, Called rules a p → p.mine transactions timestamp a = .ok (p', hash) a' →
      ∃ b mid, p.sealed transactions timestamp a = .ok b mid ∧ p' = { p with chain := p'.chain } ∧
        ((insert b.header p.headers).InjOn Record.hash →
          hash = b.hash ∧ p.chain.Grows b p'.chain)) ∧
    ∀ {l : List Block} {a : Archive} {p : Peer}, Mined rules l a p →
      {header | ∃ b ∈ l, b.header = header}.InjOn Record.hash →
        ∃ blocks, blocks.map Block.content = l.map Block.content ∧
          p.chain.Line rules.difficulty blocks := by
  refine ⟨fun h hmine => ?_, fun h hheaders => h.line hdifficulty hheaders⟩
  obtain ⟨b, mid, chain, hsealed, hinsert, rfl⟩ := mine_eq_ok_iff.mp hmine
  exact ⟨b, mid, hsealed, rfl, h.grows hdifficulty hsealed hinsert⟩

/-! ## Two blocks -/

/-- A peer whose miner tries the nonce that is zero mines whatever it seals. -/
theorem Called.exists_mine {skeleton : Skeleton} (h : Called rules a p)
    (hminer : p.miner = { threads := 1, maxAttempts := 1 })
    (hbuild : Skeleton.build p.chain.rules p.chain.canonicalHead transactions p.minerAddress
      timestamp a = .ok skeleton mid)
    (hseals : Miner.seals skeleton Blob.zero = true) :
    ∃ p' a', p.sealed transactions timestamp a = .ok ⟨skeleton, Blob.zero⟩ mid ∧
      p.mine transactions timestamp a = .ok (p', Block.hash ⟨skeleton, Blob.zero⟩) a' ∧
        p'.miner = p.miner ∧ p'.minerAddress = p.minerAddress := by
  have hmined : p.miner.mine skeleton = .ok ⟨skeleton, Blob.zero⟩ := by
    rw [Miner.mine, hminer, search_of_seals hseals]
  have hsealed : p.sealed transactions timestamp a = .ok ⟨skeleton, Blob.zero⟩ mid :=
    bind_eq_ok.mpr ⟨skeleton, mid, hbuild, ofExcept_eq_ok.mpr ⟨hmined, rfl⟩⟩
  -- The peer is a caller that holds the block, and there is no other one.
  let draft : Draft :=
    { parent := p.chain.canonicalHead, transactions, miner := p.minerAddress, timestamp
      received := none }
  have hread : (Site.quiet a p.chain).Step
      ((Site.quiet a p.chain).turn 0 a p.chain (.started draft)) :=
    .turn 0 (.read transactions p.minerAddress timestamp)
  have hheld := Site.leads_build (s := Site.quiet a p.chain) (i := 0) (c := p.chain) draft hbuild
    hseals fun _ h => by cases h
  have hleads := ((Site.leads_of_called h).tail hread).trans hheld
  have hsound := Site.Leads.sound hleads (Site.sound_start rules)
  obtain ⟨chain, a', -, hinsert, -⟩ := hsound.exists_insert (Site.jobs_turn_self ..)
  exact ⟨{ p with chain }, a', hsealed,
    mine_eq_ok_iff.mpr ⟨_, mid, chain, hsealed, hinsert, rfl⟩, rfl, rfl⟩

end Peer

namespace Genesis

/-- The header of a block without transactions right after a first one. -/
def sealedAfter (prev : Hash) : BlockHeader :=
  { nonce := Blob.zero
    skeleton :=
      { header 1 address trie.rootHash 0 with
        prevBlockHash := prev, height := 2, accumulatedDifficulty := 2 } }

/-- The two have different digests. -/
theorem hash_sealedAfter_ne :
    Record.hash (sealedAfter (Record.hash (sealed Blob.zero))) ≠
      Record.hash (sealed Blob.zero) := by
  let first (stateRoot : Hash) : BlockHeader :=
    { nonce := Blob.zero, skeleton := header 1 address stateRoot 0 }
  let second (stateRoot prev : Hash) : BlockHeader :=
    { nonce := Blob.zero
      skeleton :=
        { header 1 address stateRoot 0 with
          prevBlockHash := prev, height := 2, accumulatedDifficulty := 2 } }
  obtain ⟨d₁, hd₁, hdigest₁⟩ := Node.exists_digest (Record.bytes (first (Node.ofWords rootWords)))
  obtain ⟨d₂, hd₂, hdigest₂⟩ := Node.exists_digest
    (Record.bytes (second (Node.ofWords rootWords) (Node.ofWords (d₁.map UInt32.ofNat))))
  have hcomputed : Numbers.digest (Record.bytes (first (Node.ofWords rootWords))) (fun d₁ =>
      Numbers.digest (Record.bytes (second (Node.ofWords rootWords)
        (Node.ofWords (d₁.map UInt32.ofNat)))) fun d₂ =>
          decide (0 :: [d₂, d₁].map Octet.a).Nodup) = true := by
    simp only [first, second, header, Record.bytes, Record.toJson, BlockHeader.toJson,
      SkeletonHeader.toJson, Json.render_object_cons, Json.renderMembers_cons,
      Json.renderMembers_nil, Json.render_ofBlob, Json.render_ofUInt64]
    decide +kernel
  rw [hdigest₁, hdigest₂, decide_eq_true_iff] at hcomputed
  have hnodup := (Node.nodup_of_climb (.cons hd₂ (.cons hd₁ .nil)) hcomputed).of_cons
  rw [hd₁.ofWords_eq, ← rootHash_trie] at hnodup
  exact fun heq => (List.nodup_cons.mp hnodup).1 (List.mem_singleton.mpr heq)

/-- It can be built. -/
theorem exists_build_after {best : Block} (a : Archive)
    (h : best.skeleton.content = (header 1 address trie.rootHash 0, [], trie, Trie.empty)) :
    ∃ skeleton a', Skeleton.build { difficulty := 1 } (some best) [] address 0 a =
        .ok skeleton a' ∧ skeleton.withNonce Blob.zero = sealedAfter best.hash := by
  have hheader : best.skeleton.header = header 1 address trie.rootHash 0 := congrArg (·.1) h
  have htrie : best.skeleton.world.trie = trie := congrArg (·.2.2.1) h
  obtain ⟨start, mid, hfork⟩ : ∃ start mid,
      (best.skeleton.world.fork : Archived BlockError World) a = .ok start mid := ⟨_, _, rfl⟩
  have hstart : start.trie = best.skeleton.world.trie := (World.agrees_fork hfork).trie
  have hordered : Skeleton.ordered [] = [] := by simp [Skeleton.ordered]
  have hnone : (Skeleton.ordered []).foldlM (Skeleton.addTransaction {} address)
      (start, Trie.empty) mid = .ok (start, Trie.empty) mid := by
    rw [hordered]
    rfl
  have hplace : Skeleton.position 1 (some best) = .ok (best.hash, 2, 2) := by
    have hcounter : Skeleton.counter 1 1 = .ok 2 := rfl
    rw [Skeleton.position, Block.height, Block.accumulatedDifficulty, hheader]
    simp only [header, hcounter]
    rfl
  refine ⟨_, mid, Skeleton.build_eq_ok_iff.mpr
    ⟨start, mid, start, Trie.empty, _, hfork, hnone, hplace, rfl⟩, ?_⟩
  rw [Skeleton.withNonce, World.rootHash, hstart, htrie]
  rfl

end Genesis

namespace Peer

theorem seals_of_difficulty {skeleton : Skeleton} {nonce : Hash}
    (h : skeleton.header.difficulty = 1) : Miner.seals skeleton nonce = true := by
  refine Work.meetsTarget_of_le_one _ ?_
  rw [Skeleton.withNonce, h]
  exact Nat.le_refl 1

/-- One that has mined a first block. -/
theorem exists_mined_one : ∃ a p first stored, Mined { difficulty := 1 } [first] a p ∧
    p.miner = { threads := 1, maxAttempts := 1 } ∧ p.minerAddress = Genesis.address ∧
      first.header = Genesis.sealed Blob.zero ∧ p.chain.canonicalHead = some stored ∧
        stored.content = first.content ∧ stored.skeleton.content =
          (Genesis.header 1 Genesis.address Genesis.trie.rootHash 0, [], Genesis.trie,
            Trie.empty) := by
  obtain ⟨skeleton, mid, hbuild, -⟩ := Chain.exists_first
  have hcontent := Skeleton.content_of_build_first hbuild
  let first : Block := ⟨skeleton, Blob.zero⟩
  have hstart : Mined { difficulty := 1 } [] Archive.empty
      { chain := Chain.empty { difficulty := 1 }, miner := { threads := 1, maxAttempts := 1 }
        minerAddress := Genesis.address } := .start _ _
  obtain ⟨p, a, hsealed, hmine, hminer, haddress⟩ := hstart.called.exists_mine rfl hbuild
    (seals_of_difficulty (congrArg (·.1.difficulty) hcontent))
  have hmined : Mined { difficulty := 1 } [first] a p := hstart.mined hsealed hmine
  have hone : {header | ∃ x ∈ [first], x.header = header}.InjOn Record.hash := by
    rintro _ ⟨x, hx, rfl⟩ _ ⟨y, hy, rfl⟩ -
    rw [List.mem_singleton.mp hx, List.mem_singleton.mp hy]
  obtain ⟨blocks, hblocks, hline⟩ := hmined.line (UInt64.le_refl 1) hone
  obtain ⟨stored, rfl, hstored⟩ := List.map_eq_singleton_iff.mp hblocks
  exact ⟨a, p, first, stored, hmined, hminer, haddress, Skeleton.withNonce_of_content _ hcontent,
    hline.canonical, hstored, (congrArg Prod.fst hstored).trans hcontent⟩

/-- It can mine another one on it. -/
theorem exists_mined_two : ∃ a mid a' p p' first second,
    Mined { difficulty := 1 } [first] a p ∧ p.chain.canonicalHead ≠ none ∧
      p.sealed [] 0 a = .ok second mid ∧ p.mine [] 0 a = .ok (p', second.hash) a' ∧
        first.header = Genesis.sealed Blob.zero ∧
          second.header = Genesis.sealedAfter (Record.hash (Genesis.sealed Blob.zero)) := by
  obtain ⟨a, p, first, stored, hmined, hminer, haddress, hfirst, hbest, hstored, hcontent⟩ :=
    exists_mined_one
  obtain ⟨skeleton, mid, hbuild, hsecond⟩ := Genesis.exists_build_after a hcontent
  have hname : stored.hash = Record.hash (Genesis.sealed Blob.zero) :=
    (Block.hash_of_content hstored).trans (congrArg Record.hash hfirst)
  rw [hname] at hsecond
  have hseals : Miner.seals skeleton Blob.zero = true :=
    seals_of_difficulty (congrArg (·.skeleton.difficulty) hsecond)
  have hnext : Skeleton.build p.chain.rules p.chain.canonicalHead [] p.minerAddress 0 a =
      .ok skeleton mid := by
    rwa [hmined.called.rules_eq, hbest, haddress]
  obtain ⟨p', a', hsealed, hmine, -, -⟩ := hmined.called.exists_mine hminer hnext hseals
  exact ⟨a, mid, a', p, p', first, ⟨skeleton, Blob.zero⟩, hmined, hbest ▸ Option.some_ne_none _,
    hsealed, hmine, hfirst, hsecond⟩

theorem mining_extends_two : ∃ a p a' p' first second, Mined { difficulty := 1 } [first] a p ∧
    p.chain.canonicalHead ≠ none ∧ p.mine [] 0 a = .ok (p', second.hash) a' ∧
      p.chain.Grows second p'.chain ∧ Mined { difficulty := 1 } [second, first] a' p' ∧
        ∃ blocks, blocks.map Block.content = [second, first].map Block.content ∧
          p'.chain.Line 1 blocks := by
  obtain ⟨a, mid, a', p, p', first, second, hmined, hhead, hsealed, hmine, hfirst, hsecond⟩ :=
    exists_mined_two
  obtain ⟨hextends, hlines⟩ :=
    mining_extends (UInt64.le_refl ({ difficulty := 1 } : Rules).difficulty)
  have hboth := hmined.mined hsealed hmine
  have hne : second.hash ≠ first.hash := by
    rw [Block.hash, Block.hash, hfirst, hsecond]
    exact Genesis.hash_sealedAfter_ne
  -- There are two headers.
  have hpair : Set.InjOn Record.hash {second.header, first.header} :=
    Set.injOn_pair.mpr fun heq => absurd heq hne
  have hone : {header | ∃ b ∈ [first], b.header = header} ⊆ {second.header, first.header} := by
    rintro _ ⟨b, hb, rfl⟩
    rw [List.mem_singleton.mp hb]
    exact Or.inr rfl
  have htwo : {header | ∃ b ∈ [second, first], b.header = header} ⊆
      {second.header, first.header} := by
    rintro _ ⟨b, hb, rfl⟩
    rcases List.mem_cons.mp hb with rfl | hb
    · exact Or.inl rfl
    · exact hone ⟨b, hb, rfl⟩
  obtain ⟨blocks, hblocks, hline⟩ := hlines hmined (hpair.mono hone)
  obtain ⟨b, mid', hsealed', -, hgrows⟩ := hextends hmined.called hmine
  obtain rfl : second = b := by
    rw [hsealed] at hsealed'
    cases hsealed'
    rfl
  have hknown : insert second.header p.headers ⊆ {second.header, first.header} :=
    Set.insert_subset (Or.inl rfl) ((headers_subset hline hblocks).trans hone)
  exact ⟨a, p, a', p', first, second, hmined, hhead, hmine, (hgrows (hpair.mono hknown)).2, hboth,
    hlines hboth (hpair.mono htwo)⟩

end Peer

end ScriptLedger
