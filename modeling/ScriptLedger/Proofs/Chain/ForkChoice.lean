import ScriptLedger.Proofs.Chain.Ancestry
import ScriptLedger.Proofs.Chain.Heads

/-!
# The canonical head

The canonical head is chosen among the heads, but it has the most work of all blocks: on
top of every block there is a head, and work only adds up on the way there.  Of several
heads with the most work the one that comes first is taken, and heads are looked at in the
order of their names, so it has the least name.

## Main results

* `Chain.Topped.add` — a block that is added leaves a head on top of every block.
* `Chain.Grown.add`, `Chain.Grown.exists_heavier` — heads while blocks come one by one.
* `Stage.Reached.canonicalHead_exact` — heads and canonical head of any chain.
-/

namespace ScriptLedger

variable {R : Set Rules} {rules : Rules} {s s' : Stage}
variable {c c' : Chain} {b x best : Block} {p : Option Block} {hash : Hash} {l : List Block}

namespace Chain

/-! ## Heads of rooted chains -/

/-- On top of every block is a head, and it has no less work. -/
def Topped (c : Chain) : Prop :=
  ∀ hash b, c.get? hash = some b → ∃ place ∈ c.heads, ∃ top, c.get? place = some top ∧
    b.accumulatedDifficulty ≤ top.accumulatedDifficulty

/-- A block that is added is the head on top of itself, and on top of every block that its
parent was on top of. -/
theorem Topped.add (h : c.Topped) (hnew : c.contains b.hash = false)
    (hparent : ∀ y, c.get? b.prevBlockHash = some y →
      y.accumulatedDifficulty ≤ b.accumulatedDifficulty) : (c.add b.hash b).Topped := by
  have hown := c.get?_add_self b.hash b
  intro hash x hget
  rcases get?_add_cases hget with ⟨-, rfl⟩ | hget
  · exact ⟨x.hash, mem_heads_add.mpr (Or.inl rfl), x, hown, UInt64.le_refl _⟩
  obtain ⟨place, hplace, top, htop, hle⟩ := h hash x hget
  by_cases hprev : place = b.prevBlockHash
  · subst hprev
    exact ⟨b.hash, mem_heads_add.mpr (Or.inl rfl), b, hown, UInt64.le_trans hle (hparent top htop)⟩
  · exact ⟨place, mem_heads_add.mpr (Or.inr ⟨hprev, hplace⟩), top,
      (Extends.add hnew b).get? place top htop, hle⟩

/-- The blocks among the heads come in the order of their names. -/
theorem pairwise_headBlocks (hnamed : ∀ hash b, c.get? hash = some b → b.hash = hash) :
    c.headBlocks.Pairwise fun x y => compare x.hash y.hash = .lt := by
  unfold headBlocks
  refine List.Pairwise.filterMap c.get? (fun place other hlt x hx y hy => ?_)
    c.heads.ordered_toList
  rw [hnamed place x hx, hnamed other y hy]
  exact hlt

/-- The canonical head of a topped chain has no less work than any block. -/
theorem Topped.le_canonicalHead (h : c.Topped) (hbest : c.canonicalHead = some best)
    (hget : c.get? hash = some b) : b.accumulatedDifficulty ≤ best.accumulatedDifficulty := by
  obtain ⟨place, hplace, top, htop, hle⟩ := h hash b hget
  have hmem : top ∈ c.headBlocks := mem_headBlocks.mpr ⟨place, hplace, htop⟩
  exact UInt64.le_trans hle ((firstHeaviest_canonicalHead hbest).le hmem)

/-- A topped chain with a block has a canonical head. -/
theorem Topped.exists_canonicalHead (h : c.Topped) (hget : c.get? hash = some b) :
    ∃ best, c.canonicalHead = some best := by
  rcases c.canonicalHead_cases with ⟨-, hnil⟩ | ⟨best, hsome, -⟩
  · obtain ⟨place, hplace, top, htop, -⟩ := h hash b hget
    have hmem : top ∈ c.headBlocks := mem_headBlocks.mpr ⟨place, hplace, htop⟩
    rw [hnil] at hmem
    exact absurd hmem List.not_mem_nil
  · exact ⟨best, hsome⟩

/-! ## Chains that blocks came to one by one -/

/-- Every block came right after its parent, the heads are right, and there is one on top of
every block. -/
structure Grown (c : Chain) : Prop where
  rooted : c.Rooted
  headed : c.Headed
  topped : c.Topped

theorem Rooted.headed_add (hc : c.Rooted) (hheaded : c.Headed)
    (hnew : c.contains b.hash = false) (hparent : c.parent b.prevBlockHash = .ok p) :
    (c.add b.hash b).Headed := by
  refine hheaded.add_of_parents (fun _ _ => hc.exists_parent) (fun x hget => ?_) hnew hparent
  rw [hc.nonzero] at hget
  cases hget

theorem Rooted.topped_add (hc : c.Rooted) (htopped : c.Topped)
    (hnew : c.contains b.hash = false) (hparent : c.parent b.prevBlockHash = .ok p)
    (hb : b.Succeeds p) : (c.add b.hash b).Topped := by
  refine htopped.add hnew fun y hy => ?_
  obtain ⟨x, rfl, hx⟩ := exists_of_parent hparent (hc.ne_zero hy)
  rw [hx] at hy
  cases hy
  rw [UInt64.le_iff_toNat_le, hb.work]
  exact Nat.le_add_left _ _

namespace Grown

theorem empty (rules : Rules) : (Chain.empty rules).Grown where
  rooted := rooted_empty rules
  headed := headed_empty rules
  topped hash b hget := by simp at hget

theorem add (h : c.Grown) (hnew : c.contains b.hash = false) (hzero : b.hash ≠ Blob.zero)
    (hparent : c.parent b.prevBlockHash = .ok p) (hb : b.Succeeds p) : (c.add b.hash b).Grown where
  rooted := h.rooted.add hnew hzero hparent hb
  headed := h.rooted.headed_add h.headed hnew hparent
  topped := h.rooted.topped_add h.topped hnew hparent hb

theorem mem_heads_iff (h : c.Grown) : hash ∈ c.heads ↔
    c.contains hash = true ∧ ∀ place b, c.get? place = some b → b.prevBlockHash ≠ hash := by
  rw [h.headed hash]
  refine and_congr_right fun hthere => forall₃_congr fun place b hget => ?_
  obtain ⟨x, hx⟩ := exists_get? hthere
  exact ⟨fun hzero hprev => h.rooted.ne_zero hx (hzero hprev), fun hne hprev => absurd hprev hne⟩

theorem canonicalHead_mem (h : c.Grown) (hbest : c.canonicalHead = some best) :
    best.hash ∈ c.heads ∧ c.get? best.hash = some best := by
  obtain ⟨place, hplace, hget⟩ := mem_headBlocks.mp (firstHeaviest_canonicalHead hbest).mem
  rw [h.rooted.named place best hget]
  exact ⟨hplace, hget⟩

/-- A chain that has all blocks of another one has no lighter canonical head. -/
theorem exists_heavier (h : c.Grown) (h' : c'.Grown) (hextends : c.Extends c')
    (hbest : c.canonicalHead = some best) : ∃ best', c'.canonicalHead = some best' ∧
      best.accumulatedDifficulty ≤ best'.accumulatedDifficulty := by
  have hget := hextends.get? _ _ (h.canonicalHead_mem hbest).2
  obtain ⟨best', hbest'⟩ := h'.topped.exists_canonicalHead hget
  exact ⟨best', hbest', h'.topped.le_canonicalHead hbest' hget⟩

end Grown

end Chain

namespace Stage

theorem Reached.grown (h : Reached R rules s) (hs : s.Distinct) : s.chain.Grown := by
  obtain ⟨hrooted, hheaded, htopped⟩ := h.rooted_invariant (I := fun c => c.Headed ∧ c.Topped) hs
    ⟨(Chain.Grown.empty rules).headed, (Chain.Grown.empty rules).topped⟩
    fun hc hnew hparent hb hchain =>
      ⟨hc.headed_add hchain.1 hnew hparent, hc.topped_add hchain.2 hnew hparent hb⟩
  exact ⟨hrooted, hheaded, htopped⟩

/-- The heads of any chain are the blocks that no block names as its parent.  If there are
blocks, one head is canonical: no block has more work, and no other head that has as much
has a lesser name.  Whatever happens, the work of the canonical head does not decrease. -/
theorem Reached.canonicalHead_exact (h : Reached R rules s) (hs : s.Distinct) :
    (∀ hash, hash ∈ s.chain.heads ↔ s.chain.contains hash = true ∧
      ∀ place b, s.chain.get? place = some b → b.prevBlockHash ≠ hash) ∧
    (s.chain.canonicalHead = none ↔ ∀ hash, s.chain.contains hash = false) ∧
    (∀ best, s.chain.canonicalHead = some best →
      best.hash ∈ s.chain.heads ∧ s.chain.get? best.hash = some best ∧
      (∀ hash b, s.chain.get? hash = some b →
        b.accumulatedDifficulty ≤ best.accumulatedDifficulty) ∧
      ∀ hash b, hash ∈ s.chain.heads → s.chain.get? hash = some b →
        b.accumulatedDifficulty = best.accumulatedDifficulty → best.hash.isLE hash = true) ∧
    ∀ s' best, s.Step R s' → s'.Distinct → s.chain.canonicalHead = some best →
      ∃ best', s'.chain.canonicalHead = some best' ∧
        best.accumulatedDifficulty ≤ best'.accumulatedDifficulty := by
  have hgrown := h.grown hs
  refine ⟨fun hash => hgrown.mem_heads_iff, ?_, fun best hsome => ?_, fun s' best hstep hs' => ?_⟩
  · constructor
    · intro hnone hash
      by_contra hthere
      obtain ⟨x, hx⟩ := Chain.exists_get? (Bool.not_eq_false _ ▸ hthere)
      obtain ⟨best, hsome⟩ := hgrown.topped.exists_canonicalHead hx
      rw [hnone] at hsome
      cases hsome
    · intro hall
      cases hsome : s.chain.canonicalHead with
      | none => rfl
      | some best =>
          have hthere := hall best.hash
          rw [Chain.contains_eq, (hgrown.canonicalHead_mem hsome).2] at hthere
          cases hthere
  · obtain ⟨hhead, hget⟩ := hgrown.canonicalHead_mem hsome
    refine ⟨hhead, hget, fun hash b => hgrown.topped.le_canonicalHead hsome, ?_⟩
    intro hash b hhead hget hsame
    have hmem : b ∈ s.chain.headBlocks := Chain.mem_headBlocks.mpr ⟨hash, hhead, hget⟩
    have hle := (Chain.firstHeaviest_canonicalHead hsome).isLE
      (Chain.pairwise_headBlocks hgrown.rooted.named) hmem hsame
    rwa [hgrown.rooted.named hash b hget] at hle
  · exact hgrown.exists_heavier ((h.step hstep).grown hs') hstep.chain_extends

/-- A chain with one block has a canonical head, and keeps it while nothing is added. -/
theorem exists_canonicalHead_exact :
    ∃ s s' best best', Reached Set.univ { difficulty := 1 } s ∧ s.Distinct ∧
      s.Step Set.univ s' ∧ s'.Distinct ∧ s.chain.canonicalHead = some best ∧
      s'.chain.canonicalHead = some best' ∧
      best.accumulatedDifficulty ≤ best'.accumulatedDifficulty := by
  obtain ⟨s, b, hreached, hsingle⟩ := exists_single (Set.mem_univ _)
  have hstep : s.Step Set.univ s := .grow (.refl _)
  obtain ⟨-, hempty, -, hmonotone⟩ := hreached.canonicalHead_exact hsingle.distinct
  have hthere : s.chain.contains b.hash = true := by
    rw [Chain.contains_eq, hsingle.get?]
    rfl
  obtain ⟨best, hbest⟩ : ∃ best, s.chain.canonicalHead = some best := by
    refine Option.ne_none_iff_exists'.mp fun hnone => ?_
    rw [hempty.mp hnone b.hash] at hthere
    cases hthere
  obtain ⟨best', hbest', hle⟩ := hmonotone s best hstep hsingle.distinct hbest
  exact ⟨s, s, best, best', hreached, hsingle.distinct, hstep, hsingle.distinct, hbest, hbest', hle⟩

end Stage

end ScriptLedger
