import ScriptLedger.Peer.Request
import ScriptLedger.Proofs.Block.Confined
import ScriptLedger.Proofs.Chain.Heads

/-!
# Chains over time

A chain does not stand alone: the stores of its blocks are shared by blocks that are still
being built, on forks of forks, by the rules of this chain or of another one, and by all
that was thrown away.  `Stage` is a chain with all of this around it, and `Stage.Step` says
what can happen next; the chain itself changes only by an `Attempt`, and only by one that
succeeds.  `Stage.Reached` is what can come of the chain without blocks.

Four kinds of attempts look different and come to the same.  Each offers the chain at most
one block, which was built before or is built on the spot, and `Chain.insert` decides.
`Attempt.yields_run` says this once, of successes and failures.

## Main results

* `Stage.after_cases` — what an attempt does to the chain.
* `Stage.Step.growsTo`, `Stage.Step.has`, `Stage.Step.chain_extends` — nothing is lost in a step.
* `Stage.Reached.each` — what is true of blocks when they are built stays true of them.
* `Stage.Reached.chain_invariant` — what adding one block preserves holds of every chain.
-/

namespace ScriptLedger

open Sequencing

variable {a a' : Archive} {c c' : Chain} {b : Block} {hash : Hash}

/-! ## Attempts -/

/-- What can be tried on a chain. -/
inductive Attempt
  /-- A block that was built here is inserted. -/
  | insert (b : Block)
  /-- A block that was built elsewhere is received. -/
  | receive (header : BlockHeader) (transactions : List Transaction)
  /-- A peer that holds the chain is asked. -/
  | request (peer : Peer) (method : String) (params : Json)
  /-- A peer that holds the chain mines a block. -/
  | mine (peer : Peer) (transactions : List Transaction) (timestamp : UInt64)

/-- The chain that an attempt makes of a chain. -/
def Attempt.run (c : Chain) : Attempt → Archived (BlockError ⊕ RequestError) Chain
  | .insert b => do
    let (c, _) ← (c.insert b).adaptExcept .inl
    pure c
  | .receive header transactions => do
    let (c, _) ← (c.receive header transactions).adaptExcept .inl
    pure c
  | .request peer method params => do
    let (peer, _) ← (Peer.answer { peer with chain := c } method params).adaptExcept .inr
    pure peer.chain
  | .mine peer transactions timestamp => do
    let (peer, _) ← (Peer.mine { peer with chain := c } transactions timestamp).adaptExcept .inl
    pure peer.chain

namespace Chain

/-- A block that is refused is not written anywhere, unless its commit fails. -/
theorem insert_eq_error {e : BlockError} (h : c.insert b a = .error e a') :
    a' = a ∨ ∃ cause, b.skeleton.world.commit a = .error cause a' := by
  unfold insert at h
  dsimp only at h
  cases hwork : b.meetsTarget with
  | false =>
      simp only [hwork, Bool.not_false, if_true] at h
      exact Or.inl (throw_eq_error.mp h).2.symm
  | true =>
  simp only [hwork, Bool.not_true, Bool.false_eq_true, if_false] at h
  cases hparent : c.parent b.prevBlockHash with
  | error cause =>
      rw [hparent] at h
      cases h
      exact Or.inl rfl
  | ok p =>
  rw [hparent] at h
  cases hthere : c.contains b.hash with
  | true =>
      rw [hthere] at h
      cases h
  | false =>
  rw [hthere] at h
  -- What is left is the commit; the rest of the insertion cannot fail.
  cases hcommit : b.skeleton.world.commit a with
  | error cause mid =>
      have hfail : b.commit a = .error cause mid := bind_of_error hcommit
      right
      rcases bind_eq_error.mp h with hpure | ⟨_, _, hpure, h⟩
      · cases hpure
      cases hpure
      rcases bind_eq_error.mp h with hadapt | ⟨_, _, -, h⟩
      · obtain ⟨_, hsame, -⟩ := adaptExcept_eq_error.mp hadapt
        rw [hfail] at hsame
        cases hsame
        exact ⟨cause, rfl⟩
      · cases h
  | ok world mid =>
      have hdone : b.commit a = .ok { b with skeleton := { b.skeleton with world } } mid :=
        bind_of_ok hcommit
      rcases bind_eq_error.mp h with hpure | ⟨_, _, hpure, h⟩
      · cases hpure
      cases hpure
      rcases bind_eq_error.mp h with hadapt | ⟨_, _, -, h⟩
      · obtain ⟨_, hsame, -⟩ := adaptExcept_eq_error.mp hadapt
        rw [hdone] at hsame
        cases hsame
      · cases h

/-- A block can be added to a chain: its work was done, its parent is there, its name is
new, and its records lie in a store of their own. -/
structure Gains (a : Archive) (c : Chain) (b : Block) : Prop where
  worked : b.meetsTarget = true
  parent : ∃ p, c.parent b.prevBlockHash = .ok p
  new : c.contains b.hash = false
  bare : a.isOverlay b.skeleton.world.store = false

/-- A block that is accepted was there before, or is added as it was committed. -/
theorem insert_cases (h : c.insert b a = .ok (c', hash) a') :
    (c' = c ∧ a' = a) ∨ ∃ stored, b.commit a = .ok stored a' ∧ c.Gains a' stored ∧
      c' = c.add stored.hash stored := by
  obtain ⟨hwork, hparent, -, ⟨-, hsame⟩ | ⟨hnew, stored, hcommit, rfl⟩⟩ := insert_eq_ok_iff.mp h
  · exact Or.inl hsame
  right
  have hcontent := (Block.content_of_commit hcommit).2
  have hhash := Block.hash_of_content hcontent
  have hheader := Block.skeletonHeader_of_content hcontent
  refine ⟨stored, hcommit, ⟨?_, ?_, by rw [hhash, hnew], ?_⟩, by rw [hhash]⟩
  · rw [Block.meetsTarget, hhash, hheader]
    exact hwork
  · rw [Block.prevBlockHash, hheader]
    exact hparent
  · obtain ⟨world, mid, hworld, h⟩ := bind_eq_ok.mp hcommit
    obtain ⟨rfl, rfl⟩ := pure_eq_ok.mp h
    exact World.isOverlay_of_commit hworld

theorem yields_insert (c : Chain) (b : Block) :
    Yields a (c.insert b) (fun _ => a.GrowsTo) a.GrowsTo := by
  refine ⟨fun _ _ h => growsTo_of_insert h, fun e a' h => ?_⟩
  rcases insert_eq_error h with rfl | ⟨cause, hcommit⟩
  · exact .refl _
  · exact World.yields_commit.2 cause a' hcommit

end Chain

namespace Attempt

variable {P : Chain → Archive → Prop} {E : Archive → Prop}

/-- A block is built on the spot, on a block of the chain and by the chain's rules, and then
inserted; `P` comes of it, or `E`. -/
def Builds (c : Chain) (a : Archive) (P : Chain → Archive → Prop) (E : Archive → Prop) : Prop :=
  ∀ parent transactions miner timestamp,
    (∀ p, parent = some p → ∃ hash, c.get? hash = some p) →
      Yields a (Skeleton.build c.rules parent transactions miner timestamp)
        (fun skeleton mid => E mid ∧
          ∀ nonce, Yields mid (c.insert ⟨skeleton, nonce⟩) (fun result => P result.1) E) E

theorem yields_receive (hE : E a) (hbuilds : Builds c a P E) (header : BlockHeader)
    (transactions : List Transaction) :
    Yields a (c.receive header transactions) (fun result => P result.1) E := by
  have hrebuild : Yields a (c.rebuild header transactions)
      (fun b mid => E mid ∧ Yields mid (c.insert b) (fun result => P result.1) E) E := by
    refine .bind (P := fun p a' => a' = a ∧ c.parent header.skeleton.prevBlockHash = .ok p)
      (.ofExcept (fun p hp => ⟨rfl, hp⟩) hE) ?_
    rintro p _ ⟨rfl, hparent⟩
    refine (hbuilds p transactions _ _ ?_).bind ?_
    · rintro q rfl
      exact ⟨_, Chain.parent_eq_some hparent⟩
    rintro skeleton mid ⟨hmid, hinsert⟩
    by_cases hheader : skeleton.header ≠ header.skeleton
    · rw [if_pos hheader]
      exact .throw hmid
    rw [if_neg hheader]
    by_cases hwork : Block.meetsTarget { skeleton, nonce := header.nonce } = true
    · simp only [hwork, Bool.not_true, Bool.false_eq_true, if_false]
      exact .pure ⟨hmid, hinsert header.nonce⟩
    · simp only [hwork, Bool.not_false, if_true]
      exact .throw hmid
  refine hrebuild.bind ?_
  rintro b mid ⟨-, hinsert⟩
  exact hinsert

theorem yields_answer (peer : Peer) (hP : P peer.chain a) (hE : E a)
    (hbuilds : Builds peer.chain a P E) (method : String) (params : Json) :
    Yields a (peer.answer method params) (fun result => P result.1.chain) E := by
  unfold Peer.answer
  split
  · exact .pure hP
  · refine .bind (P := fun _ a' => a' = a) (.ofExcept (fun _ _ => rfl) hE) ?_
    rintro answer _ rfl
    exact .pure hP
  · refine .bind (P := fun _ a' => a' = a) (.ofExcept (fun _ _ => rfl) hE) ?_
    rintro ⟨header, transactions⟩ _ rfl
    refine .bind (.adaptExcept (yields_receive hE hbuilds header transactions)) ?_
    rintro ⟨chain, hash⟩ a'' h
    exact .pure h
  · exact .throw hE

theorem yields_mine (peer : Peer) (hbuilds : Builds peer.chain a P E)
    (transactions : List Transaction) (timestamp : UInt64) :
    Yields a (peer.mine transactions timestamp) (fun result => P result.1.chain) E := by
  refine (hbuilds peer.chain.canonicalHead transactions _ timestamp fun p =>
    Chain.get?_of_canonicalHead).bind ?_
  rintro skeleton mid ⟨hmid, hinsert⟩
  refine .bind (P := fun b mid' => mid' = mid ∧ ∃ nonce, b = ⟨skeleton, nonce⟩)
    (.ofExcept (fun b hb => ⟨rfl, ?_⟩) hmid) ?_
  · unfold Miner.mine at hb
    cases hsearch : peer.miner.search skeleton with
    | none => rw [hsearch] at hb; cases hb
    | some nonce => rw [hsearch] at hb; cases hb; exact ⟨nonce, rfl⟩
  rintro _ _ ⟨rfl, nonce, rfl⟩
  refine (hinsert nonce).bind ?_
  rintro ⟨chain, hash⟩ a' h
  exact .pure h

/-- What comes of an attempt is what comes of inserting a block, if one is inserted. -/
theorem yields_run {x : Attempt} (hP : P c a) (hE : E a)
    (hinsert : ∀ b, x = .insert b → Yields a (c.insert b) (fun result => P result.1) E)
    (hbuilds : Builds c a P E) : Yields a (x.run c) P E := by
  cases x with
  | insert b => exact .bind (.adaptExcept (hinsert b rfl)) fun result _ h => .pure h
  | receive header transactions =>
      exact .bind (.adaptExcept (yields_receive hE hbuilds header transactions))
        fun result _ h => .pure h
  | request peer method params =>
      exact .bind (.adaptExcept (yields_answer { peer with chain := c } hP hE hbuilds
        method params)) fun result _ h => .pure h
  | mine peer transactions timestamp =>
      exact .bind (.adaptExcept (yields_mine { peer with chain := c } hbuilds
        transactions timestamp)) fun result _ h => .pure h

end Attempt

/-! ## Stages -/

/-- A chain at one moment: the stores, every block that was built on them so far, with the
rules that it was built by, and the blocks that the chain has accepted. -/
structure Stage where
  archive : Archive
  built : List (Rules × Block)
  chain : Chain

namespace Stage

/-- Nothing has been built. -/
def start (rules : Rules) : Stage :=
  { archive := Archive.empty, built := [], chain := Chain.empty rules }

/-- The block was built or accepted. -/
def Has (s : Stage) (b : Block) : Prop :=
  (∃ rules, (rules, b) ∈ s.built) ∨ ∃ hash, s.chain.get? hash = some b

/-- The chain is the new one after an attempt that succeeded, and the old one after an
attempt that failed.  What was written to the stores stays written. -/
def after (s : Stage) (x : Attempt) : Stage :=
  match x.run s.chain s.archive with
  | .ok chain archive => { s with archive, chain }
  | .error _ archive => { s with archive }

/-- A block that is to be inserted has been built, under one of the given rules. -/
def Allows (R : Set Rules) (s : Stage) (x : Attempt) : Prop :=
  ∀ b, x = .insert b → ∃ rules ∈ R, (rules, b) ∈ s.built

/-- What can happen around a chain, if the blocks that are inserted were built under one of
the given rules. -/
inductive Step (R : Set Rules) (s : Stage) : Stage → Prop
  /-- Something is written to the stores; candidates that are thrown away leave no more. -/
  | grow {a' : Archive} (hgrows : s.archive.GrowsTo a') : Step R s { s with archive := a' }
  /-- A block is built by any rules, on any block that there is. -/
  | build {rules : Rules} {parent : Option Block} {transactions : List Transaction}
      {miner : Hash} {timestamp : UInt64} {skeleton : Skeleton} {a' : Archive} (nonce : Hash)
      (hparent : ∀ p, parent = some p → s.Has p)
      (hbuild : Skeleton.build rules parent transactions miner timestamp s.archive =
        .ok skeleton a') :
      Step R s { s with archive := a', built := (rules, ⟨skeleton, nonce⟩) :: s.built }
  /-- A block is committed without being inserted, by another chain perhaps. -/
  | commit {rules : Rules} {b stored : Block} {a' : Archive} (hmem : (rules, b) ∈ s.built)
      (hcommit : b.commit s.archive = .ok stored a') :
      Step R s { s with archive := a', built := (rules, stored) :: s.built }
  /-- A block is given another nonce. -/
  | reseal {rules : Rules} {b : Block} (nonce : Hash) (hmem : (rules, b) ∈ s.built) :
      Step R s { s with built := (rules, { b with nonce }) :: s.built }
  /-- Something is tried on the chain. -/
  | attempt (x : Attempt) (hx : s.Allows R x) : Step R s (s.after x)

/-- What can come of the chain without blocks. -/
inductive Reached (R : Set Rules) (rules : Rules) : Stage → Prop
  | start : Reached R rules (start rules)
  | step {s s' : Stage} (h : Reached R rules s) (hstep : s.Step R s') : Reached R rules s'

/-! ## What an attempt does to the chain -/

variable {R : Set Rules} {rules : Rules} {s s' : Stage} {x : Attempt}

/-- A block is there to be inserted: it was built before, or it was just built by the rules
of the chain. -/
inductive Offers (R : Set Rules) (s : Stage) : Rules → Block → Archive → Prop
  | before {rules : Rules} {b : Block} (hrules : rules ∈ R) (hmem : (rules, b) ∈ s.built) :
      Offers R s rules b s.archive
  | now {parent : Option Block} {transactions : List Transaction} {miner : Hash}
      {timestamp : UInt64} {skeleton : Skeleton} {mid : Archive} (nonce : Hash)
      (hparent : ∀ p, parent = some p → ∃ hash, s.chain.get? hash = some p)
      (hbuild : Skeleton.build s.chain.rules parent transactions miner timestamp s.archive =
        .ok skeleton mid) :
      Offers R s s.chain.rules ⟨skeleton, nonce⟩ mid

/-- The chain stays as it is, or a block is inserted. -/
inductive Moves (R : Set Rules) (s : Stage) : Chain → Archive → Prop
  | keep {a' : Archive} (hgrows : s.archive.GrowsTo a') : Moves R s s.chain a'
  | insert {rules : Rules} {b : Block} {mid a' : Archive} {c' : Chain} {hash : Hash}
      (hoffers : s.Offers R rules b mid) (hgrows : s.archive.GrowsTo mid)
      (hinsert : s.chain.insert b mid = .ok (c', hash) a') : Moves R s c' a'

theorem after_built (s : Stage) (x : Attempt) : (s.after x).built = s.built := by
  unfold after
  cases x.run s.chain s.archive <;> rfl

theorem after_of_ok (h : x.run s.chain s.archive = .ok c' a') :
    s.after x = { s with archive := a', chain := c' } := by
  unfold after
  rw [h]

theorem after_of_error {e : BlockError ⊕ RequestError}
    (h : x.run s.chain s.archive = .error e a') : s.after x = { s with archive := a' } := by
  unfold after
  rw [h]

/-- What an attempt that may fail does to the chain. -/
theorem after_cases (hx : s.Allows R x) : s.Moves R (s.after x).chain (s.after x).archive := by
  have hyields : Yields s.archive (x.run s.chain) (s.Moves R) s.archive.GrowsTo := by
    refine Attempt.yields_run (.keep (.refl _)) (.refl _) ?_ ?_
    · rintro b rfl
      obtain ⟨rules, hrules, hmem⟩ := hx b rfl
      exact ⟨fun _ _ h => .insert (.before hrules hmem) (.refl _) h, (Chain.yields_insert _ b).2⟩
    · intro parent transactions miner timestamp hparent
      refine ⟨fun skeleton mid hbuild => ?_, fun e mid h => ?_⟩
      · have hgrows := Skeleton.growsTo_of_build hbuild
        refine ⟨hgrows, fun nonce => ⟨fun _ _ h => .insert (.now nonce hparent hbuild) hgrows h,
          fun e a' h => hgrows.trans ((Chain.yields_insert _ _).2 e a' h)⟩⟩
      · exact ((Skeleton.yields_build _ _ _ _ _).2 e mid h).toGrowsTo
  obtain ⟨hok, herror⟩ := hyields
  unfold after
  cases hrun : x.run s.chain s.archive with
  | ok c' a' => exact hok c' a' hrun
  | error e a' => exact .keep (herror e a' hrun)

/-! ## Nothing is lost -/

theorem Moves.growsTo (h : s.Moves R c' a') : s.archive.GrowsTo a' := by
  cases h with
  | keep hgrows => exact hgrows
  | insert _ hgrows hinsert => exact hgrows.trans (Chain.growsTo_of_insert hinsert)

/-- An attempt that fails has written at most new records. -/
theorem growsTo_of_error {e : BlockError ⊕ RequestError} (hx : s.Allows R x)
    (h : x.run s.chain s.archive = .error e a') : s.archive.GrowsTo a' := by
  have hmoves := after_cases hx
  rw [after_of_error h] at hmoves
  exact hmoves.growsTo

theorem extends_of_insert (h : c.insert b a = .ok (c', hash) a') : c.Extends c' := by
  rcases Chain.insert_cases h with ⟨rfl, -⟩ | ⟨stored, -, hgains, rfl⟩
  · exact .refl _
  · exact .add hgains.new stored

theorem Moves.chain_extends (h : s.Moves R c' a') : s.chain.Extends c' := by
  cases h with
  | keep _ => exact .refl _
  | insert _ _ hinsert => exact extends_of_insert hinsert

namespace Step

theorem growsTo (h : s.Step R s') : s.archive.GrowsTo s'.archive := by
  cases h with
  | grow hgrows => exact hgrows
  | build _ _ hbuild => exact Skeleton.growsTo_of_build hbuild
  | commit _ hcommit => exact (Block.content_of_commit hcommit).1
  | reseal _ _ => exact .refl _
  | attempt x hx => exact (after_cases hx).growsTo

theorem chain_extends (h : s.Step R s') : s.chain.Extends s'.chain := by
  cases h with
  | attempt x hx => exact (after_cases hx).chain_extends
  | _ => exact .refl _

theorem has (h : s.Step R s') (hb : s.Has b) : s'.Has b := by
  rcases hb with ⟨rules, hmem⟩ | ⟨hash, hget⟩
  · left
    refine ⟨rules, ?_⟩
    cases h with
    | grow _ => exact hmem
    | build _ _ _ => exact List.mem_cons_of_mem _ hmem
    | commit _ _ => exact List.mem_cons_of_mem _ hmem
    | reseal _ _ => exact List.mem_cons_of_mem _ hmem
    | attempt x _ => rw [after_built]; exact hmem
  · exact Or.inr ⟨hash, h.chain_extends.get? hash b hget⟩

end Step

theorem Reached.rules_eq (h : Reached R rules s) : s.chain.rules = rules := by
  induction h with
  | start => rfl
  | step _ hstep ih => rw [hstep.chain_extends.rules, ih]

/-! ## What holds of every block -/

/-- Every block that was built or accepted is as `P` says of it and of the rules that it was
built by.  These are rules of the chain or given ones if it was accepted. -/
structure Each (R : Set Rules) (P : Rules → Block → Prop) (s : Stage) : Prop where
  built : ∀ rules b, (rules, b) ∈ s.built → P rules b
  accepted : ∀ hash b, s.chain.get? hash = some b →
    ∃ rules, (rules ∈ R ∨ rules = s.chain.rules) ∧ P rules b

/-- `P` is true of what is built on blocks that it is true of, and stays true of a block
whatever is done with it.  Of the parent of a block, `H` may be used too. -/
structure Inherited (H : Block → Prop) (P : Archive → Rules → Block → Prop) : Prop where
  build : ∀ {a a' rules parent transactions miner timestamp skeleton nonce},
    (∀ p, parent = some p → H p ∧ ∃ other, P a other p) →
      Skeleton.build rules parent transactions miner timestamp a = .ok skeleton a' →
        P a' rules ⟨skeleton, nonce⟩
  grow : ∀ {a a' rules b}, a.GrowsTo a' → P a rules b → P a' rules b
  commit : ∀ {a a' rules b stored}, b.commit a = .ok stored a' → P a rules b → P a' rules stored
  reseal : ∀ {a rules b nonce}, P a rules b → P a rules { b with nonce }

section Each

variable {H : Block → Prop} {P : Archive → Rules → Block → Prop}

theorem Each.imp {P Q : Rules → Block → Prop} (h : s.Each R P)
    (hPQ : ∀ {rules b}, P rules b → Q rules b) : s.Each R Q where
  built rules b hmem := hPQ (h.built rules b hmem)
  accepted hash b hget := by
    obtain ⟨rules, hrules, hb⟩ := h.accepted hash b hget
    exact ⟨rules, hrules, hPQ hb⟩

theorem Each.of_has {P : Rules → Block → Prop} (h : s.Each R P) (hb : s.Has b) :
    ∃ rules, P rules b := by
  rcases hb with ⟨rules, hmem⟩ | ⟨hash, hget⟩
  · exact ⟨rules, h.built rules b hmem⟩
  · obtain ⟨rules, -, hb⟩ := h.accepted hash b hget
    exact ⟨rules, hb⟩

/-- One more block has been built. -/
theorem Each.cons {P : Rules → Block → Prop} (h : s.Each R P) (a' : Archive) (hb : P rules b) :
    Each R P { s with archive := a', built := (rules, b) :: s.built } where
  built other x hmem := by
    rcases List.mem_cons.mp hmem with heq | hmem
    · cases heq
      exact hb
    · exact h.built other x hmem
  accepted := h.accepted

/-- A block that is there to be inserted is as `P` says. -/
theorem Each.of_offers {mid : Archive} (h : s.Each R (P s.archive)) (hP : Inherited H P)
    (hH : ∀ hash b, s.chain.get? hash = some b → H b) (hoffers : s.Offers R rules b mid) :
    (rules ∈ R ∨ rules = s.chain.rules) ∧ P mid rules b := by
  cases hoffers with
  | before hrules hmem => exact ⟨Or.inl hrules, h.built _ _ hmem⟩
  | now nonce hparent hbuild =>
      refine ⟨Or.inr rfl, hP.build (fun p hp => ?_) hbuild⟩
      obtain ⟨hash, hget⟩ := hparent p hp
      exact ⟨hH hash p hget, h.of_has (Or.inr ⟨hash, hget⟩)⟩

/-- An attempt keeps it so that every accepted block is as `P` says. -/
theorem Each.of_moves (h : s.Each R (P s.archive)) (hP : Inherited H P)
    (hH : ∀ hash b, s.chain.get? hash = some b → H b) (hmoves : s.Moves R c' a')
    (hget : c'.get? hash = some b) :
    ∃ rules, (rules ∈ R ∨ rules = s.chain.rules) ∧ P a' rules b := by
  have hold : ∀ {a'}, s.archive.GrowsTo a' → s.chain.get? hash = some b →
      ∃ rules, (rules ∈ R ∨ rules = s.chain.rules) ∧ P a' rules b := by
    intro a' hgrows hget
    obtain ⟨rules, hrules, hb⟩ := h.accepted hash b hget
    exact ⟨rules, hrules, hP.grow hgrows hb⟩
  have hgrows := hmoves.growsTo
  cases hmoves with
  | keep _ => exact hold hgrows hget
  | insert hoffers _ hinsert =>
      rcases Chain.insert_cases hinsert with ⟨rfl, -⟩ | ⟨stored, hcommit, -, rfl⟩
      · exact hold hgrows hget
      rcases Chain.get?_add_cases hget with ⟨-, rfl⟩ | hget
      · obtain ⟨hrules, hb⟩ := h.of_offers hP hH hoffers
        exact ⟨_, hrules, hP.commit hcommit hb⟩
      · exact hold hgrows hget

/-- What is true of a block when it is built is true of every block of the stage. -/
theorem Reached.each (h : Reached R rules s) (hP : Inherited H P) (hH : ∀ b, s.Has b → H b) :
    s.Each R (P s.archive) := by
  induction h with
  | start =>
      constructor
      · intro other b hmem
        exact absurd hmem List.not_mem_nil
      · intro hash b hget
        simp [Stage.start] at hget
  | @step s s' h hstep ih =>
      have hknown : ∀ b, s.Has b → H b := fun b hb => hH b (hstep.has hb)
      have hall := ih hknown
      have hkept : s.Each R (P s'.archive) := hall.imp fun hb => hP.grow hstep.growsTo hb
      cases hstep with
      | grow hgrows => exact ⟨hkept.built, hkept.accepted⟩
      | build nonce hparent hbuild =>
          refine hkept.cons _ (hP.build (fun p hp => ?_) hbuild)
          exact ⟨hknown p (hparent p hp), hall.of_has (hparent p hp)⟩
      | commit hmem hcommit => exact hkept.cons _ (hP.commit hcommit (hall.built _ _ hmem))
      | reseal nonce hmem => exact hkept.cons _ (hP.reseal (hall.built _ _ hmem))
      | attempt x hx =>
          have hmoves := after_cases hx
          refine ⟨by rw [after_built]; exact hkept.built, fun hash b hget => ?_⟩
          rw [hmoves.chain_extends.rules]
          exact hall.of_moves hP (fun hash b hget => hknown b (Or.inr ⟨hash, hget⟩)) hmoves hget

/-- What is true of a chain without blocks and stays true when a block is added, built by
one of the given rules or by those of the chain, is true of the chain of every stage. -/
theorem Reached.chain_invariant {I : Archive → Chain → Prop} (h : Reached R rules s)
    (hP : Inherited H P) (hH : ∀ b, s.Has b → H b) (hempty : I Archive.empty (Chain.empty rules))
    (hgrow : ∀ {a a' c}, a.GrowsTo a' → I a c → I a' c)
    (hadd : ∀ {a c other b}, c.rules = rules → (other ∈ R ∨ other = rules) → P a other b → H b →
      (∀ hash x, c.get? hash = some x → H x) → c.Gains a b → I a c → I a (c.add b.hash b)) :
    I s.archive s.chain := by
  induction h with
  | start => exact hempty
  | @step s s' h hstep ih =>
      have hknown : ∀ b, s.Has b → H b := fun b hb => hH b (hstep.has hb)
      have hchain := ih hknown
      have haccepted : ∀ hash b, s.chain.get? hash = some b → H b :=
        fun hash b hget => hknown b (Or.inr ⟨hash, hget⟩)
      have hmoved : ∀ {c' a'}, s.Moves R c' a' → (∀ hash b, c'.get? hash = some b → H b) →
          I a' c' := by
        intro c' a' hmoves hnew
        have hkept := hgrow hmoves.growsTo hchain
        cases hmoves with
        | keep _ => exact hkept
        | insert hoffers _ hinsert =>
            rcases Chain.insert_cases hinsert with ⟨rfl, -⟩ | ⟨stored, hcommit, hgains, rfl⟩
            · exact hkept
            obtain ⟨hrules, hb⟩ := (h.each hP hknown).of_offers hP haccepted hoffers
            rw [h.rules_eq] at hrules
            exact hadd h.rules_eq hrules (hP.commit hcommit hb)
              (hnew stored.hash stored (Chain.get?_add_self ..)) haccepted hgains
              hkept
      cases hstep with
      | attempt x hx => exact hmoved (after_cases hx) fun hash b hget => hH b (Or.inr ⟨hash, hget⟩)
      | grow hgrows => exact hgrow hgrows hchain
      | build _ _ hbuild => exact hgrow (Skeleton.growsTo_of_build hbuild) hchain
      | commit _ hcommit => exact hgrow (Block.content_of_commit hcommit).1 hchain
      | reseal _ _ => exact hchain

end Each

/-! ## One more block -/

/-- A block that was just built can be inserted, if the chain takes it. -/
theorem Reached.insert {other : Rules} {parent : Option Block} {transactions : List Transaction}
    {miner nonce : Hash} {timestamp : UInt64} {skeleton : Skeleton} {a : Archive}
    (h : Reached R rules s) (hrules : other ∈ R) (hparent : ∀ p, parent = some p → s.Has p)
    (hbuild : Skeleton.build other parent transactions miner timestamp s.archive = .ok skeleton a)
    (hinsert : s.chain.insert ⟨skeleton, nonce⟩ a = .ok (c', hash) a') :
    Reached R rules ⟨a', (other, ⟨skeleton, nonce⟩) :: s.built, c'⟩ := by
  have hbuilt := h.step (.build nonce hparent hbuild)
  have hallowed : Allows R { s with archive := a, built := (other, ⟨skeleton, nonce⟩) :: s.built }
      (.insert ⟨skeleton, nonce⟩) := by
    rintro b hb
    cases hb
    exact ⟨other, hrules, List.mem_cons_self⟩
  have hafter := hbuilt.step (.attempt _ hallowed)
  have hrun : (Attempt.insert ⟨skeleton, nonce⟩).run s.chain a = .ok c' a' :=
    bind_eq_ok.mpr ⟨_, a', adaptExcept_eq_ok.mpr hinsert, rfl⟩
  rw [after_of_ok hrun] at hafter
  exact hafter

/-- A chain can come to have a block. -/
theorem exists_reached_first (hrules : { difficulty := 1 } ∈ R) :
    ∃ skeleton a stored a',
      Skeleton.build { difficulty := 1 } none [] Genesis.address 0 Archive.empty = .ok skeleton a ∧
      Block.commit ⟨skeleton, Blob.zero⟩ a = .ok stored a' ∧
      Reached R { difficulty := 1 } ⟨a', [({ difficulty := 1 }, ⟨skeleton, Blob.zero⟩)],
        (Chain.empty { difficulty := 1 }).add stored.hash stored⟩ ∧
      skeleton.header.prevBlockHash.isZero = true ∧ a'.Collisionless := by
  obtain ⟨skeleton, a, stored, a', hbuild, hcommit, hinsert, hprev, hcol⟩ :=
    Chain.exists_insert_first
  rw [← Block.hash_of_content (Block.content_of_commit hcommit).2] at hinsert
  exact ⟨skeleton, a, stored, a', hbuild, hcommit,
    Reached.start.insert hrules (fun _ h => by cases h) hbuild hinsert, hprev, hcol⟩

end Stage

end ScriptLedger
