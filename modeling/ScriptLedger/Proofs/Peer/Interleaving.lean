import Mathlib.Logic.Relation
import ScriptLedger.Proofs.Chain.ForkChoice
import ScriptLedger.Proofs.Chain.Rejection
import ScriptLedger.Proofs.Peer.Reached

/-!
# Callers at the same time

A chain has many callers, and they do not wait for each other.  A miner reads the canonical
head, goes away to build a block on it and to seal it, and comes back to have it inserted; by
then the chain may have many more blocks, and the stores that the block was built on much more
in them.  One who has received a block does the same with the parent that the block names, and
compares instead of searching.

`Act` is what one caller does at a time: it reads the chain, or forks the snapshot of a parent,
or applies one transaction, or seals, or inserts.  A `Site` is the chain with any number of
callers, and in each of its steps one of them acts.  Nobody holds the chain for longer than one
act, so whatever an implementation does under a lock is among these runs.

What a caller knows stays true while it is away, because a chain and its stores only grow: the
parent that it has read is there for ever, and so are the records that its snapshot names.

## Main results

* `Act.sound`, `Act.grown` — what one act preserves, of the chain and of what its caller knows.
* `Site.Leads.sound`, `Site.Leads.grown` — what any run preserves.
* `Site.leads_of_called` — calls that are made one after the other are such runs.
* `Site.interleaved` — blocks that were built on old heads are inserted, and nothing is lost.
-/

namespace ScriptLedger

open Sequencing

variable {rules : Rules} {a a' : Archive} {c c' : Chain} {b p x : Block} {hash : Hash}

/-! ## Callers -/

/-- A block to be: the parent that was found for it, what goes into it, and the header that it
has to come out with if it was received. -/
structure Draft where
  parent : Option Block
  transactions : List Transaction
  miner : Hash
  timestamp : UInt64
  received : Option BlockHeader

/-- The skeleton that comes of a draft. -/
def Draft.skeleton (draft : Draft) (rules : Rules) (place : Hash × UInt64 × UInt64)
    (world : World) (txTrie : Trie) : Skeleton :=
  { header :=
      { prevBlockHash := place.1, timestamp := draft.timestamp, height := place.2.1
        difficulty := rules.difficulty, accumulatedDifficulty := place.2.2
        minerAddress := draft.miner, stateRoot := world.rootHash, txRoot := txTrie.rootHash }
    transactions := (Skeleton.ordered draft.transactions).map (·.2), world, txTrie }

/-- What a caller is doing. -/
inductive Job
  | idle
  /-- It has a parent for its block. -/
  | started (draft : Draft)
  /-- It has a snapshot, and transactions that are left to be applied. -/
  | building (draft : Draft) (world : World) (txTrie : Trie) (left : List (Hash × Transaction))
  /-- It has a block to be inserted. -/
  | holding (b : Block)

/-- What a caller does with the chain and its stores. -/
inductive Act (a : Archive) (c : Chain) : Job → Archive → Chain → Job → Prop
  /-- A miner reads the canonical head. -/
  | read (transactions : List Transaction) (miner : Hash) (timestamp : UInt64) :
      Act a c .idle a c (.started
        { parent := c.canonicalHead, transactions, miner, timestamp, received := none })
  /-- A block was received, and its parent is looked up. -/
  | lookUp {header : BlockHeader} {parent : Option Block} (transactions : List Transaction)
      (hparent : c.parent header.skeleton.prevBlockHash = .ok parent) :
      Act a c .idle a c (.started
        { parent, transactions, miner := header.skeleton.minerAddress
          timestamp := header.skeleton.timestamp, received := some header })
  /-- The snapshot of the parent is forked. -/
  | fork {draft : Draft} {a' : Archive} {world : World}
      (hbase : Skeleton.base draft.parent a = .ok world a') :
      Act a c (.started draft) a' c
        (.building draft world Trie.empty (Skeleton.ordered draft.transactions))
  /-- One more transaction is applied. -/
  | apply {draft : Draft} {a' : Archive} {world world' : World} {txTrie txTrie' : Trie}
      {entry : Hash × Transaction} {left : List (Hash × Transaction)}
      (hadd : Skeleton.addTransaction c.rules.limits draft.miner (world, txTrie) entry a =
        .ok (world', txTrie') a') :
      Act a c (.building draft world txTrie (entry :: left)) a' c
        (.building draft world' txTrie' left)
  /-- The block is sealed; if it was received, it is the one that was. -/
  | finish {draft : Draft} {world : World} {txTrie : Trie} {place : Hash × UInt64 × UInt64}
      {nonce : Hash} (hplace : Skeleton.position c.rules.difficulty draft.parent = .ok place)
      (hseals : Miner.seals (draft.skeleton c.rules place world txTrie) nonce = true)
      (hreceived : ∀ header, draft.received = some header →
        (draft.skeleton c.rules place world txTrie).withNonce nonce = header) :
      Act a c (.building draft world txTrie []) a c
        (.holding ⟨draft.skeleton c.rules place world txTrie, nonce⟩)
  /-- The block is inserted. -/
  | insert {b : Block} {a' : Archive} {c' : Chain} {hash : Hash}
      (hinsert : c.insert b a = .ok (c', hash) a') : Act a c (.holding b) a' c' .idle
  /-- The caller gives up.  What it has written until then stays written. -/
  | quit {job : Job} {a' : Archive} (hgrows : a.GrowsTo a') : Act a c job a' c .idle

/-- A chain with its stores and its callers. -/
structure Site where
  archive : Archive
  chain : Chain
  jobs : Nat → Job

namespace Site

/-- Nobody does anything. -/
def quiet (a : Archive) (c : Chain) : Site := { archive := a, chain := c, jobs := fun _ => .idle }

/-- There is no block yet. -/
def start (rules : Rules) : Site := quiet Archive.empty (Chain.empty rules)

/-- The site after a caller has acted. -/
def turn (s : Site) (i : Nat) (a : Archive) (c : Chain) (job : Job) : Site :=
  { archive := a, chain := c, jobs := Function.update s.jobs i job }

section Turn

variable (s : Site) (i : Nat) (a : Archive) (c : Chain) (job : Job)

@[simp] theorem jobs_turn_self : (s.turn i a c job).jobs i = job := Function.update_self ..

theorem jobs_turn_of_ne {j : Nat} (h : j ≠ i) : (s.turn i a c job).jobs j = s.jobs j :=
  Function.update_of_ne h ..

@[simp] theorem turn_turn (a' : Archive) (c' : Chain) (job' : Job) :
    (s.turn i a c job).turn i a' c' job' = s.turn i a' c' job' := by
  simp only [turn, Function.update_idem]

theorem turn_self : s.turn i s.archive s.chain (s.jobs i) = s := by
  rw [turn, Function.update_eq_self]

theorem turn_quiet (a' : Archive) (c' : Chain) :
    (quiet a c).turn i a' c' .idle = quiet a' c' := by
  rw [turn, quiet, quiet, Function.update_eq_self_iff.mpr rfl]

end Turn

/-- One caller acts. -/
inductive Step (s : Site) : Site → Prop
  | turn (i : Nat) {a' : Archive} {c' : Chain} {job : Job}
      (hact : Act s.archive s.chain (s.jobs i) a' c' job) : Step s (s.turn i a' c' job)

/-- The callers act in some order. -/
def Leads : Site → Site → Prop := Relation.ReflTransGen Step

/-- One who has acted acts once more. -/
theorem step_turn {s : Site} {i : Nat} {job job' : Job} (hact : Act a c job a' c' job') :
    (s.turn i a c job).Step (s.turn i a' c' job') := by
  have hstep : (s.turn i a c job).Step ((s.turn i a c job).turn i a' c' job') :=
    .turn i ((s.jobs_turn_self i a c job).symm ▸ hact)
  rwa [turn_turn] at hstep

end Site

/-! ## What callers rely on -/

namespace Chain

/-- Blocks lie under their names, and their snapshots are backed. -/
structure Orderly (a : Archive) (c : Chain) : Prop where
  named : ∀ hash b, c.get? hash = some b → b.hash = hash
  backed : ∀ hash b, c.get? hash = some b → b.skeleton.world.Backed a

theorem orderly_empty (rules : Rules) : (Chain.empty rules).Orderly Archive.empty where
  named hash b hget := by simp at hget
  backed hash b hget := by simp at hget

theorem Orderly.growsTo (h : c.Orderly a) (hgrows : a.GrowsTo a') : c.Orderly a' where
  named := h.named
  backed hash b hget := (h.backed hash b hget).growsTo hgrows

theorem Orderly.add (h : c.Orderly a) (hb : b.skeleton.world.Backed a) :
    (c.add b.hash b).Orderly a where
  named hash x hget := by
    rcases get?_add_cases hget with ⟨rfl, rfl⟩ | hget
    · rfl
    · exact h.named hash x hget
  backed hash x hget := by
    rcases get?_add_cases hget with ⟨rfl, rfl⟩ | hget
    · exact hb
    · exact h.backed hash x hget

/-- The parent is one of the blocks, if there is one. -/
def Knows (c : Chain) (parent : Option Block) : Prop :=
  ∀ p, parent = some p → c.get? p.hash = some p

theorem Knows.mono {parent : Option Block} (h : c.Knows parent) (hextends : c.Extends c') :
    c'.Knows parent := fun p hp => hextends.get? _ _ (h p hp)

/-- A block that comes right after a parent that a chain knows has a parent in this chain. -/
theorem Knows.exists_parent {parent : Option Block} (h : c.Knows parent)
    (hb : b.Succeeds parent) : ∃ q, c.parent b.prevBlockHash = .ok q := by
  rw [hb.prev]
  cases parent with
  | none => exact ⟨none, c.parent_zero⟩
  | some p =>
      by_cases hzero : p.hash = Blob.zero
      · rw [Option.elim, hzero]
        exact ⟨none, c.parent_zero⟩
      · exact ⟨some p, parent_of_get? (h p rfl) hzero⟩

/-- It is this parent, unless a block is named zero. -/
theorem Knows.parent_eq {parent : Option Block} (h : c.Knows parent) (hb : b.Succeeds parent)
    (hzero : c.get? Blob.zero = none) : c.parent b.prevBlockHash = .ok parent := by
  rw [hb.prev]
  cases parent with
  | none => exact c.parent_zero
  | some p =>
      refine parent_of_get? (h p rfl) fun heq => ?_
      have hget : c.get? Blob.zero = some p := heq ▸ h p rfl
      rw [hzero] at hget
      cases hget

end Chain

/-- What a caller has is good, now and later: the chain knows the parent, the snapshot is
backed, and a block that is held comes right after a known parent and has its work done. -/
def Job.Sound (a : Archive) (c : Chain) : Job → Prop
  | .idle => True
  | .started draft => c.Knows draft.parent
  | .building draft world _ _ => c.Knows draft.parent ∧ world.Backed a
  | .holding b => b.meetsTarget = true ∧ b.skeleton.world.Backed a ∧
      ∃ parent, c.Knows parent ∧ b.Succeeds parent

theorem Job.Sound.mono {job : Job} (h : job.Sound a c) (hgrows : a.GrowsTo a')
    (hextends : c.Extends c') : job.Sound a' c' := by
  cases job with
  | idle => exact trivial
  | started draft => exact Chain.Knows.mono h hextends
  | building draft world txTrie left => exact ⟨h.1.mono hextends, h.2.growsTo hgrows⟩
  | holding b =>
      obtain ⟨hwork, hbacked, parent, hparent, hb⟩ := h
      exact ⟨hwork, hbacked.growsTo hgrows, parent, hparent.mono hextends, hb⟩

/-! ## One act -/

namespace Act

variable {job job' : Job}

theorem growsTo (h : Act a c job a' c' job') : a.GrowsTo a' := by
  cases h with
  | read | lookUp | finish => exact .refl a
  | fork hbase => exact ((Skeleton.yields_base _).1 _ _ hbase).1.untouched.toGrowsTo
  | apply hadd => exact ((Skeleton.yields_addTransaction _ _ _ _).1 _ _ hadd).confined.toGrowsTo
  | insert hinsert => exact Chain.growsTo_of_insert hinsert
  | quit hgrows => exact hgrows

theorem chain_extends (h : Act a c job a' c' job') : c.Extends c' := by
  cases h with
  | insert hinsert => exact Stage.extends_of_insert hinsert
  | _ => exact .refl c

/-- An act keeps the chain orderly, and leaves its caller with something sound. -/
theorem sound (h : Act a c job a' c' job') (hc : c.Orderly a) (hjob : job.Sound a c) :
    c'.Orderly a' ∧ job'.Sound a' c' := by
  have hkept := hc.growsTo h.growsTo
  cases h with
  | read transactions miner timestamp =>
      refine ⟨hc, fun p hp => ?_⟩
      obtain ⟨place, hget⟩ := Chain.get?_of_canonicalHead hp
      rw [hc.named place p hget]
      exact hget
  | lookUp transactions hparent =>
      refine ⟨hc, fun p hp => ?_⟩
      obtain rfl : _ = some p := hp
      have hget := Chain.parent_eq_some hparent
      rw [hc.named _ p hget]
      exact hget
  | fork hbase =>
      refine ⟨hkept, hjob, ((Skeleton.yields_base _).1 _ _ hbase).2.1 fun p hp => ?_⟩
      exact hc.backed _ p (hjob p hp)
  | apply hadd =>
      have hfollows := (Skeleton.yields_addTransaction _ _ _ _).1 _ _ hadd
      exact ⟨hkept, hjob.1, hfollows.backed hjob.2⟩
  | finish hplace hseals hreceived =>
      refine ⟨hc, hseals, hjob.2, _, hjob.1, ?_⟩
      exact Skeleton.succeeds_of_position hplace rfl rfl rfl
  | insert hinsert =>
      refine ⟨?_, trivial⟩
      rcases Chain.insert_cases hinsert with ⟨rfl, -⟩ | ⟨stored, hcommit, -, rfl⟩
      · exact hkept
      · exact hkept.add (Block.backed_of_commit hcommit hjob.2.1)
  | quit => exact ⟨hkept, trivial⟩

/-- Blocks come right after their parents, if none is named zero. -/
theorem grown (h : Act a c job a' c' job') (hjob : job.Sound a c)
    (hzero : c'.get? Blob.zero = none) (hc : c.Grown) : c'.Grown := by
  cases h with
  | insert hinsert =>
      obtain ⟨-, -, parent, hparent, hb⟩ := hjob
      rcases Chain.insert_cases hinsert with ⟨rfl, -⟩ | ⟨stored, hcommit, hgains, rfl⟩
      · exact hc
      have hcontent := (Block.content_of_commit hcommit).2
      have hstored := hb.of_header (Block.skeletonHeader_of_content hcontent).symm
      have hnonzero : stored.hash ≠ Blob.zero := by
        intro heq
        rw [← heq, Chain.get?_add_self] at hzero
        cases hzero
      -- The parent that the block was built on is the one that the chain finds under its name.
      exact hc.add hgains.new hnonzero (hparent.parent_eq hstored hc.rooted.nonzero) hstored
  | _ => exact hc

end Act

/-! ## Runs -/

namespace Site

variable {s t : Site} {i : Nat} {job : Job}

/-- The chain is orderly, and every caller has something sound. -/
structure Sound (s : Site) : Prop where
  orderly : s.chain.Orderly s.archive
  jobs : ∀ i, (s.jobs i).Sound s.archive s.chain

theorem sound_start (rules : Rules) : (start rules).Sound :=
  ⟨Chain.orderly_empty rules, fun _ => trivial⟩

namespace Step

theorem chain_extends (h : s.Step t) : s.chain.Extends t.chain := by
  cases h with
  | turn i hact => exact hact.chain_extends

/-- What one caller does leaves all others with what they had. -/
theorem sound (h : s.Step t) (hs : s.Sound) : t.Sound := by
  cases h with
  | @turn i a' c' job hact =>
      obtain ⟨horderly, hjob⟩ := hact.sound hs.orderly (hs.jobs i)
      refine ⟨horderly, fun j => ?_⟩
      -- The one who has acted has something sound again; to the others the chain has only grown.
      by_cases hj : j = i
      · subst hj
        rw [jobs_turn_self]
        exact hjob
      · rw [jobs_turn_of_ne _ _ _ _ _ hj]
        exact (hs.jobs j).mono hact.growsTo hact.chain_extends

end Step

namespace Leads

theorem chain_extends (h : s.Leads t) : s.chain.Extends t.chain := by
  induction h with
  | refl => exact .refl _
  | tail _ hstep ih => exact ih.trans hstep.chain_extends

theorem sound (h : s.Leads t) (hs : s.Sound) : t.Sound := by
  induction h with
  | refl => exact hs
  | tail _ hstep ih => exact hstep.sound ih

/-- However the callers act, blocks come right after their parents, if none is named zero. -/
theorem grown (h : (start rules).Leads s) (hzero : s.chain.get? Blob.zero = none) :
    s.chain.Grown := by
  induction h with
  | refl => exact .empty rules
  | @tail s t h hstep ih =>
      have hbefore := hstep.chain_extends.get?_eq_none hzero
      have hsound := Leads.sound h (sound_start rules)
      cases hstep with
      | turn i hact => exact hact.grown (hsound.jobs i) hzero (ih hbefore)

end Leads

/-! ## One call after the other -/

section Calls

variable {draft : Draft} {skeleton : Skeleton} {nonce : Hash}

/-- Transactions that are applied in a loop are applied one at a time. -/
theorem leads_apply {world world' : World} {txTrie txTrie' : Trie}
    {left : List (Hash × Transaction)}
    (hloop : left.foldlM (Skeleton.addTransaction c.rules.limits draft.miner) (world, txTrie) a =
      .ok (world', txTrie') a') :
    (s.turn i a c (.building draft world txTrie left)).Leads
      (s.turn i a' c (.building draft world' txTrie' [])) := by
  induction left generalizing a world txTrie with
  | nil =>
      cases hloop
      exact .refl
  | cons entry left ih =>
      rw [List.foldlM_cons] at hloop
      obtain ⟨⟨next, nextTrie⟩, mid, hadd, hrest⟩ := bind_eq_ok.mp hloop
      exact .head (step_turn (.apply hadd)) (ih hrest)

/-- A block that is built and sealed is one that its caller comes to hold. -/
theorem leads_build (draft : Draft)
    (hbuild : Skeleton.build c.rules draft.parent draft.transactions draft.miner draft.timestamp a =
      .ok skeleton a')
    (hseals : Miner.seals skeleton nonce = true)
    (hreceived : ∀ header, draft.received = some header → skeleton.withNonce nonce = header) :
    (s.turn i a c (.started draft)).Leads (s.turn i a' c (.holding ⟨skeleton, nonce⟩)) := by
  obtain ⟨start, mid, world, txTrie, place, hbase, hloop, hplace, rfl⟩ :=
    Skeleton.build_eq_ok_iff.mp hbuild
  exact .head (step_turn (.fork hbase))
    ((leads_apply hloop).tail (step_turn (.finish hplace hseals hreceived)))

/-- One who knows a parent builds, seals and inserts without a pause. -/
theorem leads_insert {mid : Archive}
    (hstart : Act s.archive s.chain (s.jobs i) s.archive s.chain (.started draft))
    (hbuild : Skeleton.build s.chain.rules draft.parent draft.transactions draft.miner
      draft.timestamp s.archive = .ok skeleton mid)
    (hreceived : ∀ header, draft.received = some header → skeleton.withNonce nonce = header)
    (hinsert : s.chain.insert ⟨skeleton, nonce⟩ mid = .ok (c', hash) a') :
    s.Leads (s.turn i a' c' .idle) := by
  have hseals : Miner.seals skeleton nonce = true := (Chain.insert_eq_ok_iff.mp hinsert).1
  exact .head (.turn i hstart)
    ((leads_build _ hbuild hseals hreceived).tail (step_turn (.insert hinsert)))

/-- What comes of calls that wait for each other comes of steps. -/
theorem leads_of_called {p : Peer} (h : Peer.Called rules a p) :
    (start rules).Leads (quiet a p.chain) := by
  have hquit : ∀ {a a' : Archive} {p : Peer}, a.GrowsTo a' →
      (start rules).Leads (quiet a p.chain) → (start rules).Leads (quiet a' p.chain) := by
    intro a a' p hgrows hleads
    have hstep : (quiet a p.chain).Step ((quiet a p.chain).turn 0 a' p.chain .idle) :=
      .turn 0 (.quit hgrows)
    rw [turn_quiet] at hstep
    exact hleads.tail hstep
  induction h with
  | start miner minerAddress => exact .refl
  | @mined a a' p p' transactions timestamp hash h hmine ih =>
      obtain ⟨skeleton, mid, nonce, hbuild, hinsert⟩ := Peer.mine_eq_ok hmine
      have hleads := leads_insert (s := quiet a p.chain) (i := 0)
        (.read transactions p.minerAddress timestamp) hbuild (fun _ h => by cases h) hinsert
      rw [turn_quiet] at hleads
      exact ih.trans hleads
  | @failed a a' p transactions timestamp cause h hmine ih =>
      have hrun : (Attempt.mine p transactions timestamp).run p.chain a = .error (.inl cause) a' :=
        bind_of_error (adaptExcept_eq_error.mpr ⟨cause, hmine, rfl⟩)
      exact hquit (Stage.growsTo_of_error (R := ∅) (s := Peer.stage a p)
        (fun b hb => by cases hb) hrun) ih
  | @answered a a' p p' method params reply h hanswer ih =>
      rcases Peer.answer_eq_ok hanswer with ⟨rfl, rfl⟩ | hadd
      · exact ih
      obtain ⟨header, transactions, chain, hash, -, hreceive, rfl, -⟩ :=
        Peer.addBlock_eq_ok_iff.mp hadd
      obtain ⟨parent, skeleton, mid, hparent, hbuild, hheader, hinsert⟩ :=
        Chain.receive_eq_ok_iff.mp hreceive
      have hleads := leads_insert (s := quiet a p.chain) (i := 0)
        (.lookUp transactions hparent) hbuild (fun _ h => ?_) hinsert
      · rw [turn_quiet] at hleads
        exact ih.trans hleads
      · cases h
        rw [Skeleton.withNonce, hheader]
  | @refused a a' p method params cause h hanswer ih =>
      have hrun : (Attempt.request p method params).run p.chain a = .error (.inr cause) a' :=
        bind_of_error (adaptExcept_eq_error.mpr ⟨cause, hanswer, rfl⟩)
      exact hquit (Stage.growsTo_of_error (R := ∅) (s := Peer.stage a p)
        (fun b hb => by cases hb) hrun) ih

end Calls

/-- Two miners read a chain without blocks; then one of them inserts what it has built and
sealed, and the other one builds and seals with another nonce. -/
theorem exists_leads_first :
    ∃ s b old, (start { difficulty := 1 }).Leads s ∧
      s.chain = (Chain.empty { difficulty := 1 }).add old.hash old ∧
      s.jobs 1 = .holding b ∧ (∀ i, i ≠ 1 → s.jobs i = .idle) ∧
      old.header = Genesis.sealed Blob.zero ∧ b.header = Genesis.sealed Genesis.ones := by
  obtain ⟨skeleton, a, old, a₁, hbuild, hcommit, hinsert, -, hcol⟩ := Chain.exists_insert_first
  obtain ⟨hgrows, hold⟩ := Block.content_of_commit hcommit
  obtain ⟨again, a₂, hagain, hcontent⟩ := Skeleton.exists_build_again hbuild hgrows hcol
  have hfirst := Skeleton.content_of_build_first hbuild
  rw [← Block.hash_of_content hold] at hinsert
  let draft : Draft :=
    { parent := none, transactions := [], miner := Genesis.address, timestamp := 0
      received := none }
  have hread : Act Archive.empty (Chain.empty { difficulty := 1 }) .idle Archive.empty
      (Chain.empty { difficulty := 1 }) (.started draft) := .read [] Genesis.address 0
  -- Both read before any of them inserts.
  let s₁ := (start { difficulty := 1 }).turn 1 Archive.empty (Chain.empty { difficulty := 1 })
    (.started draft)
  have hidle : s₁.jobs 0 = .idle := jobs_turn_of_ne _ _ _ _ _ (by decide)
  let s₂ := s₁.turn 0 a₁ ((Chain.empty { difficulty := 1 }).add old.hash old) .idle
  have hstart : Act s₁.archive s₁.chain (s₁.jobs 0) s₁.archive s₁.chain (.started draft) := by
    rw [hidle]
    exact hread
  have hinserted : s₁.Leads s₂ := leads_insert hstart hbuild (fun _ h => by cases h) hinsert
  have hstarted : s₂.jobs 1 = .started draft := by
    rw [jobs_turn_of_ne _ _ _ _ _ (by decide), jobs_turn_self]
  have hsealed : again.withNonce Genesis.ones = Genesis.sealed Genesis.ones :=
    Skeleton.withNonce_of_content _ (hcontent.trans hfirst)
  have hseals : Miner.seals again Genesis.ones = true := by
    refine Work.meetsTarget_of_le_one _ ?_
    rw [hsealed]
    exact Nat.le_refl 1
  have hheld := leads_build (s := s₂) (i := 1)
    (c := (Chain.empty { difficulty := 1 }).add old.hash old) draft hagain hseals
    fun _ h => by cases h
  rw [show s₂.turn 1 a₁ _ (.started draft) = s₂ from hstarted ▸ s₂.turn_self 1] at hheld
  refine ⟨_, _, old, .head (.turn 1 hread) (hinserted.trans hheld), rfl, jobs_turn_self _ _ _ _ _,
    fun i hi => ?_, ?_, hsealed⟩
  · rw [jobs_turn_of_ne _ _ _ _ _ hi]
    by_cases hzero : i = 0
    · rw [hzero, jobs_turn_self]
    · rw [jobs_turn_of_ne _ _ _ _ _ hzero, jobs_turn_of_ne _ _ _ _ _ hi]
      rfl
  · exact (Block.header_of_content hold).trans (Skeleton.withNonce_of_content _ hfirst)

/-! ## What is inserted stays -/

/-- The headers of the blocks of the chain, and of those that callers hold. -/
def headers (s : Site) : Set BlockHeader :=
  {header | ∃ b, ((∃ hash, s.chain.get? hash = some b) ∨ ∃ i, s.jobs i = .holding b) ∧
    b.header = header}

/-- A block that a caller holds is inserted, whatever was inserted since its parent was read,
and is in the chain then. -/
theorem Sound.exists_insert (h : s.Sound) (hjob : s.jobs i = .holding b) :
    ∃ c' a' stored, s.chain.insert b s.archive = .ok (c', b.hash) a' ∧
      c'.get? b.hash = some stored ∧
        (stored.content = b.content ∨ s.chain.get? b.hash = some stored) := by
  have hheld := h.jobs i
  rw [hjob] at hheld
  obtain ⟨hwork, hbacked, parent, hparent, hb⟩ := hheld
  have hknown := hparent.exists_parent hb
  cases hthere : s.chain.contains b.hash with
  | true =>
      obtain ⟨stored, hstored⟩ := Chain.exists_get? hthere
      exact ⟨s.chain, s.archive, stored,
        Chain.insert_eq_ok_iff.mpr ⟨hwork, hknown, rfl, Or.inl ⟨hthere, rfl, rfl⟩⟩, hstored,
        Or.inr hstored⟩
  | false =>
      obtain ⟨world, a', hcommit, -⟩ := hbacked.exists_commit
      have hstored : b.commit s.archive =
          .ok { b with skeleton := { b.skeleton with world } } a' := bind_of_ok hcommit
      exact ⟨_, a', _,
        Chain.insert_eq_ok_iff.mpr ⟨hwork, hknown, rfl, Or.inr ⟨hthere, _, hstored, rfl⟩⟩,
        Chain.get?_add_self .., Or.inl (Block.content_of_commit hstored).2⟩

/-- However many callers there are and in whatever order they act, if no two headers have the
same digest: the heads are the blocks that no block names as its parent; no block is ever lost,
and the work of the canonical head does not decrease; and a block that was built and sealed on
whatever head its miner has read, or that was received, is inserted without failure, is known
then, and stays known for ever.

Zero is what a first block has in place of the name of a parent, so what is said of heads asks
that no block is named zero. -/
theorem interleaved (hreached : (start rules).Leads s) (hs : s.headers.InjOn Record.hash) :
    (s.chain.get? Blob.zero = none → ∀ hash, hash ∈ s.chain.heads ↔
      s.chain.contains hash = true ∧
        ∀ place b, s.chain.get? place = some b → b.prevBlockHash ≠ hash) ∧
    (∀ t, s.Leads t → (∀ hash b, s.chain.get? hash = some b → t.chain.get? hash = some b) ∧
      (t.chain.get? Blob.zero = none → ∀ best, s.chain.canonicalHead = some best →
        ∃ best', t.chain.canonicalHead = some best' ∧
          best.accumulatedDifficulty ≤ best'.accumulatedDifficulty)) ∧
    ∀ i b, s.jobs i = .holding b →
      ∃ c' a' stored, s.chain.insert b s.archive = .ok (c', b.hash) a' ∧
        s.Step (s.turn i a' c' .idle) ∧ stored.header = b.header ∧
          ∀ t, (s.turn i a' c' .idle).Leads t → t.chain.get? b.hash = some stored := by
  refine ⟨fun hzero hash => (hreached.grown hzero).mem_heads_iff, fun t hleads => ?_, ?_⟩
  · refine ⟨hleads.chain_extends.get?, fun hzero best hbest => ?_⟩
    have hgrown := hreached.grown (hleads.chain_extends.get?_eq_none hzero)
    have hlater : (start rules).Leads t := hreached.trans hleads
    exact hgrown.exists_heavier (hlater.grown hzero) hleads.chain_extends hbest
  · intro i b hjob
    have hsound := hreached.sound (sound_start rules)
    obtain ⟨c', a', stored, hinsert, hstored, hsame⟩ := hsound.exists_insert hjob
    refine ⟨c', a', stored, hinsert, .turn i (hjob ▸ .insert hinsert), ?_, fun t hleads => ?_⟩
    -- If there is a block of this name already, it has the same header.
    · rcases hsame with hcontent | hold
      · exact Block.header_of_content hcontent
      · have hname := hsound.orderly.named _ stored hold
        exact hs ⟨stored, Or.inl ⟨_, hold⟩, rfl⟩ ⟨b, Or.inr ⟨i, hjob⟩, rfl⟩ hname
    · exact hleads.chain_extends.get? _ _ hstored

/-- Two miners have read the chain while it was empty.  One of them has inserted its first block,
and the other one, who has another nonce, inserts its own next to it. -/
theorem interleaved_first :
    ∃ s b old c' a' stored, (start { difficulty := 1 }).Leads s ∧ s.headers.InjOn Record.hash ∧
      s.chain.get? Blob.zero = none ∧ s.jobs 1 = .holding b ∧
      s.chain.contains b.hash = false ∧ b.prevBlockHash = old.prevBlockHash ∧
      old.hash ∈ s.chain.heads ∧ s.chain.insert b s.archive = .ok (c', b.hash) a' ∧
      stored.header = b.header ∧ c'.get? b.hash = some stored ∧ c'.get? old.hash = some old := by
  obtain ⟨s, b, old, hleads, hchain, hjob, hidle, hold, hb⟩ := exists_leads_first
  obtain ⟨hnonzero, hnodup⟩ := List.nodup_cons.mp Genesis.nodup_sealed
  have hne : b.hash ≠ old.hash := by
    rw [Block.hash, Block.hash, hb, hold]
    exact fun heq => (List.nodup_cons.mp hnodup).1 (List.mem_singleton.mpr heq.symm)
  have hold_ne : Blob.zero ≠ old.hash := by
    rw [Block.hash, hold]
    exact fun heq => hnonzero (List.mem_cons.mpr (Or.inl heq))
  have hfind : ∀ hash, s.chain.get? hash = if hash = old.hash then some old else none := by
    intro hash
    rw [hchain, Chain.get?_add_eq, Chain.get?_empty]
  -- There are two headers.
  have hheaders : s.headers ⊆ {old.header, b.header} := by
    rintro _ ⟨x, ⟨place, hget⟩ | ⟨i, hx⟩, rfl⟩
    · rw [hfind, Option.ite_none_right_eq_some] at hget
      exact Or.inl (Option.some.inj hget.2 ▸ rfl)
    · by_cases hi : i = 1
      · rw [hi, hjob] at hx
        cases hx
        exact Or.inr rfl
      · rw [hidle i hi] at hx
        cases hx
  have hinjective : s.headers.InjOn Record.hash :=
    Set.InjOn.mono hheaders (Set.injOn_pair.mpr fun heq => absurd heq.symm hne)
  have hprev : b.prevBlockHash = old.prevBlockHash :=
    (congrArg (·.skeleton.prevBlockHash) hb).trans (congrArg (·.skeleton.prevBlockHash) hold).symm
  have hnew : s.chain.contains b.hash = false := by
    rw [Chain.contains_eq, hfind, if_neg hne]
    rfl
  have hzero : s.chain.get? Blob.zero = none := by rw [hfind, if_neg hold_ne]
  have hget : s.chain.get? old.hash = some old := by rw [hfind, if_pos rfl]
  obtain ⟨hheads, hkept, hinserted⟩ := interleaved hleads hinjective
  have hhead : old.hash ∈ s.chain.heads := by
    refine (hheads hzero _).mpr ⟨by rw [Chain.contains_eq, hget]; rfl, fun place x hx => ?_⟩
    rw [hfind, Option.ite_none_right_eq_some] at hx
    obtain rfl := Option.some.inj hx.2
    exact fun heq => hold_ne ((congrArg (·.skeleton.prevBlockHash) hold).symm.trans heq)
  obtain ⟨c', a', stored, hinsert, hstep, hheader, hstays⟩ := hinserted 1 b hjob
  exact ⟨s, b, old, c', a', stored, hleads, hinjective, hzero, hjob, hnew, hprev, hhead, hinsert,
    hheader, hstays _ .refl, (hkept _ (.single hstep)).1 _ _ hget⟩

end Site

end ScriptLedger
