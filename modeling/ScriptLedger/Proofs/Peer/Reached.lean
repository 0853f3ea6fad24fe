import ScriptLedger.Proofs.Chain.Revalidation

/-!
# Peers over time

A peer begins without blocks; it mines, and it answers what it is asked.  `Peer.Reached` is
what can come of this, calls that fail included, if the transactions that are mined follow
their rules.  A peer that was reached holds a chain that was reached, and its blocks have
only transactions that follow their rules, because those that are received are checked.

## Main results

* `Peer.Reached.stage` — what is known of chains is known of those of peers.
* `Peer.Reached.valid` — every transaction of a block follows its rules.
-/

namespace ScriptLedger

open Sequencing

variable {rules : Rules} {a a' : Archive} {c c' : Chain} {b x : Block} {hash place : Hash}

/-- A name that is there after an insertion was there before, or is that of the block. -/
theorem Chain.content_of_insert (h : c.insert b a = .ok (c', hash) a')
    (hget : c'.get? place = some x) : x.content = b.content ∨ c.get? place = some x := by
  rcases Chain.insert_cases h with ⟨rfl, -⟩ | ⟨stored, hcommit, -, rfl⟩
  · exact Or.inr hget
  · rcases Chain.get?_add_cases hget with ⟨-, rfl⟩ | hget
    · exact Or.inl (Block.content_of_commit hcommit).2
    · exact Or.inr hget

namespace Peer

variable {p p' : Peer} {transactions : List Transaction} {timestamp : UInt64} {method : String}
variable {params reply : Json}

/-! ## Calls -/

/-- What a peer has built on the canonical head and sealed, before it is inserted. -/
def sealed (p : Peer) (transactions : List Transaction) (timestamp : UInt64) :
    Archived BlockError Block := do
  let skeleton ←
    Skeleton.build p.chain.rules p.chain.canonicalHead transactions p.minerAddress timestamp
  ofExcept (p.miner.mine skeleton)

/-- To mine is to seal a block and to insert it. -/
theorem mine_eq_ok_iff :
    p.mine transactions timestamp a = .ok (p', hash) a' ↔ ∃ b mid chain,
      p.sealed transactions timestamp a = .ok b mid ∧
        p.chain.insert b mid = .ok (chain, hash) a' ∧ p' = { p with chain } := by
  constructor
  · intro h
    obtain ⟨skeleton, mid, hbuild, h⟩ := bind_eq_ok.mp h
    obtain ⟨b, last, hmined, h⟩ := bind_eq_ok.mp h
    obtain ⟨⟨chain, place⟩, _, hinsert, h⟩ := bind_eq_ok.mp h
    obtain ⟨hsame, rfl⟩ := pure_eq_ok.mp h
    cases hsame
    exact ⟨b, last, chain, bind_eq_ok.mpr ⟨skeleton, mid, hbuild, hmined⟩, hinsert, rfl⟩
  · rintro ⟨b, last, chain, hsealed, hinsert, rfl⟩
    obtain ⟨skeleton, mid, hbuild, hmined⟩ := bind_eq_ok.mp hsealed
    exact bind_eq_ok.mpr ⟨skeleton, mid, hbuild, bind_eq_ok.mpr ⟨b, last, hmined,
      bind_eq_ok.mpr ⟨(chain, hash), a', hinsert, rfl⟩⟩⟩

theorem sealed_eq_ok (h : p.sealed transactions timestamp a = .ok b a') :
    ∃ skeleton nonce, Skeleton.build p.chain.rules p.chain.canonicalHead transactions
      p.minerAddress timestamp a = .ok skeleton a' ∧ b = ⟨skeleton, nonce⟩ := by
  obtain ⟨skeleton, mid, hbuild, h⟩ := bind_eq_ok.mp h
  obtain ⟨hmined, rfl⟩ := ofExcept_eq_ok.mp h
  unfold Miner.mine at hmined
  cases hsearch : p.miner.search skeleton with
  | none => rw [hsearch] at hmined; cases hmined
  | some nonce =>
      rw [hsearch] at hmined
      cases hmined
      exact ⟨skeleton, nonce, hbuild, rfl⟩

/-- A block that is mined was built from the transactions, and inserted. -/
theorem mine_eq_ok (h : p.mine transactions timestamp a = .ok (p', hash) a') :
    ∃ skeleton mid nonce,
      Skeleton.build p.chain.rules p.chain.canonicalHead transactions p.minerAddress timestamp a =
        .ok skeleton mid ∧
      p.chain.insert ⟨skeleton, nonce⟩ mid = .ok (p'.chain, hash) a' := by
  obtain ⟨b, mid, chain, hsealed, hinsert, rfl⟩ := mine_eq_ok_iff.mp h
  obtain ⟨skeleton, nonce, hbuild, rfl⟩ := sealed_eq_ok hsealed
  exact ⟨skeleton, mid, nonce, hbuild, hinsert⟩

/-- A block that is added is received with transactions that follow their rules. -/
theorem addBlock_eq_ok_iff :
    p.addBlock params a = .ok (p', reply) a' ↔
      ∃ header transactions chain hash, readBody params = .ok (header, transactions) ∧
        p.chain.receive header transactions a = .ok (chain, hash) a' ∧ p' = { p with chain } ∧
        reply = .object [("hash", .ofBlob hash),
          ("height", .ofUInt64 (((chain.get? hash).map Block.height).getD 0)),
          ("is_head", .bool (chain.canonicalHead.map Block.hash = some hash))] := by
  constructor
  · intro h
    obtain ⟨⟨header, transactions⟩, mid, hread, h⟩ := bind_eq_ok.mp h
    obtain ⟨hbody, rfl⟩ := ofExcept_eq_ok.mp hread
    obtain ⟨⟨chain, hash⟩, last, hreceive, h⟩ := bind_eq_ok.mp h
    obtain ⟨hsame, rfl⟩ := pure_eq_ok.mp h
    cases hsame
    exact ⟨header, transactions, chain, hash, hbody, adaptExcept_eq_ok.mp hreceive, rfl, rfl⟩
  · rintro ⟨header, transactions, chain, hash, hread, hreceive, rfl, rfl⟩
    exact (bind_of_ok (ofExcept_eq_ok.mpr ⟨hread, rfl⟩)).trans
      (bind_of_ok (adaptExcept_eq_ok.mpr hreceive))

theorem valid_of_readBody {header : BlockHeader}
    (h : readBody params = .ok (header, transactions)) :
    ∀ tx ∈ transactions, tx.validate = .ok () := by
  obtain ⟨_, -, h⟩ := except_bind_eq_ok.mp h
  obtain ⟨_, -, h⟩ := except_bind_eq_ok.mp h
  obtain ⟨_, -, h⟩ := except_bind_eq_ok.mp h
  obtain ⟨l, -, h⟩ := except_bind_eq_ok.mp h
  split at h
  · next hvalid =>
    cases h
    exact except_forM_eq_ok.mp hvalid
  · cases h

/-- An answer leaves the peer as it is, unless it is one to a block. -/
theorem answer_eq_ok (h : p.answer method params a = .ok (p', reply) a') :
    (p' = p ∧ a' = a) ∨ p.addBlock params a = .ok (p', reply) a' := by
  unfold answer at h
  split at h
  · cases h
    exact Or.inl ⟨rfl, rfl⟩
  · obtain ⟨_, _, hread, h⟩ := bind_eq_ok.mp h
    obtain ⟨-, rfl⟩ := ofExcept_eq_ok.mp hread
    cases h
    exact Or.inl ⟨rfl, rfl⟩
  · exact Or.inr h
  · cases h

/-! ## What can come of a peer -/

/-- What can come of a peer without blocks and of the stores that it writes to.  A call that
fails leaves the peer as it was, but not the stores. -/
inductive Reached (rules : Rules) : Archive → Peer → Prop
  | start (miner : Miner) (minerAddress : Hash) :
      Reached rules Archive.empty { chain := Chain.empty rules, miner, minerAddress }
  | mined {a a' : Archive} {p p' : Peer} {transactions : List Transaction} {timestamp : UInt64}
      {hash : Hash} (h : Reached rules a p) (hvalid : ∀ tx ∈ transactions, tx.validate = .ok ())
      (hmine : p.mine transactions timestamp a = .ok (p', hash) a') : Reached rules a' p'
  | failed {a a' : Archive} {p : Peer} {transactions : List Transaction} {timestamp : UInt64}
      {cause : BlockError} (h : Reached rules a p)
      (hmine : p.mine transactions timestamp a = .error cause a') : Reached rules a' p
  | answered {a a' : Archive} {p p' : Peer} {method : String} {params reply : Json}
      (h : Reached rules a p) (hanswer : p.answer method params a = .ok (p', reply) a') :
      Reached rules a' p'
  | refused {a a' : Archive} {p : Peer} {method : String} {params : Json} {cause : RequestError}
      (h : Reached rules a p) (hanswer : p.answer method params a = .error cause a') :
      Reached rules a' p

/-- The same, whatever the transactions are that are mined. -/
inductive Called (rules : Rules) : Archive → Peer → Prop
  | start (miner : Miner) (minerAddress : Hash) :
      Called rules Archive.empty { chain := Chain.empty rules, miner, minerAddress }
  | mined {a a' : Archive} {p p' : Peer} {transactions : List Transaction} {timestamp : UInt64}
      {hash : Hash} (h : Called rules a p)
      (hmine : p.mine transactions timestamp a = .ok (p', hash) a') : Called rules a' p'
  | failed {a a' : Archive} {p : Peer} {transactions : List Transaction} {timestamp : UInt64}
      {cause : BlockError} (h : Called rules a p)
      (hmine : p.mine transactions timestamp a = .error cause a') : Called rules a' p
  | answered {a a' : Archive} {p p' : Peer} {method : String} {params reply : Json}
      (h : Called rules a p) (hanswer : p.answer method params a = .ok (p', reply) a') :
      Called rules a' p'
  | refused {a a' : Archive} {p : Peer} {method : String} {params : Json} {cause : RequestError}
      (h : Called rules a p) (hanswer : p.answer method params a = .error cause a') :
      Called rules a' p

theorem Reached.called (h : Reached rules a p) : Called rules a p := by
  induction h with
  | start miner minerAddress => exact .start miner minerAddress
  | mined _ _ hmine ih => exact .mined ih hmine
  | failed _ hmine ih => exact .failed ih hmine
  | answered _ hanswer ih => exact .answered ih hanswer
  | refused _ hanswer ih => exact .refused ih hanswer

/-- The chain of a peer with what is around it; no block is held back. -/
def stage (a : Archive) (p : Peer) : Stage := { archive := a, built := [], chain := p.chain }

theorem has_stage : (stage a p).Has b ↔ ∃ hash, p.chain.get? hash = some b := by
  simp [stage, Stage.Has]

namespace Reached

/-- The chain of a peer is one that can be reached. -/
theorem stage (h : Reached rules a p) : Stage.Reached {rules} rules (stage a p) := by
  -- A call is an attempt, and no block is inserted that was built before.
  have hdone : ∀ {a a' : Archive} {p p' : Peer} {x : Attempt},
      Stage.Reached {rules} rules (Peer.stage a p) → (∀ b, x ≠ .insert b) →
        x.run p.chain a = .ok p'.chain a' → Stage.Reached {rules} rules (Peer.stage a' p') := by
    intro a a' p p' x hreached hx hrun
    have hafter := hreached.step (.attempt x fun b hb => absurd hb (hx b))
    rwa [Stage.after_of_ok (s := Peer.stage a p) hrun] at hafter
  have hfailed : ∀ {a a' : Archive} {p : Peer} {x : Attempt} {e : BlockError ⊕ RequestError},
      Stage.Reached {rules} rules (Peer.stage a p) → (∀ b, x ≠ .insert b) →
        x.run p.chain a = .error e a' → Stage.Reached {rules} rules (Peer.stage a' p) := by
    intro a a' p x e hreached hx hrun
    have hafter := hreached.step (.attempt x fun b hb => absurd hb (hx b))
    rwa [Stage.after_of_error (s := Peer.stage a p) hrun] at hafter
  induction h with
  | start miner minerAddress => exact .start
  | @mined a a' p p' transactions timestamp hash h hvalid hmine ih =>
      exact hdone (x := .mine p transactions timestamp) ih (fun b hb => by cases hb)
        (bind_of_ok (adaptExcept_eq_ok.mpr hmine))
  | @failed a a' p transactions timestamp cause h hmine ih =>
      exact hfailed (x := .mine p transactions timestamp) ih (fun b hb => by cases hb)
        (bind_of_error (adaptExcept_eq_error.mpr ⟨cause, hmine, rfl⟩))
  | @answered a a' p p' method params reply h hanswer ih =>
      exact hdone (x := .request p method params) ih (fun b hb => by cases hb)
        (bind_of_ok (adaptExcept_eq_ok.mpr hanswer))
  | @refused a a' p method params cause h hanswer ih =>
      exact hfailed (x := .request p method params) ih (fun b hb => by cases hb)
        (bind_of_error (adaptExcept_eq_error.mpr ⟨cause, hanswer, rfl⟩))

/-- Every transaction of a block follows its rules. -/
theorem valid (h : Reached rules a p) (hget : p.chain.get? hash = some b) :
    ∀ tx ∈ b.skeleton.transactions, tx.validate = .ok () := by
  have hbuilt : ∀ {rules parent transactions miner timestamp skeleton} {a a' : Archive} {nonce},
      Skeleton.build rules parent transactions miner timestamp a = .ok skeleton a' →
        (∀ tx ∈ transactions, tx.validate = .ok ()) → b.content = Block.content ⟨skeleton, nonce⟩ →
          ∀ tx ∈ b.skeleton.transactions, tx.validate = .ok () := by
    intro rules parent transactions miner timestamp skeleton a a' nonce hbuild hvalid hcontent tx hmem
    rw [Block.transactions_of_content hcontent, (Skeleton.asked_of_build hbuild).1] at hmem
    exact hvalid tx (Skeleton.mem_ordered.mp hmem)
  induction h generalizing hash with
  | start miner minerAddress => simp at hget
  | failed h hmine ih => exact ih hget
  | refused h hanswer ih => exact ih hget
  | mined h hvalid hmine ih =>
      obtain ⟨skeleton, mid, nonce, hbuild, hinsert⟩ := mine_eq_ok hmine
      rcases Chain.content_of_insert hinsert hget with hcontent | hold
      · exact hbuilt hbuild hvalid hcontent
      · exact ih hold
  | answered h hanswer ih =>
      rcases answer_eq_ok hanswer with ⟨rfl, -⟩ | hadd
      · exact ih hget
      obtain ⟨header, transactions, chain, _, hread, hreceive, rfl, -⟩ := addBlock_eq_ok_iff.mp hadd
      obtain ⟨parent, skeleton, mid, -, hbuild, -, hinsert⟩ := Chain.receive_eq_ok_iff.mp hreceive
      rcases Chain.content_of_insert hinsert hget with hcontent | hold
      · exact hbuilt hbuild (valid_of_readBody hread) hcontent
      · exact ih hold

end Reached

/-- A miner that tries one nonce tries the one that is zero. -/
theorem search_of_seals {skeleton : Skeleton} (h : Miner.seals skeleton Blob.zero = true) :
    Miner.search { threads := 1, maxAttempts := 1 } skeleton = some Blob.zero := by
  have hlanes : Miner.lanes { threads := 1, maxAttempts := 1 } = 1 := by decide
  have hattempts : Miner.attemptsPerLane { threads := 1, maxAttempts := 1 } = 1 := by decide
  have hnonce : Work.nonceFor (UInt8.ofNat 0) (UInt64.ofNat 0) = Blob.zero := by decide
  rw [Miner.search, hlanes, hattempts]
  simp only [List.range_one, List.findSome?_singleton, Miner.searchLane, hnonce, h, if_true]

/-- A peer can mine a first block. -/
theorem exists_mined :
    ∃ a p b, Reached { difficulty := 1 } a p ∧ (stage a p).Single b := by
  obtain ⟨skeleton, a, stored, a', hbuild, hcommit, hinsert, -, hcol⟩ :=
    Chain.exists_insert_first
  have hhash := Block.hash_of_content (Block.content_of_commit hcommit).2
  let p : Peer :=
    { chain := Chain.empty { difficulty := 1 }, miner := { threads := 1, maxAttempts := 1 }
      minerAddress := Genesis.address }
  have hseals : Miner.seals skeleton Blob.zero = true := (Chain.insert_eq_ok_iff.mp hinsert).1
  have hmined : p.miner.mine skeleton = .ok ⟨skeleton, Blob.zero⟩ := by
    rw [Miner.mine, search_of_seals hseals]
  have hmine : p.mine [] 0 Archive.empty =
      .ok ({ p with chain := (Chain.empty { difficulty := 1 }).add stored.hash stored },
        Block.hash ⟨skeleton, Blob.zero⟩) a' := by
    rw [hhash]
    exact (bind_of_ok hbuild).trans ((bind_of_ok (ofExcept_eq_ok.mpr ⟨hmined, rfl⟩)).trans
      (bind_of_ok hinsert))
  refine ⟨a', _, stored, .mined (.start _ _) (fun _ h => absurd h List.not_mem_nil) hmine, ?_⟩
  refine Stage.single_of_commit hbuild hcommit hcol (Chain.get?_add_self ..) fun x hx => ?_
  obtain ⟨hash, hget⟩ := has_stage.mp hx
  rcases Chain.get?_add_cases hget with ⟨-, rfl⟩ | hget
  · rfl
  · simp at hget

end Peer

end ScriptLedger
