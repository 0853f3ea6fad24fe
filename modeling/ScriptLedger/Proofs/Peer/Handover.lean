import ScriptLedger.Proofs.Peer.Reached
import ScriptLedger.Proofs.Record.Document

/-!
# A peer can hand its chain to another one

The bodies of a block and its ancestors, oldest first, are accepted by every other peer with
the same rules, whatever blocks it has: a body is read as the header and the transactions
that it was written from, the block is built again on the parent that has just been handed
over, and the parents are the same but for where their records lie.

The induction is on the lineage of the block, from its first block on; what carries it is
that the other peer has the last block that was handed over, with the same content.

## Main results

* `Peer.Ready.add` — a peer accepts a block whose parent it has.
* `Peer.Reached.handover` — a peer accepts a block with all of its ancestors.
-/

namespace ScriptLedger

open Sequencing

variable {K : Digested} {rules : Rules} {a a' : Archive} {c : Chain} {b x y : Block}
variable {hash : Hash} {l : List Block}

theorem Block.body_of_content (h : x.content = y.content) : x.body = y.body := by
  rw [body, body, header_of_content h, transactions_of_content h]

/-! ## Lineages -/

namespace Chain

/-- A chain that has blocks under one name only has one block. -/
theorem size_eq_one (hget : c.get? hash = some b)
    (honly : ∀ place x, c.get? place = some x → place = hash) : c.size = 1 := by
  have hthere : c.blocks.contains hash = true := by
    have hcontains := c.contains_eq hash
    rwa [hget] at hcontains
  have hempty : (c.blocks.erase hash).isEmpty = true := by
    rw [Std.TreeMap.isEmpty_iff_forall_contains]
    intro place
    rw [Std.TreeMap.contains_erase]
    cases hplace : c.blocks.contains place with
    | false => exact Bool.and_false _
    | true =>
        obtain ⟨x, hx⟩ := exists_get? hplace
        rw [honly place x hx, Std.ReflOrd.compare_self]
        rfl
  rw [Std.TreeMap.isEmpty_eq_size_eq_zero, beq_iff_eq, Std.TreeMap.size_erase, if_pos hthere]
    at hempty
  have hpos : c.blocks.size ≠ 0 := by
    intro hzero
    have hnone : c.blocks.isEmpty = true := by
      rw [Std.TreeMap.isEmpty_eq_size_eq_zero, hzero]
      rfl
    rw [Std.TreeMap.isEmpty_iff_forall_contains.mp hnone hash] at hthere
    cases hthere
  unfold size
  omega

end Chain

namespace Stage.Reached

variable {s : Stage}

/-- What `ancestors` lists is the lineage of the block, also if the digest of the only
header there is should be zero. -/
theorem lineage (h : Reached {rules} rules s) (hK : K.Faithful) (hs : s.digested.Part K)
    (hget : s.chain.get? hash = some b) : s.chain.Lineage b (s.chain.ancestors hash) := by
  by_cases hzero : ∀ header ∈ s.headers, Record.hash header ≠ Blob.zero
  · have hdistinct : s.Distinct := ⟨hK.headers.mono hs.headers, hzero⟩
    exact ((h.rooted hdistinct).lineage_ancestors hget).2.1
  push Not at hzero
  obtain ⟨header, hheader, hzero⟩ := hzero
  have honly : ∀ x, s.Has x → x.header = header := by
    intro x hx
    by_contra hne
    exact hK.named (hs.headers hheader) (hs.headers ⟨x, hx, rfl⟩) (Ne.symm hne) hzero
  obtain ⟨hsound, -⟩ := h.sound hK hs
  have hnames : ∀ place x, s.chain.get? place = some x → place = Blob.zero := by
    intro place x hx
    rw [← hsound.named place x hx, Block.hash, honly x (Or.inr ⟨place, hx⟩), hzero]
  obtain rfl := hnames hash b hget
  obtain ⟨-, -, q, hsucceeds, hq⟩ :=
    (h.each (inherited_succeeds (H := s.Has)) fun _ hx => hx).accepted _ b hget
  have hfirst : b.Succeeds none := by
    cases q with
    | none => exact hsucceeds
    | some x =>
        refine absurd ?_ hsucceeds.header_ne
        rw [honly x (hq x rfl), honly b (Or.inr ⟨_, hget⟩)]
  have hname := hsound.named _ b hget
  rw [Chain.ancestors, Chain.size_eq_one hget hnames, Chain.walk, hget]
  exact .first (by rw [hname]; exact hget) hfirst

end Stage.Reached

namespace Peer

variable {p q q' : Peer} {reply : Json} {replies : List Json}

/-! ## Bodies -/

/-- The params that name a block. -/
def naming (hash : Hash) : Json := .object [("hash", .ofBlob hash)]

theorem answer_naming (p : Peer) (hash : Hash) (a : Archive) :
    p.answer "get_block_by_hash" (naming hash) a =
      .ok (p, Block.bodyOrNone (p.chain.get? hash)) a := by
  have hread : p.blockByHash (naming hash) = .ok (Block.bodyOrNone (p.chain.get? hash)) := by
    simp [blockByHash, naming, Json.get?, Json.ofBlob, Json.text?, pure, Except.pure]
  exact bind_of_ok (ofExcept_eq_ok.mpr ⟨hread, rfl⟩)

/-- A body is read as what it was written from. -/
theorem readBody_body (hvalid : ∀ tx ∈ b.skeleton.transactions, tx.validate = .ok ()) :
    readBody b.body = .ok (b.header, b.skeleton.transactions) := by
  have hheader : param b.body "block" = .ok b.header.toJson := by
    simp [param, Block.body, Json.get?]
  have htransactions : param b.body "transactions" =
      .ok (.array (b.skeleton.transactions.map Transaction.toJson)) := by
    simp [param, Block.body, Json.get?]
  unfold readBody
  rw [hheader, htransactions]
  simp only [bind, Except.bind, BlockHeader.ofJson?_toJson,
    Json.list?_array Transaction.ofJson?_toJson, decode, except_forM_eq_ok.mpr hvalid]
  rfl

/-- The answer names the block and its height. -/
def Confirms (b : Block) (reply : Json) : Prop :=
  ∃ isHead, reply = .object [("hash", .ofBlob b.hash), ("height", .ofUInt64 b.height),
    ("is_head", .bool isHead)]

/-! ## One block -/

/-- The peer can go on: its chain is sound and follows the rules. -/
structure Ready (K : Digested) (rules : Rules) (a : Archive) (q : Peer) : Prop where
  sound : q.chain.Sound K a
  within : a.Within K.accounts
  rules_eq : q.chain.rules = rules

/-- A peer accepts the body of a block whose parent it has. -/
theorem Ready.add {r r' : Option Block} (hK : K.Faithful) (hq : q.Ready K rules a)
    (hvalid : ∀ tx ∈ x.skeleton.transactions, tx.validate = .ok ())
    (hwork : x.meetsTarget = true) (hx : x.Built K rules r)
    (hparent : q.chain.parent x.prevBlockHash = .ok r')
    (hr : r.map Block.content = r'.map Block.content) :
    ∃ q' reply a', q.answer "add_block" x.body a = .ok (q', reply) a' ∧ Confirms x reply ∧
      q'.Ready K rules a' ∧ ∃ y, q'.chain.get? x.hash = some y ∧ y.content = x.content := by
  rw [← hq.rules_eq] at hx
  obtain ⟨c', a', hreceive, ha', -, hsound, hextends, ⟨y, hget, hcontent⟩, -⟩ :=
    hq.sound.receive_of_built hK hq.within hx.ordered_eq hwork hx hparent hr
  have hheight : (((c'.get? x.hash).map Block.height).getD 0) = x.height := by
    rw [hget]
    exact congrArg (·.height) (Block.skeletonHeader_of_content hcontent)
  refine ⟨{ q with chain := c' }, _, a',
    addBlock_eq_ok_iff.mpr ⟨_, _, c', x.hash, readBody_body hvalid, hreceive, rfl, rfl⟩, ?_,
    ⟨hsound, ha', hextends.rules.trans hq.rules_eq⟩, y, hget, hcontent⟩
  rw [hheight]
  exact ⟨_, rfl⟩

/-! ## A whole lineage -/

/-- Adds blocks one after the other, and keeps the answers. -/
def addAll : List Json → Peer → Archived RequestError (Peer × List Json)
  | [], q => pure (q, [])
  | body :: rest, q => do
    let (q, reply) ← q.answer "add_block" body
    let (q, replies) ← addAll rest q
    pure (q, reply :: replies)

theorem addAll_append {bodies : List Json} {body : Json} {b' b'' : Archive} {q'' : Peer}
    (h : addAll bodies q a = .ok (q', replies) b')
    (hlast : q'.answer "add_block" body b' = .ok (q'', reply) b'') :
    addAll (bodies ++ [body]) q a = .ok (q'', replies ++ [reply]) b'' := by
  induction bodies generalizing q a replies with
  | nil =>
      cases h
      exact (bind_of_ok hlast).trans (bind_of_ok rfl)
  | cons first bodies ih =>
      obtain ⟨⟨mid, answer⟩, am, hfirst, h⟩ := bind_eq_ok.mp h
      obtain ⟨⟨last, answers⟩, al, hrest, h⟩ := bind_eq_ok.mp h
      cases h
      exact (bind_of_ok hfirst).trans (bind_of_ok (ih hrest))

/-- A peer accepts the bodies of a lineage from its first block on. -/
theorem Ready.addAll_lineage (hK : K.Faithful) (hc : c.Sound K a) (hrules : c.rules = rules)
    (hvalid : ∀ hash b, c.get? hash = some b → ∀ tx ∈ b.skeleton.transactions,
      tx.validate = .ok ())
    (hl : c.Lineage x l) {b : Archive} (hq : q.Ready K rules b) :
    ∃ q' replies b', addAll (l.reverse.map Block.body) q b = .ok (q', replies) b' ∧
      List.Forall₂ Confirms l.reverse replies ∧ q'.Ready K rules b' ∧
        ∃ y, q'.chain.get? x.hash = some y ∧ y.content = x.content := by
  induction hl with
  | @first x hget hx =>
      obtain ⟨p, hparent, hbuilt⟩ := hc.built _ x hget
      rw [hrules] at hbuilt
      have hzero : x.prevBlockHash = Blob.zero := hx.prev
      rw [hzero, c.parent_zero] at hparent
      cases hparent
      have hparent' : q.chain.parent x.prevBlockHash = .ok none := by
        rw [hzero]
        exact q.chain.parent_zero
      obtain ⟨q', reply, b', hadd, hconfirms, hq', hthere⟩ :=
        hq.add hK (hvalid _ x hget) (hc.worked _ x hget) hbuilt hparent' rfl
      have hall : addAll ([] ++ [x.body]) q b = .ok (q', [] ++ [reply]) b' :=
        addAll_append rfl hadd
      exact ⟨q', [reply], b', hall, .cons hconfirms .nil, hq', hthere⟩
  | @next x p l hget hp hx hl ih =>
      obtain ⟨mid, replies, bm, hrest, hconfirmed, hmid, y, hy, hcontent⟩ := ih
      obtain ⟨r, hparent, hbuilt⟩ := hc.built _ x hget
      rw [hrules] at hbuilt
      have hprev : x.prevBlockHash = p.hash := hx.prev
      obtain ⟨_, -, hbuilt'⟩ := hc.built _ p hp
      have hne : x.prevBlockHash ≠ Blob.zero := by
        rw [hprev]
        exact hK.named hbuilt'.within.header hbuilt.within.header hx.header_ne
      rw [Chain.parent_of_get? hp hne] at hparent
      cases hparent
      rw [← hprev] at hy
      obtain ⟨q', reply, b', hadd, hconfirms, hq', hthere⟩ :=
        hmid.add hK (hvalid _ x hget) (hc.worked _ x hget) hbuilt (Chain.parent_of_get? hy hne)
          (congrArg some hcontent.symm)
      refine ⟨q', replies ++ [reply], b', ?_, ?_, hq', hthere⟩
      · rw [List.reverse_cons, List.map_append]
        exact addAll_append hrest hadd
      · rw [List.reverse_cons]
        exact List.rel_append hconfirmed (.cons hconfirms .nil)

/-! ## Two peers -/

/-- What digests were taken of by a peer. -/
def digested (a : Archive) (p : Peer) : Digested := (stage a p).digested

/-- A peer hands a block with all of its ancestors to another peer, which may have blocks of
its own: each of their bodies is accepted, with the name and the height of the block, and
afterwards the other peer gives the same body for the block. -/
theorem Reached.handover {b : Archive} (hp : Reached rules a p) (hq : Reached rules b q)
    (hK : ((digested a p).union (digested b q)).Faithful) (hget : p.chain.get? hash = some x) :
    ∃ bodies q' replies b',
      List.Forall₂ (fun y body => p.answer "get_block_by_hash" (naming y.hash) a = .ok (p, body) a)
        (p.chain.ancestors hash).reverse bodies ∧
      addAll bodies q b = .ok (q', replies) b' ∧
      List.Forall₂ Confirms (p.chain.ancestors hash).reverse replies ∧
      p.answer "get_block_by_hash" (naming hash) a = .ok (p, x.body) a ∧
      q'.answer "get_block_by_hash" (naming hash) b' = .ok (q', x.body) b' := by
  have hpart := Digested.part_union_left (digested a p) (digested b q)
  have hpart' := Digested.part_union_right (digested a p) (digested b q)
  obtain ⟨hsound, -⟩ := hp.stage.sound hK hpart
  obtain ⟨hsound', -⟩ := hq.stage.sound hK hpart'
  have hready : q.Ready ((digested a p).union (digested b q)) rules b :=
    ⟨hsound', hpart'.accounts, hq.stage.rules_eq⟩
  have hl : p.chain.Lineage x (p.chain.ancestors hash) := hp.stage.lineage hK hpart hget
  obtain ⟨q', replies, b', hall, hconfirmed, -, y, hy, hcontent⟩ :=
    hready.addAll_lineage hK hsound hp.stage.rules_eq (fun _ _ => hp.valid) hl
  rw [hsound.named hash x hget] at hy
  refine ⟨_, q', replies, b', ?_, hall, hconfirmed, ?_, ?_⟩
  · refine List.forall₂_map_right_iff.mpr (List.forall₂_same.mpr fun z hz => ?_)
    rw [answer_naming, hl.get?_of_mem z (List.mem_reverse.mp hz)]
    rfl
  · rw [answer_naming, hget]
    rfl
  · rw [answer_naming, hy, ← Block.body_of_content hcontent]
    rfl

/-- A peer that has mined a first block hands it to one without blocks. -/
theorem exists_handover :
    ∃ a p b q x bodies q' replies b', Reached { difficulty := 1 } a p ∧
      Reached { difficulty := 1 } b q ∧ ((digested a p).union (digested b q)).Faithful ∧
      p.chain.get? x.hash = some x ∧ q.chain.get? x.hash = none ∧
      addAll bodies q b = .ok (q', replies) b' ∧
      q'.answer "get_block_by_hash" (naming x.hash) b' = .ok (q', x.body) b' := by
  obtain ⟨a, p, x, hp, hsingle⟩ := exists_mined
  let q : Peer := { chain := Chain.empty { difficulty := 1 }, miner := { threads := 1 }
                    minerAddress := Genesis.address }
  have hnone : ∀ hash, q.chain.get? hash = none := Chain.get?_empty _
  have hfresh : ∀ b, ¬ (stage Archive.empty q).Has b := by
    intro b hb
    obtain ⟨hash, hget⟩ := has_stage.mp hb
    rw [hnone] at hget
    cases hget
  -- The other peer has given no digest to anything.
  have hpart : ((digested a p).union (digested Archive.empty q)).Part (digested a p) := by
    constructor <;> refine Set.union_subset subset_rfl ?_
    · exact fun account hmem => absurd hmem List.not_mem_nil
    · exact fun header ⟨b, hb, _⟩ => absurd hb (hfresh b)
    · exact fun tx ⟨b, hb, _⟩ => absurd hb (hfresh b)
    · exact fun hashes ⟨b, hb, _⟩ => absurd hb (hfresh b)
  have hq : Reached { difficulty := 1 } Archive.empty q := .start _ _
  have hfaithful := hsingle.faithful.of_part hpart
  obtain ⟨bodies, q', replies, b', -, hall, -, -, hanswer⟩ :=
    hp.handover hq hfaithful hsingle.get?
  exact ⟨a, p, Archive.empty, q, x, bodies, q', replies, b', hp, hq, hfaithful, hsingle.get?,
    hnone x.hash, hall, hanswer⟩

end Peer

end ScriptLedger
