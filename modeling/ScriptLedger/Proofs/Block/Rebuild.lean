import ScriptLedger.Proofs.Block.Build
import ScriptLedger.Proofs.Trie.Commitment
import ScriptLedger.Proofs.World.Relocation

/-!
# Building a block again

What a block is does not depend on where its records lie: `Block.content` is all of a
block but that.  Building on a parent with the same content, in whichever stores and
after whatever else was done to them, gives the same content again.

The name of a block fixes its content too, because the header commits to the
transactions by the trie of their digests, and the transactions make the rest.  That is
where two of the values that were digested must not have one digest; `Digested` is the
sets that these are taken from.

## Main results

* `Skeleton.build_relocated` — a build that was made once can be made again.
* `Block.Built.content_eq` — two blocks with one name and one parent are the same.
-/

namespace ScriptLedger

open Sequencing World

variable {J : Set Account} {a a' b b' : Archive} {w w' v : World}
variable {limits : Limits} {miner : Hash} {transactions : List Transaction}

/-! ## The order of transactions -/

namespace Skeleton

theorem pairwise_ordered (transactions : List Transaction) :
    (ordered transactions).Pairwise fun p q => p.1.isLE q.1 = true := by
  refine List.pairwise_mergeSort (fun p q r hpq hqr => ?_) (fun p q => ?_) _
  · exact Std.TransCmp.isLE_trans hpq hqr
  · unfold Blob.isLE
    have hswap : compare q.1 p.1 = (compare p.1 q.1).swap := Std.OrientedCmp.eq_swap
    rw [hswap]
    cases compare p.1 q.1 <;> rfl

theorem map_hash_ordered (transactions : List Transaction) :
    ((ordered transactions).map (·.2)).map (fun tx => (Record.hash tx, tx)) =
      ordered transactions := by
  have hentry : ∀ entry ∈ ordered transactions, (Record.hash entry.2, entry.2) = entry := by
    intro entry hmem
    obtain ⟨tx, -, rfl⟩ := List.mem_map.mp ((List.mergeSort_perm _ _).mem_iff.mp hmem)
    rfl
  rw [List.map_map]
  exact (List.map_congr_left hentry).trans (List.map_id _)

theorem hashes_ordered (transactions : List Transaction) :
    ((ordered transactions).map (·.2)).map Record.hash = (ordered transactions).map (·.1) := by
  have hentries := congrArg (List.map Prod.fst) (map_hash_ordered transactions)
  rwa [List.map_map] at hentries

theorem mem_ordered {transactions : List Transaction} {tx : Transaction} :
    tx ∈ (ordered transactions).map (·.2) ↔ tx ∈ transactions := by
  have hperm := (List.mergeSort_perm (transactions.map fun tx => (Record.hash tx, tx))
    fun p q => p.1.isLE q.1).map Prod.snd
  rw [List.map_map, show Prod.snd ∘ (fun tx => (Record.hash tx, tx)) = id from rfl,
    List.map_id] at hperm
  exact hperm.mem_iff

/-- Transactions that are in order already stay in it. -/
theorem ordered_ordered (transactions : List Transaction) :
    ordered ((ordered transactions).map (·.2)) = ordered transactions := by
  show (((ordered transactions).map (·.2)).map fun tx => (Record.hash tx, tx)).mergeSort _ = _
  rw [map_hash_ordered]
  exact List.mergeSort_of_pairwise (pairwise_ordered transactions)

/-! ## The same transactions -/

/-- The same transactions on the same trie in other stores. -/
theorem foldlM_relocated {entries : List (Hash × Transaction)} {t t' : Trie}
    (hJ : J.InjOn Record.hash)
    (h : entries.foldlM (addTransaction limits miner) (w, t) a = .ok (w', t') a')
    (ha' : a'.Within J) (hb : b.Within J) (hw : w.Stored a) (hv : v.Stored b)
    (htrie : v.trie = w.trie) :
    ∃ v' b', entries.foldlM (addTransaction limits miner) (v, t) b = .ok (v', t') b' ∧
      b'.Within J ∧ w'.Stored a' ∧ v'.Stored b' ∧ v'.trie = w'.trie := by
  induction entries generalizing a b w v t with
  | nil =>
      obtain ⟨hsame, rfl⟩ := pure_eq_ok.mp h
      cases hsame
      exact ⟨v, b, rfl, hb, hw, hv, htrie⟩
  | cons entry rest ih =>
      obtain ⟨hash, tx⟩ := entry
      rw [List.foldlM_cons] at h
      obtain ⟨⟨w₁, t₁⟩, a₁, hentry, hrest⟩ := bind_eq_ok.mp h
      obtain ⟨hcontains, hsigned, htransit, hput⟩ := addTransaction_eq_ok_iff.mp hentry
      have ha₁ := ha'.of_growsTo (applied_of_foldlM hrest).growsTo
      have ha := ha₁.of_growsTo ((World.books_transit limits miner tx.data).growsTo htransit)
      obtain ⟨v₁, b₁, htransit', hb₁, hw₁, hv₁, htrie₁⟩ :=
        transit_relocated hJ htransit ha₁ hb hw hv htrie
      have hkeys : v.pubkey? b = w.pubkey? a := by
        funext address
        simp only [World.pubkey?, hw.account?_eq hv htrie ha hb hJ]
      rw [← hkeys] at hsigned
      obtain ⟨v', b', hrest', hall⟩ := ih hrest hb₁ hw₁ hv₁ htrie₁
      refine ⟨v', b', ?_, hall⟩
      rw [List.foldlM_cons]
      exact bind_eq_ok.mpr ⟨(v₁, t₁), b₁,
        addTransaction_eq_ok_iff.mpr ⟨hcontains, hsigned, htransit', hput⟩, hrest'⟩

/-! ## The trie of transactions -/

/-- The transactions of a skeleton are in the order of their digests, no two have one
digest, and the trie is as updates form it and has just these digests. -/
structure Tabled (s : Skeleton) : Prop where
  sorted : (s.transactions.map Record.hash).Pairwise fun x y => x.isLE y = true
  nodup : (s.transactions.map Record.hash).Nodup
  formed : s.txTrie.Formed
  mem_iff : ∀ hash, s.txTrie.contains hash = .ok true ↔ hash ∈ s.transactions.map Record.hash
  root : s.header.txRoot = s.txTrie.rootHash

theorem contains_put {t u : Trie} {key value : Hash} (h : t.put key value = .ok u)
    (other : Hash) :
    u.contains other = if other = key then .ok true else t.contains other := by
  unfold Trie.contains
  rw [Trie.get_put h other]
  by_cases hother : other = key
  · rw [if_pos hother, if_pos hother]
    rfl
  · rw [if_neg hother, if_neg hother]

/-- What the transactions of a block enter into a trie. -/
theorem table_of_foldlM {entries : List (Hash × Transaction)} {t t' : Trie}
    (h : entries.foldlM (addTransaction limits miner) (w, t) a = .ok (w', t') a')
    (ht : t.Formed) :
    t'.Formed ∧ (entries.map (·.1)).Nodup ∧
      (∀ hash ∈ entries.map (·.1), t.contains hash = .ok false) ∧
        ∀ hash, t'.contains hash = .ok true ↔
          hash ∈ entries.map (·.1) ∨ t.contains hash = .ok true := by
  induction entries generalizing a w t with
  | nil =>
      obtain ⟨hsame, rfl⟩ := pure_eq_ok.mp h
      cases hsame
      exact ⟨ht, List.nodup_nil, fun _ hmem => absurd hmem List.not_mem_nil, fun _ => by simp⟩
  | cons entry rest ih =>
      obtain ⟨hash, tx⟩ := entry
      rw [List.foldlM_cons] at h
      obtain ⟨⟨w₁, t₁⟩, a₁, hentry, hrest⟩ := bind_eq_ok.mp h
      obtain ⟨hnew, -, -, hput⟩ := addTransaction_eq_ok_iff.mp hentry
      obtain ⟨hformed, hnodup, hfresh, hmem⟩ := ih hrest (Trie.formed_put hput ht)
      have hcontains := contains_put hput
      have hnot : hash ∉ rest.map (·.1) := by
        intro hin
        have hfalse := hfresh hash hin
        rw [hcontains, if_pos rfl] at hfalse
        cases hfalse
      refine ⟨hformed, List.nodup_cons.mpr ⟨hnot, hnodup⟩, fun other hother => ?_, fun other => ?_⟩
      · rcases List.mem_cons.mp hother with rfl | hother
        · exact hnew
        · have hfalse := hfresh other hother
          rwa [hcontains, if_neg (fun heq : other = hash => hnot (heq ▸ hother))] at hfalse
      · rw [hmem, hcontains, List.map_cons, List.mem_cons]
        by_cases hother : other = hash
        · simp [hother]
        · simp [hother]

/-- The trie that transactions are entered into. -/
def table (transactions : List Transaction) : Except TrieError Trie :=
  (ordered transactions).foldlM (fun t entry => t.put entry.1 entry.1) Trie.empty

theorem puts_of_foldlM {entries : List (Hash × Transaction)} {t t' : Trie}
    (h : entries.foldlM (addTransaction limits miner) (w, t) a = .ok (w', t') a') :
    entries.foldlM (fun t entry => t.put entry.1 entry.1) t = .ok t' := by
  induction entries generalizing a w t with
  | nil =>
      obtain ⟨hsame, rfl⟩ := pure_eq_ok.mp h
      cases hsame
      rfl
  | cons entry rest ih =>
      obtain ⟨hash, tx⟩ := entry
      rw [List.foldlM_cons] at h ⊢
      obtain ⟨⟨w₁, t₁⟩, a₁, hentry, hrest⟩ := bind_eq_ok.mp h
      obtain ⟨-, -, -, hput⟩ := addTransaction_eq_ok_iff.mp hentry
      exact except_bind_eq_ok.mpr ⟨t₁, hput, ih hrest⟩

/-! ## Building -/

/-- The transactions of a block may be given in the order that they have in it. -/
theorem build_ordered (rules : Rules) (parent : Option Block) (transactions : List Transaction)
    (miner : Hash) (timestamp : UInt64) :
    build rules parent ((ordered transactions).map (·.2)) miner timestamp =
      build rules parent transactions miner timestamp := by
  unfold build
  rw [ordered_ordered]

/-- What a build was asked for is in its result. -/
theorem asked_of_build {rules : Rules} {parent : Option Block} {timestamp : UInt64}
    {skeleton : Skeleton}
    (h : build rules parent transactions miner timestamp a = .ok skeleton a') :
    skeleton.transactions = (ordered transactions).map (·.2) ∧
      table transactions = .ok skeleton.txTrie ∧ skeleton.header.minerAddress = miner ∧
        skeleton.header.timestamp = timestamp := by
  obtain ⟨start, mid, world, txTrie, place, -, hloop, -, rfl⟩ := build_eq_ok_iff.mp h
  exact ⟨rfl, puts_of_foldlM hloop, rfl, rfl⟩

theorem tabled_of_build {rules : Rules} {parent : Option Block} {timestamp : UInt64}
    {skeleton : Skeleton}
    (h : build rules parent transactions miner timestamp a = .ok skeleton a') :
    skeleton.Tabled := by
  obtain ⟨start, mid, world, txTrie, place, -, hloop, -, rfl⟩ := build_eq_ok_iff.mp h
  obtain ⟨hformed, hnodup, -, hmem⟩ := table_of_foldlM hloop Trie.formed_empty
  refine ⟨?_, ?_, hformed, fun hash => ?_, rfl⟩
  · rw [hashes_ordered, List.pairwise_map]
    exact pairwise_ordered transactions
  · rw [hashes_ordered]
    exact hnodup
  · rw [hmem, hashes_ordered, Trie.contains_empty]
    simp

/-! ## Content -/

/-- All of a skeleton but where its records lie. -/
def content (s : Skeleton) : SkeletonHeader × List Transaction × Trie × Trie :=
  (s.header, s.transactions, s.world.trie, s.txTrie)

end Skeleton

namespace Block

/-- All of a block but where its records lie. -/
def content (b : Block) : (SkeletonHeader × List Transaction × Trie × Trie) × Hash :=
  (b.skeleton.content, b.nonce)

section Content

variable {x y : Block} (h : x.content = y.content)

include h

theorem header_of_content : x.header = y.header := by
  obtain ⟨⟨header, transactions, world, txTrie⟩, nonce⟩ := x
  obtain ⟨⟨header', transactions', world', txTrie'⟩, nonce'⟩ := y
  simp only [content, Skeleton.content, Prod.mk.injEq] at h
  obtain ⟨⟨rfl, -, -, -⟩, rfl⟩ := h
  rfl

theorem transactions_of_content : x.skeleton.transactions = y.skeleton.transactions :=
  congrArg (·.1.2.1) h

theorem trie_of_content : x.skeleton.world.trie = y.skeleton.world.trie :=
  congrArg (·.1.2.2.1) h

theorem txTrie_of_content : x.skeleton.txTrie = y.skeleton.txTrie :=
  congrArg (·.1.2.2.2) h

theorem skeletonHeader_of_content : x.skeleton.header = y.skeleton.header :=
  congrArg (·.1.1) h

theorem hash_of_content : x.hash = y.hash := congrArg Record.hash (header_of_content h)

end Content

/-- A block whose snapshot is there. -/
def Stored (a : Archive) (b : Block) : Prop := b.skeleton.world.Stored a

theorem content_of_commit {b stored : Block} (h : b.commit a = .ok stored a') :
    a.GrowsTo a' ∧ stored.content = b.content := by
  obtain ⟨world, mid, hcommit, h⟩ := bind_eq_ok.mp h
  obtain ⟨rfl, rfl⟩ := pure_eq_ok.mp h
  refine ⟨growsTo_of_commit hcommit, ?_⟩
  rcases commit_eq_ok hcommit with ⟨-, rfl, -⟩ | ⟨-, rfl, -⟩ <;> rfl

/-- A block can be committed, and is there afterwards. -/
theorem commit_stored {b : Block} (hJ : J.InjOn Record.hash) (ha : a.Within J)
    (hb : b.Stored a) :
    ∃ stored a', b.commit a = .ok stored a' ∧ a'.Within J ∧ stored.Stored a' := by
  obtain ⟨world, a', hcommit, ha', hworld, -⟩ := World.commit_stored hJ ha hb
  exact ⟨_, a', bind_eq_ok.mpr ⟨world, a', hcommit, rfl⟩, ha', hworld⟩

end Block

namespace Skeleton

/-! ## Building on the same parent -/

theorem position_of_content {difficulty : UInt64} {p q : Option Block}
    (h : p.map Block.content = q.map Block.content) :
    position difficulty p = position difficulty q := by
  cases p with
  | none =>
      cases q with
      | none => rfl
      | some y => cases h
  | some x =>
      cases q with
      | none => cases h
      | some y =>
          have hxy : x.content = y.content := Option.some.inj h
          unfold position Block.height Block.accumulatedDifficulty
          dsimp only
          rw [Block.hash_of_content hxy, Block.skeletonHeader_of_content hxy]

theorem base_relocated {p q : Option Block} (hJ : J.InjOn Record.hash)
    (h : base p a = .ok w a') (ha' : a'.Within J) (hb : b.Within J)
    (hcontent : p.map Block.content = q.map Block.content)
    (hp : ∀ x, p = some x → x.Stored a) (hq : ∀ y, q = some y → y.Stored b) :
    ∃ v b', base q b = .ok v b' ∧ b'.Within J ∧ w.Stored a' ∧ v.Stored b' ∧
      v.trie = w.trie := by
  cases p with
  | some x =>
      cases q with
      | none => cases hcontent
      | some y =>
          have htrie := Block.trie_of_content (Option.some.inj hcontent)
          obtain ⟨v, b', hfork, hb', hv, hv'⟩ :=
            fork_stored (ε := BlockError) hb (hq y rfl).wellFormed
          obtain ⟨w₁, a₁, hfork₁, -, hw, hw'⟩ := fork_stored (ε := BlockError)
            (ha'.of_growsTo (growsTo_of_base h)) (hp x rfl).wellFormed
          have hsame : (x.skeleton.world.fork : Archived BlockError World) a = .ok w a' := h
          rw [hsame] at hfork₁
          cases hfork₁
          exact ⟨v, b', hfork, hb', hw, hv, by rw [hv', hw', htrie]⟩
  | none =>
      cases q with
      | some y => cases hcontent
      | none =>
          obtain ⟨first, mid, hgenesis, hfork⟩ := bind_eq_ok.mp h
          have hmid := ha'.of_growsTo (growsTo_of_fork hfork)
          obtain ⟨second, mid', hgenesis', hmid', hfirst, hsecond, htrie⟩ :=
            genesis_relocated hJ (adaptExcept_eq_ok.mp hgenesis) hmid hb
          obtain ⟨v, b', hfork', hb', hv, hv'⟩ :=
            fork_stored (ε := BlockError) hmid' hsecond.wellFormed
          obtain ⟨w₁, a₁, hfork₁, -, hw, hw'⟩ :=
            fork_stored (ε := BlockError) hmid hfirst.wellFormed
          rw [hfork] at hfork₁
          cases hfork₁
          refine ⟨v, b', bind_eq_ok.mpr ⟨second, mid', adaptExcept_eq_ok.mpr hgenesis', hfork'⟩,
            hb', hw, hv, by rw [hv', hw', htrie]⟩

/-- A build that was made once can be made again, with a parent that is the same but for
where it lies, and has the same content. -/
theorem build_relocated {rules : Rules} {p q : Option Block} {timestamp : UInt64}
    {skeleton : Skeleton} (hJ : J.InjOn Record.hash)
    (h : build rules p transactions miner timestamp a = .ok skeleton a') (ha' : a'.Within J)
    (hb : b.Within J) (hcontent : p.map Block.content = q.map Block.content)
    (hp : ∀ x, p = some x → x.Stored a) (hq : ∀ y, q = some y → y.Stored b) :
    ∃ skeleton' b', build rules q transactions miner timestamp b = .ok skeleton' b' ∧
      b'.Within J ∧ skeleton.world.Stored a' ∧ skeleton'.world.Stored b' ∧
        skeleton'.content = skeleton.content := by
  obtain ⟨start, mid, world, txTrie, place, hbase, hloop, hplace, rfl⟩ := build_eq_ok_iff.mp h
  have hmid := ha'.of_growsTo (applied_of_foldlM hloop).growsTo
  obtain ⟨start', mid', hbase', hmid', hstart, hstart', htrie⟩ :=
    base_relocated hJ hbase hmid hb hcontent hp hq
  obtain ⟨world', b', hloop', hb', hworld, hworld', htrie'⟩ :=
    foldlM_relocated hJ hloop ha' hmid' hstart hstart' htrie
  rw [position_of_content hcontent] at hplace
  refine ⟨_, b', build_eq_ok_iff.mpr ⟨start', mid', world', txTrie, place, hbase', hloop', hplace,
    rfl⟩, hb', hworld, hworld', ?_⟩
  simp only [content, World.rootHash, htrie']

theorem stored_of_build {rules : Rules} {p : Option Block} {timestamp : UInt64}
    {skeleton : Skeleton} (hJ : J.InjOn Record.hash)
    (h : build rules p transactions miner timestamp a = .ok skeleton a') (ha' : a'.Within J)
    (hp : ∀ x, p = some x → x.Stored a) : skeleton.world.Stored a' := by
  obtain ⟨_, _, -, -, hstored, -⟩ :=
    build_relocated hJ h ha' (ha'.of_growsTo (growsTo_of_build h)) rfl hp hp
  exact hstored

/-- A block without a parent can be built once more, whatever has been written since. -/
theorem exists_build_again {rules : Rules} {timestamp : UInt64} {skeleton : Skeleton}
    (h : build rules none transactions miner timestamp a = .ok skeleton a')
    (hgrows : a'.GrowsTo b) (hcol : b.Collisionless) :
    ∃ again b', build rules none transactions miner timestamp b = .ok again b' ∧
      again.content = skeleton.content := by
  obtain ⟨again, b', hagain, -, -, -, hcontent⟩ :=
    build_relocated (J := {account | account ∈ b.journal}) hcol h
      (Archive.Within.of_growsTo (fun _ hmem => hmem) hgrows) (fun _ hmem => hmem) rfl
      (fun _ h => by cases h) (fun _ h => by cases h)
  exact ⟨again, b', hagain, hcontent⟩

end Skeleton

/-! ## What was digested -/

theorem eq_of_map_eq {α β : Type} {f : α → β} {s : Set α} (hs : s.InjOn f) {l m : List α}
    (hl : ∀ x ∈ l, x ∈ s) (hm : ∀ x ∈ m, x ∈ s) (h : l.map f = m.map f) : l = m := by
  induction l generalizing m with
  | nil => exact (List.map_eq_nil_iff.mp h.symm).symm
  | cons x l ih =>
      obtain ⟨y, m, rfl, hxy, htail⟩ := List.map_eq_cons_iff.mp h.symm
      have hhead := hs (hl x List.mem_cons_self) (hm y List.mem_cons_self) hxy.symm
      rw [hhead, ih (fun z hz => hl z (List.mem_cons_of_mem _ hz))
        (fun z hz => hm z (List.mem_cons_of_mem _ hz)) htail.symm]

/-- What digests were taken of: the accounts that were given to stores, the headers and
the transactions of blocks, and the digests that the branches in their tries of
transactions were made of. -/
structure Digested where
  accounts : Set Account
  headers : Set BlockHeader
  transactions : Set Transaction
  branches : Set (Nibble → Hash)

/-- No two of what was digested have one digest.  Zero, which is the name that a first
block gives for its parent and the hash of an empty subtrie, is no digest either, except
that it may be the name of the only block. -/
structure Digested.Faithful (K : Digested) : Prop where
  accounts : K.accounts.InjOn Record.hash
  headers : K.headers.InjOn Record.hash
  named : K.headers.Pairwise fun x _ => Record.hash x ≠ Blob.zero
  transactions : K.transactions.InjOn Record.hash
  branches : K.branches.InjOn Node.hashOfChildren
  nonzero : ∀ hashes ∈ K.branches, Node.hashOfChildren hashes ≠ Blob.zero

/-- All of `K` is in `L`. -/
structure Digested.Part (K L : Digested) : Prop where
  accounts : K.accounts ⊆ L.accounts
  headers : K.headers ⊆ L.headers
  transactions : K.transactions ⊆ L.transactions
  branches : K.branches ⊆ L.branches

theorem Digested.Part.refl (K : Digested) : K.Part K :=
  ⟨subset_rfl, subset_rfl, subset_rfl, subset_rfl⟩

/-- All of both. -/
def Digested.union (K L : Digested) : Digested where
  accounts := K.accounts ∪ L.accounts
  headers := K.headers ∪ L.headers
  transactions := K.transactions ∪ L.transactions
  branches := K.branches ∪ L.branches

theorem Digested.part_union_left (K L : Digested) : K.Part (K.union L) :=
  ⟨Set.subset_union_left, Set.subset_union_left, Set.subset_union_left, Set.subset_union_left⟩

theorem Digested.part_union_right (K L : Digested) : L.Part (K.union L) :=
  ⟨Set.subset_union_right, Set.subset_union_right, Set.subset_union_right,
    Set.subset_union_right⟩

theorem Digested.Faithful.of_part {K L : Digested} (hL : L.Faithful) (h : K.Part L) :
    K.Faithful where
  accounts := hL.accounts.mono h.accounts
  headers := hL.headers.mono h.headers
  named := hL.named.mono h.headers
  transactions := hL.transactions.mono h.transactions
  branches := hL.branches.mono h.branches
  nonzero hashes hmem := hL.nonzero hashes (h.branches hmem)

/-- The digests of a block are among the ones that were taken. -/
structure Block.Within (K : Digested) (b : Block) : Prop where
  header : b.header ∈ K.headers
  transactions : ∀ tx ∈ b.skeleton.transactions, tx ∈ K.transactions
  branches : ∀ hashes, b.skeleton.txTrie.root.Digests hashes → hashes ∈ K.branches

namespace Skeleton.Tabled

variable {s t : Skeleton}

theorem of_content (hs : s.Tabled) (h : s.content = t.content) : t.Tabled := by
  obtain ⟨header, transactions, world, txTrie⟩ := s
  obtain ⟨header', transactions', world', txTrie'⟩ := t
  simp only [content, Prod.mk.injEq] at h
  obtain ⟨rfl, rfl, -, rfl⟩ := h
  exact ⟨hs.sorted, hs.nodup, hs.formed, hs.mem_iff, hs.root⟩

/-- The header of a block commits to its transactions. -/
theorem transactions_eq {K : Digested} {x y : Block} (hK : K.Faithful) (hx : x.skeleton.Tabled)
    (hy : y.skeleton.Tabled) (hxK : x.Within K) (hyK : y.Within K)
    (h : x.skeleton.header.txRoot = y.skeleton.header.txRoot) :
    x.skeleton.transactions = y.skeleton.transactions ∧
      x.skeleton.txTrie = y.skeleton.txTrie := by
  have htries : x.skeleton.txTrie = y.skeleton.txTrie := by
    refine Trie.eq_of_rootHash_eq hx.formed hy.formed hK.branches hK.nonzero hxK.branches
      hyK.branches ?_
    rw [← hx.root, ← hy.root, h]
  have hhashes : x.skeleton.transactions.map Record.hash =
      y.skeleton.transactions.map Record.hash := by
    refine List.Perm.eq_of_pairwise (fun u v _ _ huv hvu => ?_) hx.sorted hy.sorted
      ((List.perm_ext_iff_of_nodup hx.nodup hy.nodup).mpr fun hash => ?_)
    · exact Std.LawfulEqOrd.eq_of_compare (Std.OrientedCmp.isLE_antisymm huv hvu)
    · rw [← hx.mem_iff, ← hy.mem_iff, htries]
  exact ⟨eq_of_map_eq hK.transactions hxK.transactions hyK.transactions hhashes, htries⟩

end Skeleton.Tabled

/-- The block is what was built, somewhere and at some time, on a parent that is the
same as the given one but for where it lies. -/
structure Block.Built (K : Digested) (rules : Rules) (parent : Option Block) (b : Block) :
    Prop where
  within : b.Within K
  run : ∃ a p skeleton a',
    Skeleton.build rules p b.skeleton.transactions b.skeleton.header.minerAddress
      b.skeleton.header.timestamp a = .ok skeleton a' ∧
    a'.Within K.accounts ∧ p.map Block.content = parent.map Block.content ∧
      (∀ x, p = some x → x.Stored a) ∧ skeleton.content = b.skeleton.content

namespace Block

variable {K : Digested} {rules : Rules} {p q : Option Block} {x y : Block}

theorem Within.of_content (hx : x.Within K) (h : x.content = y.content) : y.Within K where
  header := header_of_content h ▸ hx.header
  transactions := transactions_of_content h ▸ hx.transactions
  branches := txTrie_of_content h ▸ hx.branches

theorem Built.of_content (hx : x.Built K rules p) (h : x.content = y.content)
    (hpq : p.map content = q.map content) : y.Built K rules q := by
  obtain ⟨a, r, skeleton, a', hbuild, ha', hr, hstored, hcontent⟩ := hx.run
  refine ⟨hx.within.of_content h, a, r, skeleton, a', ?_, ha', hr.trans hpq, hstored, ?_⟩
  · rw [← transactions_of_content h, ← skeletonHeader_of_content h]
    exact hbuild
  · exact hcontent.trans (congrArg Prod.fst h)

theorem built_of_build {transactions : List Transaction} {timestamp : UInt64}
    {skeleton : Skeleton} {nonce : Hash}
    (h : Skeleton.build rules p transactions miner timestamp a = .ok skeleton a')
    (ha' : a'.Within K.accounts) (hp : ∀ r, p = some r → r.Stored a)
    (hwithin : Block.Within K ⟨skeleton, nonce⟩) : Built K rules p ⟨skeleton, nonce⟩ := by
  obtain ⟨htransactions, -, hminer, htimestamp⟩ := Skeleton.asked_of_build h
  refine ⟨hwithin, a, p, skeleton, a', ?_, ha', rfl, hp, rfl⟩
  rw [htransactions, hminer, htimestamp, Skeleton.build_ordered]
  exact h

/-- A block that was built can be built again. -/
theorem Built.build (hK : K.Faithful) (hx : x.Built K rules p) (ha : a.Within K.accounts)
    (hp : ∀ r, p = some r → r.Stored a) :
    ∃ skeleton a', Skeleton.build rules p x.skeleton.transactions
        x.skeleton.header.minerAddress x.skeleton.header.timestamp a = .ok skeleton a' ∧
      a'.Within K.accounts ∧ skeleton.world.Stored a' ∧
        skeleton.content = x.skeleton.content := by
  obtain ⟨b, r, skeleton, b', hbuild, hb', hr, hstored, hcontent⟩ := hx.run
  obtain ⟨skeleton', a', hbuild', ha', -, hstored', hcontent'⟩ :=
    Skeleton.build_relocated hK.accounts hbuild hb' ha hr hstored hp
  exact ⟨skeleton', a', hbuild', ha', hstored', hcontent'.trans hcontent⟩

theorem Built.tabled (hx : x.Built K rules p) :
    ∃ s : Skeleton, s.Tabled ∧ s.content = x.skeleton.content := by
  obtain ⟨a, r, skeleton, a', hbuild, -, -, -, hcontent⟩ := hx.run
  exact ⟨skeleton, Skeleton.tabled_of_build hbuild, hcontent⟩

/-- The transactions of a block are in their order. -/
theorem Built.ordered_eq (hx : x.Built K rules p) :
    (Skeleton.ordered x.skeleton.transactions).map (·.2) = x.skeleton.transactions := by
  obtain ⟨a, r, skeleton, a', hbuild, -, -, -, hcontent⟩ := hx.run
  have htransactions : skeleton.transactions = x.skeleton.transactions := congrArg (·.2.1) hcontent
  exact (Skeleton.asked_of_build hbuild).1.symm.trans htransactions

/-- The header of a block commits to its transactions. -/
theorem Built.transactions_eq (hK : K.Faithful) (hx : x.Built K rules p)
    (hy : y.Built K rules q) (h : x.skeleton.header.txRoot = y.skeleton.header.txRoot) :
    x.skeleton.transactions = y.skeleton.transactions := by
  obtain ⟨s, hs, hsx⟩ := hx.tabled
  obtain ⟨t, ht, hty⟩ := hy.tabled
  exact ((hs.of_content hsx).transactions_eq hK (ht.of_content hty) hx.within hy.within h).1

/-- Blocks that were built on the same parent and have one name are the same. -/
theorem Built.content_eq (hK : K.Faithful) (hx : x.Built K rules p) (hy : y.Built K rules q)
    (hpq : p.map content = q.map content) (h : x.hash = y.hash) : x.content = y.content := by
  have hheader : x.header = y.header := hK.headers hx.within.header hy.within.header h
  have hskeleton : x.skeleton.header = y.skeleton.header := congrArg (·.skeleton) hheader
  have hnonce : x.nonce = y.nonce := congrArg (·.nonce) hheader
  have htransactions := hx.transactions_eq hK hy (congrArg (·.txRoot) hskeleton)
  obtain ⟨a, r, s, a', hbuild, ha', hr, hstored, hs⟩ := hx.run
  obtain ⟨b, u, t, b', hbuild', hb', hu, hstored', ht⟩ := hy.run
  obtain ⟨t', b'', hagain, -, -, -, hsame⟩ := Skeleton.build_relocated hK.accounts hbuild ha'
    (hb'.of_growsTo (Skeleton.growsTo_of_build hbuild')) (hr.trans (hpq.trans hu.symm)) hstored
    hstored'
  rw [htransactions, hskeleton, hbuild'] at hagain
  cases hagain
  rw [content, content, ← hs, ← ht, hsame, hnonce]

end Block

end ScriptLedger
