import ScriptLedger.Chain.Basic
import ScriptLedger.Proofs.Block.Rebuild
import ScriptLedger.Proofs.Work.Target
import ScriptLedger.Proofs.World.Genesis

/-!
# The money supply of a chain

The first state holds no value, and a transaction that follows its rules only moves
value about: what it debits is what it credits and the fee.  So no chain ever holds
any value, whichever blocks were built, thrown away, inserted and received, and on
whichever forks.

`Chain.Reachable` has all of it: the stores, the blocks that somebody built on them,
and the chain.  A block is built on another one that was built or on one of the
chain, with any rules, and inserted at any later time, or never.  Whatever else goes
on in between may write to the stores.

## Main results

* `Chain.supply_constant` — a transaction leaves the supply as it is; a chain and its
  first state have none.
-/

namespace ScriptLedger

open Sequencing World

variable {a a' : Archive} {w w' : World}

/-! ## Balanced blocks -/

/-- A well-formed snapshot whose balances are all zero. -/
structure World.Penniless (a : Archive) (w : World) : Prop where
  wellFormed : w.WellFormed a
  total : w.total a = 0

namespace World.Penniless

theorem agrees (h : w.Penniless a) (hagrees : w.Agrees a a' w') : w'.Penniless a' where
  wellFormed := h.wellFormed.agrees hagrees
  total := hagrees.total_eq.trans h.total

theorem growsTo (h : w.Penniless a) (hgrows : a.GrowsTo a') : w.Penniless a' :=
  h.agrees (h.wellFormed.agrees_of_growsTo hgrows)

end World.Penniless

theorem World.total_of_transit {limits : Limits} {miner : Hash} {tx : Transaction}
    (hvalid : tx.validate = .ok ()) (hw : w.WellFormed a)
    (h : World.transit limits miner tx.data w a = .ok w' a') (hcol : a'.Collisionless) :
    w'.WellFormed a' ∧ w'.total a' = w.total a := by
  obtain ⟨_, hdata, -⟩ := except_bind_eq_ok.mp hvalid
  have hbooked := (World.books_transit limits miner tx.data).booked h hw hcol
  have htotal := hbooked.total hw hcol
  have hsum := TransactionData.sum_bookings hdata miner
  exact ⟨hbooked.wellFormed hw hcol, by omega⟩

/-- Transactions that follow their rules make no value. -/
theorem Applied.total {limits : Limits} {miner : Hash} {transactions : List Transaction}
    (h : Applied limits miner transactions a w a' w')
    (hvalid : ∀ tx ∈ transactions, tx.validate = .ok ()) (hw : w.WellFormed a)
    (hcol : a'.Collisionless) : w'.total a' = w.total a := by
  induction h with
  | nil a w => rfl
  | cons hsigned htransit hrest ih =>
      have hcol' := hrest.growsTo.collisionless hcol
      obtain ⟨hw', htotal⟩ :=
        World.total_of_transit (hvalid _ List.mem_cons_self) hw htransit hcol'
      rw [ih (fun tx hmem => hvalid tx (List.mem_cons_of_mem _ hmem)) hw' hcol, htotal]

/-- What a block starts from has no value if its parent has none. -/
theorem Skeleton.penniless_of_base {parent : Option Block} (h : base parent a = .ok w a')
    (hcol : a'.Collisionless) (hparent : ∀ b, parent = some b → b.skeleton.world.Penniless a) :
    w.Penniless a' := by
  cases parent with
  | some b => exact (hparent b rfl).agrees (agrees_fork h)
  | none =>
      obtain ⟨first, mid, hgenesis, hfork⟩ := bind_eq_ok.mp h
      obtain ⟨-, hempty⟩ := Genesis.world_eq_ok (adaptExcept_eq_ok.mp hgenesis)
      obtain ⟨hw, htotal⟩ := hempty ((growsTo_of_fork hfork).collisionless hcol)
      exact World.Penniless.agrees ⟨hw, htotal⟩ (agrees_fork hfork)

/-- A block has no value if its parent has none. -/
theorem Skeleton.penniless_of_build {rules : Rules} {parent : Option Block}
    {transactions : List Transaction} {miner : Hash} {timestamp : UInt64} {skeleton : Skeleton}
    (h : build rules parent transactions miner timestamp a = .ok skeleton a')
    (hcol : a'.Collisionless) (hvalid : ∀ tx ∈ transactions, tx.validate = .ok ())
    (hparent : ∀ b, parent = some b → b.skeleton.world.Penniless a) :
    skeleton.world.Penniless a' := by
  obtain ⟨start, mid, hbase, happlied, hperm⟩ := build_eq_ok h
  have hstart := penniless_of_base hbase (happlied.growsTo.collisionless hcol) hparent
  have hw := hstart.wellFormed
  refine ⟨(happlied.booked hw hcol).wellFormed hw hcol, ?_⟩
  have hall : ∀ tx ∈ skeleton.transactions, tx.validate = .ok () :=
    fun tx hmem => hvalid tx (hperm.mem_iff.mp hmem)
  rw [happlied.total hall hw hcol, hstart.total]

/-! ## Every chain there can be -/

namespace Chain

/-- The stores, the blocks that were built on them, and a chain, after any number of
steps in any order. -/
inductive Reachable (rules : Rules) : Archive → List Block → Chain → Prop
  /-- No block has been built. -/
  | empty : Reachable rules Archive.empty [] (Chain.empty rules)
  /-- Something else was written to the stores. -/
  | grow {a a' : Archive} {pool : List Block} {c : Chain} (h : Reachable rules a pool c)
      (hgrows : a.GrowsTo a') : Reachable rules a' pool c
  /-- A block was built, and nothing is done with it yet. -/
  | build {a a' : Archive} {pool : List Block} {c : Chain} {other : Rules}
      {parent : Option Block} {transactions : List Transaction} {miner nonce : Hash}
      {timestamp : UInt64} {skeleton : Skeleton} (h : Reachable rules a pool c)
      (hparent : ∀ b, parent = some b → b ∈ pool ∨ ∃ hash, c.get? hash = some b)
      (hvalid : ∀ tx ∈ transactions, tx.validate = .ok ())
      (hbuild : Skeleton.build other parent transactions miner timestamp a = .ok skeleton a') :
      Reachable rules a' (⟨skeleton, nonce⟩ :: pool) c
  /-- A block that was built was inserted. -/
  | insert {a a' : Archive} {pool : List Block} {c c' : Chain} {b : Block} {hash : Hash}
      (h : Reachable rules a pool c) (hmem : b ∈ pool)
      (hinsert : c.insert b a = .ok (c', hash) a') : Reachable rules a' pool c'
  /-- A block that was built elsewhere was received. -/
  | receive {a a' : Archive} {pool : List Block} {c c' : Chain} {header : BlockHeader}
      {transactions : List Transaction} {hash : Hash} (h : Reachable rules a pool c)
      (hvalid : ∀ tx ∈ transactions, tx.validate = .ok ())
      (hreceive : c.receive header transactions a = .ok (c', hash) a') :
      Reachable rules a' pool c'

/-- No block that was built or accepted has any value in its snapshot. -/
structure Penniless (a : Archive) (pool : List Block) (c : Chain) : Prop where
  built : ∀ b ∈ pool, b.skeleton.world.Penniless a
  accepted : ∀ hash b, c.get? hash = some b → b.skeleton.world.Penniless a

variable {pool : List Block} {c c' : Chain} {b : Block} {hash : Hash}

theorem Penniless.growsTo (h : c.Penniless a pool) (hgrows : a.GrowsTo a') :
    c.Penniless a' pool where
  built b hmem := (h.built b hmem).growsTo hgrows
  accepted hash b hget := (h.accepted hash b hget).growsTo hgrows

/-! ### Inserting a block -/

theorem get?_add_eq (c : Chain) (hash : Hash) (b : Block) (place : Hash) :
    (c.add hash b).get? place = if place = hash then some b else c.get? place := by
  unfold get? add
  rw [Std.TreeMap.getElem?_insert]
  by_cases hplace : place = hash
  · rw [if_pos hplace, if_pos (by rw [hplace]; exact Std.ReflOrd.compare_self)]
  · rw [if_neg hplace, if_neg fun heq => hplace (Std.LawfulEqOrd.eq_of_compare heq).symm]

/-- A block that is there after another one was added is that one, or was there before. -/
theorem get?_add_cases {place : Hash} {other : Block}
    (h : (c.add hash b).get? place = some other) :
    (place = hash ∧ other = b) ∨ c.get? place = some other := by
  rw [get?_add_eq] at h
  by_cases hplace : place = hash
  · rw [if_pos hplace] at h
    exact Or.inl ⟨hplace, (Option.some.inj h).symm⟩
  · rw [if_neg hplace] at h
    exact Or.inr h

theorem insert_eq_ok (h : c.insert b a = .ok (c', hash) a') :
    (c' = c ∧ a' = a) ∨ ∃ stored, b.commit a = .ok stored a' ∧ c' = c.add b.hash stored := by
  unfold insert at h
  dsimp only at h
  by_cases hwork : b.meetsTarget = true
  · simp only [hwork, Bool.not_true, Bool.false_eq_true, if_false] at h
    obtain ⟨_, _, hparent, h⟩ := bind_eq_ok.mp h
    obtain ⟨-, rfl⟩ := ofExcept_eq_ok.mp hparent
    by_cases hthere : c.contains b.hash = true
    · rw [if_pos hthere] at h
      obtain ⟨hsame, rfl⟩ := pure_eq_ok.mp h
      cases hsame
      exact Or.inl ⟨rfl, rfl⟩
    · rw [if_neg hthere] at h
      obtain ⟨stored, _, hcommit, h⟩ := bind_eq_ok.mp h
      obtain ⟨hsame, rfl⟩ := pure_eq_ok.mp h
      cases hsame
      exact Or.inr ⟨stored, adaptExcept_eq_ok.mp hcommit, rfl⟩
  · simp only [hwork, Bool.not_false, if_true] at h
    exact absurd h throw_ne_ok

/-- A first block that meets its target is accepted if its name is new. -/
theorem insert_first {stored : Block} (hwork : b.meetsTarget = true)
    (hfirst : b.prevBlockHash.isZero = true) (hnew : c.contains b.hash = false)
    (hcommit : b.commit a = .ok stored a') :
    c.insert b a = .ok (c.add b.hash stored, b.hash) a' := by
  have hparent : c.parent b.prevBlockHash = .ok none := by rw [parent, if_pos hfirst]
  unfold insert
  dsimp only
  simp only [hwork, hnew, hparent, Bool.not_true, Bool.false_eq_true, if_false]
  refine bind_eq_ok.mpr ⟨none, a, rfl, bind_eq_ok.mpr ⟨stored, a', ?_, rfl⟩⟩
  exact adaptExcept_eq_ok.mpr hcommit

variable (pool) in
theorem penniless_of_insert (h : c.insert b a = .ok (c', hash) a') :
    a.GrowsTo a' ∧ (a'.Collisionless → b.skeleton.world.Penniless a → c.Penniless a pool →
      c'.Penniless a' pool) := by
  rcases insert_eq_ok h with ⟨rfl, rfl⟩ | ⟨stored, hcommit, rfl⟩
  · exact ⟨.refl _, fun _ _ hall => hall⟩
  · obtain ⟨world, _, hworld, h⟩ := bind_eq_ok.mp hcommit
    obtain ⟨rfl, rfl⟩ := pure_eq_ok.mp h
    have hgrows := growsTo_of_commit hworld
    refine ⟨hgrows, fun hcol hb hall => ⟨(hall.growsTo hgrows).built, fun place other hget => ?_⟩⟩
    rcases get?_add_cases hget with ⟨-, rfl⟩ | hget
    · exact hb.agrees (agrees_commit hb.wellFormed hworld hcol)
    · exact (hall.growsTo hgrows).accepted place other hget

/-! ### Receiving a block -/

theorem parent_eq_some {prev : Hash} (h : c.parent prev = .ok (some b)) : c.get? prev = some b := by
  unfold parent at h
  split at h
  · cases h
  · cases hget : c.get? prev with
    | none => rw [hget] at h; cases h
    | some other => rw [hget] at h; cases h; rfl

theorem rebuild_eq_ok {header : BlockHeader} {transactions : List Transaction}
    (h : c.rebuild header transactions a = .ok b a') :
    ∃ parent, c.parent header.skeleton.prevBlockHash = .ok parent ∧
      Skeleton.build c.rules parent transactions header.skeleton.minerAddress
        header.skeleton.timestamp a = .ok b.skeleton a' := by
  obtain ⟨parent, _, hfound, h⟩ := bind_eq_ok.mp h
  obtain ⟨hparent, rfl⟩ := ofExcept_eq_ok.mp hfound
  obtain ⟨skeleton, mid, hbuild, h⟩ := bind_eq_ok.mp h
  refine ⟨parent, hparent, ?_⟩
  by_cases hheader : skeleton.header ≠ header.skeleton
  · rw [if_pos hheader] at h
    exact absurd h throw_ne_ok
  rw [if_neg hheader] at h
  by_cases hwork : Block.meetsTarget { skeleton, nonce := header.nonce } = true
  · simp only [hwork, Bool.not_true, Bool.false_eq_true, if_false] at h
    obtain ⟨rfl, rfl⟩ := pure_eq_ok.mp h
    exact hbuild
  · simp only [hwork, Bool.not_false, if_true] at h
    exact absurd h throw_ne_ok

/-! ### All of it -/

/-- Neither a block that was built nor one that was accepted ever has any value. -/
theorem Reachable.penniless {rules : Rules} (h : Reachable rules a pool c)
    (hcol : a.Collisionless) : c.Penniless a pool := by
  induction h with
  | empty =>
      constructor
      · intro b hmem
        exact absurd hmem List.not_mem_nil
      · intro hash b hget
        simp [get?, Chain.empty] at hget
  | grow h hgrows ih => exact (ih (hgrows.collisionless hcol)).growsTo hgrows
  | @build a a' pool c other parent transactions miner nonce timestamp skeleton h hparent hvalid
      hbuild ih =>
      have hgrows := Skeleton.growsTo_of_build hbuild
      have hall := ih (hgrows.collisionless hcol)
      have hskeleton := Skeleton.penniless_of_build hbuild hcol hvalid fun b hb => by
        rcases hparent b hb with hmem | ⟨hash, hget⟩
        · exact hall.built b hmem
        · exact hall.accepted hash b hget
      constructor
      · intro b hmem
        rcases List.mem_cons.mp hmem with rfl | hmem
        · exact hskeleton
        · exact (hall.growsTo hgrows).built b hmem
      · exact (hall.growsTo hgrows).accepted
  | @insert a a' pool c c' b hash h hmem hinsert ih =>
      obtain ⟨hgrows, hnext⟩ := penniless_of_insert pool hinsert
      have hall := ih (hgrows.collisionless hcol)
      exact hnext hcol (hall.built b hmem) hall
  | @receive a a' pool c c' header transactions hash h hvalid hreceive ih =>
      obtain ⟨b, mid, hrebuild, hinsert⟩ := bind_eq_ok.mp hreceive
      obtain ⟨parent, hparent, hbuild⟩ := rebuild_eq_ok hrebuild
      have hgrows := Skeleton.growsTo_of_build hbuild
      obtain ⟨hgrows', hnext⟩ := penniless_of_insert pool hinsert
      have hcol' := hgrows'.collisionless hcol
      have hall := ih (hgrows.collisionless hcol')
      have hskeleton := Skeleton.penniless_of_build hbuild hcol' hvalid fun b hb => by
        rw [hb] at hparent
        exact hall.accepted _ b (parent_eq_some hparent)
      exact hnext hcol hskeleton (hall.growsTo hgrows)

/-- No transaction makes or destroys value, the first state has none, and so no
account of any block of any chain has any. -/
theorem supply_constant :
    (∀ (limits : Limits) (miner : Hash) (tx : Transaction) (a a' : Archive) (w w' : World),
      tx.validate = .ok () → w.WellFormed a →
        World.transit limits miner tx.data w a = .ok w' a' → a'.Collisionless →
          w'.WellFormed a' ∧ ∃ total, w.supply a = .ok total ∧ w'.supply a' = .ok total) ∧
    (∀ (a a' : Archive) (w : World), Genesis.world a = .ok w a' → a'.Collisionless →
      w.supply a' = .ok 0) ∧
    (∀ (rules : Rules) (a : Archive) (pool : List Block) (c : Chain),
      Reachable rules a pool c → a.Collisionless → ∀ hash b, c.get? hash = some b →
        b.skeleton.world.supply a = .ok 0 ∧
          ∀ address account, b.skeleton.world.account? a address = .ok (some account) →
            account.balance = 0) := by
  refine ⟨?_, ?_, ?_⟩
  · intro limits miner tx a a' w w' hvalid hw h hcol
    obtain ⟨hw', htotal⟩ := World.total_of_transit hvalid hw h hcol
    refine ⟨hw', w.total a, supply_eq hw, ?_⟩
    rw [supply_eq hw', htotal]
  · intro a a' w h hcol
    obtain ⟨-, hempty⟩ := Genesis.world_eq_ok h
    obtain ⟨hw, htotal⟩ := hempty hcol
    rw [supply_eq hw, htotal]
  · intro rules a pool c h hcol hash b hget
    have hb := (h.penniless hcol).accepted hash b hget
    refine ⟨by rw [supply_eq hb.wellFormed, hb.total], fun address account hfound => ?_⟩
    have hle := balance_le_total hfound
    rw [hb.total] at hle
    rw [← UInt64.toNat_inj]
    exact Nat.le_zero.mp hle

/-- The first block without transactions, which asks for no work. -/
theorem exists_first :
    ∃ skeleton a, Skeleton.build { difficulty := 1 } none [] Genesis.address 0 Archive.empty =
        .ok skeleton a ∧
      ∃ stored a', Block.commit ⟨skeleton, Blob.zero⟩ a = .ok stored a' ∧
        skeleton.header.prevBlockHash.isZero = true ∧ skeleton.header.difficulty = 1 ∧
          a'.Collisionless := by
  have hempty : Archive.empty.Within {Genesis.account} :=
    fun account hmem => absurd hmem List.not_mem_nil
  obtain ⟨first, start, hworld, hfirst⟩ := Genesis.exists_world hempty
  obtain ⟨w, a, hfork, hw⟩ := hfirst.fork (ε := BlockError)
  obtain ⟨committed, a', hcommit, hcommitted⟩ := hw.commit
  have hbase : Skeleton.base none Archive.empty = .ok w a :=
    bind_eq_ok.mpr ⟨first, start, adaptExcept_eq_ok.mpr hworld, hfork⟩
  have hnone : (Skeleton.ordered []).foldlM (Skeleton.addTransaction {} Genesis.address)
      (w, Trie.empty) a = .ok (w, Trie.empty) a := by
    rw [show Skeleton.ordered [] = [] by simp [Skeleton.ordered]]
    rfl
  refine ⟨_, a, Skeleton.build_eq_ok_iff.mpr
    ⟨w, a, w, Trie.empty, _, hbase, hnone, rfl, rfl⟩, _, a', bind_eq_ok.mpr ⟨committed, a', hcommit, rfl⟩, Blob.isZero_iff.mpr rfl, rfl, ?_⟩
  exact hcommitted.within.collisionless Genesis.injOn_account

/-- A chain without blocks accepts it. -/
theorem exists_insert_first :
    ∃ skeleton a stored a',
      Skeleton.build { difficulty := 1 } none [] Genesis.address 0 Archive.empty = .ok skeleton a ∧
      Block.commit ⟨skeleton, Blob.zero⟩ a = .ok stored a' ∧
      (Chain.empty { difficulty := 1 }).insert ⟨skeleton, Blob.zero⟩ a =
        .ok ((Chain.empty { difficulty := 1 }).add (Block.hash ⟨skeleton, Blob.zero⟩) stored,
          Block.hash ⟨skeleton, Blob.zero⟩) a' ∧
      skeleton.header.prevBlockHash.isZero = true ∧ a'.Collisionless := by
  obtain ⟨skeleton, a, hbuild, stored, a', hcommit, hprev, hdifficulty, hcol⟩ := exists_first
  have hwork : Block.meetsTarget ⟨skeleton, Blob.zero⟩ = true := by
    refine Work.meetsTarget_of_le_one _ ?_
    rw [hdifficulty]
    decide
  have hnew : (Chain.empty { difficulty := 1 }).contains (Block.hash ⟨skeleton, Blob.zero⟩) =
      false := by
    simp [contains, Chain.empty]
  exact ⟨skeleton, a, stored, a', hbuild, hcommit, insert_first hwork hprev hnew hcommit, hprev,
    hcol⟩

/-- A chain with a block can be reached. -/
private theorem exists_reachable :
    ∃ a pool c hash b, Reachable { difficulty := 1 } a pool c ∧ a.Collisionless ∧
      c.get? hash = some b := by
  obtain ⟨skeleton, a, stored, a', hbuild, -, hinsert, -, hcol⟩ := exists_insert_first
  have hbuilt : Reachable { difficulty := 1 } a [⟨skeleton, Blob.zero⟩]
      (Chain.empty { difficulty := 1 }) :=
    .build .empty (fun _ h => by cases h) (fun _ h => absurd h List.not_mem_nil) hbuild
  refine ⟨a', _, _, Block.hash ⟨skeleton, Blob.zero⟩, stored,
    hbuilt.insert List.mem_cons_self hinsert, hcol, ?_⟩
  simp [get?, add]

theorem supply_constant_spending :
    (∃ w a w' a', Spending.transaction.validate = .ok () ∧ w.WellFormed a ∧
      World.transit {} Spending.payee.address Spending.transaction.data w a = .ok w' a' ∧
        a'.Collisionless ∧ ∃ total, w.supply a = .ok total ∧ w'.supply a' = .ok total) ∧
    (∃ a pool c hash b, Reachable { difficulty := 1 } a pool c ∧ a.Collisionless ∧
      c.get? hash = some b ∧ b.skeleton.world.supply a = .ok 0) := by
  refine ⟨?_, ?_⟩
  · obtain ⟨w, a, hopen, skeleton, a', hbuild, hcol⟩ := Spending.exists_build
    have hcol' := (Skeleton.growsTo_of_build hbuild).collisionless hcol
    obtain ⟨hw, -⟩ := Spending.wellFormed_opening hopen hcol'
    obtain ⟨start, mid, hfork, happlied, hperm⟩ := Skeleton.build_eq_ok hbuild
    rw [List.perm_singleton.mp hperm] at happlied
    have hvalid := Spending.validate_transaction
    cases happlied with
    | cons hsigned htransit hrest =>
        cases hrest
        have hstart : start.WellFormed mid := hw.agrees (agrees_fork hfork)
        obtain ⟨-, hsupply⟩ :=
          supply_constant.1 _ _ _ _ _ _ _ hvalid hstart htransit hcol
        exact ⟨start, mid, skeleton.world, a', hvalid, hstart, htransit, hcol, hsupply⟩
  · obtain ⟨a, pool, c, hash, b, hreachable, hcol, hget⟩ := exists_reachable
    obtain ⟨hsupply, -⟩ := supply_constant.2.2 _ a pool c hreachable hcol hash b hget
    exact ⟨a, pool, c, hash, b, hreachable, hcol, hget, hsupply⟩

end Chain

end ScriptLedger
