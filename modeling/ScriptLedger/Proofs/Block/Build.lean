import ScriptLedger.Block.Build
import ScriptLedger.Proofs.Record.Digest
import ScriptLedger.Proofs.Transaction.Signing
import ScriptLedger.Proofs.World.Progress

/-!
# What a block does to its parent's accounts

A block forks its parent's snapshot and applies its transactions to the fork, each
of them signed in the snapshot just before it.  `Applied` is that loop as a
relation; what it books is what its transactions book, in their order.

An account without script can lose its balance to nothing but inputs, and these are
signed with its own key: scripts take nothing from it, no transaction before has
changed the key, and no script can be put where there was none.

## Main results

* `Skeleton.addTransaction_eq_ok_iff`, `Skeleton.build_eq_ok_iff` — what a build does.
* `Applied.booked` — the transactions of a block make their bookings.
* `Skeleton.spared_of_build` — what a block can do to an account without script.
-/

namespace ScriptLedger

open Digest Sequencing World

variable {limits : Limits} {miner : Hash} {a a' : Archive} {w w' : World}
variable {transactions : List Transaction} {address : Hash} {old : Account}

/-! ## The loop -/

/-- Transactions are applied one after the other, each signed in the snapshot that
it is applied to. -/
inductive Applied (limits : Limits) (miner : Hash) :
    List Transaction → Archive → World → Archive → World → Prop
  | nil (a : Archive) (w : World) : Applied limits miner [] a w a w
  | cons {a a' a'' : Archive} {w w' w'' : World} {tx : Transaction} {rest : List Transaction}
      (hsigned : tx.isSigned (w.pubkey? a) = true)
      (htransit : World.transit limits miner tx.data w a = .ok w' a')
      (hrest : Applied limits miner rest a' w' a'' w'') :
      Applied limits miner (tx :: rest) a w a'' w''

namespace Skeleton

/-- What has to hold so that a transaction is applied. -/
theorem addTransaction_eq_ok_iff {t t' : Trie} {hash : Hash} {tx : Transaction} :
    addTransaction limits miner (w, t) (hash, tx) a = .ok (w', t') a' ↔
      t.contains hash = .ok false ∧ tx.isSigned (w.pubkey? a) = true ∧
        World.transit limits miner tx.data w a = .ok w' a' ∧ t.put hash hash = .ok t' := by
  constructor
  · intro h
    obtain ⟨known, _, hknown, h⟩ := bind_eq_ok.mp h
    obtain ⟨hcontains, rfl⟩ := ofExcept_eq_ok.mp hknown
    cases known with
    | true => exact absurd h throw_ne_ok
    | false =>
    obtain ⟨_, _, hget, h⟩ := bind_eq_ok.mp h
    obtain ⟨rfl, rfl⟩ := get_eq_ok.mp hget
    by_cases hsigned : tx.isSigned (w.pubkey? a) = true
    · simp only [hsigned, Bool.not_true, Bool.false_eq_true, if_false] at h
      obtain ⟨next, mid, htransit, h⟩ := bind_eq_ok.mp h
      obtain ⟨_, _, hentered, h⟩ := bind_eq_ok.mp h
      obtain ⟨hput, rfl⟩ := ofExcept_eq_ok.mp hentered
      cases h
      exact ⟨except_mapError_eq_ok.mp hcontains, hsigned, adaptExcept_eq_ok.mp htransit,
        except_mapError_eq_ok.mp hput⟩
    · simp only [hsigned, Bool.not_false, if_true] at h
      exact absurd h throw_ne_ok
  · rintro ⟨hcontains, hsigned, htransit, hput⟩
    refine bind_eq_ok.mpr ⟨false, a, ofExcept_eq_ok.mpr ⟨?_, rfl⟩, ?_⟩
    · exact except_mapError_eq_ok.mpr hcontains
    refine bind_eq_ok.mpr ⟨a, a, rfl, ?_⟩
    simp only [hsigned, Bool.not_true, Bool.false_eq_true, if_false]
    refine bind_eq_ok.mpr ⟨w', a', adaptExcept_eq_ok.mpr htransit, ?_⟩
    refine bind_eq_ok.mpr ⟨t', a', ofExcept_eq_ok.mpr ⟨?_, rfl⟩, rfl⟩
    exact except_mapError_eq_ok.mpr hput

theorem applied_of_foldlM {entries : List (Hash × Transaction)} {t t' : Trie}
    (h : entries.foldlM (addTransaction limits miner) (w, t) a = .ok (w', t') a') :
    Applied limits miner (entries.map (·.2)) a w a' w' := by
  induction entries generalizing w t a with
  | nil =>
      obtain ⟨hsame, rfl⟩ := pure_eq_ok.mp h
      cases hsame
      exact .nil _ _
  | cons entry rest ih =>
      rw [List.foldlM_cons] at h
      obtain ⟨⟨mid, t₁⟩, amid, hentry, hrest⟩ := bind_eq_ok.mp h
      obtain ⟨hash, tx⟩ := entry
      obtain ⟨-, hsigned, htransit, -⟩ := addTransaction_eq_ok_iff.mp hentry
      exact .cons hsigned htransit (ih hrest)

/-- A build is a base, the transactions in their order, and a header about both. -/
theorem build_eq_ok_iff {rules : Rules} {parent : Option Block} {timestamp : UInt64}
    {skeleton : Skeleton} :
    build rules parent transactions miner timestamp a = .ok skeleton a' ↔
      ∃ start mid world txTrie place, base parent a = .ok start mid ∧
        (ordered transactions).foldlM (addTransaction rules.limits miner)
          (start, Trie.empty) mid = .ok (world, txTrie) a' ∧
        position rules.difficulty parent = .ok place ∧
        skeleton =
          { header :=
              { prevBlockHash := place.1, timestamp, height := place.2.1
                difficulty := rules.difficulty, accumulatedDifficulty := place.2.2
                minerAddress := miner, stateRoot := world.rootHash, txRoot := txTrie.rootHash }
            transactions := (ordered transactions).map (·.2), world, txTrie } := by
  constructor
  · intro h
    obtain ⟨start, mid, hbase, h⟩ := bind_eq_ok.mp h
    obtain ⟨⟨world, txTrie⟩, last, hloop, h⟩ := bind_eq_ok.mp h
    obtain ⟨place, _, hplace, h⟩ := bind_eq_ok.mp h
    obtain ⟨hposition, rfl⟩ := ofExcept_eq_ok.mp hplace
    cases h
    exact ⟨start, mid, world, txTrie, place, hbase, hloop, hposition, rfl⟩
  · rintro ⟨start, mid, world, txTrie, place, hbase, hloop, hposition, rfl⟩
    refine bind_eq_ok.mpr ⟨start, mid, hbase, bind_eq_ok.mpr ⟨(world, txTrie), a', hloop, ?_⟩⟩
    exact bind_eq_ok.mpr ⟨place, a', ofExcept_eq_ok.mpr ⟨hposition, rfl⟩, rfl⟩

/-- A block that was built is its transactions, in some order, applied to what it
starts from. -/
theorem build_eq_ok {rules : Rules} {parent : Option Block} {timestamp : UInt64}
    {skeleton : Skeleton}
    (h : build rules parent transactions miner timestamp a = .ok skeleton a') :
    ∃ start mid, base parent a = .ok start mid ∧
      Applied rules.limits miner skeleton.transactions mid start a' skeleton.world ∧
        skeleton.transactions.Perm transactions := by
  obtain ⟨start, mid, world, t, place, hbase, hloop, -, rfl⟩ := build_eq_ok_iff.mp h
  refine ⟨start, mid, hbase, applied_of_foldlM hloop, ?_⟩
  have hsorted := List.mergeSort_perm (transactions.map fun tx => (Record.hash tx, tx))
    fun p q => p.1.isLE q.1
  have hperm := hsorted.map (·.2)
  have hentries : (transactions.map fun tx => (Record.hash tx, tx)).map (·.2) = transactions := by
    rw [List.map_map]
    exact List.map_id transactions
  rw [hentries] at hperm
  exact hperm

end Skeleton

theorem Skeleton.growsTo_of_base {parent : Option Block}
    (h : base parent a = .ok w a') : a.GrowsTo a' := by
  cases parent with
  | some b => exact growsTo_of_fork h
  | none =>
      obtain ⟨first, mid, hgenesis, hfork⟩ := bind_eq_ok.mp h
      exact (Genesis.world_eq_ok (adaptExcept_eq_ok.mp hgenesis)).1.trans (growsTo_of_fork hfork)

namespace Applied

theorem growsTo (h : Applied limits miner transactions a w a' w') : a.GrowsTo a' := by
  induction h with
  | nil a w => exact .refl a
  | cons hsigned htransit hrest ih =>
      exact ((World.books_transit limits miner _).growsTo htransit).trans ih

/-- Transactions make their bookings, in their order. -/
theorem booked (h : Applied limits miner transactions a w a' w') (hw : w.WellFormed a)
    (hcol : a'.Collisionless) :
    Booked (transactions.flatMap fun tx => tx.data.bookings miner) a w a' w' := by
  induction h with
  | nil a w => exact .nothing a w
  | @cons a a' a'' w w' w'' tx rest hsigned htransit hrest ih =>
      have hbooks := World.books_transit limits miner tx.data
      have hfirst := hbooks.booked htransit hw (hrest.growsTo.collisionless hcol)
      have hw' := hfirst.wellFormed hw (hrest.growsTo.collisionless hcol)
      exact hfirst.trans (ih hw' hcol)

end Applied

/-- Building a block loses nothing from the stores. -/
theorem Skeleton.growsTo_of_build {rules : Rules} {parent : Option Block} {timestamp : UInt64}
    {skeleton : Skeleton}
    (h : build rules parent transactions miner timestamp a = .ok skeleton a') :
    a.GrowsTo a' := by
  obtain ⟨start, mid, hbase, happlied, -⟩ := build_eq_ok h
  exact (growsTo_of_base hbase).trans happlied.growsTo

/-! ## Signatures -/

namespace Transaction

/-- Every input at an address, null inputs aside, has a signature by a key. -/
def SignedBy (key : Pubkey) (address : Hash) (tx : Transaction) : Prop :=
  ∀ (index : Nat) (input : Input), tx.data.inputs[index]? = some input →
    input.isNull = false → input.address = address →
      ∃ signature, tx.signatures[index]? = some signature ∧
        key.verify tx.dataHash signature = true

theorem signedBy_of_isSigned {tx : Transaction} {keyOf : Hash → Option Pubkey} {key : Pubkey}
    (h : tx.isSigned keyOf = true) (hkey : keyOf address = some key) :
    tx.SignedBy key address := by
  intro index input hinput hnull haddress
  obtain ⟨key', signature, hsignature, hfound, -, hverify⟩ := exists_key_of_isSigned h hinput hnull
  obtain rfl : key' = key := Option.some.inj (hfound.symm.trans (haddress ▸ hkey))
  exact ⟨signature, hsignature, hverify⟩

end Transaction

/-! ## Accounts without script -/

theorem Applied.spared (h : Applied limits miner transactions a w a' w') (hw : w.WellFormed a)
    (hcol : a'.Collisionless) (hold : w.account? a address = .ok (some old))
    (hplain : old.hasCode = false) :
    ∃ new, w'.account? a' address = .ok (some new) ∧
      old.Spared (transactions.map fun tx => tx.data.charged address).sum new ∧
        ∀ tx ∈ transactions, tx.SignedBy old.pubKey address := by
  induction h generalizing old with
  | nil a w => exact ⟨old, hold, .refl old, fun _ hmem => absurd hmem List.not_mem_nil⟩
  | @cons a a' a'' w w' w'' tx rest hsigned htransit hrest ih =>
      have hcol' := hrest.growsTo.collisionless hcol
      have hbooked := (World.books_transit limits miner tx.data).booked htransit hw hcol'
      obtain ⟨mid, hmid, hfirst⟩ := hbooked.spared hw hcol' hold hplain
      rw [TransactionData.taken_bookings] at hfirst
      have hplain' : mid.hasCode = false := by rw [hfirst.persists.hasCode_eq, hplain]
      obtain ⟨new, hnew, hsecond, hall⟩ := ih (hbooked.wellFormed hw hcol') hcol hmid hplain'
      refine ⟨new, hnew, hfirst.trans hsecond, fun other hmem => ?_⟩
      rcases List.mem_cons.mp hmem with rfl | hmem
      · refine Transaction.signedBy_of_isSigned hsigned ?_
        simp only [World.pubkey?, hold]
      · rw [← hfirst.persists.pubKey]
        exact hall other hmem

/-! ## A signed input -/

namespace Spending

/-- An account whose key is the neutral point, so that one signature holds of every
message. -/
def owner : Account :=
  { pubKey := ⟨(#v[1] : Vector UInt8 1) ++ Vector.replicate 31 (0 : UInt8)⟩, balance := 5
    code := "", ownerAccess := false, storage := [] }

/-- The account that is paid, and mines. -/
def payee : Account :=
  { pubKey := ⟨Vector.replicate 32 2⟩, balance := 1, code := "", ownerAccess := false
    storage := [] }

/-- The base point with the scalar one. -/
def signature : Signature :=
  ⟨((#v[0x58] : Vector UInt8 1) ++ Vector.replicate 31 (0x66 : UInt8)) ++
    ((#v[1] : Vector UInt8 1) ++ Vector.replicate 31 (0 : UInt8))⟩

/-- Three go from the owner to the payee, one of them as the fee. -/
def transaction : Transaction :=
  { signatures := [signature]
    data :=
      { fee := 1, inputs := [⟨owner.address, 3⟩], nonce := Blob.zero
        outputs := [⟨payee.address, "", 2⟩] } }

/-- A block with a snapshot. -/
def parent (world : World) : Block :=
  { skeleton :=
      { header := ⟨Blob.zero, 0, 1, 1, 1, payee.address, world.rootHash, Blob.zero⟩
        transactions := [], world, txTrie := Trie.empty }
    nonce := Blob.zero }

/-- The two accounts, all that they come to, and what the payee has before the fee. -/
def accounts : List Account :=
  [owner, payee, { owner with balance := 2 }, { payee with balance := 3 },
    { payee with balance := 4 }]

/-- The digests of the records and of the two keys are different, and none is zero. -/
theorem nodup_digests : (Blob.zero :: (accounts.map Record.hash ++
    [Record.hash transaction, owner.address, payee.address])).Nodup := by
  have hnodup : (Blob.zero :: (accounts.map Record.bytes ++
      [Record.bytes transaction, owner.pubKey.toList, payee.pubKey.toList]).map sha256).Nodup := by
    refine Node.nodup_of_digests ?_
    simp only [accounts, owner, payee, transaction, List.map, Record.bytes, Record.toJson,
      Account.toJson, Transaction.toJson, TransactionData.toJson, Input.toJson, Output.toJson,
      Json.render_object_cons, Json.renderMembers_cons, Json.renderMembers_nil,
      Json.render_array_cons, Json.renderItems_nil, Json.render_ofBlob, Json.render_ofUInt64,
      Json.render_text]
    decide +kernel
  rw [List.map_append, List.map_map] at hnodup
  exact hnodup

theorem named_accounts : Named {x | x ∈ accounts} :=
  named_of_nodup (nodup_digests.sublist ((List.sublist_append_left _ _).cons_cons _))

theorem address_ne : payee.address ≠ owner.address := by
  have hnodup := (List.nodup_append.mp nodup_digests.of_cons).2.1
  simp only [List.nodup_cons, List.mem_singleton] at hnodup
  exact Ne.symm hnodup.2.1

theorem hash_ne_zero {hash : Hash}
    (h : hash ∈ [Record.hash transaction, owner.address, payee.address]) : hash ≠ Blob.zero := by
  rintro rfl
  exact (List.nodup_cons.mp nodup_digests).1 (List.mem_append_right _ h)

theorem nodup_addresses : ([owner, payee].map Account.address).Nodup :=
  List.nodup_cons.mpr ⟨fun hmem => address_ne (List.mem_singleton.mp hmem).symm,
    List.nodup_singleton _⟩

theorem isZero_owner : owner.address.isZero = false :=
  Bool.eq_false_iff.mpr fun h => hash_ne_zero (by simp) (Blob.isZero_iff.mp h)

theorem validate_transaction : transaction.validate = .ok () := by
  have hinputs : TransactionData.checkNullInputs 0 transaction.data.inputs = .ok () := by
    simp [transaction, TransactionData.checkNullInputs, isZero_owner]
  have hdata : transaction.data.validate = .ok () := by
    rw [TransactionData.validate, hinputs]
    rfl
  rw [Transaction.validate, hdata]
  rfl

theorem verify_transaction : owner.pubKey.verify transaction.dataHash signature = true := by
  obtain ⟨d, hd, hdigest⟩ := Node.exists_digest (Record.bytes transaction.data)
  have hcomputed : Numbers.digest (Record.bytes transaction.data) (fun d =>
      owner.pubKey.verify (Node.ofWords (d.map UInt32.ofNat)) signature) = true := by
    simp only [transaction, Record.bytes, Record.toJson, TransactionData.toJson, List.map,
      Input.toJson, Output.toJson, Json.render_object_cons, Json.renderMembers_cons,
      Json.renderMembers_nil, Json.render_array_cons, Json.renderItems_nil, Json.render_ofBlob,
      Json.render_ofUInt64, Json.render_text]
    decide +kernel
  rw [hdigest, hd.ofWords_eq] at hcomputed
  exact hcomputed

theorem isSigned_transaction {keyOf : Hash → Option Pubkey}
    (hkey : keyOf owner.address = some owner.pubKey) : transaction.isSigned keyOf = true := by
  refine Transaction.isSigned_iff.mpr fun slot input hinput => ?_
  obtain rfl : slot = 0 := Nat.lt_one_iff.mp (List.getElem?_eq_some_iff.mp hinput).1
  obtain rfl : ⟨owner.address, 3⟩ = input := Option.some.inj hinput
  exact (Transaction.inputSigned_iff hinput).mpr
    ⟨signature, rfl, Or.inr ⟨owner.pubKey, hkey, rfl, verify_transaction⟩⟩

theorem position_parent (world : World) :
    Skeleton.position 1000 (some (parent world)) = .ok ((parent world).hash, 2, 1001) := by
  have hheight : Skeleton.counter (parent world).height 1 = .ok 2 := by
    show Skeleton.counter 1 1 = .ok 2
    rfl
  have hwork : Skeleton.counter (parent world).accumulatedDifficulty 1000 = .ok 1001 := by
    show Skeleton.counter 1 1000 = .ok 1001
    rfl
  rw [Skeleton.position, hheight, hwork]
  rfl

/-- The next block can be built, and no digests collide. -/
theorem exists_build :
    ∃ w a, World.ofAccounts [owner, payee] Archive.empty = .ok w a ∧ ∃ skeleton a',
      Skeleton.build {} (some (parent w)) [transaction] payee.address 0 a = .ok skeleton a' ∧
        a'.Collisionless := by
  have hopening : ∀ account ∈ [owner, payee], account ∈ accounts := by simp [accounts]
  have hempty : Archive.empty.Within {x | x ∈ accounts} :=
    fun account hmem => absurd hmem List.not_mem_nil
  obtain ⟨w, a, hopen, hw⟩ := exists_ofAccounts named_accounts hopening hempty
  obtain ⟨start, mid, hfork, hstart, hkeeps⟩ := hw.exists_fork (ε := BlockError)
  have hholds := (wellFormed_ofAccounts hopen
    (hw.within.collisionless named_accounts.injOn)).2 nodup_addresses
  have howner := hkeeps owner (hholds owner (by simp))
  have hinputs : transaction.data.inputs.filter (fun input => !input.isNull) =
      [⟨owner.address, 3⟩] := by
    simp [transaction, Input.isNull]
  have hmore : payee.addToBalance 2 = .ok { payee with balance := 3 } := rfl
  have hless : owner.addToBalance (-3) = .ok { owner with balance := 2 } := rfl
  have hfee : ({ payee with balance := 3 } : Account).addToBalance 1 =
      .ok { payee with balance := 4 } := rfl
  obtain ⟨world, a', htransit, hlast, -, -⟩ := hstart.exists_transit named_accounts {} hinputs rfl
    howner (hkeeps payee (hholds payee (by simp))) address_ne rfl rfl hmore rfl hless rfl hfee
    (by simp [accounts])
  have hkey : start.pubkey? mid owner.address = some owner.pubKey := by
    have hfound : start.account? mid owner.address = .ok (some owner) := howner
    rw [World.pubkey?, hfound]
  let hash := Record.hash transaction
  have hput : Trie.empty.put hash hash = .ok (Trie.empty.assign hash (some hash)) :=
    Trie.put_eq Trie.canonical_empty hash (hash_ne_zero (by simp [hash]))
  have hentry := Skeleton.addTransaction_eq_ok_iff.mpr
    ⟨Trie.contains_empty hash, isSigned_transaction hkey, htransit, hput⟩
  have hloop : (Skeleton.ordered [transaction]).foldlM (Skeleton.addTransaction {} payee.address)
      (start, Trie.empty) mid = .ok (world, Trie.empty.assign hash (some hash)) a' := by
    rw [show Skeleton.ordered [transaction] = [(hash, transaction)] by
      simp [Skeleton.ordered, hash]]
    exact bind_eq_ok.mpr ⟨_, a', hentry, rfl⟩
  exact ⟨w, a, hopen, _, a', Skeleton.build_eq_ok_iff.mpr
    ⟨start, mid, world, _, _, hfork, hloop, position_parent w, rfl⟩,
    hlast.within.collisionless named_accounts.injOn⟩

theorem wellFormed_opening {w : World} (h : World.ofAccounts [owner, payee] Archive.empty = .ok w a)
    (hcol : a.Collisionless) : w.WellFormed a ∧ w.Holds a owner := by
  obtain ⟨hw, hholds⟩ := wellFormed_ofAccounts h hcol
  exact ⟨hw, hholds nodup_addresses owner (by simp)⟩

end Spending

/-! ## Every block -/

/-- An account without script is in every next block: its key, its script, its owner
flag and its storage are the same, and it lost no more than inputs with its
signature took from it. -/
theorem Skeleton.spared_of_build {rules : Rules} {parent : Block} {timestamp : UInt64}
    {skeleton : Skeleton} (hw : parent.skeleton.world.WellFormed a)
    (h : build rules (some parent) transactions miner timestamp a = .ok skeleton a')
    (hcol : a'.Collisionless) (hold : parent.skeleton.world.account? a address = .ok (some old))
    (hplain : old.hasCode = false) :
    ∃ new, skeleton.world.account? a' address = .ok (some new) ∧
      new.pubKey = old.pubKey ∧ new.code = old.code ∧ new.ownerAccess = old.ownerAccess ∧
        new.storage = old.storage ∧
          old.balance.toNat ≤ new.balance.toNat +
            (skeleton.transactions.map fun tx => tx.data.charged address).sum ∧
              ∀ tx ∈ skeleton.transactions, tx.SignedBy old.pubKey address := by
  obtain ⟨start, mid, hbase, happlied, -⟩ := build_eq_ok h
  have hagrees := agrees_fork hbase
  rw [← hagrees.account?_eq] at hold
  obtain ⟨new, hnew, hspared, hsigned⟩ :=
    happlied.spared (hw.agrees hagrees) hcol hold hplain
  have hpersists := hspared.persists
  exact ⟨new, hnew, hpersists.pubKey, hpersists.code, hpersists.ownerAccess, hspared.storage,
    hspared.balance, hsigned⟩

theorem Skeleton.spared_of_spending : ∃ w a skeleton a', w.WellFormed a ∧
    build {} (some (Spending.parent w)) [Spending.transaction] Spending.payee.address 0 a =
      .ok skeleton a' ∧ a'.Collisionless ∧
        w.account? a Spending.owner.address = .ok (some Spending.owner) ∧
          Spending.owner.hasCode = false ∧
            ∃ new, skeleton.world.account? a' Spending.owner.address = .ok (some new) ∧
              Spending.owner.balance.toNat ≤ new.balance.toNat +
                (skeleton.transactions.map fun tx =>
                  tx.data.charged Spending.owner.address).sum ∧
                ∀ tx ∈ skeleton.transactions,
                  tx.SignedBy Spending.owner.pubKey Spending.owner.address := by
  obtain ⟨w, a, hopen, skeleton, a', hbuild, hcol⟩ := Spending.exists_build
  obtain ⟨hw, howner⟩ :=
    Spending.wellFormed_opening hopen ((growsTo_of_build hbuild).collisionless hcol)
  have hplain : Spending.owner.hasCode = false := rfl
  have hparent : (Spending.parent w).skeleton.world.WellFormed a := hw
  obtain ⟨new, hnew, -, -, -, -, hbalance, hsigned⟩ :=
    spared_of_build hparent hbuild hcol howner hplain
  exact ⟨w, a, skeleton, a', hw, hbuild, hcol, howner, hplain, new, hnew, hbalance, hsigned⟩

end ScriptLedger
