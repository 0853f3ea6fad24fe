import ScriptLedger.Proofs.Chain.Revalidation

/-!
# Transactions along a branch

A block enters its transactions into a trie, and refuses one that is there already.  The
trie is empty when the block begins.  So a transaction is refused as a duplicate if it was
given twice for one block, and for no other reason; which blocks came before is not looked
at.  A branch has a transaction as many times as it has blocks with it.

There can be more than one of them.  `Replay.again` is a transaction with nobody to pay for
it, and it is taken into a first block and into the next one.

## Main results

* `Skeleton.count_of_build_error` — what is refused as a duplicate was given twice.
* `Stage.Reached.history_count` — how often a branch has a transaction.
* `Stage.exists_replay` — a block with a transaction that its parent has.
-/

namespace ScriptLedger

open Digest Sequencing

variable {R : Set Rules} {rules : Rules} {s : Stage} {a a' : Archive} {w w' v : World}
variable {limits : Limits} {miner hash : Hash} {parent : Option Block}
variable {transactions : List Transaction} {timestamp : UInt64} {c : Chain} {b : Block}

/-! ## Duplicates -/

namespace Skeleton

/-- Only a transaction that is in the trie is refused as a duplicate. -/
theorem contains_of_addTransaction_error {t : Trie} {entry : Hash × Transaction}
    (h : addTransaction limits miner (w, t) entry a = .error (.duplicateTransaction hash) a') :
    entry.1 = hash ∧ t.contains entry.1 = .ok true := by
  obtain ⟨place, tx⟩ := entry
  rcases bind_eq_error.mp h with hknown | ⟨known, _, hknown, h⟩
  · cases hcontains : t.contains place <;> rw [hcontains] at hknown <;> cases hknown
  obtain ⟨hcontains, rfl⟩ := ofExcept_eq_ok.mp hknown
  cases known with
  | true =>
      cases h
      exact ⟨rfl, except_mapError_eq_ok.mp hcontains⟩
  | false =>
  rcases bind_eq_error.mp h with hget | ⟨_, _, hget, h⟩
  · cases hget
  obtain ⟨rfl, rfl⟩ := get_eq_ok.mp hget
  by_cases hsigned : tx.isSigned (w.pubkey? a) = true
  · simp only [hsigned, Bool.not_true, Bool.false_eq_true, if_false] at h
    rcases bind_eq_error.mp h with htransit | ⟨_, _, -, h⟩
    · obtain ⟨_, -, heq⟩ := adaptExcept_eq_error.mp htransit
      cases heq
    rcases bind_eq_error.mp h with hput | ⟨_, _, -, h⟩
    · cases hplace : t.put place place <;> rw [hplace] at hput <;> cases hput
    · cases h
  · simp only [hsigned, Bool.not_false, if_true] at h
    obtain ⟨heq, -⟩ := throw_eq_error.mp h
    cases heq

/-- What is refused as a duplicate is given, and was in the trie before or is given twice. -/
theorem count_of_foldlM_error {entries : List (Hash × Transaction)} {t : Trie}
    (h : entries.foldlM (addTransaction limits miner) (w, t) a =
      .error (.duplicateTransaction hash) a') :
    hash ∈ entries.map (·.1) ∧
      (t.contains hash = .ok true ∨ 1 < (entries.map (·.1)).count hash) := by
  induction entries generalizing w a t with
  | nil => cases h
  | cons entry rest ih =>
      rw [List.foldlM_cons] at h
      rw [List.map_cons, List.mem_cons]
      rcases bind_eq_error.mp h with hentry | ⟨⟨w₁, t₁⟩, a₁, hentry, hrest⟩
      · obtain ⟨rfl, hcontains⟩ := contains_of_addTransaction_error hentry
        exact ⟨Or.inl rfl, Or.inl hcontains⟩
      obtain ⟨place, tx⟩ := entry
      obtain ⟨-, -, -, hput⟩ := addTransaction_eq_ok_iff.mp hentry
      obtain ⟨hmem, hbefore⟩ := ih hrest
      refine ⟨Or.inr hmem, ?_⟩
      by_cases hplace : hash = place
      · have hcount := List.count_pos_iff.mpr hmem
        right
        rw [hplace, List.count_cons_self, ← hplace]
        exact Nat.succ_lt_succ hcount
      · rw [contains_put hput, if_neg hplace] at hbefore
        rw [List.count_cons_of_ne (Ne.symm hplace)]
        exact hbefore

theorem position_ne_duplicate {difficulty : UInt64} :
    position difficulty parent ≠ .error (.duplicateTransaction hash) := by
  have hcounter : ∀ m n : UInt64, counter m n ≠ .error (.duplicateTransaction hash) := by
    intro m n
    unfold counter
    cases Word.unsigned? (m.toNat + n.toNat) <;> simp
  cases parent with
  | none => simp [position]
  | some p =>
      intro h
      unfold position at h
      dsimp only at h
      cases hheight : counter p.height 1 with
      | error cause =>
          rw [hheight] at h
          cases h
          exact hcounter _ _ hheight
      | ok height =>
      rw [hheight] at h
      cases hwork : counter p.accumulatedDifficulty difficulty with
      | error cause =>
          simp only [hwork] at h
          cases h
          exact hcounter _ _ hwork
      | ok work =>
          simp only [hwork] at h
          cases h

/-- What is refused as a duplicate was given twice for the block, whatever there is in the
blocks before it. -/
theorem count_of_build_error
    (h : build rules parent transactions miner timestamp a =
      .error (.duplicateTransaction hash) a') :
    1 < (transactions.map Record.hash).count hash := by
  rcases bind_eq_error.mp h with hbase | ⟨start, mid, -, h⟩
  · cases parent with
    | some p => cases hbase
    | none =>
        rcases bind_eq_error.mp hbase with hgenesis | ⟨_, _, -, hfork⟩
        · obtain ⟨_, -, heq⟩ := adaptExcept_eq_error.mp hgenesis
          cases heq
        · cases hfork
  rcases bind_eq_error.mp h with hloop | ⟨⟨world, txTrie⟩, last, -, h⟩
  · obtain ⟨-, hcontains | hcount⟩ := count_of_foldlM_error hloop
    · rw [Trie.contains_empty] at hcontains
      cases hcontains
    · have hperm := (List.mergeSort_perm (transactions.map fun tx => (Record.hash tx, tx))
        fun p q => p.1.isLE q.1).map Prod.fst
      rw [List.map_map] at hperm
      rw [show transactions.map Record.hash = transactions.map (Prod.fst ∘ fun tx =>
        (Record.hash tx, tx)) from rfl, ← hperm.count_eq]
      exact hcount
  · rcases bind_eq_error.mp h with hplace | ⟨_, _, -, h⟩
    · cases hposition : position rules.difficulty parent <;> rw [hposition] at hplace <;>
        cases hplace
      exact absurd hposition position_ne_duplicate
    · cases h

end Skeleton

/-! ## Branches -/

/-- The digests of all transactions along a branch, those of the newest block first. -/
def Chain.history (c : Chain) (hash : Hash) : List Hash :=
  (c.ancestors hash).flatMap fun b => b.skeleton.transactions.map Record.hash

/-- A list of lists without repetition has an element as many times as there are lists with
it. -/
theorem count_flatMap_of_nodup {α β : Type} [DecidableEq β] {f : α → List β} {l : List α}
    (h : ∀ x ∈ l, (f x).Nodup) (y : β) :
    (l.flatMap f).count y = l.countP fun x => decide (y ∈ f x) := by
  induction l with
  | nil => rfl
  | cons x l ih =>
      obtain ⟨hx, hl⟩ := List.forall_mem_cons.mp h
      rw [List.flatMap_cons, List.count_append, ih hl, List.countP_cons, Nat.add_comm,
        hx.count]
      simp only [decide_eq_true_eq]

theorem Chain.get?_of_mem_walk {left : Nat} (h : b ∈ c.walk left hash) :
    ∃ place, c.get? place = some b := by
  induction left generalizing hash with
  | zero => exact absurd h List.not_mem_nil
  | succ left ih =>
      rw [walk] at h
      cases hget : c.get? hash with
      | none =>
          rw [hget] at h
          exact absurd h List.not_mem_nil
      | some x =>
          rw [hget] at h
          rcases List.mem_cons.mp h with rfl | h
          · exact ⟨hash, hget⟩
          · exact ih h

namespace Stage

theorem Reached.tabled (h : Reached R rules s) (hget : s.chain.get? hash = some b) :
    b.skeleton.Tabled := (h.recorded (Or.inr ⟨hash, hget⟩)).tabled

/-- A block has a transaction once at most, and its trie has just the ones that it has; a
branch has a transaction once for each block with it; and the next block, whatever it is
built on, refuses as duplicates just transactions that are given twice. -/
theorem Reached.history_count (h : Reached R rules s) (hget : s.chain.get? hash = some b)
    (tx : Hash) :
    (b.skeleton.transactions.map Record.hash).Nodup ∧
      (b.skeleton.txTrie.contains tx = .ok true ↔
        tx ∈ b.skeleton.transactions.map Record.hash) ∧
      (s.chain.history hash).count tx = (s.chain.ancestors hash).countP
        (fun x => decide (tx ∈ x.skeleton.transactions.map Record.hash)) ∧
      ∀ parent transactions miner timestamp a',
        Skeleton.build s.chain.rules parent transactions miner timestamp s.archive =
          .error (.duplicateTransaction tx) a' →
        1 < (transactions.map Record.hash).count tx := by
  have htabled := h.tabled hget
  refine ⟨htabled.nodup, htabled.mem_iff tx, ?_, fun _ _ _ _ _ hbuild =>
    Skeleton.count_of_build_error hbuild⟩
  refine count_flatMap_of_nodup (fun x hx => ?_) tx
  obtain ⟨place, hplace⟩ := Chain.get?_of_mem_walk hx
  exact (h.tabled hplace).nodup

end Stage

/-! ## A transaction that can be applied again and again -/

namespace Replay

open Genesis

/-- What the factory is asked to make: itself, which is there. -/
def params : String :=
  "[] [] 1 '' k0xae2f6b317a092d722226eb8437f38b250f29ac22f9d189512adde4ddf921c319"

/-- Nobody pays, and the factory is paid nothing. -/
def body : TransactionData :=
  { fee := 0, inputs := [Input.null], nonce := Blob.zero, outputs := [⟨address, params, 0⟩] }

/-- The transaction with this body, which needs no signature. -/
def again : Transaction := { signatures := [Blob.zero], data := body }

theorem validate_again : again.validate = .ok () := by decide

theorem isSigned_again (keyOf : Hash → Option Pubkey) : again.isSigned keyOf = true := rfl

/-! ### Applying it -/

/-- The run of the script of the factory. -/
def call : Invocation :=
  { callee := account, payers := [], amount := 0, params := .script params }

/-- The script returns on the first state, and nothing new is put into the stores. -/
theorem exists_run_first : ∃ w a outcome a', Alone a w ∧ call.run {} w a = .ok outcome a' ∧
    a'.Within {account} := by
  have hrun : ∃ outcome a', call.run {} ⟨trie, Archive.empty.addStore.1⟩
      (Archive.empty.addStore.2.insert Archive.empty.addStore.1 account) = .ok outcome a' ∧
        a'.journal = [account] := by
    decide +kernel
  obtain ⟨outcome, a', hrun, hjournal⟩ := hrun
  obtain ⟨w, a, hworld, h⟩ := exists_world (a := Archive.empty)
    fun account hmem => absurd hmem List.not_mem_nil
  rw [world_eq] at hworld
  cases hworld
  refine ⟨_, _, outcome, a', h, hrun, fun other hmem => ?_⟩
  rw [hjournal] at hmem
  exact List.mem_singleton.mp hmem

/-- The script returns wherever the factory is alone, and leaves it so. -/
theorem exists_run (h : Alone a w) :
    ∃ outcome a', call.run {} w a = .ok outcome a' ∧ Alone a' outcome.world := by
  obtain ⟨first, start, outcome, last, hfirst, hrun, hlast⟩ := exists_run_first
  obtain ⟨outcome', a', hrun', -, -, hstores, hworlds⟩ :=
    Likeness.run_of_run (L := .relocated _ injOn_account) ⟨hfirst.within, h.within⟩
      ⟨h.trie.trans hfirst.trie.symm, hfirst.stored, h.stored⟩
      (Likeness.not_blinded_relocated injOn_account call {} _ _) hrun hlast
  have hcallee : w.Holds a call.callee := h.holds
  have heffect := Invocation.effect_of_run h.stored.wellFormed hcallee hrun'
    (hstores.2.collisionless injOn_account)
  have hcovers : w.trie.Covers {account} := h.trie ▸ covers_trie
  exact ⟨outcome', a', hrun', hstores.2, hworlds.2.2,
    (hcovers.effect heffect hstores.2).trans h.trie⟩

/-- The transaction can be applied wherever the factory is alone, and leaves it so. -/
theorem exists_transit (h : Alone a w) :
    ∃ w' a', World.transit {} address body w a = .ok w' a' ∧ Alone a' w' := by
  obtain ⟨outcome, a₁, hrun, h₁⟩ := exists_run h
  obtain ⟨w₂, a₂, hcredit, h₂⟩ := h₁.credit
  obtain ⟨w', a', hfee, h'⟩ := h₂.credit
  have hnone : body.inputs.filter (fun input => !input.isNull) = [] := rfl
  have hcode : account.hasCode = true := rfl
  exact ⟨w', a', World.transit_of_run hnone rfl h.holds hcode rfl hrun hcredit rfl hfee, h'⟩

/-! ### Two blocks with it -/

/-- The header of a block with this transaction alone. -/
def header (stateRoot txRoot prevBlockHash : Hash) (count : UInt64) : BlockHeader :=
  { nonce := Blob.zero
    skeleton :=
      { prevBlockHash, timestamp := 0, height := count, difficulty := 1
        accumulatedDifficulty := count, minerAddress := address, stateRoot, txRoot } }

/-- The trie of the transaction alone. -/
def txTrie : Trie := ⟨Node.line (Record.hash again) (Path.ofHash (Record.hash again))⟩

/-- The header that such a block has over the first state. -/
def next (prevBlockHash : Hash) (count : UInt64) : BlockHeader :=
  header trie.rootHash txTrie.rootHash prevBlockHash count

/-- The name of a first block. -/
def first : Hash := Record.hash (next Blob.zero 1)

/-- The name of the block after it. -/
def second : Hash := Record.hash (next first 2)

theorem nodup_hashes :
    (Blob.zero :: [Record.hash again, first, second]).Nodup := by
  obtain ⟨d, hd, hdigest⟩ := Node.exists_digest (Record.bytes again)
  obtain ⟨root, _, hroot, -, hclimb⟩ := Node.exists_climb hd (Path.ofHash (Record.hash again))
  obtain ⟨d₁, hd₁, hdigest₁⟩ := Node.exists_digest (Record.bytes (next Blob.zero 1))
  obtain ⟨d₂, hd₂, hdigest₂⟩ := Node.exists_digest (Record.bytes (next first 2))
  have hcomputed : Numbers.digest (Record.bytes again) (fun d =>
      Node.climb (Path.ofHash (Node.ofWords (d.map UInt32.ofNat))) d fun root _ =>
        Numbers.digest (Record.bytes (header (Node.ofWords rootWords)
          (Node.ofWords (root.map UInt32.ofNat)) Blob.zero 1)) fun d₁ =>
        Numbers.digest (Record.bytes (header (Node.ofWords rootWords)
          (Node.ofWords (root.map UInt32.ofNat)) (Node.ofWords (d₁.map UInt32.ofNat)) 2)) fun d₂ =>
            decide (0 :: [d, d₁, d₂].map Octet.a).Nodup) = true := by
    simp only [again, body, header, List.map, Record.bytes, Record.toJson, Transaction.toJson,
      TransactionData.toJson, Input.toJson, Output.toJson, BlockHeader.toJson,
      SkeletonHeader.toJson, Json.render_object_cons, Json.renderMembers_cons,
      Json.renderMembers_nil, Json.render_array_cons, Json.renderItems_nil,
      Json.render_ofBlob, Json.render_ofUInt64, Json.render_text]
    decide +kernel
  have hfirst : Record.bytes (header (Node.ofWords rootWords)
      (Node.ofWords (root.map UInt32.ofNat)) Blob.zero 1) = Record.bytes (next Blob.zero 1) := by
    rw [hroot.ofWords_eq, ← rootHash_trie]
    rfl
  have hsecond : Record.bytes (header (Node.ofWords rootWords)
      (Node.ofWords (root.map UInt32.ofNat)) (Node.ofWords (d₁.map UInt32.ofNat)) 2) =
        Record.bytes (next first 2) := by
    rw [hroot.ofWords_eq, hd₁.ofWords_eq, ← rootHash_trie]
    rfl
  have hash_again : Node.ofWords (d.map UInt32.ofNat) = Record.hash again := hd.ofWords_eq
  rw [hdigest, hash_again, hclimb, hfirst, hdigest₁, hsecond, hdigest₂,
    decide_eq_true_iff] at hcomputed
  exact Node.nodup_of_climb (.cons hd (.cons hd₁ (.cons hd₂ .nil))) hcomputed

theorem hash_again_ne_zero : Record.hash again ≠ Blob.zero := fun heq =>
  (List.nodup_cons.mp nodup_hashes).1 (heq ▸ List.mem_cons_self)

theorem put_again : Trie.empty.put (Record.hash again) (Record.hash again) = .ok txTrie := by
  rw [Trie.put_eq Trie.canonical_empty _ hash_again_ne_zero,
    Trie.assign_empty _ hash_again_ne_zero]
  rfl

/-- A block with the transaction alone can be built wherever the factory is alone. -/
theorem exists_build {prev : Hash} {count : UInt64} (hbase : Skeleton.base parent a = .ok w a')
    (h : Alone a' w) (hplace : Skeleton.position 1 parent = .ok (prev, count, count)) :
    ∃ skeleton last,
      Skeleton.build { difficulty := 1 } parent [again] address 0 a = .ok skeleton last ∧
        Alone last skeleton.world ∧ skeleton.transactions = [again] ∧
          skeleton.header = (next prev count).skeleton := by
  obtain ⟨world, last, htransit, hworld⟩ := exists_transit h
  have hordered : Skeleton.ordered [again] = [(Record.hash again, again)] := by
    simp [Skeleton.ordered]
  have hentry : Skeleton.addTransaction {} address (w, Trie.empty) (Record.hash again, again) a' =
      .ok (world, txTrie) last :=
    Skeleton.addTransaction_eq_ok_iff.mpr
      ⟨Trie.contains_empty _, isSigned_again _, htransit, put_again⟩
  have hloop : (Skeleton.ordered [again]).foldlM (Skeleton.addTransaction {} address)
      (w, Trie.empty) a' = .ok (world, txTrie) last := by
    rw [hordered]
    exact bind_eq_ok.mpr ⟨_, last, hentry, rfl⟩
  refine ⟨_, last, Skeleton.build_eq_ok_iff.mpr
    ⟨w, a', world, txTrie, _, hbase, hloop, hplace, rfl⟩, hworld, ?_, ?_⟩
  · rw [hordered]
    rfl
  · rw [World.rootHash, hworld.trie]
    rfl

/-- A chain that has the parent, and no block of this name, takes the block. -/
theorem exists_next {prev : Hash} {count : UInt64}
    (hs : s.Reached { { difficulty := 1 } } { difficulty := 1 })
    (hknown : ∀ p, parent = some p → s.Has p)
    (hbase : Skeleton.base parent s.archive = .ok w a) (h : Alone a w)
    (hplace : Skeleton.position 1 parent = .ok (prev, count, count))
    (hparent : ∃ p, s.chain.parent prev = .ok p)
    (hnew : s.chain.contains (Record.hash (next prev count)) = false) :
    ∃ s' b, Stage.Reached { { difficulty := 1 } } { difficulty := 1 } s' ∧
      s'.chain = s.chain.add b.hash b ∧ b.header = next prev count ∧
        b.skeleton.transactions = [again] ∧ Alone s'.archive b.skeleton.world := by
  obtain ⟨skeleton, mid, hbuild, hmid, htransactions, hheader⟩ := exists_build hbase h hplace
  obtain ⟨world, last, hworld, hlast⟩ := hmid.commit
  let built : Block := ⟨skeleton, Blob.zero⟩
  let stored : Block := ⟨{ skeleton with world }, Blob.zero⟩
  have hbuilt : built.header = next prev count := by
    rw [Block.header, Skeleton.withNonce, hheader]
    rfl
  have hcommit : built.commit mid = .ok stored last :=
    bind_eq_ok.mpr ⟨world, last, hworld, rfl⟩
  have hwork : built.meetsTarget = true := by
    refine Work.meetsTarget_of_le_one _ ?_
    rw [hheader]
    exact Nat.le_refl 1
  have hinsert : s.chain.insert built mid =
      .ok (s.chain.add built.hash stored, built.hash) last := by
    refine Chain.insert_eq_ok_iff.mpr ⟨hwork, ?_, rfl, Or.inr ⟨?_, _, hcommit, rfl⟩⟩
    · rw [Block.prevBlockHash, hheader]
      exact hparent
    · rw [Block.hash, hbuilt]
      exact hnew
  exact ⟨_, stored, hs.insert (Set.mem_singleton _) hknown hbuild hinsert, rfl, hbuilt,
    htransactions, hlast⟩

theorem hashes_ne : first ≠ Blob.zero ∧ second ≠ Blob.zero ∧ second ≠ first := by
  have hnodup := nodup_hashes
  simp only [List.nodup_cons, List.mem_cons, List.not_mem_nil, or_false, not_or] at hnodup
  exact ⟨Ne.symm hnodup.1.2.1, Ne.symm hnodup.1.2.2, Ne.symm hnodup.2.2.1⟩

/-- A chain can come to have a first block with the transaction. -/
theorem exists_one : ∃ s b, Stage.Reached { { difficulty := 1 } } { difficulty := 1 } s ∧
    s.chain = (Chain.empty { difficulty := 1 }).add b.hash b ∧ b.header = next Blob.zero 1 ∧
      b.skeleton.transactions = [again] ∧ Alone s.archive b.skeleton.world := by
  obtain ⟨w, a, hworld, hw⟩ := exists_world (a := Archive.empty)
    fun account hmem => absurd hmem List.not_mem_nil
  obtain ⟨start, mid, hfork, hstart⟩ := hw.fork (ε := BlockError)
  have hbase : Skeleton.base none Archive.empty = .ok start mid :=
    bind_eq_ok.mpr ⟨w, a, adaptExcept_eq_ok.mpr hworld, hfork⟩
  exact exists_next .start (fun _ h => by cases h) hbase hstart rfl ⟨none, Chain.parent_zero _⟩
    (by simp [Stage.start, Chain.contains_eq])

/-- A chain can come to have this block, and another one with the transaction after it. -/
theorem exists_two : ∃ s b c, Stage.Reached { { difficulty := 1 } } { difficulty := 1 } s ∧
    s.chain = ((Chain.empty { difficulty := 1 }).add b.hash b).add c.hash c ∧
      (b.header = next Blob.zero 1 ∧ b.skeleton.transactions = [again]) ∧
        c.header = next first 2 ∧ c.skeleton.transactions = [again] := by
  obtain ⟨s, b, hs, hchain, hheader, hb, halone⟩ := exists_one
  have hname : b.hash = first := congrArg Record.hash hheader
  have hget : s.chain.get? b.hash = some b := by rw [hchain, Chain.get?_add_self]
  obtain ⟨start, mid, hfork, hstart⟩ := halone.fork (ε := BlockError)
  have hbase : Skeleton.base (some b) s.archive = .ok start mid := hfork
  have hplace : Skeleton.position 1 (some b) = .ok (first, 2, 2) := by
    have hheight : b.height = 1 := congrArg (·.skeleton.height) hheader
    have hwork : b.accumulatedDifficulty = 1 :=
      congrArg (·.skeleton.accumulatedDifficulty) hheader
    have hcounter : Skeleton.counter 1 1 = .ok 2 := rfl
    rw [Skeleton.position, hheight, hwork, hcounter, hname]
    rfl
  have hparent : ∃ p, s.chain.parent first = .ok p :=
    ⟨some b, hname ▸ Chain.parent_of_get? hget (hname ▸ hashes_ne.1)⟩
  have hnew : s.chain.contains second = false := by
    rw [hchain, Chain.contains_eq, Chain.get?_add_eq, hname, if_neg hashes_ne.2.2,
      Chain.get?_empty]
    rfl
  obtain ⟨s', c, hs', hchain', hheader', hc, -⟩ :=
    exists_next hs (fun p h => by cases h; exact Or.inr ⟨_, hget⟩) hbase hstart hplace hparent hnew
  rw [hchain] at hchain'
  exact ⟨s', b, c, hs', hchain', ⟨hheader, hb⟩, hheader', hc⟩

/-- The two blocks are a branch. -/
theorem exists_branch : ∃ s b c, Stage.Reached { { difficulty := 1 } } { difficulty := 1 } s ∧
    s.chain.get? b.hash = some b ∧ s.chain.get? c.hash = some c ∧ c.hash ≠ b.hash ∧
      s.chain.ancestors c.hash = [c, b] ∧ b.skeleton.transactions = [again] ∧
        c.skeleton.transactions = [again] := by
  obtain ⟨s, b, c, hs, hchain, ⟨hheader, hb⟩, hheader', hc⟩ := exists_two
  obtain ⟨hfirst, hsecond, hne⟩ := hashes_ne
  have hname : b.hash = first := congrArg Record.hash hheader
  have hname' : c.hash = second := congrArg Record.hash hheader'
  have hgets (hash : Hash) : s.chain.get? hash =
      if hash = second then some c else if hash = first then some b else none := by
    rw [hchain, Chain.get?_add_eq, Chain.get?_add_eq, Chain.get?_empty, hname, hname']
  have hgetb : s.chain.get? b.hash = some b := by
    rw [hgets, hname, if_neg (Ne.symm hne), if_pos rfl]
  have hgetc : s.chain.get? c.hash = some c := by rw [hgets, hname', if_pos rfl]
  have hwalks : s.chain.Walks c.hash [c, b] := by
    refine .step hgetc ?_
    rw [show c.prevBlockHash = b.hash from
      (congrArg (·.skeleton.prevBlockHash) hheader').trans hname.symm]
    refine .step hgetb (.stop ?_)
    rw [show b.prevBlockHash = Blob.zero from congrArg (·.skeleton.prevBlockHash) hheader, hgets,
      if_neg (Ne.symm hsecond), if_neg (Ne.symm hfirst)]
  have hsize : [c, b].length ≤ s.chain.size := by
    rw [hchain, Chain.size_add, Chain.size_add]
    · exact Nat.le_add_left 2 _
    · simp [Chain.contains_eq]
    · rw [Chain.contains_eq, Chain.get?_add_eq, hname, hname', if_neg hne, Chain.get?_empty]
      rfl
  exact ⟨s, b, c, hs, hgetb, hgetc, by rw [hname, hname']; exact hne, hwalks.walk_eq hsize, hb, hc⟩

end Replay

namespace Stage

open Replay

theorem history_count_two : ∃ s b, Reached { { difficulty := 1 } } { difficulty := 1 } s ∧
    s.chain.get? b.hash = some b ∧
      (s.chain.history b.hash).count (Record.hash again) = 2 := by
  obtain ⟨s, b, c, hs, hgetb, hgetc, -, hancestors, hb, hc⟩ := exists_branch
  refine ⟨s, c, hs, hgetc, ?_⟩
  obtain ⟨-, -, hcount, -⟩ := hs.history_count hgetc (Record.hash again)
  rw [hcount, hancestors]
  simp [hb, hc]

/-- A block and its parent with one transaction, which follows all rules. -/
theorem exists_replay : ∃ s b c, Reached { { difficulty := 1 } } { difficulty := 1 } s ∧
    s.chain.get? b.hash = some b ∧ s.chain.get? c.hash = some c ∧ c.hash ≠ b.hash ∧
      s.chain.ancestors c.hash = [c, b] ∧ ∃ tx : Transaction, tx.validate = .ok () ∧
        Record.hash tx ∈ b.skeleton.transactions.map Record.hash ∧
          Record.hash tx ∈ c.skeleton.transactions.map Record.hash := by
  obtain ⟨s, b, c, hs, hgetb, hgetc, hne, hancestors, hb, hc⟩ := exists_branch
  refine ⟨s, b, c, hs, hgetb, hgetc, hne, hancestors, again, validate_again, ?_, ?_⟩
  · rw [hb]
    exact List.mem_singleton_self _
  · rw [hc]
    exact List.mem_singleton_self _

end Stage

end ScriptLedger
