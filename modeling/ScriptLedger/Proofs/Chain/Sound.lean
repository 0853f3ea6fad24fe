import ScriptLedger.Proofs.Block.Rebuild
import ScriptLedger.Proofs.Chain.Supply

/-!
# Chains that can be built again

A chain is sound when each of its blocks could be built again on the parent that the
chain has for it.  Inserting a block that was built on its parent keeps a chain sound,
and a sound chain accepts every block that was built, here or elsewhere, on a block with
the content of one of its own.

## Main results

* `Chain.Sound.insert`, `Chain.Sound.receive_eq_ok` — accepted blocks keep a chain sound.
* `Chain.Sound.receive_of_built` — what was built elsewhere is accepted.
* `Chain.Sound.content_eq` — a name means the same block everywhere.
-/

namespace ScriptLedger

open Sequencing

variable {K : Digested} {a a' : Archive} {c c' : Chain} {b x y : Block} {hash : Hash}
variable {p q : Option Block}

namespace Chain

/-! ## Looking up -/

@[simp] theorem get?_empty (rules : Rules) (hash : Hash) :
    (Chain.empty rules).get? hash = none := by
  simp [get?, Chain.empty]

@[simp] theorem get?_add_self (c : Chain) (hash : Hash) (b : Block) :
    (c.add hash b).get? hash = some b := by
  rw [get?_add_eq, if_pos rfl]

theorem contains_eq (c : Chain) (hash : Hash) : c.contains hash = (c.get? hash).isSome := by
  unfold contains get?
  rw [Std.TreeMap.contains_eq_isSome_getElem?]

theorem get?_eq_none (h : c.contains hash = false) : c.get? hash = none := by
  rw [contains_eq] at h
  exact Option.not_isSome_iff_eq_none.mp (by rw [h]; exact Bool.false_ne_true)

theorem exists_get? (h : c.contains hash = true) : ∃ b, c.get? hash = some b := by
  rw [contains_eq] at h
  exact Option.isSome_iff_exists.mp h

theorem contains_of_get? (h : c.get? hash = some b) : c.contains hash = true := by
  rw [contains_eq, h, Option.isSome_some]

/-- The second chain has all blocks of the first one, under the same rules. -/
structure Extends (c c' : Chain) : Prop where
  rules : c'.rules = c.rules
  get? : ∀ hash b, c.get? hash = some b → c'.get? hash = some b

namespace Extends

theorem refl (c : Chain) : c.Extends c := ⟨rfl, fun _ _ h => h⟩

theorem trans {c'' : Chain} (h : c.Extends c') (h' : c'.Extends c'') : c.Extends c'' :=
  ⟨h'.rules.trans h.rules, fun hash b hget => h'.get? hash b (h.get? hash b hget)⟩

theorem add (h : c.contains hash = false) (b : Block) : c.Extends (c.add hash b) := by
  refine ⟨rfl, fun place other hget => ?_⟩
  rw [get?_add_eq, if_neg]
  · exact hget
  · rintro rfl
    rw [get?_eq_none h] at hget
    cases hget

theorem get?_eq_none (h : c.Extends c') (hnone : c'.get? hash = none) : c.get? hash = none := by
  rw [Option.eq_none_iff_forall_ne_some] at hnone ⊢
  exact fun b hget => hnone b (h.get? hash b hget)

theorem parent (h : c.Extends c') {prev : Hash} (hparent : c.parent prev = .ok p) :
    c'.parent prev = .ok p := by
  unfold Chain.parent at hparent ⊢
  by_cases hzero : prev.isZero = true
  · rw [if_pos hzero] at hparent ⊢
    exact hparent
  rw [if_neg hzero] at hparent ⊢
  cases hget : c.get? prev with
  | none => rw [hget] at hparent; cases hparent
  | some b =>
      rw [hget] at hparent
      rw [h.get? prev b hget]
      exact hparent

end Extends

/-! ## Parents -/

theorem parent_zero (c : Chain) : c.parent Blob.zero = .ok none := by
  rw [parent, if_pos (Blob.isZero_iff.mpr rfl)]

theorem parent_of_get? (hget : c.get? hash = some b) (hhash : hash ≠ Blob.zero) :
    c.parent hash = .ok (some b) := by
  rw [parent, if_neg fun hzero => hhash (Blob.isZero_iff.mp hzero), hget]

theorem exists_of_parent {prev : Hash} (h : c.parent prev = .ok p) (hprev : prev ≠ Blob.zero) :
    ∃ b, p = some b ∧ c.get? prev = some b := by
  cases p with
  | some b => exact ⟨b, rfl, parent_eq_some h⟩
  | none =>
      unfold parent at h
      rw [if_neg fun hzero => hprev (Blob.isZero_iff.mp hzero)] at h
      cases hget : c.get? prev with
      | none => rw [hget] at h; cases h
      | some b => rw [hget] at h; cases h

/-! ## Adding blocks -/

/-- A block is accepted if its work was done and its parent is there; it is committed
and added unless its name is there. -/
theorem insert_eq_ok_iff :
    c.insert b a = .ok (c', hash) a' ↔
      b.meetsTarget = true ∧ (∃ p, c.parent b.prevBlockHash = .ok p) ∧ hash = b.hash ∧
        ((c.contains b.hash = true ∧ c' = c ∧ a' = a) ∨
          (c.contains b.hash = false ∧
            ∃ stored, b.commit a = .ok stored a' ∧ c' = c.add b.hash stored)) := by
  unfold insert
  dsimp only
  cases hwork : b.meetsTarget with
  | false =>
      simp only [Bool.not_false, if_true, Bool.false_eq_true, false_and, iff_false]
      exact throw_ne_ok
  | true =>
  simp only [Bool.not_true, Bool.false_eq_true, if_false, true_and]
  constructor
  · intro h
    obtain ⟨p, _, hfound, h⟩ := bind_eq_ok.mp h
    obtain ⟨hparent, rfl⟩ := ofExcept_eq_ok.mp hfound
    refine ⟨⟨p, hparent⟩, ?_⟩
    cases hthere : c.contains b.hash with
    | true =>
        rw [if_pos hthere] at h
        obtain ⟨hsame, rfl⟩ := pure_eq_ok.mp h
        cases hsame
        exact ⟨rfl, Or.inl ⟨rfl, rfl, rfl⟩⟩
    | false =>
        rw [if_neg (by rw [hthere]; exact Bool.false_ne_true)] at h
        obtain ⟨stored, _, hcommit, h⟩ := bind_eq_ok.mp h
        obtain ⟨hsame, rfl⟩ := pure_eq_ok.mp h
        cases hsame
        exact ⟨rfl, Or.inr ⟨rfl, stored, adaptExcept_eq_ok.mp hcommit, rfl⟩⟩
  · rintro ⟨⟨p, hparent⟩, rfl, hcases⟩
    refine bind_eq_ok.mpr ⟨p, a, ofExcept_eq_ok.mpr ⟨hparent, rfl⟩, ?_⟩
    rcases hcases with ⟨hthere, rfl, rfl⟩ | ⟨hthere, stored, hcommit, rfl⟩
    · rw [if_pos hthere]
      rfl
    · rw [if_neg (by rw [hthere]; exact Bool.false_ne_true)]
      exact bind_eq_ok.mpr ⟨stored, a', adaptExcept_eq_ok.mpr hcommit, rfl⟩

/-- A block that is received is built again on its parent, and then inserted. -/
theorem receive_eq_ok_iff {header : BlockHeader} {transactions : List Transaction} :
    c.receive header transactions a = .ok (c', hash) a' ↔
      ∃ p skeleton mid, c.parent header.skeleton.prevBlockHash = .ok p ∧
        Skeleton.build c.rules p transactions header.skeleton.minerAddress
          header.skeleton.timestamp a = .ok skeleton mid ∧
        skeleton.header = header.skeleton ∧
        c.insert { skeleton, nonce := header.nonce } mid = .ok (c', hash) a' := by
  constructor
  · intro h
    obtain ⟨b, mid, hrebuild, hinsert⟩ := bind_eq_ok.mp h
    obtain ⟨p, _, hfound, h⟩ := bind_eq_ok.mp hrebuild
    obtain ⟨hparent, rfl⟩ := ofExcept_eq_ok.mp hfound
    obtain ⟨skeleton, mid', hbuild, h⟩ := bind_eq_ok.mp h
    by_cases hheader : skeleton.header ≠ header.skeleton
    · rw [if_pos hheader] at h
      exact absurd h throw_ne_ok
    rw [if_neg hheader] at h
    by_cases hwork : Block.meetsTarget { skeleton, nonce := header.nonce } = true
    · simp only [hwork, Bool.not_true, Bool.false_eq_true, if_false] at h
      obtain ⟨rfl, rfl⟩ := pure_eq_ok.mp h
      exact ⟨p, skeleton, mid', hparent, hbuild, not_not.mp hheader, hinsert⟩
    · simp only [hwork, Bool.not_false, if_true] at h
      exact absurd h throw_ne_ok
  · rintro ⟨p, skeleton, mid, hparent, hbuild, hheader, hinsert⟩
    have hwork := (insert_eq_ok_iff.mp hinsert).1
    refine bind_eq_ok.mpr ⟨_, mid, bind_eq_ok.mpr ⟨p, a, ?_, ?_⟩, hinsert⟩
    · exact ofExcept_eq_ok.mpr ⟨hparent, rfl⟩
    refine bind_eq_ok.mpr ⟨skeleton, mid, hbuild, ?_⟩
    rw [if_neg (not_not.mpr hheader)]
    simp only [hwork, Bool.not_true, Bool.false_eq_true, if_false]
    rfl

theorem growsTo_of_insert (h : c.insert b a = .ok (c', hash) a') : a.GrowsTo a' := by
  obtain ⟨-, -, -, ⟨-, -, rfl⟩ | ⟨-, stored, hcommit, -⟩⟩ := insert_eq_ok_iff.mp h
  · exact .refl _
  · exact (Block.content_of_commit hcommit).1

end Chain

/-- The block has the given header, and the given transactions in their order. -/
structure Block.Carries (b : Block) (header : BlockHeader) (transactions : List Transaction) :
    Prop where
  header_eq : b.header = header
  transactions_eq : b.skeleton.transactions = (Skeleton.ordered transactions).map (·.2)
  table_eq : Skeleton.table transactions = .ok b.skeleton.txTrie

namespace Chain

/-! ## Sound chains -/

/-- Blocks lie under their names, their work was done, their snapshots are there, and
each was built on the parent that the chain has for it. -/
structure Sound (K : Digested) (a : Archive) (c : Chain) : Prop where
  named : ∀ hash b, c.get? hash = some b → b.hash = hash
  worked : ∀ hash b, c.get? hash = some b → b.meetsTarget = true
  stored : ∀ hash b, c.get? hash = some b → b.Stored a
  built : ∀ hash b, c.get? hash = some b →
    ∃ p, c.parent b.prevBlockHash = .ok p ∧ b.Built K c.rules p

namespace Sound

theorem empty (K : Digested) (a : Archive) (rules : Rules) : (Chain.empty rules).Sound K a := by
  have hnone : ∀ hash b, (Chain.empty rules).get? hash ≠ some b := by simp
  constructor <;> intro hash b h <;> exact absurd h (hnone hash b)

theorem growsTo (hc : c.Sound K a) (h : a.GrowsTo a') : c.Sound K a' where
  named := hc.named
  worked := hc.worked
  stored hash b hget := World.Stored.growsTo (hc.stored hash b hget) h
  built := hc.built

/-- The parent of a block is there. -/
theorem stored_parent (hc : c.Sound K a) {prev : Hash} (h : c.parent prev = .ok p) :
    ∀ b, p = some b → b.Stored a := by
  rintro b rfl
  exact hc.stored prev b (parent_eq_some h)

theorem add (hc : c.Sound K a) (hnew : c.contains b.hash = false) (hwork : b.meetsTarget = true)
    (hstored : b.Stored a) (hparent : c.parent b.prevBlockHash = .ok p)
    (hbuilt : b.Built K c.rules p) : (c.add b.hash b).Sound K a := by
  have hextends := Extends.add hnew b
  constructor <;> intro hash other hget <;> rcases get?_add_cases hget with ⟨rfl, rfl⟩ | hold
  · rfl
  · exact hc.named hash other hold
  · exact hwork
  · exact hc.worked hash other hold
  · exact hstored
  · exact hc.stored hash other hold
  · exact ⟨p, hextends.parent hparent, hbuilt⟩
  · obtain ⟨q, hq, hother⟩ := hc.built hash other hold
    exact ⟨q, hextends.parent hq, hother⟩

/-- A block with the name of one that the chain has is that one, if it was built on a
parent with the content of the one that the chain has for it. -/
theorem content_eq (hK : K.Faithful) (hc : c.Sound K a) (hget : c.get? x.hash = some y)
    (hx : x.Built K c.rules p) (hparent : c.parent x.prevBlockHash = .ok q)
    (hpq : p.map Block.content = q.map Block.content) : y.content = x.content := by
  obtain ⟨r, hr, hy⟩ := hc.built _ y hget
  have hhash := hc.named _ y hget
  have hheader : y.header = x.header := hK.headers hy.within.header hx.within.header hhash
  have hprev : y.prevBlockHash = x.prevBlockHash := congrArg (·.skeleton.prevBlockHash) hheader
  rw [hprev, hparent] at hr
  cases hr
  exact hy.content_eq hK hx hpq.symm hhash

/-- A block that was built on its parent and is accepted keeps the chain sound. -/
theorem insert (hK : K.Faithful) (hc : c.Sound K a) (ha : a.Within K.accounts)
    (hstored : b.Stored a)
    (hbuilt : c.contains b.hash = false →
      ∃ p, c.parent b.prevBlockHash = .ok p ∧ b.Built K c.rules p)
    (h : c.insert b a = .ok (c', hash) a') :
    a.GrowsTo a' ∧ c'.Sound K a' ∧ c.Extends c' := by
  obtain ⟨hwork, -, -, ⟨-, rfl, rfl⟩ | ⟨hnew, stored, hcommit, rfl⟩⟩ := insert_eq_ok_iff.mp h
  · exact ⟨.refl _, hc, .refl _⟩
  · obtain ⟨p, hparent, hb⟩ := hbuilt hnew
    obtain ⟨other, mid, hcommit', -, hthere⟩ := Block.commit_stored hK.accounts ha hstored
    rw [hcommit] at hcommit'
    cases hcommit'
    obtain ⟨hgrows, hcontent⟩ := Block.content_of_commit hcommit
    have hhash := Block.hash_of_content hcontent
    have hheader := Block.skeletonHeader_of_content hcontent
    rw [← hhash] at hnew ⊢
    refine ⟨hgrows, (hc.growsTo hgrows).add hnew ?_ hthere (p := p) ?_
      (hb.of_content hcontent.symm rfl), .add hnew stored⟩
    · rw [Block.meetsTarget, hhash, hheader]
      exact hwork
    · rw [Block.prevBlockHash, hheader]
      exact hparent

/-! ### Receiving -/

/-- What is received was built on its parent, and inserted. -/
theorem receive_eq_ok (hK : K.Faithful) (hc : c.Sound K a) {header : BlockHeader}
    {transactions : List Transaction} (ha' : a'.Within K.accounts)
    (h : c.receive header transactions a = .ok (c', hash) a') :
    ∃ b mid, b.Carries header transactions ∧ c.insert b mid = .ok (c', hash) a' ∧
      a.GrowsTo mid ∧ mid.Within K.accounts ∧ b.Stored mid ∧
        (b.Within K → ∃ p, c.parent b.prevBlockHash = .ok p ∧ b.Built K c.rules p) := by
  obtain ⟨p, skeleton, mid, hparent, hbuild, hheader, hinsert⟩ := receive_eq_ok_iff.mp h
  obtain ⟨htransactions, htable, -, -⟩ := Skeleton.asked_of_build hbuild
  have hgrows := Skeleton.growsTo_of_build hbuild
  have hmid : mid.Within K.accounts := ha'.of_growsTo (growsTo_of_insert hinsert)
  have hp := hc.stored_parent hparent
  refine ⟨⟨skeleton, header.nonce⟩, mid, ⟨?_, htransactions, htable⟩, hinsert, hgrows, hmid,
    Skeleton.stored_of_build hK.accounts hbuild hmid hp, fun hwithin => ⟨p, ?_, ?_⟩⟩
  · rw [Block.header, Skeleton.withNonce, hheader]
  · rw [Block.prevBlockHash, hheader]
    exact hparent
  · exact Block.built_of_build hbuild hmid hp hwithin

/-- What was built elsewhere is accepted, if its parent there has the content of its
parent here. -/
theorem receive_of_built (hK : K.Faithful) (hc : c.Sound K a) (ha : a.Within K.accounts)
    {transactions : List Transaction}
    (htransactions : (Skeleton.ordered transactions).map (·.2) = x.skeleton.transactions)
    (hwork : x.meetsTarget = true) (hx : x.Built K c.rules p)
    (hparent : c.parent x.prevBlockHash = .ok q)
    (hpq : p.map Block.content = q.map Block.content) :
    ∃ c' a', c.receive x.header transactions a = .ok (c', x.hash) a' ∧ a'.Within K.accounts ∧
      a.GrowsTo a' ∧ c'.Sound K a' ∧ c.Extends c' ∧
        (∃ y, c'.get? x.hash = some y ∧ y.content = x.content) ∧
          ((c.contains x.hash = true ∧ c' = c) ∨
            ∃ y, y.content = x.content ∧ c.contains x.hash = false ∧ c' = c.add x.hash y) := by
  have hx' : x.Built K c.rules q := hx.of_content rfl hpq
  obtain ⟨skeleton, mid, hbuild, hmid, hstored, hcontent⟩ :=
    hx'.build hK ha (hc.stored_parent hparent)
  rw [← htransactions, Skeleton.build_ordered] at hbuild
  have hgrows := Skeleton.growsTo_of_build hbuild
  have hsame : Block.content ⟨skeleton, x.nonce⟩ = x.content := by
    rw [Block.content, Block.content, hcontent]
  have hthere : Block.Stored mid ⟨skeleton, x.nonce⟩ := hstored
  have hheader := Block.skeletonHeader_of_content hsame
  have hhash := Block.hash_of_content hsame
  have hparent' : c.parent (Block.prevBlockHash ⟨skeleton, x.nonce⟩) = .ok q := by
    rw [Block.prevBlockHash, hheader]
    exact hparent
  have hbuilt := hx'.of_content hsame.symm rfl
  have hwork' : Block.meetsTarget ⟨skeleton, x.nonce⟩ = true := by
    rw [Block.meetsTarget, hhash, hheader]
    exact hwork
  -- Whether the name is there or not, the block is inserted.
  obtain ⟨c', a', hinsert, ha', hget, hcases⟩ : ∃ c' a',
      c.insert ⟨skeleton, x.nonce⟩ mid = .ok (c', x.hash) a' ∧ a'.Within K.accounts ∧
        (∃ y, c'.get? x.hash = some y ∧ y.content = x.content) ∧
          ((c.contains x.hash = true ∧ c' = c) ∨
            ∃ y, y.content = x.content ∧ c.contains x.hash = false ∧ c' = c.add x.hash y) := by
    cases hknown : c.contains x.hash with
    | true =>
        obtain ⟨y, hy⟩ := exists_get? hknown
        refine ⟨c, mid, insert_eq_ok_iff.mpr ⟨hwork', ⟨q, hparent'⟩, hhash.symm, Or.inl ?_⟩, hmid,
          ⟨y, hy, hc.content_eq hK hy hx hparent hpq⟩, Or.inl ⟨rfl, rfl⟩⟩
        rw [hhash]
        exact ⟨hknown, rfl, rfl⟩
    | false =>
        obtain ⟨stored, a', hcommit, ha', -⟩ := Block.commit_stored hK.accounts hmid hthere
        have hcontent' := (Block.content_of_commit hcommit).2.trans hsame
        refine ⟨c.add x.hash stored, a',
          insert_eq_ok_iff.mpr ⟨hwork', ⟨q, hparent'⟩, hhash.symm, Or.inr ?_⟩, ha',
          ⟨stored, get?_add_self .., hcontent'⟩,
          Or.inr ⟨stored, hcontent', rfl, rfl⟩⟩
        rw [hhash]
        exact ⟨hknown, stored, hcommit, rfl⟩
  obtain ⟨hgrows', hsound, hextends⟩ := (hc.growsTo hgrows).insert hK hmid hthere
    (fun _ => ⟨q, hparent', hbuilt⟩) hinsert
  refine ⟨c', a', receive_eq_ok_iff.mpr ⟨q, skeleton, mid, hparent, hbuild, hheader, hinsert⟩,
    ha', hgrows.trans hgrows', hsound, hextends, hget, hcases⟩

end Sound

end Chain

end ScriptLedger
