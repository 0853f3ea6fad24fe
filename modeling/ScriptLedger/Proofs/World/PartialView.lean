import ScriptLedger.Proofs.Machine.Housed
import ScriptLedger.Proofs.Record.Digest
import ScriptLedger.Proofs.Trie.Union
import ScriptLedger.Proofs.World.Progress
import ScriptLedger.Proofs.World.Fork
import ScriptLedger.Proofs.World.Likeness

/-!
# Transactions on a partial view

A partial view of a snapshot is the snapshot with a picked trie, over the same store.
What it answers the whole snapshot answers too, and where it cannot answer it says so.
Outside of scripts that rejects the transaction.  A transfer, though, catches every
failure of the script that it runs, this one too, and tells the script that pays of it
as of any other; what that script does then the whole snapshot need not bear out.

A picked trie shows an empty subtrie where it sums up one with the zero digest, so that
there is none has to be assumed.

## Main results

* `World.transit_of_cherryPick` — a transaction that can be applied to a partial view,
  and has no script that comes through such a transfer, can be applied to the whole, and
  the root hashes are the same.
* `World.cherryPick_deceives` — with such a transfer it may be rejected by the whole.
-/

namespace ScriptLedger

open Sequencing

variable {a a' b : Archive} {w w' v : World} {limits : Limits}

/-- The way led into a subtrie of which only the hash is known. -/
def StateError.Pruned (e : StateError) : Prop :=
  ∃ cause : TrieError, cause.Pruned ∧ e = .trie cause

/-! ## Views -/

/-- The first snapshot is a view of the second one, over the same store. -/
structure World.Views (view whole : World) : Prop where
  store : view.store = whole.store
  trie : view.trie.Views whole.trie

namespace World.Views

theorem contains (h : w.Views v) (address : Hash) :
    (∃ e : StateError, e.Pruned ∧ w.contains address = .error e) ∨
      w.contains address = v.contains address := by
  unfold World.contains
  rcases h.trie.contains address with ⟨cause, hpruned, hcontains⟩ | hsame
  · refine Or.inl ⟨.trie cause, ⟨cause, hpruned, rfl⟩, ?_⟩
    rw [hcontains]
    rfl
  · rw [hsame]
    exact Or.inr rfl

theorem account? (h : w.Views v) (a : Archive) (address : Hash) :
    (∃ e : StateError, e.Pruned ∧ w.account? a address = .error e) ∨
      w.account? a address = v.account? a address := by
  unfold World.account? World.recordOf
  rcases h.trie.get address with ⟨cause, hpruned, hget⟩ | hsame
  · refine Or.inl ⟨.trie cause, ⟨cause, hpruned, rfl⟩, ?_⟩
    rw [hget]
  · rw [hsame, h.store]
    exact Or.inr rfl

/-- Putting an account keeps view and whole together. -/
theorem put (h : w.Views v) (account : Account) (a : Archive) :
    (∃ (e : StateError) (a' : Archive), e.Pruned ∧ w.put account a = .error e a') ∨
      (∃ e a', w.put account a = .error e a' ∧ v.put account a = .error e a') ∨
        ∃ w' v' a', w.put account a = .ok w' a' ∧ v.put account a = .ok v' a' ∧
          w'.Views v' := by
  rw [World.put_eq, World.put_eq, h.store]
  rcases h.trie.put account.address (Record.hash account) with
    ⟨cause, hpruned, hput⟩ | ⟨cause, hput, hput'⟩ | ⟨trie, trie', hput, hput', hviews⟩
  · rw [hput]
    exact Or.inl ⟨_, _, ⟨cause, hpruned, rfl⟩, rfl⟩
  · rw [hput, hput']
    exact Or.inr (Or.inl ⟨_, _, rfl, rfl⟩)
  · rw [hput, hput']
    exact Or.inr (Or.inr ⟨_, _, _, rfl, rfl, rfl, hviews⟩)

end World.Views

/-- A view and the whole are alike, over the same stores.  That a node was pruned says
nothing of the whole. -/
def Likeness.view : Likeness where
  blind := StateError.Pruned
  final _ := True
  stores a b := a = b
  worlds _ w _ v := w.Views v
  final_of_growsTo _ _ := trivial
  keep h _ _ := h
  contains h := h.contains
  account? hstores h := by
    subst hstores
    exact h.account? _
  put_ok {a a' b w w' v account} hstores h _ hput := by
    subst hstores
    rcases h.put account a with ⟨e, _, -, hbad⟩ | ⟨e, _, hbad, -⟩ |
      ⟨_, v', _, hput', hput'', hviews⟩
    · rw [hput] at hbad
      cases hbad
    · rw [hput] at hbad
      cases hbad
    · rw [hput] at hput'
      cases hput'
      exact ⟨v', a', hput'', rfl, hviews⟩
  put_error {a a' b w v account cause} hstores h _ hput := by
    subst hstores
    rcases h.put account a with ⟨e, _, hpruned, hput'⟩ | ⟨e, _, hput', hput''⟩ |
      ⟨_, _, _, hput', -⟩
    · rw [hput] at hput'
      cases hput'
      exact Or.inl hpruned
    · rw [hput] at hput'
      cases hput'
      exact Or.inr ⟨a', hput'', rfl⟩
    · rw [hput] at hput'
      cases hput'

namespace World

/-- Whatever the trie names after some accounts were put is one of them or was there before. -/
theorem mem_of_get_foldlM_put {accounts : List Account} {key hash : Hash}
    (h : accounts.foldlM put w a = .ok w' a') (hget : w'.trie.get key = .ok (some hash)) :
    (∃ account ∈ accounts, account.address = key) ∨ w.trie.get key = .ok (some hash) := by
  induction accounts generalizing w a with
  | nil =>
      obtain ⟨rfl, rfl⟩ := pure_eq_ok.mp h
      exact Or.inr hget
  | cons account rest ih =>
      rw [List.foldlM_cons] at h
      obtain ⟨between, mid, hput, hrest⟩ := bind_eq_ok.mp h
      rcases ih hrest with ⟨other, hmem, haddress⟩ | hbefore
      · exact Or.inl ⟨other, List.mem_cons_of_mem _ hmem, haddress⟩
      · obtain ⟨-, trie, htrie, rfl⟩ := put_eq_ok_iff.mp hput
        rw [Trie.get_put htrie] at hbefore
        by_cases hkey : key = account.address
        · exact Or.inl ⟨account, List.mem_cons_self, hkey.symm⟩
        · rw [if_neg hkey] at hbefore
          exact Or.inr hbefore

theorem mem_of_get_ofAccounts {accounts : List Account} {key hash : Hash}
    (h : ofAccounts accounts a = .ok w a') (hget : w.trie.get key = .ok (some hash)) :
    ∃ account ∈ accounts, account.address = key := by
  obtain ⟨store, mid, hstore, hall⟩ := bind_eq_ok.mp h
  rcases mem_of_get_foldlM_put hall hget with hmem | hnone
  · exact hmem
  · have hempty : Trie.empty.get key = .ok (some hash) := hnone
    rw [Trie.get_eq Trie.canonical_empty, Trie.find_empty] at hempty
    cases hempty

end World

/-! ## A view that hides an account -/

namespace Hearsay

/-- The account that is not shown. -/
def hidden : Account :=
  { pubKey := ⟨Vector.replicate 32 0x32⟩, balance := 0, code := "", ownerAccess := false
    storage := [] }

/-- An account whose script asks for the balance of the hidden one, unless it is paid
something. -/
def reader : Account :=
  { pubKey := ⟨Vector.replicate 32 0x33⟩, balance := 0
    code := "2 OP_PUSHABS 9 OP_JUMPC \"22222222222222222222222222222222\" OP_SHA256 OP_GETBAL OP_RET "
      ++ "1 OP_RET"
    ownerAccess := false, storage := [] }

/-- An account whose script pays nothing to the reader, and fails if the reader does
not. -/
def caller : Account :=
  { pubKey := ⟨Vector.replicate 32 0x35⟩, balance := 0
    code := "[] \"33333333333333333333333333333333\" OP_SHA256 0 OP_TRANSFER 0 OP_JUMPC 1 OP_RET"
    ownerAccess := false, storage := [] }

/-- A key that parts from the given one at the last half byte. -/
def beside (key : Hash) : Hash := ⟨key.bytes.set 31 (key.bytes[31] ^^^ 1)⟩

/-- Keys whose routes show the caller and the reader, and all but the leaf of the hidden
account. -/
def keys : List Hash := [caller.address, reader.address, beside hidden.address]

/-- A transaction that pays an account. -/
def paying (account : Account) (value : UInt64) : TransactionData :=
  { inputs := [], outputs := [{ address := account.address, value, params := "" }], fee := 0
    nonce := Blob.zero }

/-! ### The snapshot and the view -/

/-- The reader when it was paid. -/
def richer : Account := { reader with balance := 1 }

/-- The accounts that the runs below put into the stores. -/
def accounts : List Account := [caller, reader, hidden, richer]

theorem named_accounts : Named {x | x ∈ accounts} := by
  have hnodup : (Blob.zero :: (accounts.map Record.bytes).map sha256).Nodup := by
    refine Node.nodup_of_digests ?_
    simp only [accounts, caller, reader, hidden, richer, List.map, Record.bytes, Record.toJson,
      Account.toJson, Json.render_object_cons, Json.renderMembers_cons, Json.renderMembers_nil,
      Json.render_ofBlob, Json.render_ofUInt64, Json.render_text]
    decide +kernel
  rw [List.map_map] at hnodup
  exact named_of_nodup hnodup

/-- The addresses are different, the hidden one is not among the keys, and the route of the
last key goes to the last branch above it. -/
theorem addresses : ([caller, reader, hidden].map Account.address).Nodup ∧
    hidden.address ∉ keys ∧ (Path.ofHash (beside hidden.address)).dropLast =
      (Path.ofHash hidden.address).dropLast := by
  decide +kernel

/-- The snapshot of the three accounts, and the trie that was picked from it. -/
structure Shown (a : Archive) (w : World) (trie : Trie) : Prop where
  settled : w.Settled {x | x ∈ accounts} a
  holds : ∀ account ∈ [caller, reader, hidden], w.Holds a account
  nonzero : w.trie.root.NonzeroBeside (keys.map Path.ofHash)
  pick : w.trie.cherryPick keys = .ok trie

theorem exists_shown : ∃ w a trie, Shown a w trie := by
  have hopening : ∀ account ∈ [caller, reader, hidden], account ∈ accounts := by
    simp [accounts]
  have hempty : Archive.empty.Within {x | x ∈ accounts} :=
    fun account hmem => absurd hmem List.not_mem_nil
  obtain ⟨w, a, hopen, hw⟩ := World.exists_ofAccounts named_accounts hopening hempty
  have hholds := (World.wellFormed_ofAccounts hopen
    (hw.within.collisionless named_accounts.injOn)).2 addresses.1
  obtain ⟨trie, hpick⟩ := Trie.exists_cherryPick_of_get fun key (_ : key ∈ keys) =>
    ⟨_, Trie.get_eq hw.canonical key⟩
  refine ⟨w, a, trie, hw, hholds, Node.Canonical.nonzeroBeside hw.canonical ?_, hpick⟩
  intro path value hlen _ hfound
  have hget : w.trie.get path.toHash = .ok (some value) := by
    rw [Trie.get_eq hw.canonical, Trie.find, Path.ofHash_toHash hlen, hfound]
  obtain ⟨account, hmem, haddress⟩ := World.mem_of_get_ofAccounts hopen hget
  have hpath : path = Path.ofHash account.address := by
    rw [haddress, Path.ofHash_toHash hlen]
  have hroute : ∀ key ∈ keys, (Path.ofHash key).dropLast = path.dropLast →
      ∃ route ∈ keys.map Path.ofHash, route.length = trieDepth ∧ route.dropLast = path.dropLast :=
    fun key hkey hsame => ⟨_, List.mem_map_of_mem hkey, Path.length_ofHash key, hsame⟩
  simp only [List.mem_cons, List.not_mem_nil, or_false] at hmem
  rcases hmem with rfl | rfl | rfl
  · exact hroute caller.address (by simp [keys]) (by rw [hpath])
  · exact hroute reader.address (by simp [keys]) (by rw [hpath])
  · exact hroute (beside hidden.address) (by simp [keys]) (by rw [hpath, addresses.2.2])

namespace Shown

variable {a a' : Archive} {w : World} {trie : Trie} (h : Shown a w trie)

include h

theorem holds_view {account : Account} (hmem : account ∈ [caller, reader]) :
    World.Holds a { w with trie } account := by
  have hkey : account.address ∈ keys ∧ account ∈ [caller, reader, hidden] := by
    simp only [List.mem_cons, List.not_mem_nil, or_false] at hmem
    rcases hmem with rfl | rfl <;> simp [keys]
  obtain ⟨hash, hget, hrecord⟩ := World.account?_eq_some_iff.mp (h.holds account hkey.2)
  exact World.account?_eq_some_iff.mpr
    ⟨hash, (Trie.get_cherryPick h.pick hkey.1).trans hget, hrecord⟩

/-- The view cannot tell what the hidden account is, whatever is in the stores. -/
theorem hides (a' : Archive) :
    ∃ cause, World.account? a' { w with trie } hidden.address = .error cause := by
  obtain ⟨hash, hget, -⟩ := World.account?_eq_some_iff.mp (h.holds hidden (by simp))
  obtain ⟨cause, -, hpruned⟩ := Trie.pruned_of_not_mem h.settled.canonical.formed.regular
    h.nonzero h.pick hget addresses.2.1
  refine ⟨.trie cause, ?_⟩
  unfold World.account?
  rw [hpruned]

end Shown

/-! ### What the scripts do -/

/-- The script of the reader. -/
def readerItems : List Script.Item :=
  [.push (.int 2), .op (.stack .pushAbs), .push (.int 9), .op (.control .jumpC),
    .push (.str "22222222222222222222222222222222"), .op (.crypto .sha256),
    .op (.account .getBal), .op (.control .ret), .push (.int 1), .op (.control .ret)]

/-- The script of the caller. -/
def callerItems : List Script.Item :=
  [.push (.list []), .push (.str "33333333333333333333333333333333"), .op (.crypto .sha256),
    .push (.int 0), .op (.account .transfer), .push (.int 0), .op (.control .jumpC),
    .push (.int 1), .op (.control .ret)]

theorem parse_codes : Script.parseProgram reader.code = .ok readerItems ∧
    Script.parseProgram caller.code = .ok callerItems ∧ Script.parseValues "" = .ok [] := by
  decide +kernel

theorem address_hidden :
    sha256 (Bytes.utf8 "22222222222222222222222222222222") = hidden.address :=
  congrArg sha256 (by decide)

theorem address_reader :
    sha256 (Bytes.utf8 "33333333333333333333333333333333") = reader.address :=
  congrArg sha256 (by decide)

/-- A call by a transaction. -/
def call (account : Account) (amount : Int64) : Invocation :=
  { callee := account, payers := [], amount, params := .script "" }

/-- The call of the reader by the caller. -/
def nested : Invocation :=
  { callee := reader, payers := [caller.address], amount := 0, params := .values [] }

/-- The registers of a call at an item, with some values above those that it starts with. -/
def registers (call : Invocation) (pc : Int64) (values : List Value) : Registers :=
  { stack := { entries := (call.entries [] ++ values).toArray, limit := 1024, valueLimit := 1024 }
    pc, fp := Int64.ofInt 5 - 2 }

/-- The terms of a run of some items. -/
def terms (items : List Script.Item) (depth budget : Nat) : Terms :=
  { program := items.toArray, limits := {}, depth, budget }

theorem enter_call {account : Account} {items : List Script.Item} (amount : Int64)
    (hparse : Script.parseProgram account.code = .ok items) (w : World) (a : Archive) :
    Machine.enter {} 0 100000 (call account amount) w a =
      .ok (terms items 0 100000, ⟨registers (call account amount) 1 [], 0, w, account, a⟩) := by
  have hcode : Script.parseProgram (call account amount).callee.code = .ok items := hparse
  have hparams : (call account amount).params.read = .ok [] := parse_codes.2.2
  simp only [Machine.enter, hcode, hparams]
  rfl

theorem enter_nested (w : World) (a : Archive) : Machine.enter {} 1 99995 nested w a =
    .ok (terms readerItems 1 99995, ⟨registers nested 1 [], 0, w, reader, a⟩) := by
  have hcode : Script.parseProgram nested.callee.code = .ok readerItems := parse_codes.1
  simp only [Machine.enter, hcode]
  rfl

/-- A reader that is paid returns at once. -/
theorem run_reader (w : World) (a : Archive) :
    (call reader 1).run {} w a = .ok { value := .int 1, world := w, steps := 6 } a := by
  have henter := enter_call 1 parse_codes.1 w a
  unfold Invocation.run
  rw [show ({} : Limits).maxSteps = 100000 from rfl, henter]
  rfl


section Runs

open Machine Exec

variable {v : World} {a : Archive}

theorem item?_asking : (terms readerItems 1 99995).item? (registers nested 7 []).pc =
    some (.op (.account .getBal)) :=
  rfl

/-- The reader asks for the hidden account. -/
theorem drive_ask (v : World) (a : Archive) :
    drive 99995 (terms readerItems 1 99995) ⟨registers nested 1 [], 0, v, reader, a⟩ =
      drive 99989 (terms readerItems 1 99995)
        ⟨registers nested 7 [.bytes .hash hidden.address], 6, v, reader, a⟩ := by
  rw [← address_hidden]
  rfl

theorem drive_nested_error {cause : StateError} (h : v.account? a hidden.address = .error cause) :
    drive 99995 (terms readerItems 1 99995) ⟨registers nested 1 [], 0, v, reader, a⟩ =
      .error (.state cause) ⟨registers nested 7 [], 7, v, reader, a⟩ := by
  have hstep : stepWith (drive 99988) (terms readerItems 1 99995)
      ⟨registers nested 7 [.bytes .hash hidden.address], 6, v, reader, a⟩ =
        .error (.state cause) ⟨registers nested 7 [], 7, v, reader, a⟩ := by
    have hasked : AccountOp.run (drive 99988) (terms readerItems 1 99995) .getBal
        ⟨registers nested 7 [.bytes .hash hidden.address], 7, v, reader, a⟩ =
          .error (.state cause) ⟨registers nested 7 [], 7, v, reader, a⟩ :=
      bind_eq_error.mpr (Or.inr ⟨hidden.address, ⟨registers nested 7 [], 7, v, reader, a⟩, rfl,
        bind_eq_error.mpr (Or.inr ⟨_, _, rfl, bind_eq_error.mpr (Or.inl (account?_of_error h))⟩)⟩)
    rw [stepWith_of_lt (show 6 < 99995 by decide),
      execute_of_some item?_asking]
    exact bind_eq_error.mpr (Or.inl (bind_eq_error.mpr (Or.inl hasked)))
  rw [drive_ask, drive, hstep]

theorem drive_nested_ok (h : v.account? a hidden.address = .ok (some hidden)) :
    ∃ last, drive 99995 (terms readerItems 1 99995) ⟨registers nested 1 [], 0, v, reader, a⟩ =
      .ok (.int 0) ⟨last, 8, v, reader, a⟩ := by
  have hstep : stepWith (drive 99988) (terms readerItems 1 99995)
      ⟨registers nested 7 [.bytes .hash hidden.address], 6, v, reader, a⟩ =
        .ok none ⟨registers nested 8 [.int 0], 7, v, reader, a⟩ := by
    have hasked : AccountOp.run (drive 99988) (terms readerItems 1 99995) .getBal
        ⟨registers nested 7 [.bytes .hash hidden.address], 7, v, reader, a⟩ =
          .ok () ⟨registers nested 7 [.int 0], 7, v, reader, a⟩ := by
      have hfound : Exec.account? v hidden.address ⟨registers nested 7 [], 7, v, reader, a⟩ =
          .ok (some hidden) ⟨registers nested 7 [], 7, v, reader, a⟩ :=
        bind_eq_ok.mpr ⟨_, _, rfl, ofState_eq_ok.mpr ⟨h, rfl⟩⟩
      exact bind_eq_ok.mpr ⟨hidden.address, ⟨registers nested 7 [], 7, v, reader, a⟩, rfl,
        bind_eq_ok.mpr ⟨_, _, rfl, bind_eq_ok.mpr ⟨_, _, hfound, rfl⟩⟩⟩
    rw [stepWith_of_lt (show 6 < 99995 by decide),
      execute_of_some item?_asking]
    exact bind_eq_ok.mpr ⟨.goto 8, ⟨registers nested 7 [.int 0], 7, v, reader, a⟩,
      bind_eq_ok.mpr ⟨(), _, hasked, rfl⟩, rfl⟩
  have hlast : ∃ last, drive 99988 (terms readerItems 1 99995)
      ⟨registers nested 8 [.int 0], 7, v, reader, a⟩ = .ok (.int 0) ⟨last, 8, v, reader, a⟩ :=
    ⟨_, rfl⟩
  obtain ⟨last, hlast⟩ := hlast
  exact ⟨last, by rw [drive_ask, drive, hstep]; exact hlast⟩

/-- The caller is about to pay the reader. -/
theorem drive_order (v : World) (a : Archive) :
    drive 100000 (terms callerItems 0 100000) ⟨registers (call caller 0) 1 [], 0, v, caller, a⟩ =
      drive 99996 (terms callerItems 0 100000)
        ⟨registers (call caller 0) 5 [.list [], .bytes .hash reader.address, .int 0], 4, v, caller,
          a⟩ := by
  rw [← address_reader]
  rfl

/-- The stores after a payment of nothing by the caller to the reader. -/
def paid (v : World) (a : Archive) : Archive := (a.insert v.store caller).insert v.store reader

theorem growsTo_paid (v : World) (a : Archive) : a.GrowsTo (paid v a) :=
  (Archive.growsTo_insert a v.store caller).trans
    (Archive.growsTo_insert (a.insert v.store caller) v.store reader)

section Held

variable (hcaller : v.Holds a caller) (hreader : v.Holds a reader)

include hcaller hreader

theorem order_caller :
    order ⟨registers (call caller 0) 5 [.list [], .bytes .hash reader.address, .int 0], 5, v,
      caller, a⟩ = .ok (caller.address, some (nested, v))
        ⟨registers (call caller 0) 5 [], 5, v, caller, paid v a⟩ := by
  have hput := World.put_of_holds hcaller (named_accounts.nonzero caller (by simp [accounts]))
  have hreader' : v.Holds (a.insert v.store caller) reader :=
    World.account?_of_growsTo hreader (World.growsTo_of_put hput)
  have hput' := World.put_of_holds hreader' (named_accounts.nonzero reader (by simp [accounts]))
  have hprepared : prepare reader.address 0 []
      ⟨registers (call caller 0) 5 [], 5, v, caller, a⟩ =
        .ok (some (nested, v)) ⟨registers (call caller 0) 5 [], 5, v, caller, paid v a⟩ :=
    prepare_of_put (World.contains_of_holds hreader) rfl hput hreader' rfl hput'
  refine bind_eq_ok.mpr ⟨0, _, rfl, bind_eq_ok.mpr ⟨reader.address, _, rfl, ?_⟩⟩
  refine bind_eq_ok.mpr ⟨[], ⟨registers (call caller 0) 5 [], 5, v, caller, a⟩, rfl, ?_⟩
  rw [if_neg (by decide)]
  exact bind_eq_ok.mpr ⟨_, _, rfl, bind_eq_ok.mpr ⟨_, _, hprepared, rfl⟩⟩

/-- What the caller goes on with when the script of the reader has run. -/
theorem step_transfer {moved : Bool} {steps : Nat}
    (hdeliver : deliver (drive 99995) (terms callerItems 0 100000) nested v
      ⟨registers (call caller 0) 5 [], 5, v, caller, paid v a⟩ =
        .ok moved ⟨registers (call caller 0) 5 [], steps, v, caller, paid v a⟩) :
    stepWith (drive 99995) (terms callerItems 0 100000)
      ⟨registers (call caller 0) 5 [.list [], .bytes .hash reader.address, .int 0], 4, v, caller,
        a⟩ =
      .ok none ⟨registers (call caller 0) 6 [.ofBool moved], steps, v, caller, paid v a⟩ := by
  have hback : v.account? (paid v a) caller.address = .ok (some caller) :=
    World.account?_of_growsTo hcaller (growsTo_paid v a)
  have hreload : reload caller.address ⟨registers (call caller 0) 5 [], steps, v, caller, paid v a⟩ =
      .ok () ⟨registers (call caller 0) 5 [], steps, v, caller, paid v a⟩ :=
    bind_eq_ok.mpr ⟨_, _, rfl, bind_eq_ok.mpr ⟨caller, _, account_eq_ok.mpr ⟨hback, rfl⟩, rfl⟩⟩
  have hsettle : settle (drive 99995) (terms callerItems 0 100000) caller.address
      (some (nested, v)) ⟨registers (call caller 0) 5 [], 5, v, caller, paid v a⟩ =
        .ok moved ⟨registers (call caller 0) 5 [], steps, v, caller, paid v a⟩ :=
    bind_eq_ok.mpr ⟨moved, _, hdeliver, bind_eq_ok.mpr ⟨(), _, hreload, rfl⟩⟩
  rw [stepWith_of_lt (show 4 < 100000 by decide), execute_transfer rfl]
  refine bind_eq_ok.mpr ⟨_, _, order_caller hcaller hreader, ?_⟩
  exact bind_eq_ok.mpr ⟨moved, _, hsettle, rfl⟩

/-- The run of the caller, up to where it knows whether anything was moved. -/
theorem finish_caller {moved : Bool} {steps : Nat}
    (hdeliver : deliver (drive 99995) (terms callerItems 0 100000) nested v
      ⟨registers (call caller 0) 5 [], 5, v, caller, paid v a⟩ =
        .ok moved ⟨registers (call caller 0) 5 [], steps, v, caller, paid v a⟩) :
    finish (terms callerItems 0 100000) ⟨registers (call caller 0) 1 [], 0, v, caller, a⟩ =
      drive 99995 (terms callerItems 0 100000)
        ⟨registers (call caller 0) 6 [.ofBool moved], steps, v, caller, paid v a⟩ := by
  show drive 100000 _ _ = _
  rw [drive_order, drive, step_transfer hcaller hreader hdeliver]

/-- If the reader cannot be told what it asks for, the caller returns. -/
theorem run_caller {cause : StateError}
    (h : v.account? (paid v a) hidden.address = .error cause) :
    (call caller 0).run {} v a = .ok { value := .int 1, world := v, steps := 16 } (paid v a) := by
  have hfinish := finish_caller hcaller hreader
    (deliver_of_error rfl (enter_nested v (paid v a)) (drive_nested_error h))
  have henter := enter_call 0 parse_codes.2.1 v a
  unfold Invocation.run
  rw [show ({} : Limits).maxSteps = 100000 from rfl, henter]
  dsimp only
  rw [hfinish]
  rfl

/-- If it is told, the caller goes on where there is no item. -/
theorem run_caller_error (h : v.account? (paid v a) hidden.address = .ok (some hidden)) :
    (call caller 0).run {} v a = .error (.pcOutOfRange 0 9) (paid v a) := by
  obtain ⟨last, hnested⟩ := drive_nested_ok h
  have hfinish := finish_caller hcaller hreader
    (deliver_of_ok rfl (enter_nested v (paid v a)) hnested)
  have henter := enter_call 0 parse_codes.2.1 v a
  unfold Invocation.run
  rw [show ({} : Limits).maxSteps = 100000 from rfl, henter]
  dsimp only
  rw [hfinish]
  rfl

end Held

end Runs

/-! ### What the whole snapshot and the view let through -/

namespace Shown

variable {a : Archive} {w : World} {trie : Trie} (h : Shown a w trie)

include h

/-- The reader can be paid on the view. -/
theorem transit_reader : ∃ w' a',
    World.transit {} reader.address (paying reader 1) { w with trie } a = .ok w' a' := by
  have hheld : World.Holds a { w with trie } reader := h.holds_view (by simp)
  have hmem : richer ∈ accounts := by simp [accounts]
  have hnonzero := named_accounts.nonzero richer hmem
  obtain ⟨hash, hget, -⟩ := World.account?_eq_some_iff.mp hheld
  obtain ⟨trie', htrie⟩ := Trie.exists_put_of_get hget hnonzero
  have hput : World.put { w with trie } richer a =
      .ok { w with trie := trie' } (a.insert w.store richer) :=
    World.put_eq_ok_iff.mpr ⟨rfl, trie', htrie, rfl⟩
  have hcol := (h.settled.within.insert hmem w.store).collisionless named_accounts.injOn
  have hpaid := World.holds_of_put hput hcol h.settled.stored.lt_size
  have hcredit : World.credit reader.address 1 { w with trie } a =
      .ok { w with trie := trie' } (a.insert w.store richer) :=
    World.credit_of_holds hheld rfl hput
  have hfee := World.credit_of_holds (show World.Holds _ _ richer from hpaid)
    (show richer.addToBalance 0 = .ok richer from rfl) (World.put_of_holds hpaid hnonzero)
  exact ⟨_, _, World.transit_of_run rfl rfl hheld rfl rfl (run_reader _ a) hcredit rfl hfee⟩

/-- The caller can be paid on the view. -/
theorem transit_caller : ∃ w' a',
    World.transit {} caller.address (paying caller 0) { w with trie } a = .ok w' a' := by
  have hheld : World.Holds a { w with trie } caller := h.holds_view (by simp)
  obtain ⟨cause, hhidden⟩ := h.hides (paid { w with trie } a)
  have hrun := run_caller hheld (h.holds_view (by simp)) hhidden
  have hnonzero := named_accounts.nonzero caller (by simp [accounts])
  have hmid := World.account?_of_growsTo hheld (growsTo_paid { w with trie } a)
  have hput := World.put_of_holds hmid hnonzero
  have hlast := World.account?_of_growsTo hmid (World.growsTo_of_put hput)
  exact ⟨_, _, World.transit_of_run rfl rfl hheld rfl rfl hrun
    (World.credit_of_holds hmid rfl hput) rfl
    (World.credit_of_holds hlast rfl (World.put_of_holds hlast hnonzero))⟩

/-- On the whole snapshot its script fails. -/
theorem transit_caller_error : ∃ a',
    World.transit {} caller.address (paying caller 0) w a =
      .error (.script caller.address (.pcOutOfRange 0 9)) a' := by
  have hheld := h.holds caller (by simp)
  have hhidden := World.account?_of_growsTo (h.holds hidden (by simp)) (growsTo_paid w a)
  exact ⟨_, World.transit_of_run_error rfl rfl hheld rfl rfl
    (run_caller_error hheld (h.holds reader (by simp)) hhidden)⟩

end Shown

end Hearsay

namespace World

/-! ## Transactions -/

/-- What a partial view lets a transaction do the whole snapshot does as well, unless a
transfer took a pruned node for a failure of the script that it ran. -/
theorem transit_of_cherryPick {miner : Hash} {data : TransactionData} {keys : List Hash}
    {trie : Trie} (hpick : w.trie.cherryPick keys = .ok trie) (hhashed : w.trie.root.Hashed)
    (hnonzero : w.trie.root.NonzeroBeside (keys.map Path.ofHash))
    (hseen : ∀ call w₁ a₁,
      Runs limits (data.debits.map (·.address)) data.outputs { w with trie } a call w₁ a₁ →
        ¬ call.Blinded .view limits w₁ a₁)
    (h : transit limits miner data { w with trie } a = .ok w' a') :
    ∃ v', transit limits miner data w a = .ok v' a' ∧ v'.rootHash = w'.rootHash := by
  have hviews : Views { w with trie } w := ⟨rfl, Trie.views_of_cherryPick hpick hhashed hnonzero⟩
  obtain ⟨v', b', hwhole, hstores, hviews'⟩ :=
    Likeness.transit_of_transit (L := .view) ⟨rfl, hviews⟩ hseen h trivial
  cases hstores
  exact ⟨v', hwhole, hviews'.trie.rootHash_eq.symm⟩

/-- A reader that is paid on a view without the hidden account. -/
theorem transit_of_cherryPick_reader : ∃ w a trie w' a',
    w.trie.cherryPick Hearsay.keys = .ok trie ∧ w.trie.root.Hashed ∧
      w.trie.root.NonzeroBeside (Hearsay.keys.map Path.ofHash) ∧
        transit {} Hearsay.reader.address (Hearsay.paying Hearsay.reader 1) { w with trie } a =
          .ok w' a' ∧
        ∃ v', transit {} Hearsay.reader.address (Hearsay.paying Hearsay.reader 1) w a = .ok v' a' ∧
          v'.rootHash = w'.rootHash := by
  obtain ⟨w, a, trie, h⟩ := Hearsay.exists_shown
  obtain ⟨w', a', htransit⟩ := h.transit_reader
  have hhashed := h.settled.canonical.formed.regular.hashed
  refine ⟨w, a, trie, w', a', h.pick, hhashed, h.nonzero, htransit,
    transit_of_cherryPick h.pick hhashed h.nonzero ?_ htransit⟩
  rintro call w₁ a₁ @⟨earlier, later, output, target, amount, houtputs, hbefore, htarget, -, -, rfl⟩
  cases earlier with
  | cons first rest => cases rest <;> cases houtputs
  | nil =>
      cases houtputs
      obtain ⟨rfl, rfl⟩ := pure_eq_ok.mp hbefore
      have hheld : Holds a { w with trie } Hearsay.reader := h.holds_view (by simp)
      rw [hheld] at htarget
      cases htarget
      exact Invocation.not_blinded Hearsay.parse_codes.1 (by decide)

/-- Transactions that partial views let through and the whole snapshot does not. -/
theorem cherryPick_deceives :
    ¬ ∀ (w : World) (a : Archive) (keys : List Hash) (trie : Trie) (limits : Limits)
        (miner : Hash) (data : TransactionData) (w' : World) (a' : Archive),
      w.WellFormed a → w.trie.cherryPick keys = .ok trie →
        transit limits miner data { w with trie } a = .ok w' a' →
          ∃ v' b', transit limits miner data w a = .ok v' b' ∧ v'.rootHash = w'.rootHash := by
  intro hclaim
  obtain ⟨w, a, trie, h⟩ := Hearsay.exists_shown
  obtain ⟨w', a', hview⟩ := h.transit_caller
  obtain ⟨b', hwhole⟩ := h.transit_caller_error
  obtain ⟨v', c', hok, -⟩ := hclaim w a _ trie _ _ _ w' a' h.settled.stored.wellFormed h.pick hview
  rw [hwhole] at hok
  cases hok

end World

end ScriptLedger
