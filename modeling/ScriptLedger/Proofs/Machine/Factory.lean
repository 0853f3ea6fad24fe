import ScriptLedger.Proofs.Account.Validity
import ScriptLedger.Proofs.Machine.Stretches
import ScriptLedger.Proofs.Trie.Evidence
import ScriptLedger.Proofs.World.Genesis

/-!
# What the factory makes

The script of the first account reads its last five params onto the stack, makes an account of
them, and returns whether it did.  It is the way in which accounts come into being, so what it
accepts is what accounts can be like: names that are texts, one for every value and no two the
same, values that are not lists, a key that is a point, and keypairs that belong together.

A new account is recorded under its digest, and two things could go wrong with that: it could be
the digest of nothing, or the store could show another record under it.  `Archive.Admits` says
that neither is so of the one account that is asked for.

## Main results

* `Genesis.Request.sound_iff` — which requests describe an account that follows the rules.
* `Genesis.Request.create_of_describes`, `Genesis.Request.exists_describes_of_create` — what the
  instruction does with a request.
* `Genesis.fits_of_run` — what it takes to stay within the default limits.
* `Genesis.run_of_create`, `Genesis.run_of_create_error` — what the script does with a request.
* `Genesis.installs_requested` — what becomes of a call of the factory.
-/

namespace ScriptLedger

open Sequencing Exec Registers

/-! ## Slots -/

namespace Value

variable {op : Opcode} {v : Value} {slot : SlotValue}

theorem ofSlot_injective : Function.Injective ofSlot := by
  rintro (_ | _ | ⟨kind, _⟩) (_ | _ | ⟨kind', _⟩) h <;> cases h <;> rfl

theorem ofSlot_ne_list (slot : SlotValue) (items : List Value) : ofSlot slot ≠ .list items := by
  cases slot <;> nofun

theorem toSlot_eq_ok : v.toSlot op = .ok slot ↔ v = .ofSlot slot := by
  constructor
  · intro h
    cases v <;> cases h <;> rfl
  · rintro rfl
    cases slot <;> rfl

theorem exists_ofSlot (h : ∀ items, v ≠ .list items) : ∃ slot, v = .ofSlot slot := by
  cases v with
  | int value => exact ⟨.int value, rfl⟩
  | str value => exact ⟨.str value, rfl⟩
  | bytes kind value => exact ⟨.bytes kind value, rfl⟩
  | list items => exact absurd rfl (h items)

end Value

namespace Slot

variable {op : Opcode}

theorem ofValues_eq_ok {name value : Value} {slot : Slot} :
    ofValues op name value = .ok slot ↔ name = .str slot.name ∧ value = .ofSlot slot.value := by
  obtain ⟨text, content⟩ := slot
  cases name with
  | str name =>
      show (value.toSlot op).map (fun value => (⟨name, value⟩ : Slot)) = _ ↔ _
      rw [except_map_eq_ok]
      constructor
      · rintro ⟨found, hfound, heq⟩
        cases heq
        exact ⟨rfl, Value.toSlot_eq_ok.mp hfound⟩
      · rintro ⟨hname, hvalue⟩
        cases hname
        exact ⟨content, Value.toSlot_eq_ok.mpr hvalue, rfl⟩
  | _ =>
      constructor
      · nofun
      · rintro ⟨hname, -⟩
        cases hname

/-- Slots are made of names and values in their order. -/
theorem mapM_ofValues_eq_ok {names values : List Value} {slots : List Slot}
    (hlength : names.length = values.length) :
    ((names.zip values).mapM fun (name, value) => ofValues op name value) = .ok slots ↔
      slots.map (fun slot => Value.str slot.name) = names ∧
        slots.map (fun slot => Value.ofSlot slot.value) = values := by
  induction names generalizing values slots with
  | nil =>
      obtain rfl := List.length_eq_zero_iff.mp hlength.symm
      cases slots with
      | nil => simp [pure, Except.pure]
      | cons slot slots => simp [pure, Except.pure]
  | cons name names ih =>
      cases values with
      | nil => cases hlength
      | cons value values =>
      have hrest : names.length = values.length := Nat.succ.inj hlength
      rw [List.zip_cons_cons, List.mapM_cons, except_bind_eq_ok]
      constructor
      · rintro ⟨slot, hslot, h⟩
        obtain ⟨slots', hslots, h⟩ := except_bind_eq_ok.mp h
        cases h
        obtain ⟨rfl, rfl⟩ := ofValues_eq_ok.mp hslot
        obtain ⟨rfl, rfl⟩ := (ih hrest).mp hslots
        exact ⟨rfl, rfl⟩
      · rintro ⟨hnames, hvalues⟩
        cases slots with
        | nil => cases hnames
        | cons slot slots =>
            obtain ⟨hname, hnames⟩ := List.cons.inj hnames
            obtain ⟨hvalue, hvalues⟩ := List.cons.inj hvalues
            have hslots := (ih hrest).mpr ⟨hnames, hvalues⟩
            exact ⟨slot, ofValues_eq_ok.mpr ⟨hname.symm, hvalue.symm⟩,
              except_bind_eq_ok.mpr ⟨slots, hslots, rfl⟩⟩

end Slot

/-- In a well-formed snapshot every address has an account or none. -/
theorem World.WellFormed.exists_account? {w : World} {a : Archive} (hw : w.WellFormed a)
    (htrie : w.trie.root.Regular trieDepth) (address : Hash) :
    ∃ found, w.account? a address = .ok found := by
  obtain ⟨found, hget⟩ : ∃ found, w.trie.get address = .ok found :=
    (htrie.along address).exists_get hw.known
  cases found with
  | none => exact ⟨none, World.account?_eq_none_iff.mpr hget⟩
  | some hash =>
      obtain ⟨account, hrecord, -⟩ := hw.recorded address hash (Trie.mem_leaves_of_get hget)
      exact ⟨some account, World.account?_eq_some_iff.mpr ⟨hash, hget, hrecord⟩⟩

namespace Genesis

/-! ## Requests -/

/-- What the factory is asked for. -/
structure Request where
  values : List Value
  names : List Value
  owner : Int64
  code : String
  key : Pubkey

namespace Request

variable {r : Request} {new other : Account}

/-- The params that stand for a request, the key last. -/
def params (r : Request) : List Value :=
  [.list r.values, .list r.names, .int r.owner, .str r.code, .bytes .pubkey r.key]

/-- They lie on the stack with the key on top. -/
def operands (r : Request) : List Value :=
  [.bytes .pubkey r.key, .str r.code, .int r.owner, .list r.names, .list r.values]

/-- The account is just the one that is asked for: its slots have the names and the values, in
their order. -/
structure Describes (r : Request) (new : Account) : Prop where
  pubKey : new.pubKey = r.key
  balance : new.balance = 0
  code : new.code = r.code
  ownerAccess : new.ownerAccess = (r.owner != 0)
  names : new.storage.map (fun slot => Value.str slot.name) = r.names
  values : new.storage.map (fun slot => Value.ofSlot slot.value) = r.values

/-- What is asked for can be had. -/
structure Sound (r : Request) : Prop where
  texts : ∀ name ∈ r.names, ∃ text, name = .str text
  distinct : r.names.Nodup
  values : ∀ value ∈ r.values, ∀ items, value ≠ .list items
  point : (Curve.Point.decompress? r.key.bytes).isSome = true
  keypairs : ∀ pair, .bytes .keypair pair ∈ r.values → Keypair.validate pair = .ok ()

theorem Describes.address_eq (h : r.Describes new) : new.address = r.key.address := by
  rw [Account.address, h.pubKey]

theorem Describes.length_eq (h : r.Describes new) : r.names.length = r.values.length := by
  rw [← h.names, ← h.values, List.length_map, List.length_map]

/-- A request describes one account. -/
theorem Describes.eq (h : r.Describes new) (h' : r.Describes other) : new = other := by
  have hslots : new.storage = other.storage := by
    have hinjective : Function.Injective fun slot : Slot =>
        (Value.str slot.name, Value.ofSlot slot.value) := by
      rintro ⟨name, value⟩ ⟨name', value'⟩ heq
      obtain ⟨hname, hvalue⟩ := Prod.mk.inj heq
      rw [Slot.mk.injEq]
      exact ⟨Value.str.inj hname, Value.ofSlot_injective hvalue⟩
    refine List.map_injective_iff.mpr hinjective ?_
    rw [← List.zip_map', ← List.zip_map', h.names, h.values, h'.names, h'.values]
  obtain ⟨pubKey, balance, code, ownerAccess, storage⟩ := new
  obtain ⟨pubKey', balance', code', ownerAccess', storage'⟩ := other
  rw [Account.mk.injEq]
  exact ⟨h.pubKey.trans h'.pubKey.symm, h.balance.trans h'.balance.symm,
    h.code.trans h'.code.symm, h.ownerAccess.trans h'.ownerAccess.symm, hslots⟩

/-- The rules of accounts, for the one that a request describes. -/
theorem Describes.valid_iff (h : r.Describes new) : new.Valid ↔ r.Sound := by
  have htexts : ∀ name ∈ r.names, ∃ text, name = .str text := by
    rw [← h.names, List.forall_mem_map]
    exact fun slot _ => ⟨slot.name, rfl⟩
  have hvalues : ∀ value ∈ r.values, ∀ items, value ≠ .list items := by
    rw [← h.values, List.forall_mem_map]
    exact fun slot _ => Value.ofSlot_ne_list slot.value
  have hdistinct : (new.storage.map (·.name)).Nodup ↔ r.names.Nodup := by
    have hinjective : Function.Injective Value.str := fun _ _ => Value.str.inj
    rw [← h.names, ← List.nodup_map_iff hinjective, List.map_map]
    rfl
  have hkeypairs : (∀ slot ∈ new.storage, slot.value.Consistent) ↔
      ∀ pair, .bytes .keypair pair ∈ r.values → Keypair.validate pair = .ok () := by
    rw [← h.values]
    simp only [List.mem_map]
    constructor
    · rintro hall pair ⟨slot, hslot, hpair⟩
      have hvalue : slot.value = .bytes .keypair pair := Value.ofSlot_injective hpair
      have hconsistent := hall slot hslot
      rwa [hvalue] at hconsistent
    · intro hall slot hslot
      cases hvalue : slot.value with
      | int value => trivial
      | str value => trivial
      | bytes kind value =>
          cases kind with
          | keypair => exact hall value ⟨slot, hslot, by rw [hvalue]; rfl⟩
          | _ => trivial
  rw [Account.valid_iff, h.pubKey, Pubkey.validate_eq_ok_iff, hdistinct, hkeypairs]
  exact ⟨fun ⟨hpoint, hnames, hpairs⟩ => ⟨htexts, hnames, hvalues, hpoint, hpairs⟩,
    fun hsound => ⟨hsound.point, hsound.distinct, hsound.keypairs⟩⟩

/-- Texts and values that can be stored, equally many, are those of some slots. -/
theorem exists_slots {names values : List Value} (hlength : names.length = values.length)
    (htexts : ∀ name ∈ names, ∃ text, name = .str text)
    (hvalues : ∀ value ∈ values, ∀ items, value ≠ .list items) :
    ∃ slots : List Slot, slots.map (fun slot => Value.str slot.name) = names ∧
      slots.map (fun slot => Value.ofSlot slot.value) = values := by
  induction names generalizing values with
  | nil =>
      obtain rfl := List.length_eq_zero_iff.mp hlength.symm
      exact ⟨[], rfl, rfl⟩
  | cons name names ih =>
      cases values with
      | nil => cases hlength
      | cons value values =>
      obtain ⟨⟨text, rfl⟩, hothers⟩ := List.forall_mem_cons.mp htexts
      obtain ⟨hvalue, hrest⟩ := List.forall_mem_cons.mp hvalues
      obtain ⟨slot, rfl⟩ := Value.exists_ofSlot hvalue
      obtain ⟨slots, rfl, rfl⟩ := ih (Nat.succ.inj hlength) hothers hrest
      exact ⟨⟨text, slot⟩ :: slots, rfl, rfl⟩

/-- A request can be had if it describes an account that follows the rules. -/
theorem sound_iff (hlength : r.names.length = r.values.length) :
    r.Sound ↔ ∃ new, r.Describes new ∧ new.Valid := by
  constructor
  · intro hsound
    obtain ⟨storage, hnames, hvalues⟩ := exists_slots hlength hsound.texts hsound.values
    have hnew : r.Describes
        { pubKey := r.key, balance := 0, code := r.code, ownerAccess := r.owner != 0, storage } :=
      ⟨rfl, rfl, rfl, rfl, hnames, hvalues⟩
    exact ⟨_, hnew, hnew.valid_iff.mpr hsound⟩
  · rintro ⟨new, hnew, hvalid⟩
    exact hnew.valid_iff.mp hvalid

/-! ## The creation -/

/-- The creation that a request stands for. -/
def create (r : Request) : Exec Bool :=
  Exec.create (.account .createContr) r.key r.code (r.owner != 0) r.names r.values

variable {m m' : Machine}

theorem create_of_arity (h : r.names.length ≠ r.values.length) :
    r.create m = .error (.storageArity r.names.length r.values.length) m := by
  unfold create Exec.create
  rw [if_pos h]
  rfl

theorem create_of_taken (hlength : r.names.length = r.values.length)
    (htaken : m.world.contains r.key.address = .ok true) : r.create m = .ok false m := by
  have hget : (get : Exec Machine) m = .ok m m := rfl
  unfold create Exec.create
  rw [if_neg (not_not.mpr hlength)]
  refine (bind_of_ok hget).trans ?_
  rw [bind_of_ok (ofState_eq_ok.mpr ⟨htaken, rfl⟩), if_pos rfl]
  rfl

/-- Where no account is, an account is made of the slots and put into the snapshot. -/
theorem create_of_free (hlength : r.names.length = r.values.length)
    (hfree : m.world.account? m.archive r.key.address = .ok none) :
    r.create m = (do
      let slots ← ofExcept ((r.names.zip r.values).mapM fun (name, value) =>
        Slot.ofValues (.account .createContr) name value)
      match Account.make r.key 0 r.code (r.owner != 0) slots with
      | .error cause => throw (.record cause)
      | .ok account =>
        let world ← onArchive (m.world.put account)
        modify fun m => { m with world }
        pure true : Exec Bool) m := by
  have hget : (get : Exec Machine) m = .ok m m := rfl
  unfold create Exec.create
  rw [if_neg (not_not.mpr hlength)]
  refine (bind_of_ok hget).trans ?_
  refine (bind_of_ok (ofState_eq_ok.mpr ⟨World.contains_eq_false_iff.mpr hfree, rfl⟩)).trans ?_
  refine (congrFun (if_neg Bool.false_ne_true) m).trans ?_
  refine congrFun (bind_congr fun slots => ?_) m
  cases Account.make r.key 0 r.code (r.owner != 0) slots with
  | error cause => rfl
  | ok account => rfl

/-- A creation that succeeds where no account is makes the account that is asked for. -/
theorem exists_describes_of_create {created : Bool} (hlength : r.names.length = r.values.length)
    (hfree : m.world.account? m.archive r.key.address = .ok none)
    (h : r.create m = .ok created m') : ∃ new, r.Describes new ∧ new.Valid := by
  rw [create_of_free hlength hfree] at h
  obtain ⟨slots, _, hread, h⟩ := bind_eq_ok.mp h
  obtain ⟨hslots, rfl⟩ := ofExcept_eq_ok.mp hread
  cases hmake : Account.make r.key 0 r.code (r.owner != 0) slots with
  | error cause =>
      rw [hmake] at h
      exact absurd h throw_ne_ok
  | ok new =>
      obtain ⟨hnames, hvalues⟩ := (Slot.mapM_ofValues_eq_ok hlength).mp hslots
      obtain ⟨rfl, hvalid⟩ := Account.make_eq_ok hmake
      exact ⟨_, ⟨rfl, rfl, rfl, rfl, hnames, hvalues⟩, hvalid⟩

/-- It does if that account follows the rules and can be put. -/
theorem create_of_describes {world : World} {archive : Archive}
    (hfree : m.world.account? m.archive r.key.address = .ok none) (hnew : r.Describes new)
    (hvalid : new.Valid) (hput : m.world.put new m.archive = .ok world archive) :
    r.create m = .ok true { m with world, archive } := by
  have hslots : ((r.names.zip r.values).mapM fun (name, value) =>
      Slot.ofValues (.account .createContr) name value) = .ok new.storage :=
    (Slot.mapM_ofValues_eq_ok hnew.length_eq).mpr ⟨hnew.names, hnew.values⟩
  have hmake : Account.make r.key 0 r.code (r.owner != 0) new.storage = .ok new := by
    rw [← hnew.pubKey, ← hnew.balance, ← hnew.code, ← hnew.ownerAccess]
    exact Account.make_of_valid hvalid
  rw [create_of_free hnew.length_eq hfree, hslots]
  refine (bind_of_ok (ofExcept_eq_ok.mpr ⟨rfl, rfl⟩)).trans ?_
  rw [hmake]
  dsimp only
  rw [bind_of_ok (onArchive_eq_ok.mpr ⟨archive, hput, rfl⟩)]
  rfl

/-- The instruction takes a request off the stack, and puts its answer there. -/
theorem run_createContr {nested : Terms → Exec Value} {terms : Terms} {limits : Limits}
    {base : Array Value} {pc fp : Int64}
    (hm : m.registers = limits.registers (piled base r.operands) pc fp) :
    AccountOp.run nested terms .createContr m = (do
      let created ← r.create
      onStack (Stack.push (.ofBool created)) : Exec Unit)
        { m with registers := limits.registers base pc fp } := by
  have hpop : ∀ {α : Type} {shape : Shape} {read? : Value → Option α} {a : α} {v : Value}
      {entries : Array Value} {m : Machine}
      (hm : m.registers = limits.registers (entries.push v) pc fp) (hread : read? v = some a),
      onStack (Stack.popAs (.account .createContr) shape read?) m =
        .ok a { m with registers := limits.registers entries pc fp } := by
    intro α shape read? a v entries m hm hread
    refine onRegisters_of_ok ?_
    rw [hm]
    exact onStack_of_ok (Stack.popAs_of_push rfl hread)
  refine (bind_of_ok (hpop (a := r.key) hm rfl)).trans ?_
  refine (bind_of_ok (hpop (a := r.code) rfl rfl)).trans ?_
  refine (bind_of_ok (hpop (a := r.owner) rfl rfl)).trans ?_
  refine (bind_of_ok (hpop (a := r.names) rfl rfl)).trans ?_
  exact bind_of_ok (hpop (a := r.values) rfl rfl)

end Request

/-! ## The script -/

/-- The items of the script. -/
def items : List Script.Item :=
  [.push (.int (-5)), .op (.frame .pushR), .push (.int (-4)), .op (.frame .pushR),
    .push (.int (-3)), .op (.frame .pushR), .push (.int (-2)), .op (.frame .pushR),
    .push (.int (-1)), .op (.frame .pushR), .op (.account .createContr), .op (.control .ret)]

theorem parse_code : Script.parseProgram code = .ok items := by decide +kernel

/-- The terms of a run of the script. -/
def terms : Terms := .outermost items

/-- The registers at an item of the script, with what it has put on the stack. -/
def registers (call : Invocation) (params top : List Value) (pc : Int64) : Registers :=
  terms.limits.registers (piled (call.entries params).toArray top) pc
    (Int64.ofInt (params.length + 3 : Nat))

variable {call : Invocation} {before params : List Value} {r : Request} {w : World} {a : Archive}

/-- A param is read onto the stack. -/
theorem leads_param {top : List Value} {pc offset : Int64} {j : Nat} {v : Value}
    (hsizes : ∀ v ∈ call.entries (before ++ r.params), v.size ≤ ({} : Limits).maxValueSize)
    (hliteral : terms.item? pc = some (.push (.int offset)))
    (hitem : terms.item? (pc + 1) = some (.op (.frame .pushR)))
    (hoffset : offset.toInt = j - 5) (hv : r.params[j]? = some v)
    (hroom : (before ++ r.params).length + 5 + top.length < ({} : Limits).maxStackSize) :
    Leads terms 2 (registers call (before ++ r.params) top pc)
      (registers call (before ++ r.params) (v :: top) (pc + 1 + 1)) := by
  have hheight : (before ++ r.params).length + 5 + top.length < 1024 := hroom
  have hlength : (before ++ r.params).length = before.length + 5 := List.length_append
  have hentries := call.length_entries (before ++ r.params)
  have hfp : (Int64.ofInt ((before ++ r.params).length + 3 : Nat)).toInt =
      ((before ++ r.params).length + 3 : Nat) := Int64.toInt_ofInt_of_le (by omega) (by omega)
  have hindex : (Int64.ofInt ((before ++ r.params).length + 3 : Nat)).toInt + offset.toInt =
      (3 + (before.length + j) : Nat) := by
    rw [hfp, hoffset]
    omega
  have hj : j < r.params.length := (List.getElem?_eq_some_iff.mp hv).1
  have hfive : r.params.length = 5 := rfl
  have hentry : (call.entries (before ++ r.params))[3 + (before.length + j)]? = some v := by
    rw [Invocation.getElem?_entries, List.append_assoc,
      List.getElem?_append_right (Nat.le_add_right _ _), Nat.add_sub_cancel_left,
      List.getElem?_append_left hj, hv]
  have hread : (piled (call.entries (before ++ r.params)).toArray top)[3 + (before.length + j)]? =
      some v := by
    rw [getElem?_piled_of_lt (by rw [List.size_toArray]; omega), List.getElem?_toArray, hentry]
  have hbelow : (piled (call.entries (before ++ r.params)).toArray top).size <
      terms.limits.maxStackSize := by
    rw [size_piled, List.size_toArray, hentries]
    exact hroom
  exact leads_read hliteral hitem hindex (by omega) hread hbelow
    (hsizes v (List.mem_of_getElem? hentry)) (by decide)

/-- The registers with so many of the last five params on the stack. -/
def reading (call : Invocation) (before : List Value) (r : Request) (k : Nat) : Registers :=
  registers call (before ++ r.params) (r.operands.drop (5 - k)) (Int64.ofNat (2 * k + 1))

/-- The script reads its last five params, one after the other, as long as there is room. -/
theorem leads_params
    (hsizes : ∀ v ∈ call.entries (before ++ r.params), v.size ≤ ({} : Limits).maxValueSize)
    {k : Nat} (hk : k ≤ 5)
    (hroom : (before ++ r.params).length + 5 + k ≤ ({} : Limits).maxStackSize) :
    Leads terms (2 * k) (reading call before r 0) (reading call before r k) := by
  induction k with
  | zero => exact .refl _
  | succ k ih =>
      have hnext : Leads terms 2 (reading call before r k) (reading call before r (k + 1)) := by
        have hk : k < 5 := hk
        -- Each param has an offset and two items of its own.
        interval_cases k
        · exact leads_param (j := 0) hsizes rfl rfl rfl rfl hroom
        · exact leads_param (j := 1) hsizes rfl rfl rfl rfl hroom
        · exact leads_param (j := 2) hsizes rfl rfl rfl rfl hroom
        · exact leads_param (j := 3) hsizes rfl rfl rfl rfl hroom
        · exact leads_param (j := 4) hsizes rfl rfl rfl rfl hroom
      exact (ih (by omega) (by omega)).trans hnext

/-- Where there is no more room the next literal is one too many. -/
theorem finish_of_full {m : Machine} {k : Nat} (hk : k < 5)
    (hfull : (before ++ r.params).length + 5 + k = ({} : Limits).maxStackSize)
    (hm : m.registers = reading call before r k) (hleft : m.steps < terms.budget) :
    ∃ m', Machine.finish terms m = .error (.stackOverflow ({} : Limits).maxStackSize) m' := by
  obtain ⟨offset, hitem⟩ :
      ∃ offset, terms.item? (Int64.ofNat (2 * k + 1)) = some (.push (.int offset)) := by
    interval_cases k <;> exact ⟨_, rfl⟩
  have hdrop : (r.operands.drop (5 - k)).length = k := by
    rw [List.length_drop]
    exact Nat.sub_sub_self (Nat.le_of_lt hk)
  have hheight : (reading call before r k).stack.size = (before ++ r.params).length + 5 + k := by
    show (piled _ _).size = _
    rw [size_piled, List.size_toArray, Invocation.length_entries, hdrop]
  have hpush : (do Registers.push (.int offset); advance : RegisterM Flow) m.registers =
      .error (.stackOverflow ({} : Limits).maxStackSize) m.registers := by
    rw [hm]
    refine bind_of_error (onStack_of_error (Stack.push_of_full ?_))
    rw [hheight, hfull]
    exact Nat.le_refl _
  rw [Machine.finish_eq, Machine.step_inside hleft (by rw [hm]; exact hitem) rfl, hpush]
  exact ⟨_, rfl⟩

/-! ## The run -/

/-- The machine that makes the account: the request is off the stack again. -/
def creating (call : Invocation) (params : List Value) (w : World) (a : Archive) : Machine :=
  { registers := registers call params [] 11, steps := 11, world := w, account := call.callee
    archive := a }

/-- The machine in front of the instruction that makes the account. -/
def asking (call : Invocation) (before : List Value) (r : Request) (w : World) (a : Archive) :
    Machine :=
  (call.start {} (before ++ r.params) w a).resume 10 (reading call before r 5)

/-- The machine that made an account or not: it has only its answer to return. -/
def answering (call : Invocation) (params : List Value) (created : Bool) (w : World)
    (a : Archive) : Machine :=
  { registers := registers call params [.ofBool created] 12, steps := 11, world := w
    account := call.callee, archive := a }

/-- A call with these params stays within the default limits.  Every run puts five entries on
the stack besides the params, and the script five more. -/
structure Fits (call : Invocation) (params : List Value) : Prop where
  height : params.length + 10 ≤ ({} : Limits).maxStackSize
  sizes : ∀ v ∈ call.entries params, v.size ≤ ({} : Limits).maxValueSize

variable {created : Bool} {w' : World} {a' : Archive} {e : ScriptError} {m : Machine}

theorem run_asking (nested : Terms → Exec Value) :
    AccountOp.run nested terms .createContr (asking call before r w a).counted = (do
      let created ← r.create
      onStack (Stack.push (.ofBool created)) : Exec Unit)
        (creating call (before ++ r.params) w a) :=
  Request.run_createContr rfl

theorem step_asking_of_error
    (hcreate : r.create (creating call (before ++ r.params) w a) = .error e m) :
    Machine.step terms (asking call before r w a) = .error e m := by
  have hrun := fun nested => (run_asking (w := w) (a := a) nested).trans (bind_of_error hcreate)
  have hleft : (asking call before r w a).steps < terms.budget := show 10 < 100000 by decide
  show Machine.stepWith _ terms _ = _
  rw [Machine.stepWith_of_lt hleft, Machine.execute_of_some (m := Machine.counted _) rfl]
  exact bind_of_error (bind_of_error (hrun _))

theorem step_asking_of_ok (hfits : Fits call (before ++ r.params))
    (hcreate : r.create (creating call (before ++ r.params) w a) =
      .ok created { creating call (before ++ r.params) w a with world := w', archive := a' }) :
    Machine.step terms (asking call before r w a) =
      .ok none (answering call (before ++ r.params) created w' a') := by
  have hheight : (before ++ r.params).length + 10 ≤ 1024 := hfits.height
  have hroom : (piled (call.entries (before ++ r.params)).toArray []).size <
      terms.limits.maxStackSize := by
    rw [size_piled, List.size_toArray, Invocation.length_entries]
    show (before ++ r.params).length + 5 + 0 < 1024
    omega
  have hpush : onStack (Stack.push (.ofBool created))
      { creating call (before ++ r.params) w a with world := w', archive := a' } =
        .ok () { answering call (before ++ r.params) created w' a' with
          registers := registers call (before ++ r.params) [.ofBool created] 11 } :=
    onRegisters_of_ok (push_registers hroom (show 1 ≤ 1024 by decide))
  have hitem : ∀ nested, Script.Item.run nested terms (.op (.account .createContr))
      (asking call before r w a).counted = .ok (.goto 12)
        { answering call (before ++ r.params) created w' a' with
          registers := registers call (before ++ r.params) [.ofBool created] 11 } :=
    fun nested => bind_of_ok ((run_asking nested).trans ((bind_of_ok hcreate).trans hpush))
  have hleft : (asking call before r w a).steps < terms.budget := show 10 < 100000 by decide
  show Machine.stepWith _ terms _ = _
  rw [Machine.stepWith_of_lt hleft, Machine.execute_of_some (m := Machine.counted _) rfl]
  exact bind_of_ok (hitem _)

/-- The answer is returned, and nothing else becomes of the run. -/
theorem finish_answering (hfits : Fits call params) :
    ∃ registers, Machine.finish terms (answering call params created w a) =
      .ok (.ofBool created)
        { answering call params created w a with registers := registers, steps := 12 } := by
  have hheight : params.length + 10 ≤ 1024 := hfits.height
  have hfp : (Int64.ofInt (params.length + 3 : Nat)).toInt = (3 + params.length : Nat) := by
    rw [Nat.add_comm 3]
    exact Int64.toInt_ofInt_of_le (by omega) (by omega)
  have hframe : ∀ j, (call.entries params).toArray[3 + (params.length + j)]? =
      ([.int (-1), .int (-1)] : List Value)[j]? := by
    intro j
    rw [List.getElem?_toArray, Invocation.getElem?_entries,
      List.getElem?_append_right (Nat.le_add_right _ _), Nat.add_sub_cancel_left]
  exact ⟨_, finish_of_ret hfp (by omega) (hframe 0) (hframe 1) rfl rfl rfl
    (show 11 < 100000 by decide)⟩

section Call

variable (hcode : call.callee.code = code) (hread : call.params.read = .ok (before ++ r.params))

include hcode in
theorem parse_callee : Script.parseProgram call.callee.code = .ok items := by
  rw [hcode]
  exact parse_code

section Start

variable (hroom : (before ++ r.params).length + 5 ≤ ({} : Limits).maxStackSize)
variable (hsizes : ∀ v ∈ call.entries (before ++ r.params), v.size ≤ ({} : Limits).maxValueSize)

include hcode hread hroom hsizes

theorem enter_call : Machine.enter {} 0 100000 call w a =
    .ok (terms, call.start {} (before ++ r.params) w a) := by
  exact Invocation.enter_of_fits (parse_callee hcode) hread hroom hsizes

/-- If there is no room for the params of the request the run is stopped. -/
theorem run_of_full (hfull : ({} : Limits).maxStackSize < (before ++ r.params).length + 10) :
    ∃ a', call.run {} w a = .error (.stackOverflow ({} : Limits).maxStackSize) a' := by
  have hlow : (before ++ r.params).length + 5 ≤ 1024 := hroom
  have hhigh : 1024 < (before ++ r.params).length + 10 := hfull
  obtain ⟨k, hk, hlast⟩ : ∃ k < 5, (before ++ r.params).length + 5 + k = 1024 :=
    ⟨1024 - ((before ++ r.params).length + 5), by omega, by omega⟩
  have hleads := leads_params hsizes (Nat.le_of_lt hk) (Nat.le_of_eq hlast)
  have hstart : (call.start {} (before ++ r.params) w a).steps + 2 * k ≤ terms.budget :=
    show 0 + 2 * k ≤ 100000 by omega
  have hfinish := hleads.finish rfl hstart
  obtain ⟨m', hstopped⟩ : ∃ m', Machine.finish terms
      ((call.start {} (before ++ r.params) w a).resume (2 * k) (reading call before r k)) =
        .error (.stackOverflow ({} : Limits).maxStackSize) m' :=
    finish_of_full hk hlast rfl (show 0 + 2 * k < 100000 by omega)
  rw [hstopped] at hfinish
  exact ⟨_, Invocation.run_of_error (enter_call hcode hread hroom hsizes) hfinish⟩

end Start

include hcode hread

/-- A call that no limit stops stays within the limits. -/
theorem fits_of_run (hlimits : ∀ e a', call.run {} w a = .error e a' → ¬e.Exceeds) :
    Fits call (before ++ r.params) := by
  have hempty : (Stack.empty ({} : Limits).maxStackSize ({} : Limits).maxValueSize).size ≤
      ({} : Limits).maxStackSize := Nat.zero_le _
  rcases Stack.forM_push_cases hempty (call.entries (before ++ r.params)) with
    ⟨hroom, hsizes⟩ | ⟨e, s, hpush, hexceeds⟩
  · have hroom : (before ++ r.params).length + 5 ≤ ({} : Limits).maxStackSize := by
      rw [← call.length_entries]
      exact Nat.le_trans (Nat.le_add_left _ _) hroom
    refine ⟨Nat.le_of_not_lt fun hfull => ?_, hsizes⟩
    obtain ⟨a', hrun⟩ := run_of_full (w := w) (a := a) hcode hread hroom hsizes hfull
    exact hlimits _ _ hrun (.height _)
  · exact absurd hexceeds (hlimits e a (Invocation.run_of_stopped (parse_callee hcode) hread hpush))

variable (hfits : Fits call (before ++ r.params))

include hfits

omit hcode hread in
theorem finish_start : Machine.finish terms (call.start {} (before ++ r.params) w a) =
    Machine.finish terms (asking call before r w a) := by
  have hroom : (before ++ r.params).length + 5 + 5 ≤ ({} : Limits).maxStackSize := hfits.height
  exact (leads_params hfits.sizes (Nat.le_refl 5) hroom).finish rfl
    (show 0 + 10 ≤ 100000 by decide)

omit hcode hread in
theorem Fits.room : (before ++ r.params).length + 5 ≤ ({} : Limits).maxStackSize :=
  Nat.le_trans (Nat.add_le_add_left (by decide) _) hfits.height

/-- What the creation answers the script returns, with the snapshot that it left. -/
theorem run_of_create (hcreate : r.create (creating call (before ++ r.params) w a) =
      .ok created { creating call (before ++ r.params) w a with world := w', archive := a' }) :
    call.run {} w a = .ok { value := .ofBool created, world := w', steps := 12 } a' := by
  obtain ⟨registers, hanswer⟩ : ∃ registers,
      Machine.finish terms (answering call (before ++ r.params) created w' a') =
        .ok (.ofBool created) { answering call (before ++ r.params) created w' a' with
          registers := registers, steps := 12 } := finish_answering hfits
  have hfinish : Machine.finish terms (call.start {} (before ++ r.params) w a) =
      .ok (.ofBool created) { answering call (before ++ r.params) created w' a' with
        registers := registers, steps := 12 } := by
    rw [finish_start hfits, Machine.finish_eq, step_asking_of_ok hfits hcreate]
    exact hanswer
  exact Invocation.run_of_finish (enter_call hcode hread hfits.room hfits.sizes) hfinish

/-- If the creation fails, so does the script. -/
theorem run_of_create_error
    (hcreate : r.create (creating call (before ++ r.params) w a) = .error e m) :
    call.run {} w a = .error e m.archive := by
  have hfinish : Machine.finish terms (call.start {} (before ++ r.params) w a) = .error e m := by
    rw [finish_start hfits, Machine.finish_eq, step_asking_of_error hcreate]
  exact Invocation.run_of_error (enter_call hcode hread hfits.room hfits.sizes) hfinish

/-- Where no account is, the script makes one only of a request that can be had. -/
theorem sound_of_run {outcome : Outcome} (hlength : r.names.length = r.values.length)
    (hfree : w.account? a r.key.address = .ok none) (h : call.run {} w a = .ok outcome a') :
    r.Sound := by
  cases hcreate : r.create (creating call (before ++ r.params) w a) with
  | error e m =>
      rw [run_of_create_error hcode hread hfits hcreate] at h
      cases h
  | ok created m =>
      exact (Request.sound_iff hlength).mpr
        (Request.exists_describes_of_create (m := creating call _ w a) hlength hfree hcreate)

/-- It makes the account that a request describes, if that follows the rules and the store
admits it. -/
theorem exists_run_of_describes {new : Account} (hfree : w.account? a r.key.address = .ok none)
    (hnew : r.Describes new) (hvalid : new.Valid) (hadmits : a.Admits w.store new) :
    ∃ world, call.run {} w a = .ok { value := .int 1, world, steps := 12 } (a.insert w.store new) ∧
      w.put new a = .ok world (a.insert w.store new) := by
  have hget : w.trie.get new.address = .ok none := by
    rw [hnew.address_eq]
    exact World.account?_eq_none_iff.mp hfree
  obtain ⟨trie, hput⟩ := Trie.exists_put_of_get hget hadmits.nonzero
  have hworld : w.put new a = .ok { w with trie } (a.insert w.store new) :=
    World.put_eq_ok_iff.mpr ⟨rfl, trie, hput, rfl⟩
  have hcreate : r.create (creating call (before ++ r.params) w a) = .ok true _ :=
    Request.create_of_describes (m := creating call _ w a) hfree hnew hvalid hworld
  exact ⟨_, run_of_create hcode hread hfits hcreate, hworld⟩

end Call

/-! ## What becomes of a call -/

/-- The one change is that there is the account which was asked for, and the script returns
one. -/
structure Installed (r : Request) (w : World) (a : Archive) (outcome : Outcome) (a' : Archive) :
    Prop where
  value : outcome.value = .int 1
  account : ∃ new, r.Describes new ∧ ∀ address, outcome.world.account? a' address =
    if address = r.key.address then .ok (some new) else w.account? a address
  wellFormed : outcome.world.WellFormed a'
  store : outcome.world.store = w.store

/-- Where the factory is recorded, a call of it that no limit stops fails if the names are not
as many as the values; else it returns zero and changes nothing if there is an account at the
address of the key; else it succeeds exactly if the request can be had, and has then installed
the account.  That the trie is regular is so of every trie that updates make; that the store
admits the account is said of the one that is asked for, and of no other. -/
theorem installs_requested (hw : w.WellFormed a) (htrie : w.trie.root.Regular trieDepth)
    (hcallee : w.Holds a call.callee) (hcode : call.callee.code = code)
    (hread : call.params.read = .ok (before ++ r.params))
    (hlimits : ∀ e a', call.run {} w a = .error e a' → ¬e.Exceeds) :
    (r.names.length ≠ r.values.length →
      call.run {} w a = .error (.storageArity r.names.length r.values.length) a) ∧
    (r.names.length = r.values.length →
      (∃ there, w.account? a r.key.address = .ok (some there)) →
        call.run {} w a = .ok { value := .int 0, world := w, steps := 12 } a) ∧
    (r.names.length = r.values.length →
      (¬∃ there, w.account? a r.key.address = .ok (some there)) →
        (∀ new, r.Describes new → a.Admits w.store new) →
          ((∃ outcome a', call.run {} w a = .ok outcome a') ↔ r.Sound) ∧
            ∀ outcome a', call.run {} w a = .ok outcome a' → Installed r w a outcome a') := by
  have hfits : Fits call (before ++ r.params) := fits_of_run hcode hread hlimits
  refine ⟨fun harity => ?_, fun hlength hthere => ?_, fun hlength hnone hadmits => ?_⟩
  · exact run_of_create_error hcode hread hfits (Request.create_of_arity harity)
  · obtain ⟨there, hthere⟩ := hthere
    have htaken : w.contains r.key.address = .ok true := by
      rw [← hw.address_eq hthere]
      exact World.contains_of_holds (hw.holds hthere)
    have hcreate : r.create (creating call (before ++ r.params) w a) = .ok false _ :=
      Request.create_of_taken (m := creating call _ w a) hlength htaken
    exact run_of_create hcode hread hfits hcreate
  · have hfree : w.account? a r.key.address = .ok none := by
      obtain ⟨found, hfound⟩ := hw.exists_account? htrie r.key.address
      cases found with
      | none => exact hfound
      | some there => exact absurd ⟨there, hfound⟩ hnone
    have hstore := World.store_lt_of_account? hcallee
    refine ⟨⟨fun ⟨outcome, a', h⟩ => sound_of_run hcode hread hfits hlength hfree h, ?_⟩, ?_⟩
    · intro hsound
      obtain ⟨new, hnew, hvalid⟩ := (Request.sound_iff hlength).mp hsound
      obtain ⟨world, hrun, -⟩ :=
        exists_run_of_describes hcode hread hfits hfree hnew hvalid (hadmits new hnew)
      exact ⟨_, _, hrun⟩
    · intro outcome a' h
      have hsound := sound_of_run hcode hread hfits hlength hfree h
      obtain ⟨new, hnew, hvalid⟩ := (Request.sound_iff hlength).mp hsound
      obtain ⟨world, hrun, hput⟩ :=
        exists_run_of_describes hcode hread hfits hfree hnew hvalid (hadmits new hnew)
      rw [hrun] at h
      cases h
      have hshows := (hadmits new hnew).get?_insert hstore
      refine ⟨rfl, ⟨new, hnew, fun address => ?_⟩, hw.put_of_shows hput hshows,
        World.store_of_put hput⟩
      rw [World.account?_put_of_shows hput hw hshows, hnew.address_eq]

namespace Sample

/-- A request for an account with a number and a text in its storage. -/
def request : Request :=
  { values := [.int 7, .str "x"], names := [.str "n", .str "s"], owner := 1, code := "OP_RET"
    key := ⟨Vector.replicate 32 1⟩ }

/-- The account that it describes. -/
def made : Account :=
  { pubKey := ⟨Vector.replicate 32 1⟩, balance := 0, code := "OP_RET", ownerAccess := true
    storage := [⟨"n", .int 7⟩, ⟨"s", .str "x"⟩] }

/-- A call of the factory with it. -/
def order : Invocation :=
  { callee := account, payers := [], amount := 0, params := .values request.params }

theorem describes_made : request.Describes made := ⟨rfl, rfl, rfl, rfl, rfl, rfl⟩

theorem sound_request : request.Sound where
  texts := by simp [request]
  distinct := by decide
  values := by simp [request]
  point := by decide +kernel
  keypairs := by simp [request]

theorem named_made : Named {x | x ∈ [account, made]} := by
  have hnodup : (Blob.zero :: ([account, made].map Record.bytes).map sha256).Nodup := by
    refine Node.nodup_of_digests ?_
    simp only [account, made, List.map, Record.bytes, Record.toJson, Account.toJson, Slot.toJson,
      Json.render_object_cons, Json.renderMembers_cons, Json.renderMembers_nil,
      Json.render_ofBlob, Json.render_ofUInt64, Json.render_text]
    decide +kernel
  rw [List.map_map] at hnodup
  exact named_of_nodup hnodup

theorem address_ne : request.key.address ≠ account.address := by decide +kernel

theorem fits_order : Fits order ([] ++ request.params) := by
  have hsizes : ∀ v ∈ [] ++ request.params, v.size ≤ ({} : Limits).maxValueSize := by
    simp [Request.params, request, Value.size, Value.sizeItems]
  exact ⟨by decide, Invocation.size_le_of_mem_entries (by decide) hsizes⟩

/-- The store of the first state has no record under the digest of the new account. -/
theorem admits_made {w : World} {a : Archive} (h : Alone a w) : a.Admits w.store made where
  nonzero := named_made.nonzero made (by simp)
  alone other hother := by
    obtain rfl : other = account := h.within other (Archive.mem_journal_of_get? hother)
    exact named_made.injOn (by simp) (by simp) (Archive.hash_of_get? hother)

/-- There is no account at the address of its key. -/
theorem account?_key {w : World} {a : Archive} (h : Alone a w) :
    w.account? a request.key.address = .ok none := by
  have htrie : w.trie.root.Regular trieDepth := h.settled.canonical.formed.regular
  obtain ⟨found, hfound⟩ := h.stored.wellFormed.exists_account? htrie request.key.address
  cases found with
  | none => exact hfound
  | some there =>
      obtain ⟨hash, -, hrecord⟩ := World.account?_eq_some_iff.mp hfound
      obtain rfl : there = account := h.within there (Archive.mem_journal_of_get? hrecord)
      exact absurd (h.stored.wellFormed.address_eq hfound).symm address_ne

end Sample

theorem installs_requested_sample : ∃ w a, w.WellFormed a ∧ w.trie.root.Regular trieDepth ∧
    w.Holds a Sample.order.callee ∧
    (∀ e a', Sample.order.run {} w a = .error e a' → ¬e.Exceeds) ∧
    (∀ new, Sample.request.Describes new → a.Admits w.store new) ∧
    Sample.request.Sound ∧ ∃ outcome a', Sample.order.run {} w a = .ok outcome a' ∧
      Installed Sample.request w a outcome a' := by
  obtain ⟨w, a, -, halone⟩ := exists_world (a := .empty) fun account h => absurd h List.not_mem_nil
  have hw : w.WellFormed a := halone.stored.wellFormed
  have htrie : w.trie.root.Regular trieDepth := halone.settled.canonical.formed.regular
  have hadmits : ∀ new, Sample.request.Describes new → a.Admits w.store new := by
    intro new hnew
    rw [hnew.eq Sample.describes_made]
    exact Sample.admits_made halone
  have hcallee : w.Holds a Sample.order.callee := halone.holds
  have hread : Sample.order.params.read = .ok ([] ++ Sample.request.params) := rfl
  have hnone := Sample.account?_key halone
  obtain ⟨world, hrun, -⟩ := exists_run_of_describes rfl hread Sample.fits_order hnone
    Sample.describes_made (Sample.describes_made.valid_iff.mpr Sample.sound_request)
    (Sample.admits_made halone)
  have hlimits : ∀ e a', Sample.order.run {} w a = .error e a' → ¬e.Exceeds := by
    intro e a' hstopped
    rw [hrun] at hstopped
    cases hstopped
  have hfree : ¬∃ there, w.account? a Sample.request.key.address = .ok (some there) := by
    rw [hnone]
    simp
  have hall := installs_requested hw htrie hcallee rfl hread hlimits
  obtain ⟨hsucceeds, hinstalled⟩ := hall.2.2 rfl hfree hadmits
  obtain ⟨outcome, a', hmade⟩ := hsucceeds.mpr Sample.sound_request
  exact ⟨w, a, hw, htrie, hcallee, hlimits, hadmits, Sample.sound_request, outcome, a', hmade,
    hinstalled outcome a' hmade⟩

end Genesis

end ScriptLedger
