import ScriptLedger.Proofs.Machine.Nesting

/-!
# Stacks stay within their limits

Only a push looks at the limits of a stack.  Values also get into entries by being overwritten,
exchanged, packed, unpacked, read from slots and taken out of program text; what is put back
without a look has come off the same stack, and everything else is pushed.

So a bounded stack stays bounded whatever an instruction does, also when it fails half way, and
this is all that is proved of the single instructions.  The runs nested in a run have stacks of
their own, and leave that of their caller alone.

## Main results

* `Machine.upholds_stepWith` — a step keeps the stack bounded.
* `Invocation.stack_bounded` — no machine that comes out of a run, or of one nested in it, has a
  stack beyond the limits.
-/

namespace ScriptLedger

open Sequencing

variable {limits : Limits} {α : Type}

/-! ## Stacks -/

namespace Stack

/-- A stack with the limits of a run, within those limits. -/
structure Bounded (limits : Limits) (s : Stack) : Prop where
  limit : s.limit = limits.maxStackSize
  valueLimit : s.valueLimit = limits.maxValueSize
  size_le : s.size ≤ limits.maxStackSize
  value_le : ∀ v ∈ s.entries, v.size ≤ limits.maxValueSize

/-- Fewer entries, each of which fits, are as good. -/
theorem Bounded.of_entries {s : Stack} (h : s.Bounded limits) {entries : Array Value}
    (hsize : entries.size ≤ s.size) (hfits : ∀ v ∈ entries, v.size ≤ limits.maxValueSize) :
    Bounded limits { s with entries } where
  limit := h.limit
  valueLimit := h.valueLimit
  size_le := Nat.le_trans hsize h.size_le
  value_le := hfits

theorem Bounded.shrink {s : Stack} (h : s.Bounded limits) (length : Nat) :
    Bounded limits { s with entries := s.entries.shrink length } := by
  refine h.of_entries ?_ fun v hv => h.value_le v ?_
  · simp [size]
  · obtain ⟨i, hi, rfl⟩ := Array.getElem_of_mem hv
    simp

theorem upholds_push (value : Value) : Upholds (Bounded limits) (push value) fun _ => True := by
  intro s hs
  unfold push
  refine Yields.get_bind ?_
  by_cases hfull : s.limit ≤ s.size
  · rw [if_pos hfull]
    exact .throw hs
  rw [if_neg hfull]
  by_cases hlarge : s.valueLimit < value.size
  · simp only [if_pos hlarge]
    exact .throw hs
  simp only [if_neg hlarge]
  refine Yields.of_ok rfl ⟨⟨hs.limit, hs.valueLimit, ?_, ?_⟩, trivial⟩
  · have hlimit := hs.limit
    simp only [size, Array.size_push] at hfull ⊢
    omega
  · intro v hv
    rcases Array.mem_push.mp hv with hv | rfl
    · exact hs.value_le v hv
    · have hlimit := hs.valueLimit
      omega

theorem upholds_pop :
    Upholds (Bounded limits) pop fun value => value.size ≤ limits.maxValueSize := by
  intro s hs
  unfold pop
  refine Yields.get_bind ?_
  cases hback : s.entries.back? with
  | none => exact .throw hs
  | some value =>
      refine Yields.of_ok rfl ⟨hs.of_entries ?_ ?_, ?_⟩
      · simp [size]
      · exact fun v hv => hs.value_le v (by
          obtain ⟨i, hi, rfl⟩ := Array.getElem_of_mem hv
          simp)
      · exact hs.value_le value (Array.mem_of_back? hback)

theorem upholds_peek : Upholds (Bounded limits) peek fun _ => True := by
  intro s hs
  unfold peek
  refine Yields.get_bind ?_
  cases s.entries.back? with
  | none => exact .throw hs
  | some value => exact .pure ⟨hs, trivial⟩

theorem upholds_popAs (op : Opcode) (shape : Shape) (read? : Value → Option α) :
    Upholds (Bounded limits) (popAs op shape read?) fun _ => True := by
  refine upholds_pop.bind fun value _ => ?_
  cases read? value with
  | none => exact .throw
  | some a => exact .pure trivial

theorem upholds_popIndex (op : Opcode) : Upholds (Bounded limits) (popIndex op) fun _ => True := by
  refine (upholds_popAs op _ _).bind fun value _ => ?_
  by_cases hneg : value.toInt < 0
  · rw [if_pos hneg]
    exact .throw
  · rw [if_neg hneg]
    exact .pure trivial

theorem upholds_getAt (index : Int64) : Upholds (Bounded limits) (getAt index) fun _ => True := by
  intro s hs
  unfold getAt
  refine Yields.get_bind ?_
  cases s.slot index with
  | error e => exact .throw hs
  | ok i =>
      dsimp only
      cases s.entries[i]? with
      | none => exact .throw hs
      | some value => exact .pure ⟨hs, trivial⟩

theorem upholds_setAt (index : Int64) {value : Value} (hvalue : value.size ≤ limits.maxValueSize) :
    Upholds (Bounded limits) (setAt index value) fun _ => True := by
  intro s hs
  unfold setAt
  refine Yields.get_bind ?_
  cases s.slot index with
  | error e => exact .throw hs
  | ok i =>
      refine Yields.of_ok rfl ⟨hs.of_entries (by simp [size]) ?_, trivial⟩
      intro v hv
      rcases Array.mem_or_eq_of_mem_setIfInBounds hv with hv | rfl
      · exact hs.value_le v hv
      · exact hvalue

theorem upholds_swapDown (depth : Nat) :
    Upholds (Bounded limits) (swapDown depth) fun _ => True := by
  intro s hs
  unfold swapDown
  refine Yields.get_bind ?_
  by_cases hdeep : s.size ≤ depth
  · rw [if_pos hdeep]
    exact .throw hs
  · rw [if_neg hdeep]
    refine Yields.of_ok rfl ⟨hs.of_entries (by simp [size]) ?_, trivial⟩
    intro v hv
    rw [Array.swapIfInBounds_def] at hv
    split at hv
    · split at hv
      · exact hs.value_le v ((Array.swap_perm _ _).mem_iff.mp hv)
      · exact hs.value_le v hv
    · exact hs.value_le v hv

theorem upholds_popMany (count : Nat) : Upholds (Bounded limits) (popMany count) fun _ => True := by
  intro s hs
  unfold popMany
  refine Yields.get_bind ?_
  by_cases hfew : s.size < count
  · rw [if_pos hfew]
    exact .throw hs
  · rw [if_neg hfew]
    exact Yields.of_ok rfl ⟨hs.shrink _, trivial⟩

theorem upholds_truncate (length : Nat) :
    Upholds (Bounded limits) (truncate length) fun _ => True := by
  intro s hs
  unfold truncate
  refine Yields.get_bind ?_
  by_cases hfew : s.size < length
  · rw [if_pos hfew]
    exact .throw hs
  · rw [if_neg hfew]
    exact Yields.of_ok rfl ⟨hs.shrink _, trivial⟩

end Stack

open Stack

/-! ## Instructions on the registers -/

theorem CryptoOp.upholds_run (op : CryptoOp) : Upholds (Bounded limits) op.run fun _ => True := by
  cases op with
  | sha256 => exact (upholds_popAs _ _ _).bind fun _ _ => upholds_push _
  | hash => exact upholds_pop.bind fun _ _ => upholds_push _
  | pubkeyFromKeypair => exact (upholds_popAs _ _ _).bind fun _ _ => upholds_push _
  | verifySign =>
      exact (upholds_popAs _ _ _).bind fun _ _ => (upholds_popAs _ _ _).bind fun _ _ =>
        (upholds_popAs _ _ _).bind fun _ _ => upholds_push _
  | genPubkey => exact (upholds_popAs _ _ _).bind fun _ _ => upholds_push _

theorem ArithOp.upholds_run (op : ArithOp) : Upholds (Bounded limits) op.run fun _ => True := by
  cases op with
  | binary op =>
      refine (upholds_popAs _ _ _).bind fun first _ => (upholds_popAs _ _ _).bind fun second _ => ?_
      cases op.eval second first with
      | none => exact .throw
      | some value => exact upholds_push _
  | neg =>
      refine (upholds_popAs _ _ _).bind fun value _ => ?_
      cases Word.signed? (-value.toInt) with
      | none => exact .throw
      | some value => exact upholds_push _
  | not =>
      refine (upholds_popAs _ _ _).bind fun value _ => ?_
      by_cases hbit : value = 0 ∨ value = 1
      · rw [if_pos hbit]
        exact upholds_push _
      · rw [if_neg hbit]
        exact .throw
  | equ => exact upholds_pop.bind fun _ _ => upholds_pop.bind fun _ _ => upholds_push _

theorem ListOp.upholds_run (op : ListOp) : Upholds (Bounded limits) op.run fun _ => True := by
  cases op with
  | pack =>
      exact (upholds_popIndex _).bind fun _ _ => (upholds_popMany _).bind fun _ _ => upholds_push _
  | unpack =>
      exact (upholds_popAs _ _ _).bind fun items _ =>
        (Upholds.forM fun item _ => upholds_push item).bind fun _ _ => upholds_push _

namespace Registers

/-- What holds of the stack is kept by what keeps it on the stack. -/
theorem upholds_onStack {I : Stack → Prop} {x : StackM α} {P : α → Prop} (h : Upholds I x P) :
    Upholds (fun r : Registers => I r.stack) (onStack x) P := by
  rintro ⟨stack, pc, fp⟩ hs
  cases hx : x stack with
  | ok a stack' =>
      refine Yields.of_ok (a := a) (t := ⟨stack', pc, fp⟩) (by simp only [onStack, hx]) ?_
      exact (h stack hs).1 a stack' hx
  | error e stack' =>
      refine Yields.of_error (e := e) (t := ⟨stack', pc, fp⟩) (by simp only [onStack, hx]) ?_
      exact (h stack hs).2 e stack' hx

/-- The stack of the registers is bounded. -/
def Bounded (limits : Limits) (r : Registers) : Prop := r.stack.Bounded limits

theorem upholds_push (value : Value) : Upholds (Bounded limits) (push value) fun _ => True :=
  upholds_onStack (Stack.upholds_push value)

theorem upholds_popInt (op : Opcode) : Upholds (Bounded limits) (popInt op) fun _ => True :=
  upholds_onStack (upholds_popAs op _ _)

theorem upholds_pop :
    Upholds (Bounded limits) (onStack pop) fun value => value.size ≤ limits.maxValueSize :=
  upholds_onStack Stack.upholds_pop

/-- The program counter and the frame pointer have no part in it. -/
theorem upholds_modify {f : Registers → Registers} (hf : ∀ r, (f r).stack = r.stack) :
    Upholds (Bounded limits) (modify f : RegisterM PUnit) fun _ => True := by
  refine .modify fun r hr => ?_
  show (f r).stack.Bounded limits
  rw [hf r]
  exact hr

theorem upholds_exactly (op : Opcode) (value : Option Int64) :
    Upholds (Bounded limits) (exactly op value) fun _ => True := by
  cases value with
  | none => exact .throw
  | some value => exact .pure trivial

theorem upholds_frameSlot (op : Opcode) (offset : Int64) :
    Upholds (Bounded limits) (frameSlot op offset) fun _ => True :=
  Upholds.get.bind fun _ _ => upholds_exactly _ _

theorem upholds_relative (op : Opcode) (offset : Int64) :
    Upholds (Bounded limits) (relative op offset) fun _ => True :=
  Upholds.get.bind fun _ _ => upholds_exactly _ _

theorem upholds_intAt (op : Opcode) (index : Int64) :
    Upholds (Bounded limits) (intAt op index) fun _ => True := by
  refine (upholds_onStack (upholds_getAt index)).bind fun value _ => ?_
  cases value with
  | int i => exact .pure trivial
  | _ => exact .throw

end Registers

open Registers

theorem StackOp.upholds_run (op : StackOp) :
    Upholds (Registers.Bounded limits) op.run fun _ => True := by
  cases op with
  | dup => exact upholds_onStack (upholds_peek.bind fun _ _ => Stack.upholds_push _)
  | swap => exact upholds_onStack (upholds_swapDown 1)
  | swapAny => exact upholds_onStack ((upholds_popIndex _).bind fun _ _ => upholds_swapDown _)
  | pushAbs =>
      exact upholds_onStack ((upholds_popAs _ _ _).bind fun _ _ => (upholds_getAt _).bind fun _ _ =>
        Stack.upholds_push _)
  | popAbs =>
      -- What overwrites the entry has just come off the stack.
      exact upholds_onStack ((upholds_popAs _ _ _).bind fun _ _ =>
        Stack.upholds_pop.bind fun _ hvalue => upholds_setAt _ hvalue)
  | pushFp => exact Upholds.get.bind fun _ _ => Registers.upholds_push _
  | popFp => exact (upholds_popInt _).bind fun _ _ => upholds_modify fun _ => rfl
  | pushSp => exact Upholds.get.bind fun _ _ => Registers.upholds_push _
  | popSp => exact upholds_onStack ((upholds_popIndex _).bind fun _ _ => upholds_truncate _)
  | popVoid => exact upholds_onStack (Stack.upholds_pop.bind fun _ _ => .pure trivial)
  | pushPc => exact Upholds.get.bind fun _ _ => Registers.upholds_push _

theorem FrameOp.upholds_run (op : FrameOp) :
    Upholds (Registers.Bounded limits) op.run fun _ => True := by
  cases op with
  | pushR =>
      exact (upholds_popInt _).bind fun _ _ => (upholds_frameSlot _ _).bind fun _ _ =>
        upholds_onStack ((upholds_getAt _).bind fun _ _ => Stack.upholds_push _)
  | popR =>
      exact (upholds_popInt _).bind fun _ _ => Registers.upholds_pop.bind fun _ hvalue =>
        (upholds_frameSlot _ _).bind fun _ _ => upholds_onStack (upholds_setAt _ hvalue)
  | incFp =>
      exact (upholds_popInt _).bind fun _ _ => (upholds_frameSlot _ _).bind fun _ _ =>
        upholds_modify fun _ => rfl

/-- The value that a run returns, if it ends here, fits an entry. -/
def Flow.Fits (limits : Limits) : Flow → Prop
  | .goto _ => True
  | .halt value => value.size ≤ limits.maxValueSize

theorem ControlOp.upholds_run (op : ControlOp) :
    Upholds (Registers.Bounded limits) op.run (Flow.Fits limits) := by
  cases op with
  | jump => exact (upholds_popInt _).bind fun _ _ => .pure trivial
  | jumpR =>
      exact (upholds_popInt _).bind fun _ _ => (upholds_relative _ _).bind fun _ _ => .pure trivial
  | jumpC =>
      refine (upholds_popInt _).bind fun target _ => (upholds_popInt _).bind fun condition _ => ?_
      by_cases hzero : condition = 0
      · rw [if_pos hzero]
        exact Upholds.get.bind fun _ _ => .pure trivial
      · rw [if_neg hzero]
        exact .pure trivial
  | jumpRC =>
      refine (upholds_popInt _).bind fun offset _ => (upholds_popInt _).bind fun condition _ => ?_
      by_cases hzero : condition = 0
      · rw [if_pos hzero]
        exact Upholds.get.bind fun _ _ => .pure trivial
      · rw [if_neg hzero]
        exact (upholds_relative _ _).bind fun _ _ => .pure trivial
  | call =>
      refine (upholds_popInt _).bind fun target _ => Upholds.get.bind fun r _ => ?_
      refine (Registers.upholds_push _).bind fun _ _ => ?_
      refine (upholds_modify ?_).bind fun _ _ => ?_
      · exact fun _ => rfl
      refine Upholds.get.bind fun r _ => ?_
      exact (Registers.upholds_push _).bind fun _ _ => .pure trivial
  | ret =>
      -- The value that is returned came off the stack, and the push checks it again.
      refine Registers.upholds_pop.bind fun value hvalue => Upholds.get.bind fun r _ => ?_
      refine (upholds_intAt _ _).bind fun savedFp _ => (upholds_frameSlot _ _).bind fun _ _ => ?_
      refine (upholds_intAt _ _).bind fun returnPc _ => ?_
      refine (upholds_onStack (upholds_truncate _)).bind fun _ _ => ?_
      by_cases hend : returnPc = -1
      · rw [if_pos hend]
        exact .pure hvalue
      · rw [if_neg hend]
        refine (upholds_modify ?_).bind fun _ _ => ?_
        · exact fun _ => rfl
        exact (Registers.upholds_push _).bind fun _ _ => .pure trivial

/-! ## Instructions on the machine -/

/-- The registers of the machine satisfy `I`. -/
def Machine.HasRegisters (I : Registers → Prop) (m : Machine) : Prop := I m.registers

namespace Exec

variable {I : Registers → Prop} {P : α → Prop}

open Machine (HasRegisters)

theorem upholds_onRegisters {x : RegisterM α} (h : Upholds I x P) :
    Upholds (HasRegisters I) (onRegisters x) P := by
  rintro ⟨registers, steps, world, account, archive⟩ hm
  cases hx : x registers with
  | ok a registers' =>
      refine Yields.of_ok (a := a) (t := ⟨registers', steps, world, account, archive⟩)
        (by simp only [onRegisters, hx]) ?_
      exact (h registers hm).1 a registers' hx
  | error e registers' =>
      refine Yields.of_error (e := e) (t := ⟨registers', steps, world, account, archive⟩)
        (by simp only [onRegisters, hx]) ?_
      exact (h registers hm).2 e registers' hx

/-! What follows leaves the registers alone, so it keeps whatever holds of them. -/

theorem upholds_modify {f : Machine → Machine} (hf : ∀ m, (f m).registers = m.registers) :
    Upholds (HasRegisters I) (modify f : Exec PUnit) fun _ => True := by
  refine .modify fun m hm => ?_
  show I (f m).registers
  rw [hf m]
  exact hm

theorem upholds_onArchive (x : Archived StateError α) :
    Upholds (HasRegisters I) (onArchive x) fun _ => True := by
  intro m hm
  have hstores : Yields m.archive x (fun _ _ => True) fun _ => True :=
    ⟨fun _ _ _ => trivial, fun _ _ _ => trivial⟩
  refine hstores.onArchive.imp (fun a m' h => ⟨?_, trivial⟩) fun m' h => ?_
  · rw [h.1]
    exact hm
  · rw [h.1]
    exact hm

theorem upholds_ofState (x : Except StateError α) :
    Upholds (HasRegisters I) (ofState x) fun _ => True := by
  cases x with
  | ok a => exact .pure trivial
  | error cause => exact .throw

theorem upholds_account? (world : World) (address : Hash) :
    Upholds (HasRegisters I) (account? world address) fun _ => True :=
  Upholds.get.bind fun _ _ => upholds_ofState _

theorem upholds_account (world : World) (address : Hash) :
    Upholds (HasRegisters I) (account world address) fun _ => True := by
  refine (upholds_account? world address).bind fun found _ => ?_
  cases found with
  | none => exact .throw
  | some account => exact .pure trivial

theorem upholds_balanceWord (op : Opcode) (balance : UInt64) :
    Upholds (HasRegisters I) (balanceWord op balance) fun _ => True := by
  unfold balanceWord
  cases Word.signed? balance.toNat with
  | none => exact .throw
  | some value => exact .pure trivial

theorem upholds_next : Upholds (HasRegisters I) next (Flow.Fits limits) :=
  Upholds.get.bind fun _ _ => .pure trivial

theorem upholds_writeAccount (account : Account) :
    Upholds (HasRegisters I) (writeAccount account) fun _ => True := by
  refine (upholds_modify ?_).bind fun _ _ => Upholds.get.bind fun m _ => ?_
  · exact fun _ => rfl
  · exact (upholds_onArchive _).bind fun _ _ => upholds_modify fun _ => rfl

theorem upholds_setStorage (name : String) (value : SlotValue) :
    Upholds (HasRegisters I) (Exec.setStorage name value) fun _ => True := by
  refine Upholds.get.bind fun m _ => ?_
  cases m.account.setStorage name value with
  | error cause => exact .throw
  | ok account => exact upholds_writeAccount account

theorem upholds_create (op : Opcode) (key : Pubkey) (code : String) (ownerAccess : Bool)
    (names values : List Value) :
    Upholds (HasRegisters I) (Exec.create op key code ownerAccess names values) fun _ => True := by
  unfold Exec.create
  by_cases harity : names.length ≠ values.length
  · rw [if_pos harity]
    exact .throw
  rw [if_neg harity]
  refine Upholds.get.bind fun m _ => (upholds_ofState _).bind fun taken _ => ?_
  cases taken with
  | true => exact .pure trivial
  | false =>
      refine (Upholds.ofExcept fun _ _ => trivial).bind fun slots (_ : True) => ?_
      cases Account.make key 0 code ownerAccess slots with
      | error cause => exact .throw
      | ok account =>
          refine (upholds_onArchive _).bind fun world _ => (upholds_modify ?_).bind fun _ _ => ?_
          · exact fun _ => rfl
          · exact .pure trivial

theorem upholds_prepare (target : Hash) (amount : Int64) (params : List Value) :
    Upholds (HasRegisters I) (prepare target amount params) fun _ => True := by
  refine Upholds.get.bind fun m _ => (upholds_ofState _).bind fun there _ => ?_
  cases there with
  | false => exact .pure trivial
  | true =>
      simp only [Bool.not_true, Bool.false_eq_true, if_false]
      cases m.account.addToBalance (-amount) with
      | error cause => exact .pure trivial
      | ok debited =>
          refine (upholds_onArchive _).bind fun world _ => ?_
          refine (upholds_account world target).bind fun recipient (_ : True) => ?_
          cases recipient.addToBalance amount with
          | error cause => exact .pure trivial
          | ok credited => exact (upholds_onArchive _).bind fun world (_ : True) => .pure trivial

variable {nested : Terms → Exec Value} {terms : Terms}

/-- The run of the script that was called has registers of its own. -/
theorem upholds_deliver (call : Invocation) (world : World) :
    Upholds (HasRegisters I) (deliver nested terms call world) fun _ => True := by
  unfold deliver
  by_cases hcode : call.callee.hasCode = true
  · rw [if_pos hcode]
    intro m hm
    refine Yields.runPaid (fun _ _ => ⟨hm, trivial⟩) fun inner start _ => ?_
    exact ⟨fun _ _ _ => ⟨hm, trivial⟩, fun _ _ _ => ⟨hm, trivial⟩⟩
  · rw [if_neg hcode]
    refine (upholds_modify ?_).bind fun _ _ => .pure trivial
    exact fun _ => rfl

theorem upholds_reload (payer : Hash) :
    Upholds (HasRegisters I) (reload payer) fun _ => True :=
  Upholds.get.bind fun _ _ => (upholds_account _ _).bind fun _ _ => upholds_modify fun _ => rfl

theorem upholds_transfer (target : Hash) (amount : Int64) (params : List Value) :
    Upholds (HasRegisters I) (Exec.transfer nested terms target amount params) fun _ => True := by
  rw [transfer_eq]
  refine Upholds.get.bind fun m _ => (upholds_prepare target amount params).bind fun paid _ => ?_
  cases paid with
  | none => exact .pure trivial
  | some order =>
      obtain ⟨call, world⟩ := order
      refine (upholds_deliver call world).bind fun moved _ => ?_
      exact (upholds_reload _).bind fun _ _ => .pure trivial

end Exec

section Step

open Exec
open Machine (HasRegisters)

variable {nested : Terms → Exec Value} {terms : Terms}

/-- What holds of the stack of a machine is kept by what keeps it on the stack. -/
theorem Exec.upholds_onStack {P : α → Prop} {x : StackM α}
    (h : Upholds (Stack.Bounded limits) x P) :
    Upholds (HasRegisters (Registers.Bounded limits)) (onStack x) P :=
  upholds_onRegisters (Registers.upholds_onStack h)

theorem AccountOp.upholds_run (op : AccountOp) :
    Upholds (HasRegisters (Registers.Bounded limits)) (op.run nested terms) fun _ => True := by
  cases op with
  | getBal =>
      refine (Exec.upholds_onStack (upholds_popAs _ _ _)).bind fun target _ =>
        Upholds.get.bind fun m _ => (upholds_account? _ _).bind fun found _ => ?_
      cases found with
      | none => exact Exec.upholds_onStack (Stack.upholds_push _)
      | some account =>
          exact (upholds_balanceWord _ _).bind fun _ _ =>
            Exec.upholds_onStack (Stack.upholds_push _)
  | getOwnBal =>
      exact Upholds.get.bind fun _ _ => (upholds_balanceWord _ _).bind fun _ _ =>
        Exec.upholds_onStack (Stack.upholds_push _)
  | getStor =>
      refine (Exec.upholds_onStack (upholds_popAs _ _ _)).bind fun name _ =>
        Upholds.get.bind fun m _ => ?_
      cases m.account.slot? name with
      | none => exact .throw
      | some value => exact Exec.upholds_onStack (Stack.upholds_push _)
  | setStor =>
      refine (Exec.upholds_onStack Stack.upholds_pop).bind fun value _ => ?_
      refine (Upholds.ofExcept fun _ _ => trivial).bind fun slot (_ : True) => ?_
      exact (Exec.upholds_onStack (upholds_popAs _ _ _)).bind fun _ _ => upholds_setStorage _ _
  | getCode =>
      exact (Exec.upholds_onStack (upholds_popAs _ _ _)).bind fun _ _ => Upholds.get.bind fun _ _ =>
        (upholds_account _ _).bind fun _ _ => Exec.upholds_onStack (Stack.upholds_push _)
  | createContr =>
      refine (Exec.upholds_onStack (upholds_popAs _ _ _)).bind fun key _ =>
        (Exec.upholds_onStack (upholds_popAs _ _ _)).bind fun code _ =>
          (Exec.upholds_onStack (upholds_popAs _ _ _)).bind fun owner _ =>
            (Exec.upholds_onStack (upholds_popAs _ _ _)).bind fun names _ =>
              (Exec.upholds_onStack (upholds_popAs _ _ _)).bind fun values _ => ?_
      exact (upholds_create _ _ _ _ _ _).bind fun _ _ => Exec.upholds_onStack (Stack.upholds_push _)
  | transfer =>
      refine (Exec.upholds_onStack (upholds_popAs _ _ _)).bind fun amount _ =>
        (Exec.upholds_onStack (upholds_popAs _ _ _)).bind fun target _ =>
          (Exec.upholds_onStack (upholds_popAs _ _ _)).bind fun params _ => ?_
      by_cases hamount : amount.toInt < 0
      · rw [if_pos hamount]
        exact .throw
      · rw [if_neg hamount]
        exact (upholds_transfer _ _ _).bind fun _ _ => Exec.upholds_onStack (Stack.upholds_push _)

theorem Opcode.upholds_run (op : Opcode) :
    Upholds (HasRegisters (Registers.Bounded limits)) (op.run nested terms) (Flow.Fits limits) := by
  cases op with
  | crypto op => exact (Exec.upholds_onStack (CryptoOp.upholds_run op)).bind fun _ _ => upholds_next
  | stack op => exact (upholds_onRegisters (StackOp.upholds_run op)).bind fun _ _ => upholds_next
  | frame op => exact (upholds_onRegisters (FrameOp.upholds_run op)).bind fun _ _ => upholds_next
  | control op => exact upholds_onRegisters (ControlOp.upholds_run op)
  | arith op => exact (Exec.upholds_onStack (ArithOp.upholds_run op)).bind fun _ _ => upholds_next
  | list op => exact (Exec.upholds_onStack (ListOp.upholds_run op)).bind fun _ _ => upholds_next
  | account op => exact (AccountOp.upholds_run op).bind fun _ _ => upholds_next
  | kill => exact .throw

/-- A literal of the program is pushed like anything else. -/
theorem Script.Item.upholds_run (item : Script.Item) :
    Upholds (HasRegisters (Registers.Bounded limits)) (item.run nested terms)
      (Flow.Fits limits) := by
  cases item with
  | push value =>
      exact (Exec.upholds_onStack (Stack.upholds_push value)).bind fun _ _ => upholds_next
  | op instruction => exact Opcode.upholds_run instruction

namespace Machine

/-- A step keeps the stack bounded, and what it returns, if it ends the run, fits. -/
theorem upholds_stepWith :
    Upholds (HasRegisters (Registers.Bounded limits)) (stepWith nested terms)
      fun result => ∀ value ∈ result, value.size ≤ limits.maxValueSize := by
  intro m hm
  by_cases hleft : m.steps < terms.budget
  case neg => exact Yields.of_error (stepWith_of_spent (Nat.le_of_not_lt hleft)) hm
  refine Yields.congr (stepWith_of_lt hleft) ?_
  have hcounted : HasRegisters (Registers.Bounded limits) m.counted := hm
  cases hfetch : terms.item? m.counted.registers.pc with
  | none => exact Yields.of_error (execute_of_none hfetch) hcounted
  | some item =>
      refine Yields.congr (execute_of_some hfetch) ?_
      refine ((Script.Item.upholds_run item).bind fun flow hflow => ?_) m.counted hcounted
      cases flow with
      | halt value => exact .pure (by rintro _ ⟨⟩; exact hflow)
      | goto pc =>
          refine (upholds_onRegisters (Registers.upholds_modify ?_)).bind fun _ _ => .pure ?_
          · exact fun _ => rfl
          · rintro _ ⟨⟩

/-- So does a run. -/
theorem upholds_drive (left : Nat) (terms : Terms) :
    Upholds (HasRegisters (Registers.Bounded limits)) (drive left terms)
      fun value => value.size ≤ limits.maxValueSize := by
  induction left with
  | zero => exact fun m hm => Yields.of_error rfl hm
  | succ left ih =>
      intro m hm
      have hstep : Yields m (stepWith (drive left) terms) _ _ := upholds_stepWith m hm
      refine Yields.drive hstep.2 (fun value m' h => ?_) fun m' h => ?_
      · obtain ⟨hm', hvalue⟩ := hstep.1 _ m' h
        exact ⟨hm', hvalue value rfl⟩
      · exact ih m' (hstep.1 _ m' h).1

/-! ## Runs -/

/-- The entries of a run are pushed one by one on the empty stack, so it starts within its
limits. -/
theorem bounded_of_enter {depth budget : Nat} {call : Invocation} {world : World}
    {archive : Archive} {start : Machine}
    (h : enter limits depth budget call world archive = .ok (terms, start)) :
    start.registers.Bounded limits := by
  obtain ⟨-, items, params, -, -, hregisters, -⟩ := entry_eq_ok.mp (entry_of_enter h)
  have hempty : (Stack.empty limits.maxStackSize limits.maxValueSize).Bounded limits :=
    ⟨rfl, rfl, Nat.zero_le _, fun _ hv => absurd hv (Array.not_mem_empty _)⟩
  have hkept : Upholds (Stack.Bounded limits) ((call.entries params).forM Stack.push)
      fun _ => True := .forM fun value _ => Stack.upholds_push value
  unfold entryRegisters at hregisters
  cases hpush : (call.entries params).forM Stack.push
      (Stack.empty limits.maxStackSize limits.maxValueSize) with
  | error e stack =>
      rw [hpush] at hregisters
      cases hregisters
  | ok u stack =>
      rw [hpush] at hregisters
      rw [← Except.ok.inj hregisters]
      exact ((hkept _ hempty).1 _ _ hpush).1

/-- A machine comes out of a run by any steps, also after one that failed, or out of a run
nested in it. -/
inductive Reaches (terms : Terms) (m : Machine) : Terms → Machine → Prop
  | here : Reaches terms m terms m
  | step {terms' : Terms} {m' : Machine} (hreach : Reaches terms m terms' m') :
      Reaches terms m terms' (final (step terms' m'))
  | call {terms' inner : Terms} {m' start : Machine} (hreach : Reaches terms m terms' m')
      (hcalls : Calls terms' m' inner start) : Reaches terms m inner start

theorem upholds_step :
    Upholds (HasRegisters (Registers.Bounded limits)) (step terms)
      fun result => ∀ value ∈ result, value.size ≤ limits.maxValueSize := by
  intro m hm
  obtain ⟨hok, herror⟩ := upholds_stepWith m hm
  exact ⟨fun result m' h => hok result m' h, fun e m' h => herror e m' h⟩

theorem upholds_finish :
    Upholds (HasRegisters (Registers.Bounded limits)) (finish terms)
      fun value => value.size ≤ limits.maxValueSize := by
  intro m hm
  obtain ⟨hok, herror⟩ := upholds_drive (terms.budget - m.steps) terms m hm
  exact ⟨fun value m' h => hok value m' h, fun e m' h => herror e m' h⟩

/-- Wherever a run comes to, its limits are the same, and the stack is within them. -/
theorem Reaches.bounded {m m' : Machine} {terms' : Terms} (h : Reaches terms m terms' m')
    (hlimits : terms.limits = limits) (hm : m.registers.Bounded limits) :
    terms'.limits = limits ∧ m'.registers.Bounded limits := by
  induction h with
  | here => exact ⟨hlimits, hm⟩
  | @step terms' m' hreach ih =>
      have hkept : Yields m' (Machine.step terms') _ _ := upholds_step m' ih.2
      exact ⟨ih.1, (hkept.imp (fun _ _ h => h.1) fun _ h => h).final⟩
  | call hreach hcalls ih =>
      cases hcalls with
      | intro hleft hitem horder hcode henter =>
          rw [ih.1] at henter
          obtain ⟨hinner, -⟩ := enter_eq henter
          exact ⟨by rw [hinner], bounded_of_enter henter⟩

end Machine

end Step

namespace Invocation

variable {call : Invocation} {depth budget : Nat} {w : World} {a : Archive}
variable {terms : Terms} {start : Machine}

/-- Whatever the script, the params and the slots hold: wherever a run comes to, by its own
steps and in the runs nested in it, its stack has no more entries than the limit and no entry
larger than the limit, and it returns no larger value. -/
theorem stack_bounded
    (henter : Machine.enter limits depth budget call w a = .ok (terms, start)) :
    (∀ terms' m, Machine.Reaches terms start terms' m →
      m.registers.stack.size ≤ limits.maxStackSize ∧
      (∀ v ∈ m.registers.stack.entries, v.size ≤ limits.maxValueSize) ∧
      (∀ value m', Machine.step terms' m = .ok (some value) m' →
        value.size ≤ limits.maxValueSize) ∧
      ∀ value m', Machine.finish terms' m = .ok value m' → value.size ≤ limits.maxValueSize) ∧
    ∀ outcome a', call.run limits w a = .ok outcome a' →
      outcome.value.size ≤ limits.maxValueSize := by
  have hlimits : terms.limits = limits := by rw [(Machine.enter_eq henter).1]
  refine ⟨fun terms' m hreach => ?_, fun outcome a' hrun => ?_⟩
  · obtain ⟨-, hm⟩ := hreach.bounded hlimits (Machine.bounded_of_enter henter)
    refine ⟨hm.size_le, hm.value_le, fun value m' hstep => ?_, fun value m' hfinish => ?_⟩
    · exact ((Machine.upholds_step m hm).1 _ m' hstep).2 value rfl
    · exact ((Machine.upholds_finish m hm).1 value m' hfinish).2
  · have hvalue : Sequencing.Yields a (call.run limits w)
        (fun outcome _ => outcome.value.size ≤ limits.maxValueSize) fun _ => True := by
      refine Yields.invocation (fun _ _ => trivial) fun terms start henter => ?_
      have hstart := Machine.bounded_of_enter henter
      exact (Machine.upholds_finish start hstart).imp (fun _ _ h => h.2) fun _ _ => trivial
    exact hvalue.1 outcome a' hrun

namespace Full

/-- A script that writes two lists of two and returns the second one. -/
def writer : Invocation :=
  { callee :=
      { pubKey := ⟨Vector.replicate 32 1⟩, balance := 0, code := "[1 2] [1 2] OP_RET"
        ownerAccess := false, storage := [] }
    payers := [], amount := 0, params := .values [] }

/-- Limits that it just keeps to. -/
def tight : Limits := { maxStackSize := 7, maxValueSize := 3 }

/-- The machine after its second step. -/
def written (terms : Terms) (start : Machine) : Machine :=
  final (Machine.step terms (final (Machine.step terms start)))

theorem exists_written : ∃ entered,
    Machine.enter tight 0 tight.maxSteps writer (.empty 0) .empty = .ok entered ∧
      (written entered.1 entered.2).registers.stack.size = 7 ∧
        ∃ value m', Machine.finish entered.1 entered.2 = .ok value m' ∧ value.size = 3 := by
  decide +kernel

end Full

/-- A stack and a value that are as large as the limits allow. -/
theorem stack_bounded_full : ∃ terms start value m',
    Machine.enter Full.tight 0 Full.tight.maxSteps Full.writer (.empty 0) .empty =
      .ok (terms, start) ∧
    (Full.written terms start).registers.stack.size = 7 ∧
    Machine.finish terms start = .ok value m' ∧ value.size = 3 ∧
    (Full.written terms start).registers.stack.size ≤ Full.tight.maxStackSize ∧
    value.size ≤ Full.tight.maxValueSize := by
  obtain ⟨⟨terms, start⟩, henter, hsize, value, m', hfinish, hvalue⟩ := Full.exists_written
  have hreach : Machine.Reaches terms start terms (Full.written terms start) := .step (.step .here)
  obtain ⟨hbounded, -⟩ := stack_bounded henter
  exact ⟨terms, start, value, m', henter, hsize, hfinish, hvalue, (hbounded _ _ hreach).1,
    (hbounded _ _ .here).2.2.2 value m' hfinish⟩

end Invocation

end ScriptLedger
