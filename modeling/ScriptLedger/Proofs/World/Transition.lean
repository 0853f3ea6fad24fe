import ScriptLedger.Proofs.Machine.Coherent
import ScriptLedger.Proofs.Transaction.Balance
import ScriptLedger.Proofs.World.Booking
import ScriptLedger.World.Transition

/-!
# What a transaction books

A transaction books its outputs, takes its inputs, and books the fee; null inputs
book nothing.  Between the bookings scripts run, and each sees the snapshot as it
is then, so the same address may be paid, charged and called in one transaction.

## Main results

* `World.books_transit` — a transaction that can be applied makes its bookings.
* `TransactionData.sum_bookings` — the bookings of a body that follows its rules are
  worth nothing together.
* `TransactionData.taken_bookings` — what they take from an address is what its
  inputs are worth.
-/

namespace ScriptLedger

open Sequencing

variable {ε : Type} {a a' : Archive} {w w' : World}

/-! ## Computations that book -/

namespace World

/-- Whenever a computation returns, it has lost nothing from the stores, and it has
made these bookings, if the snapshot was well formed and no digests collide. -/
structure Books (entries : List Booking) (f : World → Archived ε World) : Prop where
  growsTo : ∀ {w a w' a'}, f w a = .ok w' a' → a.GrowsTo a'
  booked : ∀ {w a w' a'}, f w a = .ok w' a' → w.WellFormed a → a'.Collisionless →
    Booked entries a w a' w'

namespace Books

variable {entries more : List Booking} {f g : World → Archived ε World}

theorem bind (hf : Books entries f) (hg : Books more g) :
    Books (entries ++ more) fun w => f w >>= g where
  growsTo h := by
    obtain ⟨mid, amid, hfirst, hsecond⟩ := bind_eq_ok.mp h
    exact (hf.growsTo hfirst).trans (hg.growsTo hsecond)
  booked h hw hcol := by
    obtain ⟨mid, amid, hfirst, hsecond⟩ := bind_eq_ok.mp h
    have hcol' := (hg.growsTo hsecond).collisionless hcol
    have hbooked := hf.booked hfirst hw hcol'
    exact hbooked.trans (hg.booked hsecond (hbooked.wellFormed hw hcol') hcol)

/-- A loop makes the bookings of its rounds. -/
theorem foldlM {ι : Type} {items : List ι} {entry : ι → Booking} {f : World → ι → Archived ε World}
    (hf : ∀ item, Books [entry item] fun w => f w item) :
    Books (items.map entry) fun w => items.foldlM f w := by
  induction items with
  | nil =>
      constructor
      · intro w a w' a' h
        obtain ⟨-, rfl⟩ := pure_eq_ok.mp h
        exact .refl _
      · intro w a w' a' h hw hcol
        obtain ⟨rfl, rfl⟩ := pure_eq_ok.mp h
        exact .nothing _ _
  | cons item rest ih =>
      simp only [List.foldlM_cons]
      exact (hf item).bind ih

/-- A failure that could come first does not matter to what was booked. -/
theorem ofExcept {α : Type} {x : Except ε α} {f : α → World → Archived ε World}
    (hf : ∀ value, x = .ok value → Books entries (f value)) :
    Books entries fun w => do
      let value ← MonadExcept.ofExcept x
      f value w where
  growsTo h := by
    obtain ⟨value, _, hvalue, h⟩ := bind_eq_ok.mp h
    obtain ⟨hx, rfl⟩ := ofExcept_eq_ok.mp hvalue
    exact (hf value hx).growsTo h
  booked h hw hcol := by
    obtain ⟨value, _, hvalue, h⟩ := bind_eq_ok.mp h
    obtain ⟨hx, rfl⟩ := ofExcept_eq_ok.mp hvalue
    exact (hf value hx).booked h hw hcol

end Books

/-! ## One balance -/

theorem load_eq_ok {address : Hash} {account : Account} :
    w.load address a = .ok account a' ↔ w.account? a address = .ok (some account) ∧ a = a' := by
  unfold load
  rw [bind_eq_ok]
  constructor
  · rintro ⟨_, _, hget, h⟩
    obtain ⟨rfl, rfl⟩ := get_eq_ok.mp hget
    cases hfound : w.account? a address with
    | error cause => rw [hfound] at h; exact absurd h throw_ne_ok
    | ok found =>
        rw [hfound] at h
        cases found with
        | none => exact absurd h throw_ne_ok
        | some other =>
            obtain ⟨rfl, rfl⟩ := pure_eq_ok.mp h
            exact ⟨rfl, rfl⟩
  · rintro ⟨hfound, rfl⟩
    refine ⟨a, a, rfl, ?_⟩
    rw [hfound]
    rfl

/-- Reading an account writes nothing. -/
theorem yields_load {P : Account → Archive → Prop} {E : Archive → Prop} {address : Hash}
    (hok : ∀ account, w.account? a address = .ok (some account) → P account a) (herror : E a) :
    Yields a (w.load address) P E := by
  refine .get_bind ?_
  cases hfound : w.account? a address with
  | error cause => exact .throw herror
  | ok found =>
      cases found with
      | none => exact .throw herror
      | some account => exact .pure (hok account hfound)

theorem delta_eq_ok {value : UInt64} {amount : Int64} (h : delta value = .ok amount) :
    amount.toInt = value.toNat := by
  unfold delta at h
  cases hword : Word.signed? value.toNat with
  | none => rw [hword] at h; cases h
  | some word =>
      rw [hword] at h
      cases h
      exact Word.signed?_eq_some_iff.mp hword

theorem credit_eq_ok {address : Hash} {amount : Int64}
    (h : credit address amount w a = .ok w' a') :
    ∃ old new, w.account? a address = .ok (some old) ∧ old.addToBalance amount = .ok new ∧
      w.put new a = .ok w' a' := by
  obtain ⟨old, _, hload, h⟩ := bind_eq_ok.mp h
  obtain ⟨hold, rfl⟩ := load_eq_ok.mp hload
  cases hadd : old.addToBalance amount with
  | error cause => rw [hadd] at h; exact absurd h throw_ne_ok
  | ok new =>
      rw [hadd] at h
      exact ⟨old, new, hold, hadd, adaptExcept_eq_ok.mp h⟩

theorem books_credit (address : Hash) (amount : Int64) :
    Books [⟨address, amount.toInt⟩] (credit address amount) where
  growsTo h := by
    obtain ⟨old, new, hold, hadd, hput⟩ := credit_eq_ok h
    exact growsTo_of_put hput
  booked h _ _ := by
    obtain ⟨old, new, hold, hadd, hput⟩ := credit_eq_ok h
    exact .entry hold hadd hput

/-! ## One transaction -/

section RunScript

variable {limits : Limits} {payers : List Hash} {output : Output} {amount : Int64}
variable {target : Account} (h : runScript limits payers output amount target w a = .ok w' a')

include h

theorem runScript_eq_ok :
    (w' = w ∧ a' = a) ∨ (target.hasCode = true ∧ ∃ call : Invocation, call.callee = target ∧
      ∃ outcome, call.run limits w a = .ok outcome a' ∧ w' = outcome.world) := by
  unfold runScript at h
  by_cases hcode : target.hasCode = true
  · rw [if_pos hcode] at h
    obtain ⟨outcome, _, hrun, h⟩ := bind_eq_ok.mp h
    obtain ⟨rfl, rfl⟩ := pure_eq_ok.mp h
    exact Or.inr ⟨hcode, _, rfl, outcome, adaptExcept_eq_ok.mp hrun, rfl⟩
  · rw [if_neg hcode] at h
    obtain ⟨rfl, rfl⟩ := pure_eq_ok.mp h
    exact Or.inl ⟨rfl, rfl⟩

theorem growsTo_of_runScript : a.GrowsTo a' := by
  rcases runScript_eq_ok h with ⟨-, rfl⟩ | ⟨-, call, -, outcome, hrun, -⟩
  · exact .refl _
  · exact Invocation.growsTo_of_run hrun

/-- A script that runs books nothing. -/
theorem booked_of_runScript (htarget : w.Holds a target) (hw : w.WellFormed a)
    (hcol : a'.Collisionless) : Booked [] a w a' w' := by
  rcases runScript_eq_ok h with ⟨rfl, rfl⟩ | ⟨hcode, call, rfl, outcome, hrun, rfl⟩
  · exact .nothing _ _
  · exact .script htarget hcode (Invocation.effect_of_run hw htarget hrun hcol)

end RunScript

theorem pay_eq_ok {limits : Limits} {payers : List Hash} {output : Output}
    (h : pay limits payers w output a = .ok w' a') :
    ∃ target, ∃ amount : Int64, ∃ between mid, w.account? a output.address = .ok (some target) ∧
      amount.toInt = output.value.toNat ∧
        runScript limits payers output amount target w a = .ok between mid ∧
          credit output.address amount between mid = .ok w' a' := by
  obtain ⟨target, _, hload, h⟩ := bind_eq_ok.mp h
  obtain ⟨htarget, rfl⟩ := load_eq_ok.mp hload
  obtain ⟨amount, _, hamount, h⟩ := bind_eq_ok.mp h
  obtain ⟨hdelta, rfl⟩ := ofExcept_eq_ok.mp hamount
  obtain ⟨between, mid, hscript, hcredit⟩ := bind_eq_ok.mp h
  exact ⟨target, amount, between, mid, htarget, delta_eq_ok hdelta, hscript, hcredit⟩

theorem books_pay (limits : Limits) (payers : List Hash) (output : Output) :
    Books [⟨output.address, output.value.toNat⟩] fun w => pay limits payers w output where
  growsTo h := by
    obtain ⟨target, amount, between, mid, -, -, hscript, hcredit⟩ := pay_eq_ok h
    exact (growsTo_of_runScript hscript).trans ((books_credit _ amount).growsTo hcredit)
  booked h hw hcol := by
    obtain ⟨target, amount, between, mid, htarget, hvalue, hscript, hcredit⟩ := pay_eq_ok h
    have hbooks := books_credit output.address amount
    have hcol' := (hbooks.growsTo hcredit).collisionless hcol
    have hfirst := booked_of_runScript hscript (hw.holds htarget) hw hcol'
    have hsecond := hbooks.booked hcredit (hfirst.wellFormed hw hcol') hcol
    rw [← hvalue]
    exact hfirst.trans hsecond

theorem books_charge (input : Input) :
    Books [⟨input.address, -(input.value.toNat : Int)⟩] fun w => charge w input := by
  refine .ofExcept fun amount hamount => ?_
  have hvalue := delta_eq_ok hamount
  have hneg : (-amount).toInt = -(input.value.toNat : Int) := by
    rw [Word.toInt_neg_of_nonneg (by omega), hvalue]
  rw [← hneg]
  exact books_credit input.address (-amount)

end World

/-! ## The bookings of a transaction -/

namespace TransactionData

/-- The inputs that debit an account. -/
def debits (data : TransactionData) : List Input :=
  data.inputs.filter fun input => !input.isNull

/-- The bookings of a transaction whose fee goes to a miner. -/
def bookings (data : TransactionData) (miner : Hash) : List Booking :=
  data.outputs.map (fun output => ⟨output.address, output.value.toNat⟩) ++
    (data.debits.map (fun input => ⟨input.address, -(input.value.toNat : Int)⟩) ++
      [⟨miner, data.fee.toNat⟩])

/-- What the inputs of a transaction at an address are worth. -/
def charged (data : TransactionData) (address : Hash) : Nat :=
  ((data.debits.filter fun input => input.address = address).map fun input =>
    input.value.toNat).sum

end TransactionData

/-- A transaction that can be applied makes its bookings. -/
theorem World.books_transit (limits : Limits) (miner : Hash) (data : TransactionData) :
    Books (data.bookings miner) (transit limits miner data) := by
  refine .bind (.foldlM fun output => books_pay limits _ output) ?_
  refine .bind (.foldlM fun input => books_charge input) ?_
  refine .ofExcept fun fee hfee => ?_
  rw [← delta_eq_ok hfee]
  exact books_credit miner fee

/-! ## What the bookings are worth -/

namespace TransactionData

/-- Null inputs are worth nothing. -/
theorem sum_debits (data : TransactionData) :
    (data.debits.map fun input => input.value.toNat).sum =
      (data.inputs.map fun input => input.value.toNat).sum := by
  unfold debits
  induction data.inputs with
  | nil => rfl
  | cons input rest ih =>
      by_cases hnull : input.isNull = true
      · have hvalue : input.value = 0 := by
          unfold Input.isNull at hnull
          simp only [Bool.and_eq_true, beq_iff_eq] at hnull
          exact hnull.2
        rw [List.filter_cons_of_neg (by simp [hnull]), ih, List.map_cons, List.sum_cons, hvalue]
        simp
      · rw [List.filter_cons_of_pos (by simp [hnull]), List.map_cons, List.sum_cons, ih,
          List.map_cons, List.sum_cons]

theorem sum_bookings {data : TransactionData} (h : data.validate = .ok ()) (miner : Hash) :
    Booking.sum (data.bookings miner) = 0 := by
  have hbalance : (data.inputs.map fun input => input.value.toNat).sum =
      (data.outputs.map fun output => output.value.toNat).sum + data.fee.toNat :=
    (validate_eq_ok_iff.mp h).balance
  have hdebits := sum_debits data
  have houtputs := Booking.sum_credits data.outputs (·.address) (·.value.toNat)
  have hinputs := Booking.sum_debits data.debits (·.address) (·.value.toNat)
  have hfee : Booking.sum [⟨miner, data.fee.toNat⟩] = data.fee.toNat := by simp [Booking.sum]
  rw [bookings, Booking.sum_append, Booking.sum_append, houtputs, hinputs, hfee]
  omega

theorem taken_bookings (data : TransactionData) (miner address : Hash) :
    Booking.taken address (data.bookings miner) = data.charged address := by
  have houtputs := Booking.taken_credits data.outputs (·.address) (·.value.toNat) address
  have hinputs := Booking.taken_debits data.debits (·.address) (·.value.toNat) address
  have hfee : Booking.taken address [⟨miner, data.fee.toNat⟩] = 0 :=
    Booking.taken_credits [data.fee] (fun _ => miner) UInt64.toNat address
  rw [bookings, Booking.taken_append, Booking.taken_append, houtputs, hinputs, hfee, charged]
  omega

end TransactionData

end ScriptLedger
