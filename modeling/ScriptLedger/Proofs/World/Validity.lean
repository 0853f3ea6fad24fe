import ScriptLedger.Proofs.Machine.Validity
import ScriptLedger.Proofs.World.PartialView

/-!
# What transactions write is valid, up to keypairs

A transaction reads accounts from its snapshot, changes their balances, and gives them to the
store, and in between the scripts of its outputs do what scripts do.  Balances are no trouble,
so it is those scripts that decide: what was given to the store can be read back, all of it,
exactly if no script put two halves of a keypair together that do not belong to each other.
That holds of a transaction that is rejected as well, whose accounts are in the store too.

## Main results

* `World.gives_transit` — what a transaction gives to the store.
* `World.written_valid_iff` — for updates, scripts and transactions: what becomes of valid
  accounts.
-/

namespace ScriptLedger

open Sequencing

variable {ε : Type} {limits : Limits} {payers : List Hash} {outputs : List Output}
variable {output : Output} {call : Invocation} {a b : Archive} {w v : World} {careful : Prop}

namespace World

/-- A computation on a snapshot of valid accounts: what it gives to stores is valid exactly if
it was careful, and then what it returns has valid accounts only. -/
def Gives (careful : Prop) (a : Archive) (w : World) (x : Archived ε World) : Prop :=
  Yields a x (fun w' b => Archive.Gives careful (w.Valid a) a (w'.Valid b) b)
    (Archive.Gives careful (w.Valid a) a True)

theorem Gives.congr {careful' : Prop} {x : Archived ε World} (h : Gives careful a w x)
    (hiff : careful ↔ careful') : Gives careful' a w x := by
  rwa [← propext hiff]

/-- One computation after the other.  Whether the second one is careful is asked only if the
first one returns. -/
theorem Gives.bind {f : World → Archived ε World} {x : Archived ε World} {all : Prop}
    (hx : Gives careful a w x) (herror : (∀ w' b, x a ≠ .ok w' b) → (careful ↔ all))
    (hf : ∀ w' b, x a = .ok w' b → ∃ more, (careful ∧ more ↔ all) ∧ Gives more b w' (f w')) :
    Gives all a w (x >>= f) := by
  refine .split (fun e b h => ?_) fun w' b h => ?_
  · exact (hx.2 e b h).congr (herror fun w' b' hok => by rw [h] at hok; cases hok)
  · obtain ⟨more, hall, hmore⟩ := hf w' b h
    have hfirst := hx.1 w' b h
    exact hmore.imp (fun _ _ h' => (hfirst.trans h').congr hall)
      fun _ h' => (hfirst.trans h').congr hall

/-- A computation after which nothing can go wrong. -/
theorem Gives.followed {f : World → Archived ε World} {x : Archived ε World}
    (hx : Gives careful a w x) (hf : ∀ w' b, Gives True b w' (f w')) :
    Gives careful a w (x >>= f) :=
  hx.bind (fun _ => Iff.rfl) fun w' b _ => ⟨True, and_iff_left trivial, hf w' b⟩

theorem Gives.ofExcept {α : Type} {x : Except ε α} {f : α → World → Archived ε World}
    (hf : ∀ value, Gives True a w (f value w)) :
    Gives True a w (do f (← MonadExcept.ofExcept x) w) := by
  refine Yields.bind (P := fun _ b => b = a)
    (.ofExcept (fun _ _ => rfl) (.refl fun _ => trivial)) ?_
  rintro value b rfl
  exact hf value

/-! ## One balance -/

theorem gives_credit (address : Hash) (amount : Int64) (a : Archive) (w : World) :
    Gives True a w (credit address amount w) := by
  refine Yields.bind (P := fun account b => b = a ∧ w.account? a address = .ok (some account))
    (yields_load (fun _ h => ⟨rfl, h⟩) (.refl fun _ => trivial)) ?_
  rintro account b ⟨rfl, hfound⟩
  cases hadd : account.addToBalance amount with
  | error cause => exact .throw (.refl fun _ => trivial)
  | ok new =>
      refine .adaptExcept (Archive.Gives.put fun hw => ⟨hw, iff_true_intro ?_⟩)
      exact Account.valid_addToBalance (hw address account hfound) hadd

theorem gives_charge (input : Input) (a : Archive) (w : World) : Gives True a w (charge w input) :=
  .ofExcept fun amount => gives_credit input.address (-amount) a w

theorem gives_charges (inputs : List Input) (a : Archive) (w : World) :
    Gives True a w (inputs.foldlM charge w) := by
  refine Yields.foldlM ?_ (.refl id)
  intro w' input b h
  exact (gives_charge input b w').imp (fun _ _ => h.followed) fun _ => h.followed

/-! ## Outputs -/

/-- The script that an output runs if it is the next one to be paid. -/
inductive Triggers (payers : List Hash) (output : Output) (w : World) (a : Archive)
    (call : Invocation) : Prop
  | intro {target : Account} {amount : Int64}
      (htarget : w.account? a output.address = .ok (some target))
      (hamount : delta output.value = .ok amount) (hcode : target.hasCode = true)
      (hcall : call = { callee := target, payers, amount, params := .script output.params })

/-- The script that the first output runs, and those that the others run when it has been
paid. -/
theorem runs_cons_iff : Runs limits payers (output :: outputs) w a call v b ↔
    (Triggers payers output w a call ∧ v = w ∧ b = a) ∨
      ∃ w₁ a₁, pay limits payers w output a = .ok w₁ a₁ ∧
        Runs limits payers outputs w₁ a₁ call v b := by
  constructor
  · rintro ⟨houtputs, hbefore, htarget, hamount, hcode, hcall⟩
    rename_i before after other target amount
    cases before with
    | nil =>
        cases houtputs
        obtain ⟨rfl, rfl⟩ := pure_eq_ok.mp hbefore
        exact Or.inl ⟨.intro htarget hamount hcode hcall, rfl, rfl⟩
    | cons first rest =>
        cases houtputs
        rw [List.foldlM_cons] at hbefore
        obtain ⟨w₁, a₁, hpaid, hbefore⟩ := bind_eq_ok.mp hbefore
        exact Or.inr ⟨w₁, a₁, hpaid, .intro rfl hbefore htarget hamount hcode hcall⟩
  · rintro (⟨⟨htarget, hamount, hcode, hcall⟩, rfl, rfl⟩ | ⟨w₁, a₁, hpaid, hruns⟩)
    · exact .intro (List.nil_append _).symm rfl htarget hamount hcode hcall
    · obtain ⟨rfl, hbefore, htarget, hamount, hcode, hcall⟩ := hruns
      refine .intro (List.cons_append ..).symm ?_ htarget hamount hcode hcall
      rw [List.foldlM_cons]
      exact bind_eq_ok.mpr ⟨w₁, a₁, hpaid, hbefore⟩

/-- The script that an output runs is careful. -/
def CarefulOutput (limits : Limits) (payers : List Hash) (output : Output) (w : World)
    (a : Archive) : Prop :=
  ∀ call, Triggers payers output w a call → call.Careful limits w a

/-- The scripts that some outputs run are careful. -/
def CarefulOutputs (limits : Limits) (payers : List Hash) (outputs : List Output) (w : World)
    (a : Archive) : Prop :=
  ∀ call v b, Runs limits payers outputs w a call v b → call.Careful limits v b

theorem carefulOutputs_cons_iff : CarefulOutputs limits payers (output :: outputs) w a ↔
    CarefulOutput limits payers output w a ∧
      ∀ w₁ a₁, pay limits payers w output a = .ok w₁ a₁ →
        CarefulOutputs limits payers outputs w₁ a₁ := by
  constructor
  · intro h
    refine ⟨fun call htriggers => ?_, fun w₁ a₁ hpaid call v b hruns => ?_⟩
    · exact h call w a (runs_cons_iff.mpr (Or.inl ⟨htriggers, rfl, rfl⟩))
    · exact h call v b (runs_cons_iff.mpr (Or.inr ⟨w₁, a₁, hpaid, hruns⟩))
  · rintro ⟨hfirst, hrest⟩ call v b hruns
    rcases runs_cons_iff.mp hruns with ⟨htriggers, rfl, rfl⟩ | ⟨w₁, a₁, hpaid, hruns⟩
    · exact hfirst call htriggers
    · exact hrest w₁ a₁ hpaid call v b hruns

theorem gives_runScript {target : Account} {amount : Int64}
    (htarget : w.account? a output.address = .ok (some target))
    (hamount : delta output.value = .ok amount) :
    Gives (CarefulOutput limits payers output w a) a w
      (runScript limits payers output amount target w) := by
  unfold runScript
  by_cases hcode : target.hasCode = true
  case neg =>
    rw [if_neg hcode]
    refine Gives.congr (.pure (.refl id)) (iff_of_true trivial ?_)
    rintro call ⟨hfound, -, hruns, -⟩
    rw [htarget] at hfound
    cases hfound
    exact absurd hruns hcode
  rw [if_pos hcode]
  let call : Invocation := { callee := target, payers, amount, params := .script output.params }
  have hcareful : call.Careful limits w a ↔ CarefulOutput limits payers output w a := by
    constructor
    · rintro h call' ⟨hfound, hamount', -, rfl⟩
      rw [htarget] at hfound
      rw [hamount] at hamount'
      cases hfound
      cases hamount'
      exact h
    · exact fun h => h call (.intro htarget hamount hcode rfl)
  have hcallee : Archive.Gives True (w.Valid a) a (target.Valid ∧ w.Valid a) a :=
    .refl fun hw => ⟨hw output.address target htarget, hw⟩
  have hrun := (call.yields_run limits w a).imp (fun outcome b h => hcallee.preceded h)
    fun b h => hcallee.preceded h
  refine Gives.congr ?_ hcareful
  exact Yields.bind (.adaptExcept hrun) fun outcome b h => .pure h

theorem gives_pay (limits : Limits) (payers : List Hash) (output : Output) (a : Archive)
    (w : World) :
    Gives (CarefulOutput limits payers output w a) a w (pay limits payers w output) := by
  -- An output that cannot be read runs nothing.
  have hnothing : (∀ call, ¬Triggers payers output w a call) →
      Archive.Gives (CarefulOutput limits payers output w a) (w.Valid a) a True a := fun hnone =>
    .congr (.refl fun _ => trivial)
      (iff_of_true trivial fun call htriggers => absurd htriggers (hnone call))
  refine Yields.split (fun e b hload => ?_) fun target b hload => ?_
  · have hsame : b = a := (yields_load (P := fun _ _ => True) (E := fun b => b = a)
      (fun _ _ => trivial) rfl).2 e b hload
    subst hsame
    refine hnothing ?_
    rintro call ⟨htarget, -, -, -⟩
    rw [load_eq_ok.mpr ⟨htarget, rfl⟩] at hload
    cases hload
  obtain ⟨htarget, rfl⟩ := load_eq_ok.mp hload
  cases hdelta : delta output.value with
  | error e =>
      refine .throw (hnothing ?_)
      rintro call ⟨-, hamount, -, -⟩
      rw [hdelta] at hamount
      cases hamount
  | ok amount =>
      exact (gives_runScript htarget hdelta).followed
        fun w' b => gives_credit output.address amount b w'

theorem gives_pays (outputs : List Output) (a : Archive) (w : World) :
    Gives (CarefulOutputs limits payers outputs w a) a w
      (outputs.foldlM (pay limits payers) w) := by
  induction outputs generalizing a w with
  | nil =>
      have hnone : True ↔ CarefulOutputs limits payers [] w a := by
        refine iff_of_true trivial ?_
        rintro call v b ⟨houtputs, -, -, -, -, -⟩
        exact absurd houtputs (by simp)
      exact Gives.congr (.pure (.refl id)) hnone
  | cons output rest ih =>
      rw [List.foldlM_cons]
      refine (gives_pay limits payers output a w).bind (fun hfailed => ?_) fun w' b hpaid => ?_
      · refine (carefulOutputs_cons_iff.trans (and_iff_left ?_)).symm
        exact fun w₁ a₁ h => absurd h (hfailed w₁ a₁)
      · refine ⟨_, (carefulOutputs_cons_iff.trans (and_congr_right fun _ => ?_)).symm, ih b w'⟩
        constructor
        · exact fun h => h w' b hpaid
        · intro h w₁ a₁ hpaid'
          rw [hpaid] at hpaid'
          cases hpaid'
          exact h

/-! ## Transactions -/

/-- The scripts that a transaction runs are careful. -/
def CarefulTransit (limits : Limits) (data : TransactionData) (w : World) (a : Archive) : Prop :=
  CarefulOutputs limits (data.debits.map (·.address)) data.outputs w a

/-- What a transaction gives to the store. -/
theorem gives_transit (limits : Limits) (miner : Hash) (data : TransactionData) (w : World)
    (a : Archive) :
    Gives (CarefulTransit limits data w a) a w (transit limits miner data w) :=
  (gives_pays data.outputs a w).followed fun w₁ b =>
    (gives_charges data.debits b w₁).followed fun w₂ c =>
      .ofExcept fun fee => gives_credit miner fee c w₂

end World

/-! ## Reading back what was written -/

/-- What was given to stores from one archive to another is valid, and is read back from its
text, all of it, exactly if nobody was careless. -/
def Archive.Readable (careful : Prop) (a b : Archive) : Prop :=
  ∃ given, b.journal = given ++ a.journal ∧
    ((∀ x ∈ given, x.Valid ∧ Record.read Account (Record.text x) = .ok x) ↔ careful)

theorem Archive.Gives.readable {P Q : Prop} (h : Gives careful P a Q b) (hP : P)
    (hcol : b.Collisionless) : a.Readable careful b := by
  obtain ⟨given, hadds, hgives⟩ := h
  refine ⟨given, hadds.journal, ?_⟩
  rw [← (hgives hP hcol).1]
  exact forall₂_congr fun x _ => and_iff_left_of_imp Account.read_text_iff.mpr

namespace World

/-- Valid accounts stay valid in all updates but those that put a keypair into a slot whose
halves do not belong to each other.  So what scripts and transactions write, even if they fail,
is valid and can be read back, as long as no script does that, and only then; and a transaction
that is applied leaves a snapshot of valid accounts then. -/
theorem written_valid_iff (limits : Limits) (w : World) (a : Archive) (hvalid : w.Valid a) :
    (∀ account result : Account, account.Valid →
      (∀ delta, account.addToBalance delta = .ok result → result.Valid) ∧
        ∀ name value, account.setStorage name value = .ok result →
          (result.Valid ↔ value.Consistent)) ∧
    (∀ call : Invocation, call.callee.Valid → (final (call.run limits w a)).Collisionless →
      a.Readable (call.Careful limits w a) (final (call.run limits w a))) ∧
    ∀ miner data, (final (transit limits miner data w a)).Collisionless →
      a.Readable (CarefulTransit limits data w a) (final (transit limits miner data w a)) ∧
        ∀ w' a', transit limits miner data w a = .ok w' a' → CarefulTransit limits data w a →
          w'.Valid a' := by
  refine ⟨fun account result hold => ⟨?_, ?_⟩, fun call hcallee hcol => ?_, ?_⟩
  · exact fun delta hadd => Account.valid_addToBalance hold hadd
  · exact fun name value hset => Account.valid_setStorage_iff hold hset
  · have hgives := ((call.yields_run limits w a).imp
      (fun _ _ h => h.imp fun _ _ => trivial) fun _ h => h).final
    exact hgives.readable ⟨hcallee, hvalid⟩ hcol
  · intro miner data hcol
    have hgives := gives_transit limits miner data w a
    refine ⟨?_, fun w' a' htransit hcareful => ?_⟩
    · have hfinal := (hgives.imp (fun _ _ h => h.imp fun _ _ => trivial) fun _ h => h).final
      exact hfinal.readable hvalid hcol
    · obtain ⟨given, -, h⟩ := hgives.1 w' a' htransit
      rw [htransit] at hcol
      exact (h hvalid hcol).2 hcareful

private theorem valid_of_mem_accounts : ∀ account ∈ Hearsay.accounts, account.Valid := by
  have hkeys : ∀ account ∈ Hearsay.accounts, account.pubKey.validate = .ok () := by decide +kernel
  have hslots : ∀ account ∈ Hearsay.accounts, account.storage = [] := by decide +kernel
  intro account hmem
  rw [Account.valid_iff, hslots account hmem]
  exact ⟨hkeys account hmem, List.nodup_nil, nofun⟩

/-- A script that pays another account, and fails after that. -/
theorem written_valid_iff_caller : ∃ w a, w.Valid a ∧ Hearsay.caller.Valid ∧
    (final ((Hearsay.call Hearsay.caller 0).run {} w a)).Collisionless ∧
      a.Readable ((Hearsay.call Hearsay.caller 0).Careful {} w a)
        (final ((Hearsay.call Hearsay.caller 0).run {} w a)) := by
  obtain ⟨w, a, trie, h⟩ := Hearsay.exists_shown
  have hw : w.Valid a := by
    intro address account hfound
    obtain ⟨hash, -, hrecord⟩ := account?_eq_some_iff.mp hfound
    exact valid_of_mem_accounts account (h.settled.within account (Archive.mem_journal_of_get? hrecord))
  have hcaller : Hearsay.caller ∈ Hearsay.accounts := by simp [Hearsay.accounts]
  have hreader : Hearsay.reader ∈ Hearsay.accounts := by simp [Hearsay.accounts]
  have hhidden := account?_of_growsTo (h.holds Hearsay.hidden (by simp)) (Hearsay.growsTo_paid w a)
  have hrun := Hearsay.run_caller_error (h.holds Hearsay.caller (by simp))
    (h.holds Hearsay.reader (by simp)) hhidden
  have hcol : (final ((Hearsay.call Hearsay.caller 0).run {} w a)).Collisionless := by
    rw [hrun]
    exact ((h.settled.within.insert hcaller w.store).insert hreader w.store).collisionless
      Hearsay.named_accounts.injOn
  exact ⟨w, a, hw, valid_of_mem_accounts _ hcaller, hcol,
    (written_valid_iff {} w a hw).2.1 _ (valid_of_mem_accounts _ hcaller) hcol⟩

end World

end ScriptLedger
