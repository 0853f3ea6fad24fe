import ScriptLedger.Proofs.Machine.Nesting

/-!
# Runs that cannot tell two snapshots apart

A script sees accounts through three operations only: it asks whether there is one, it
reads one, and it puts one.  Two snapshots, each over its stores, are alike when these
three answer alike, and stay alike under all that is written; `Likeness` collects what
that takes.  The first of the two may know less than the second: its failures to
answer, and those alone, say nothing about the second.

From alike machines a run goes step by step the same way.  A transfer catches the
failure of a script that it runs, so a script could be told of a failure to answer as if
it were one of the script of another; a run that comes through such a transfer is
blinded, and nothing is said about it.

## Main results

* `Likeness.tracks_stepWith`, `Likeness.tracks_drive` — one step and a whole run from
  alike machines.
* `Likeness.run_of_run` — a run that returns returns the same on an alike snapshot.
-/

namespace ScriptLedger

open Sequencing Exec Machine

variable {α β γ δ : Type} {terms : Terms} {m n m' n' : Machine} {a a' b b' : Archive}
variable {w w' v v' : World} {address : Hash}

/-- When two snapshots over stores of their own count as alike. -/
structure Likeness where
  /-- The first snapshot does not tell. -/
  blind : StateError → Prop
  /-- What the first stores may come to. -/
  final : Archive → Prop
  stores : Archive → Archive → Prop
  worlds : Archive → World → Archive → World → Prop
  final_of_growsTo : ∀ {a a'}, a.GrowsTo a' → final a' → final a
  /-- Snapshots stay alike when more is written. -/
  keep : ∀ {a a' b b' w v}, worlds a w b v → a.GrowsTo a' → b.GrowsTo b' → worlds a' w b' v
  contains : ∀ {a b w v}, worlds a w b v → ∀ address,
    (∃ cause, blind cause ∧ w.contains address = .error cause) ∨
      w.contains address = v.contains address
  account? : ∀ {a b w v}, stores a b → worlds a w b v → ∀ address,
    (∃ cause, blind cause ∧ w.account? a address = .error cause) ∨
      w.account? a address = v.account? b address
  put_ok : ∀ {a a' b w w' v account}, stores a b → worlds a w b v → final a' →
    w.put account a = .ok w' a' →
      ∃ v' b', v.put account b = .ok v' b' ∧ stores a' b' ∧ worlds a' w' b' v'
  put_error : ∀ {a a' b w v account cause}, stores a b → worlds a w b v → final a' →
    w.put account a = .error cause a' →
      blind cause ∨ ∃ b', v.put account b = .error cause b' ∧ stores a' b'

/-! ## What failed -/

theorem Exec.onArchive_eq_error {x : Archived StateError α} {e : ScriptError}
    (h : onArchive x m = .error e m') :
    ∃ cause archive, x m.archive = .error cause archive ∧ e = .state cause ∧
      m' = { m with archive } := by
  unfold onArchive at h
  cases hx : x m.archive with
  | ok value archive => rw [hx] at h; cases h
  | error cause archive =>
      rw [hx] at h
      cases h
      exact ⟨cause, archive, rfl, rfl, rfl⟩

theorem Exec.onArchive_of_error {x : Archived StateError α} {cause : StateError}
    {archive : Archive} (h : x m.archive = .error cause archive) :
    onArchive x m = .error (.state cause) { m with archive } := by
  unfold onArchive
  rw [h]

theorem Exec.account?_eq_ok {found : Option Account} (h : Exec.account? w address m = .ok found m') :
    w.account? m.archive address = .ok found ∧ m' = m := by
  obtain ⟨_, _, hget, h⟩ := bind_eq_ok.mp h
  obtain ⟨rfl, rfl⟩ := get_eq_ok.mp hget
  obtain ⟨hfound, rfl⟩ := ofState_eq_ok.mp h
  exact ⟨hfound, rfl⟩

namespace Likeness

variable (L : Likeness)

/-- A failure of a script that says nothing about the other run. -/
def Blind (e : ScriptError) : Prop := ∃ cause, e = .state cause ∧ L.blind cause

/-- Machines that differ in their snapshots and stores only, and those are alike. -/
structure Like (m n : Machine) : Prop where
  registers : m.registers = n.registers
  steps : m.steps = n.steps
  account : m.account = n.account
  stores : L.stores m.archive n.archive
  worlds : L.worlds m.archive m.world n.archive n.world
  final : L.final m.archive

/-- What becomes of a computation becomes of another one, from machine to machine:
results are related by `V` in the machines that they come in, and failures are the
same. -/
structure Tracks (V : Machine → α → Machine → β → Prop) (x : Exec α) (y : Exec β)
    (m n : Machine) : Prop where
  ok : ∀ a m', x m = .ok a m' → L.final m'.archive →
    ∃ b n', y n = .ok b n' ∧ L.Like m' n' ∧ V m' a n' b
  error : ∀ e m', x m = .error e m' → L.final m'.archive →
    L.Blind e ∨ ∃ n', y n = .error e n' ∧ L.stores m'.archive n'.archive ∧ m'.steps = n'.steps

/-- Results that are the same. -/
def Same (_ : Machine) (x : α) (_ : Machine) (y : α) : Prop := x = y

variable {L} {V : Machine → α → Machine → β → Prop} {W : Machine → γ → Machine → δ → Prop}
variable {x : Exec α} {y : Exec β} {f : α → Exec γ} {g : β → Exec δ}

/-! ## One after the other -/

theorem final_of_grows (h : m.Grows m') (hfinal : L.final m'.archive) : L.final m.archive :=
  L.final_of_growsTo (show m.archive.GrowsTo m'.archive from h) hfinal

/-- What a computation does to other machines does not matter. -/
theorem Tracks.congr {x' : Exec α} {y' : Exec β} (h : L.Tracks V x' y' m n) (hx : x m = x' m)
    (hy : y n = y' n) : L.Tracks V x y m n where
  ok a m' hok hfinal := by
    rw [hy]
    exact h.ok a m' (hx.symm.trans hok) hfinal
  error e m' herror hfinal := by
    rw [hy]
    exact h.error e m' (hx.symm.trans herror) hfinal

/-- If the stores may come to what they come to in the end, they may come to what they
are in between, because they only grow. -/
theorem Tracks.bind (hx : L.Tracks V x y m n)
    (hback : ∀ a m', x m = .ok a m' → L.final m'.archive ∨ Within Grows Grows (f a))
    (hf : ∀ a m' b n', x m = .ok a m' → y n = .ok b n' → L.Like m' n' → V m' a n' b →
      L.Tracks W (f a) (g b) m' n') : L.Tracks W (x >>= f) (y >>= g) m n := by
  have hnext : ∀ a m₁, x m = .ok a m₁ → L.final m₁.archive →
      ∃ b n₁, y n = .ok b n₁ ∧ L.Tracks W (f a) (g b) m₁ n₁ := by
    intro a m₁ ha hfinal
    obtain ⟨b, n₁, hb, hlike, hV⟩ := hx.ok a m₁ ha hfinal
    exact ⟨b, n₁, hb, hf a m₁ b n₁ ha hb hlike hV⟩
  constructor
  · intro c m' h hend
    obtain ⟨a, m₁, ha, hc⟩ := bind_eq_ok.mp h
    have hfinal : L.final m₁.archive := by
      rcases hback a m₁ ha with hfinal | hgrows
      · exact hfinal
      · exact final_of_grows ((hgrows m₁).1 c m' hc) hend
    obtain ⟨b, n₁, hb, htracks⟩ := hnext a m₁ ha hfinal
    obtain ⟨d, n', hd, hrest⟩ := htracks.ok c m' hc hend
    exact ⟨d, n', bind_eq_ok.mpr ⟨b, n₁, hb, hd⟩, hrest⟩
  · intro e m' h hend
    rcases bind_eq_error.mp h with he | ⟨a, m₁, ha, he⟩
    · rcases hx.error e m' he hend with hblind | ⟨n', hn, hrest⟩
      · exact Or.inl hblind
      · exact Or.inr ⟨n', bind_eq_error.mpr (Or.inl hn), hrest⟩
    · have hfinal : L.final m₁.archive := by
        rcases hback a m₁ ha with hfinal | hgrows
        · exact hfinal
        · exact final_of_grows ((hgrows m₁).2 e m' he) hend
      obtain ⟨b, n₁, hb, htracks⟩ := hnext a m₁ ha hfinal
      rcases htracks.error e m' he hend with hblind | ⟨n', hn, hrest⟩
      · exact Or.inl hblind
      · exact Or.inr ⟨n', bind_eq_error.mpr (Or.inr ⟨b, n₁, hb, hn⟩), hrest⟩

theorem tracks_modify {h k : Machine → Machine} (hmodify : L.Like (h m) (k n)) :
    L.Tracks Same (modify h : Exec PUnit) (modify k) m n where
  ok u m' hok _ := by
    cases hok
    exact ⟨⟨⟩, k n, rfl, hmodify, rfl⟩
  error e m' herror _ := by cases herror

theorem Tracks.get {h : Machine → Exec γ} {k : Machine → Exec δ}
    (hmn : L.Tracks W (h m) (k n) m n) : L.Tracks W (get >>= h) (get >>= k) m n :=
  hmn.congr rfl rfl

section Parts

variable (hlike : L.Like m n)

include hlike

theorem tracks_pure {c : γ} {d : δ} (h : W m c n d) : L.Tracks W (pure c) (pure d) m n where
  ok a m' h' _ := by
    obtain ⟨rfl, rfl⟩ := pure_eq_ok.mp h'
    exact ⟨d, n, rfl, hlike, h⟩
  error e m' h' _ := absurd h' pure_ne_error

theorem tracks_throw (e : ScriptError) : L.Tracks W (throw e) (throw e) m n where
  ok a m' h _ := absurd h throw_ne_ok
  error e' m' h _ := by
    obtain ⟨rfl, rfl⟩ := throw_eq_error.mp h
    exact Or.inr ⟨n, rfl, hlike.stores, hlike.steps⟩

theorem tracks_ofState {c c' : Except StateError γ}
    (h : (∃ cause, L.blind cause ∧ c = .error cause) ∨ c = c') :
    L.Tracks Same (ofState c) (ofState c') m n := by
  rcases h with ⟨cause, hblind, rfl⟩ | rfl
  · constructor
    · intro a m' h _
      exact absurd h throw_ne_ok
    · intro e m' h _
      obtain ⟨rfl, rfl⟩ := throw_eq_error.mp h
      exact Or.inl ⟨cause, rfl, hblind⟩
  · cases c with
    | ok value => exact tracks_pure hlike rfl
    | error cause => exact tracks_throw hlike _

theorem tracks_account? (hworlds : L.worlds m.archive w n.archive v) (address : Hash) :
    L.Tracks Same (Exec.account? w address) (Exec.account? v address) m n :=
  (tracks_ofState hlike (L.account? hlike.stores hworlds address)).congr rfl rfl

theorem tracks_account (hworlds : L.worlds m.archive w n.archive v) (address : Hash) :
    L.Tracks Same (Exec.account w address) (Exec.account v address) m n := by
  apply (tracks_account? hlike hworlds address).bind
  · intro found m' h
    rw [(account?_eq_ok h).2]
    exact Or.inl hlike.final
  · intro found m' found' n' _ _ hlike' hsame
    cases hsame
    cases found with
    | none => exact tracks_throw hlike' _
    | some account => exact tracks_pure hlike' rfl

/-- Putting an account makes snapshots that are alike of snapshots that are. -/
theorem tracks_put (hworlds : L.worlds m.archive w n.archive v) (account : Account) :
    L.Tracks (fun m' w' n' v' => L.worlds m'.archive w' n'.archive v')
      (onArchive (w.put account)) (onArchive (v.put account)) m n := by
  constructor
  · intro w' m' h hfinal
    obtain ⟨a', hput, rfl⟩ := onArchive_eq_ok.mp h
    obtain ⟨v', b', hput', hstores, hworlds'⟩ := L.put_ok hlike.stores hworlds hfinal hput
    refine ⟨v', { n with archive := b' }, onArchive_eq_ok.mpr ⟨b', hput', rfl⟩, ?_, hworlds'⟩
    exact ⟨hlike.registers, hlike.steps, hlike.account, hstores,
      L.keep hlike.worlds (World.growsTo_of_put hput) (World.growsTo_of_put hput'), hfinal⟩
  · intro e m' h hfinal
    obtain ⟨cause, a', hput, rfl, rfl⟩ := onArchive_eq_error h
    rcases L.put_error hlike.stores hworlds hfinal hput with hblind | ⟨b', hput', hstores⟩
    · exact Or.inl ⟨cause, rfl, hblind⟩
    · exact Or.inr ⟨{ n with archive := b' }, onArchive_of_error hput', hstores, hlike.steps⟩

theorem tracks_ofExcept (c : Except ScriptError γ) :
    L.Tracks Same (ofExcept c : Exec γ) (ofExcept c) m n := by
  cases c with
  | ok value => exact tracks_pure hlike rfl
  | error e => exact tracks_throw hlike e

theorem tracks_onRegisters (r : RegisterM γ) :
    L.Tracks Same (Exec.onRegisters r) (Exec.onRegisters r) m n := by
  obtain ⟨registers, steps, world, account, archive⟩ := m
  obtain ⟨registers', steps', world', account', archive'⟩ := n
  obtain ⟨rfl, rfl, rfl, hstores, hworlds, hfinal⟩ := hlike
  constructor
  · intro value m' h _
    simp only [Exec.onRegisters] at h ⊢
    cases hr : r registers with
    | error e after => rw [hr] at h; cases h
    | ok value' after =>
        rw [hr] at h
        cases h
        exact ⟨value, _, rfl, ⟨rfl, rfl, rfl, hstores, hworlds, hfinal⟩, rfl⟩
  · intro e m' h _
    simp only [Exec.onRegisters] at h ⊢
    cases hr : r registers with
    | ok value after => rw [hr] at h; cases h
    | error e' after =>
        rw [hr] at h
        cases h
        exact Or.inr ⟨_, rfl, hstores, rfl⟩

end Parts

/-! ## Computations that alike machines mirror -/

variable (L) in
/-- The computation comes to the same on alike machines, and loses nothing from the
stores. -/
structure Mirrors (x : Exec α) : Prop where
  grows : Within Grows Grows x
  tracks : ∀ m n, L.Like m n → L.Tracks Same x x m n

namespace Mirrors

theorem bind {x : Exec α} {f : α → Exec γ} (hx : L.Mirrors x) (hf : ∀ a, L.Mirrors (f a)) :
    L.Mirrors (x >>= f) where
  grows := grows_law.bind hx.grows fun a => (hf a).grows
  tracks m n hlike := by
    apply (hx.tracks m n hlike).bind
    · exact fun a _ _ => Or.inr (hf a).grows
    · intro a m' b n' _ _ hlike' hsame
      cases hsame
      exact (hf a).tracks m' n' hlike'

theorem pure (c : γ) : L.Mirrors (Pure.pure c) where
  grows := grows_law.pure c
  tracks _ _ hlike := tracks_pure hlike rfl

theorem throw (e : ScriptError) : L.Mirrors (MonadExcept.throw e : Exec γ) where
  grows := grows_law.throw e
  tracks _ _ hlike := tracks_throw hlike e

theorem ofExcept (c : Except ScriptError γ) : L.Mirrors (MonadExcept.ofExcept c) where
  grows := grows_law.ofExcept c
  tracks _ _ hlike := tracks_ofExcept hlike c

theorem onRegisters (r : RegisterM γ) : L.Mirrors (Exec.onRegisters r) where
  grows := grows_law.onRegisters r
  tracks _ _ hlike := tracks_onRegisters hlike r

theorem onStack (r : StackM γ) : L.Mirrors (Exec.onStack r) := onRegisters _

/-- A computation that starts with a look at the machine. -/
theorem get {f : Machine → Exec γ} (hgrows : ∀ m, Within Grows Grows (f m))
    (h : ∀ m n, L.Like m n → L.Tracks Same (f m) (f n) m n) :
    L.Mirrors (MonadState.get >>= f) where
  grows := grows_law.bind grows_law.get hgrows
  tracks m n hlike := (h m n hlike).congr rfl rfl

/-- What is not of the snapshot or of the stores is the same in both machines. -/
theorem get_same {f : Machine → Exec γ} (hf : ∀ m, L.Mirrors (f m))
    (hsame : ∀ m n, L.Like m n → f m = f n) : L.Mirrors (MonadState.get >>= f) := by
  refine get (fun m => (hf m).grows) fun m n hlike => ?_
  rw [hsame m n hlike]
  exact (hf n).tracks m n hlike

theorem next : L.Mirrors Exec.next :=
  get_same (fun _ => pure _) fun _ _ hlike => by rw [hlike.registers]

theorem balanceWord (op : Opcode) (balance : UInt64) : L.Mirrors (Exec.balanceWord op balance) := by
  unfold Exec.balanceWord
  generalize Word.signed? balance.toNat = value
  cases value with
  | none => exact throw _
  | some value => exact pure value

/-- A computation that starts with reading an account of the snapshot. -/
theorem account? {f : Option Account → Exec γ} (address : Hash) (hf : ∀ found, L.Mirrors (f found)) :
    L.Mirrors (MonadState.get >>= fun m => Exec.account? m.world address >>= f) := by
  refine get (fun m => grows_law.bind (grows_law.account? _ _) fun found => (hf found).grows) ?_
  intro m n hlike
  apply (tracks_account? hlike hlike.worlds address).bind
  · exact fun found _ _ => Or.inr (hf found).grows
  · intro found m' found' n' _ _ hlike' hsame
    cases hsame
    exact (hf found).tracks m' n' hlike'

theorem account {f : Account → Exec γ} (address : Hash) (hf : ∀ found, L.Mirrors (f found)) :
    L.Mirrors (MonadState.get >>= fun m => Exec.account m.world address >>= f) := by
  refine get (fun m => grows_law.bind (grows_law.account _ _) fun found => (hf found).grows) ?_
  intro m n hlike
  apply (tracks_account hlike hlike.worlds address).bind
  · exact fun found _ _ => Or.inr (hf found).grows
  · intro found m' found' n' _ _ hlike' hsame
    cases hsame
    exact (hf found).tracks m' n' hlike'

/-! ## The writing instructions -/

theorem setStorage (name : String) (value : SlotValue) : L.Mirrors (Exec.setStorage name value) := by
  refine ⟨grows_setStorage name value, fun m n hlike => ?_⟩
  apply Tracks.get
  rw [hlike.account]
  cases n.account.setStorage name value with
  | error cause => exact tracks_throw hlike _
  | ok account =>
      have hlike' : L.Like { m with account } { n with account } :=
        ⟨hlike.registers, hlike.steps, rfl, hlike.stores, hlike.worlds, hlike.final⟩
      apply (tracks_modify hlike').bind
      · intro _ m' h
        cases h
        exact Or.inl hlike.final
      intro _ m' _ n' hm hn _ _
      cases hm
      cases hn
      apply Tracks.get
      apply (tracks_put hlike' hlike'.worlds account).bind
      · exact fun world _ _ => Or.inr (grows_modify fun _ => rfl)
      · intro w' m' v' n' _ _ hlike'' hworlds
        exact tracks_modify ⟨hlike''.registers, hlike''.steps, hlike''.account, hlike''.stores,
          hworlds, hlike''.final⟩

theorem create (op : Opcode) (key : Pubkey) (code : String) (ownerAccess : Bool)
    (names values : List Value) : L.Mirrors (Exec.create op key code ownerAccess names values) := by
  refine ⟨grows_create op key code ownerAccess names values, fun m n hlike => ?_⟩
  unfold Exec.create
  by_cases harity : names.length ≠ values.length
  · rw [if_pos harity]
    exact tracks_throw hlike _
  rw [if_neg harity]
  apply Tracks.get
  apply (tracks_ofState hlike (L.contains hlike.worlds key.address)).bind
  · intro taken m' h
    rw [← (ofState_eq_ok.mp h).2]
    exact Or.inl hlike.final
  intro taken _ _ _ hm hn _ hsame
  cases hsame
  obtain ⟨-, rfl⟩ := ofState_eq_ok.mp hm
  obtain ⟨-, rfl⟩ := ofState_eq_ok.mp hn
  cases taken with
  | true => exact tracks_pure hlike rfl
  | false =>
  apply (tracks_ofExcept hlike _).bind
  · intro slots m' h
    rw [← (ofExcept_eq_ok.mp h).2]
    exact Or.inl hlike.final
  intro slots _ _ _ hm hn _ hsame
  cases hsame
  obtain ⟨-, rfl⟩ := ofExcept_eq_ok.mp hm
  obtain ⟨-, rfl⟩ := ofExcept_eq_ok.mp hn
  cases Account.make key 0 code ownerAccess slots with
  | error cause => exact tracks_throw hlike _
  | ok account =>
      apply (tracks_put hlike hlike.worlds account).bind
      · exact fun world _ _ =>
          Or.inr (grows_law.bind (grows_modify fun _ => rfl) fun _ => grows_law.pure true)
      intro w' m' v' n' _ _ hlike' hworlds
      have hshown : L.Like { m' with world := w' } { n' with world := v' } :=
        ⟨hlike'.registers, hlike'.steps, hlike'.account, hlike'.stores, hworlds, hlike'.final⟩
      apply (tracks_modify hshown).bind
      · exact fun _ _ _ => Or.inr (grows_law.pure true)
      · intro _ _ _ _ _ _ hlike'' _
        exact tracks_pure hlike'' rfl

theorem reload (payer : Hash) : L.Mirrors (Exec.reload payer) := by
  refine account payer fun found => ⟨grows_modify fun _ => rfl, fun m n hlike => ?_⟩
  exact tracks_modify ⟨hlike.registers, hlike.steps, rfl, hlike.stores, hlike.worlds, hlike.final⟩

end Mirrors

/-! ## Transfers -/

variable (L) in
/-- Payments that are the same, on snapshots that are alike; or none in either case. -/
inductive Paid (m n : Machine) : Option (Invocation × World) → Option (Invocation × World) → Prop
  | none : Paid m n none none
  | some {call : Invocation} {w v : World} (hworlds : L.worlds m.archive w n.archive v) :
      Paid m n (some (call, w)) (some (call, v))

theorem tracks_prepare (hlike : L.Like m n) (target : Hash) (amount : Int64)
    (params : List Value) :
    L.Tracks (fun m' p n' q => L.Paid m' n' p q) (prepare target amount params)
      (prepare target amount params) m n := by
  apply Tracks.get
  apply (tracks_ofState hlike (L.contains hlike.worlds target)).bind
  · intro there m' h
    rw [← (ofState_eq_ok.mp h).2]
    exact Or.inl hlike.final
  intro there _ _ _ hm hn _ hsame
  cases hsame
  obtain ⟨-, rfl⟩ := ofState_eq_ok.mp hm
  obtain ⟨-, rfl⟩ := ofState_eq_ok.mp hn
  cases there with
  | false => exact tracks_pure hlike .none
  | true =>
  simp only [Bool.not_true, Bool.false_eq_true, if_false]
  rw [hlike.account]
  cases n.account.addToBalance (-amount) with
  | error cause => exact tracks_pure hlike .none
  | ok debited =>
  apply (tracks_put hlike hlike.worlds debited).bind
  · intro world _ _
    right
    apply grows_law.bind (grows_law.account world target)
    intro recipient
    cases recipient.addToBalance amount with
    | error cause => exact grows_law.pure none
    | ok credited => exact grows_law.bind (grows_put world credited) fun _ => grows_law.pure _
  intro w' m' v' n' _ _ hlike' hworlds
  apply (tracks_account hlike' hworlds target).bind
  · intro recipient m'' h
    rw [← (account_eq_ok.mp h).2]
    exact Or.inl hlike'.final
  intro recipient _ _ _ hm hn _ hsame
  cases hsame
  obtain ⟨-, rfl⟩ := account_eq_ok.mp hm
  obtain ⟨-, rfl⟩ := account_eq_ok.mp hn
  cases recipient.addToBalance amount with
  | error cause => exact tracks_pure hlike' .none
  | ok credited =>
      apply (tracks_put hlike' hworlds credited).bind
      · exact fun _ _ _ => Or.inr (grows_law.pure _)
      · intro w'' m'' v'' n'' _ _ hlike'' hworlds'
        exact tracks_pure hlike'' (.some hworlds')

/-- What is done to the stack first is the same in both machines. -/
theorem tracks_onStack_bind (hlike : L.Like m n) (r : StackM α) {f : α → Exec γ} {g : α → Exec δ}
    (h : ∀ a m' n', L.Like m' n' → L.Tracks W (f a) (g a) m' n') :
    L.Tracks W (Exec.onStack r >>= f) (Exec.onStack r >>= g) m n := by
  apply (tracks_onRegisters hlike _).bind
  · intro a m' hok
    left
    have harchive : m'.archive = m.archive := by
      obtain ⟨registers, steps, world, account, archive⟩ := m
      simp only [Exec.onRegisters] at hok
      cases hr : Registers.onStack r registers with
      | error e after => rw [hr] at hok; cases hok
      | ok value after =>
          rw [hr] at hok
          cases hok
          rfl
    rw [harchive]
    exact hlike.final
  · intro a m' b n' _ _ hlike' hsame
    cases hsame
    exact h a m' n' hlike'

theorem tracks_order (hlike : L.Like m n) :
    L.Tracks (fun m' p n' q => p.1 = q.1 ∧ L.Paid m' n' p.2 q.2) order order m n := by
  apply tracks_onStack_bind hlike
  intro amount m₁ n₁ hlike
  apply tracks_onStack_bind hlike
  intro target m₂ n₂ hlike
  apply tracks_onStack_bind hlike
  intro params m₃ n₃ hlike
  by_cases hamount : amount.toInt < 0
  · rw [if_pos hamount]
    exact tracks_throw hlike _
  rw [if_neg hamount]
  apply Tracks.get
  apply (tracks_prepare hlike target amount params).bind
  · exact fun _ _ _ => Or.inr (grows_law.pure _)
  · intro p m' q n' _ _ hlike' hpaid
    exact tracks_pure hlike' ⟨by rw [hlike.account], hpaid⟩

/-- On alike snapshots alike runs start, or none. -/
theorem enter_like (hstores : L.stores a b) (hworlds : L.worlds a w b v) (hfinal : L.final a)
    (limits : Limits) (depth budget : Nat) (call : Invocation) :
    (∃ e, enter limits depth budget call w a = .error e ∧
        enter limits depth budget call v b = .error e) ∨
      ∃ inner start start', enter limits depth budget call w a = .ok (inner, start) ∧
        enter limits depth budget call v b = .ok (inner, start') ∧ L.Like start start' := by
  rw [enter_eq_map, enter_eq_map]
  cases entry limits depth call with
  | error e => exact Or.inl ⟨e, rfl, rfl⟩
  | ok given => exact Or.inr ⟨_, _, _, rfl, rfl, rfl, rfl, rfl, hstores, hworlds, hfinal⟩

/-- The script of an account that was paid goes the same way from alike machines, if it
does not fail blindly. -/
theorem tracks_runPaid {nested : Terms → Exec Value} (hlike : L.Like m n)
    (hworlds : L.worlds m.archive w n.archive v) (call : Invocation)
    (hnested : ∀ inner start start', enter terms.limits (terms.depth + 1)
        (terms.budget - m.steps) call w m.archive = .ok (inner, start) → L.Like start start' →
      L.Tracks Same (nested inner) (nested inner) start start')
    (hseen : ∀ inner start e f, enter terms.limits (terms.depth + 1)
        (terms.budget - m.steps) call w m.archive = .ok (inner, start) →
      nested inner start = .error e f → ¬ L.Blind e)
    (hgrows : ∀ inner, Within Grows Grows (nested inner)) :
    L.Tracks Same (runPaid nested terms call w) (runPaid nested terms call v) m n := by
  have henter := enter_like hlike.stores hworlds hlike.final terms.limits (terms.depth + 1)
    (terms.budget - m.steps) call
  have hbudget : terms.budget - m.steps = terms.budget - n.steps := by rw [hlike.steps]
  rcases henter with ⟨e, hm, hn⟩ | ⟨inner, start, start', hm, hn, hstart⟩
  · refine (tracks_pure (c := false) hlike rfl).congr ?_ ?_
    · unfold runPaid
      rw [hm]
      rfl
    · unfold runPaid
      rw [← hbudget, hn]
      rfl
  have htracks := hnested inner start start' hm hstart
  obtain ⟨-, -, harchive⟩ := enter_eq_ok hm
  obtain ⟨-, -, harchive'⟩ := enter_eq_ok hn
  constructor
  · intro moved m' h hfinal
    unfold runPaid at h ⊢
    rw [hm] at h
    rw [← hbudget, hn]
    dsimp only at h ⊢
    cases hrun : nested inner start with
    | ok value final =>
        rw [hrun] at h
        cases h
        obtain ⟨value', final', hrun', hlike', -⟩ := htracks.ok value final hrun hfinal
        rw [hrun']
        exact ⟨true, _, rfl, ⟨hlike.registers, by rw [hlike.steps, hlike'.steps], hlike.account,
          hlike'.stores, hlike'.worlds, hfinal⟩, rfl⟩
    | error e final =>
        rw [hrun] at h
        cases h
        rcases htracks.error e final hrun hfinal with hblind | ⟨final', hrun', hstores, hsteps⟩
        · exact absurd hblind (hseen inner start e final hm hrun)
        rw [hrun']
        -- The snapshot is what it was, over stores that have grown on both sides.
        have hgrown : start.archive.GrowsTo final.archive := (hgrows inner start).2 e final hrun
        have hgrown' : start'.archive.GrowsTo final'.archive :=
          (hgrows inner start').2 e final' hrun'
        rw [harchive] at hgrown
        rw [harchive'] at hgrown'
        exact ⟨false, _, rfl, ⟨hlike.registers, by rw [hlike.steps, hsteps], hlike.account,
          hstores, L.keep hlike.worlds hgrown hgrown', hfinal⟩, rfl⟩
  · intro e m' h
    unfold runPaid at h
    rw [hm] at h
    dsimp only at h
    cases hrun : nested inner start with
    | ok value final => rw [hrun] at h; cases h
    | error e' final => rw [hrun] at h; cases h

/-! ## Items -/

/-- An instruction on accounts that calls nobody. -/
theorem mirrors_accountOp {nested : Terms → Exec Value} {op : AccountOp} (h : op ≠ .transfer) :
    L.Mirrors (op.run nested terms) := by
  cases op with
  | getBal =>
      refine (Mirrors.onStack _).bind fun target => Mirrors.account? target fun found => ?_
      cases found with
      | none => exact .onStack _
      | some account => exact (Mirrors.balanceWord _ _).bind fun _ => .onStack _
  | getOwnBal =>
      refine .get_same (fun m => (Mirrors.balanceWord _ _).bind fun _ => .onStack _) ?_
      intro m n hlike
      rw [hlike.account]
  | getStor =>
      refine (Mirrors.onStack _).bind fun name => .get_same (fun m => ?_) fun m n hlike => ?_
      · cases m.account.slot? name with
        | none => exact .throw _
        | some value => exact .onStack _
      · rw [hlike.account]
  | setStor =>
      refine (Mirrors.onStack _).bind fun value => (Mirrors.ofExcept _).bind fun value => ?_
      exact (Mirrors.onStack _).bind fun name => .setStorage name value
  | getCode =>
      refine (Mirrors.onStack _).bind fun target => Mirrors.account target fun account => ?_
      exact .onStack _
  | createContr =>
      refine (Mirrors.onStack _).bind fun key => (Mirrors.onStack _).bind fun code => ?_
      refine (Mirrors.onStack _).bind fun owner => (Mirrors.onStack _).bind fun names => ?_
      refine (Mirrors.onStack _).bind fun values => ?_
      exact (Mirrors.create _ key code _ names values).bind fun _ => .onStack _
  | transfer => exact absurd rfl h

theorem mirrors_item {nested : Terms → Exec Value} {item : Script.Item}
    (h : item ≠ .op (.account .transfer)) : L.Mirrors (item.run nested terms) := by
  cases item with
  | push value => exact (Mirrors.onStack _).bind fun _ => .next
  | op instruction =>
      cases instruction with
      | crypto op => exact (Mirrors.onStack _).bind fun _ => .next
      | stack op => exact (Mirrors.onRegisters _).bind fun _ => .next
      | frame op => exact (Mirrors.onRegisters _).bind fun _ => .next
      | control op => exact .onRegisters _
      | arith op => exact (Mirrors.onStack _).bind fun _ => .next
      | list op => exact (Mirrors.onStack _).bind fun _ => .next
      | account op =>
          have hop : op ≠ .transfer := by
            rintro rfl
            exact h rfl
          exact (mirrors_accountOp hop).bind fun _ => .next
      | kill => exact .throw _

theorem mirrors_proceed (flow : Flow) : L.Mirrors (proceed flow) := by
  cases flow with
  | halt value => exact .pure _
  | goto pc => exact (Mirrors.onRegisters _).bind fun _ => .pure _

theorem mirrors_told (moved : Bool) : L.Mirrors (conclude moved >>= proceed) :=
  .bind ((Mirrors.onStack _).bind fun _ => .next) mirrors_proceed

theorem mirrors_takeBack (payer : Hash) (moved : Bool) : L.Mirrors (takeBack payer moved) :=
  (Mirrors.reload payer).bind fun _ => mirrors_told moved

/-! ## Steps and runs -/

section Step

variable {nested : Terms → Exec Value} (hlike : L.Like m n)
variable (hnested : ∀ inner start start', Calls terms m inner start → L.Like start start' →
  L.Tracks Same (nested inner) (nested inner) start start')
variable (hseen : ∀ inner start e f, Calls terms m inner start →
  nested inner start = .error e f → ¬ L.Blind e)
variable (hgrows : ∀ inner, Within Grows Grows (nested inner))

include hlike hnested hseen hgrows

/-- One step goes the same way from alike machines, if the runs that it starts do and none of
them fails blindly. -/
theorem tracks_stepWith : L.Tracks Same (stepWith nested terms) (stepWith nested terms) m n := by
  by_cases hleft : m.steps < terms.budget
  case neg =>
    refine (tracks_throw hlike (.stepLimitExceeded terms.limits.maxSteps)).congr ?_ ?_
    · exact stepWith_of_spent (Nat.le_of_not_lt hleft)
    · exact stepWith_of_spent (by rw [← hlike.steps]; exact Nat.le_of_not_lt hleft)
  have hleft' : n.steps < terms.budget := by
    rw [← hlike.steps]
    exact hleft
  have hcounted : L.Like m.counted n.counted :=
    ⟨hlike.registers, by rw [counted, counted, hlike.steps], hlike.account, hlike.stores,
      hlike.worlds, hlike.final⟩
  suffices hexecute : L.Tracks Same (execute nested terms) (execute nested terms) m.counted
      n.counted from
    ⟨by rw [stepWith_of_lt hleft, stepWith_of_lt hleft']; exact hexecute.ok,
      by rw [stepWith_of_lt hleft, stepWith_of_lt hleft']; exact hexecute.error⟩
  have hpc : terms.item? m.counted.registers.pc = terms.item? n.counted.registers.pc := by
    rw [hcounted.registers]
  cases hitem : terms.item? m.counted.registers.pc with
  | none =>
      rw [hitem] at hpc
      refine (tracks_throw hcounted (.pcOutOfRange m.counted.registers.pc terms.program.size)).congr
        (execute_of_none hitem) ?_
      rw [execute_of_none hpc.symm, hcounted.registers]
      rfl
  | some item =>
  rw [hitem] at hpc
  by_cases htransfer : item = .op (.account .transfer)
  case neg =>
    have hmirrors : L.Mirrors (item.run nested terms >>= proceed) :=
      (mirrors_item htransfer).bind mirrors_proceed
    exact (hmirrors.tracks _ _ hcounted).congr (execute_of_some hitem) (execute_of_some hpc.symm)
  subst htransfer
  refine Tracks.congr ?_ (execute_transfer hitem) (execute_transfer hpc.symm)
  apply (tracks_order hcounted).bind
  · rintro ⟨payer, p⟩ _ _
    right
    cases p with
    | none => exact grows_law.bind (grows_law.pure false) fun moved => (L.mirrors_told moved).grows
    | some call =>
        dsimp only
        rw [settle_bind]
        exact grows_law.bind (grows_deliver hgrows _ _) fun moved =>
          (L.mirrors_takeBack payer moved).grows
  rintro ⟨payer, p⟩ m₁ ⟨payer', q⟩ n₁ hm hn hlike₁ ⟨hpayer, hpaid⟩
  dsimp only at hpayer hpaid
  subst hpayer
  dsimp only
  cases hpaid with
  | none =>
      have htold : L.Mirrors (pure false >>= fun moved => conclude moved >>= proceed) :=
        (Mirrors.pure false).bind mirrors_told
      exact htold.tracks _ _ hlike₁
  | @some call w v hworlds =>
      rw [settle_bind, settle_bind]
      have hdeliver : L.Tracks Same (deliver nested terms call w) (deliver nested terms call v)
          m₁ n₁ := by
        unfold deliver
        by_cases hcode : call.callee.hasCode = true
        · rw [if_pos hcode, if_pos hcode]
          refine tracks_runPaid hlike₁ hworlds call ?_ ?_ hgrows
          · intro inner start start' henter
            exact hnested inner start start' (.intro hleft hitem hm hcode henter)
          · intro inner start e f henter
            exact hseen inner start e f (.intro hleft hitem hm hcode henter)
        · rw [if_neg hcode, if_neg hcode]
          have hshown : L.Like { m₁ with world := w } { n₁ with world := v } :=
            ⟨hlike₁.registers, hlike₁.steps, hlike₁.account, hlike₁.stores, hworlds,
              hlike₁.final⟩
          apply (tracks_modify hshown).bind
          · exact fun _ _ _ => Or.inr (grows_law.pure true)
          · intro _ _ _ _ _ _ hlike' _
            exact tracks_pure hlike' rfl
      apply hdeliver.bind
      · exact fun moved _ _ => Or.inr (mirrors_takeBack (L := L) payer moved).grows
      · intro moved m' moved' n' _ _ hlike' hsame
        cases hsame
        exact (mirrors_takeBack payer moved).tracks _ _ hlike'

end Step

variable (L) in
/-- The run comes to a transfer whose script fails blindly. -/
def Blinded (terms : Terms) (m : Machine) : Prop :=
  ∃ terms' m' inner start e f, Visits terms m terms' m' ∧ Calls terms' m' inner start ∧
    finish inner start = .error e f ∧ L.Blind e

/-- A run of a program without transfers calls no script. -/
theorem not_blinded_of_not_mem (h : .op (.account .transfer) ∉ terms.program) :
    ¬ L.Blinded terms m := by
  have hcalls : ∀ {m inner start}, ¬ Calls terms m inner start := by
    rintro m inner start ⟨-, hitem, -, -, -⟩
    exact h (Terms.mem_of_item? hitem)
  rintro ⟨terms', m', inner, start, e, f, hvisits, hcall, -⟩
  induction hvisits with
  | here => exact hcalls hcall
  | step hstep hrest ih => exact ih h hcalls hcall
  | call hcall' => exact hcalls hcall'

/-- A step and the rest of a run. -/
theorem tracks_drive_succ {left : Nat}
    (hstep : L.Tracks Same (stepWith (drive left) terms) (stepWith (drive left) terms) m n)
    (hgrows : Within Grows Grows (drive left terms))
    (hrest : ∀ m₁ n₁, stepWith (drive left) terms m = .ok none m₁ → L.Like m₁ n₁ →
      L.Tracks Same (drive left terms) (drive left terms) m₁ n₁) :
    L.Tracks Same (drive (left + 1) terms) (drive (left + 1) terms) m n := by
  constructor
  · intro value m' h hfinal
    unfold drive at h ⊢
    cases hrun : stepWith (drive left) terms m with
    | error e m₁ => rw [hrun] at h; cases h
    | ok result m₁ =>
        rw [hrun] at h
        cases result with
        | some value' =>
            cases h
            obtain ⟨_, n₁, hrun', hlike, hsame⟩ := hstep.ok _ _ hrun hfinal
            cases hsame
            rw [hrun']
            exact ⟨value, n₁, rfl, hlike, rfl⟩
        | none =>
            have hfinal₁ := final_of_grows ((hgrows m₁).1 value m' h) hfinal
            obtain ⟨_, n₁, hrun', hlike, hsame⟩ := hstep.ok _ _ hrun hfinal₁
            cases hsame
            rw [hrun']
            exact (hrest m₁ n₁ hrun hlike).ok value m' h hfinal
  · intro e m' h hfinal
    unfold drive at h ⊢
    cases hrun : stepWith (drive left) terms m with
    | error e' m₁ =>
        rw [hrun] at h
        cases h
        rcases hstep.error _ _ hrun hfinal with hblind | ⟨n₁, hrun', hrest⟩
        · exact Or.inl hblind
        · rw [hrun']
          exact Or.inr ⟨n₁, rfl, hrest⟩
    | ok result m₁ =>
        rw [hrun] at h
        cases result with
        | some value => cases h
        | none =>
            have hfinal₁ := final_of_grows ((hgrows m₁).2 e m' h) hfinal
            obtain ⟨_, n₁, hrun', hlike, hsame⟩ := hstep.ok _ _ hrun hfinal₁
            cases hsame
            rw [hrun']
            exact (hrest m₁ n₁ hrun hlike).error e m' h hfinal

/-- A run that is not blinded goes the same way from alike machines. -/
theorem tracks_drive {left : Nat} (hleft : terms.budget - m.steps ≤ left) (hlike : L.Like m n)
    (hseen : ¬ L.Blinded terms m) : L.Tracks Same (drive left terms) (drive left terms) m n := by
  induction left generalizing terms m n with
  | zero => exact (tracks_throw hlike (.stepLimitExceeded terms.limits.maxSteps)).congr rfl rfl
  | succ left ih =>
      have hstep : L.Tracks Same (stepWith (drive left) terms) (stepWith (drive left) terms)
          m n := by
        refine tracks_stepWith hlike ?_ ?_ (grows_drive left)
        · intro inner start start' hcalls hstart
          obtain ⟨hzero, hless⟩ := hcalls.budget_lt
          refine ih (by omega) hstart ?_
          rintro ⟨terms', m', inner', start', e, f, hvisits, hblind⟩
          exact hseen ⟨terms', m', inner', start', e, f, .call hcalls hvisits, hblind⟩
        · intro inner start e f hcalls hrun hblind
          obtain ⟨hzero, hless⟩ := hcalls.budget_lt
          rw [drive_eq_finish (by omega)] at hrun
          exact hseen ⟨terms, m, inner, start, e, f, .here, hcalls, hrun, hblind⟩
      have hrest : ∀ m₁ n₁, stepWith (drive left) terms m = .ok none m₁ → L.Like m₁ n₁ →
          L.Tracks Same (drive left terms) (drive left terms) m₁ n₁ := by
        intro m₁ n₁ hrun hlike₁
        have hmore := ((pays_stepWith (pays_drive left) m).1 _ _ hrun).1
        rw [stepWith_eq_step hleft] at hrun
        refine ih (by omega) hlike₁ ?_
        rintro ⟨terms', m', inner, start, e, f, hvisits, hblind⟩
        exact hseen ⟨terms', m', inner, start, e, f, .step hrun hvisits, hblind⟩
      exact tracks_drive_succ hstep (grows_drive left terms) hrest

end Likeness

/-! ## Whole runs -/

variable {L : Likeness} {call : Invocation} {limits : Limits} {outcome : Outcome}

variable (L) in
/-- The run comes to a transfer whose script fails blindly. -/
def Invocation.Blinded (call : Invocation) (limits : Limits) (w : World) (a : Archive) : Prop :=
  ∃ terms start, Machine.enter limits 0 limits.maxSteps call w a = .ok (terms, start) ∧
    L.Blinded terms start

/-- A script without transfers is not blinded. -/
theorem Invocation.not_blinded {items : List Script.Item}
    (hparse : Script.parseProgram call.callee.code = .ok items)
    (h : .op (.account .transfer) ∉ items) : ¬ call.Blinded L limits w a := by
  rintro ⟨terms, start, henter, hblinded⟩
  obtain ⟨items', hparse', hprogram⟩ := Machine.program_of_enter henter
  rw [hparse] at hparse'
  cases hparse'
  refine Likeness.not_blinded_of_not_mem ?_ hblinded
  rw [hprogram, List.mem_toArray]
  exact h

/-- A run that returns, and is not blinded, returns the same on an alike snapshot. -/
theorem Likeness.run_of_run (hstores : L.stores a b) (hworlds : L.worlds a w b v)
    (hseen : ¬ call.Blinded L limits w a) (h : call.run limits w a = .ok outcome a')
    (hfinal : L.final a') :
    ∃ outcome' b', call.run limits v b = .ok outcome' b' ∧ outcome.value = outcome'.value ∧
      outcome.steps = outcome'.steps ∧ L.stores a' b' ∧
        L.worlds a' outcome.world b' outcome'.world := by
  have hfinal₀ : L.final a := L.final_of_growsTo (Invocation.growsTo_of_run h) hfinal
  unfold Invocation.run at h ⊢
  rcases enter_like hstores hworlds hfinal₀ limits 0 limits.maxSteps call with
    ⟨e, hm, -⟩ | ⟨terms, start, start', hm, hn, hlike⟩
  · rw [hm] at h
    cases h
  rw [hm] at h
  rw [hn]
  dsimp only at h ⊢
  have hsteps : terms.budget - start.steps = terms.budget - start'.steps := by rw [hlike.steps]
  have htracks := tracks_drive (Nat.le_refl _) hlike fun hblind =>
    hseen ⟨terms, start, hm, hblind⟩
  cases hrun : Machine.finish terms start with
  | error e final => rw [hrun] at h; cases h
  | ok value final =>
      rw [hrun] at h
      cases h
      obtain ⟨_, final', hrun', hlike', hsame⟩ := htracks.ok value final hrun hfinal
      cases hsame
      rw [hsteps] at hrun'
      have hfinish : Machine.finish terms start' = .ok value final' := hrun'
      rw [hfinish]
      exact ⟨_, _, rfl, rfl, hlike'.steps, hlike'.stores, hlike'.worlds⟩

end ScriptLedger
