/-!
# Sequences of steps that succeed or fail

The ledger computes in two monads: `Except`, and `EStateM` where what was done
before a failure stays done.  A sequence of two steps succeeds exactly when both
do, and fails when the first fails or when the second does; the lemmas below take
it apart into its steps.
-/

namespace ScriptLedger.Sequencing

variable {ε ε' σ α β : Type}

/-! ## Without state -/

theorem except_bind_eq_ok {x : Except ε α} {f : α → Except ε β} {b : β} :
    (x >>= f) = .ok b ↔ ∃ a, x = .ok a ∧ f a = .ok b := by
  cases x with
  | error e => simp [bind, Except.bind]
  | ok a => simp [bind, Except.bind]

theorem except_bind_eq_error {x : Except ε α} {f : α → Except ε β} {e : ε} :
    (x >>= f) = .error e ↔ x = .error e ∨ ∃ a, x = .ok a ∧ f a = .error e := by
  cases x with
  | error e' => simp [bind, Except.bind]
  | ok a => simp [bind, Except.bind]

theorem except_map_eq_ok {x : Except ε α} {f : α → β} {b : β} :
    x.map f = .ok b ↔ ∃ a, x = .ok a ∧ f a = b := by
  cases x with
  | error e => simp [Except.map]
  | ok a => simp [Except.map]

theorem except_map_eq_error {x : Except ε α} {f : α → β} {e : ε} :
    x.map f = .error e ↔ x = .error e := by
  cases x with
  | error e' => simp [Except.map]
  | ok a => simp [Except.map]

theorem except_mapError_eq_ok {x : Except ε α} {f : ε → ε'} {a : α} :
    x.mapError f = .ok a ↔ x = .ok a := by
  cases x with
  | error e =>
      show (.error (f e) : Except ε' α) = .ok a ↔ (.error e : Except ε α) = .ok a
      simp
  | ok b =>
      show (.ok b : Except ε' α) = .ok a ↔ (.ok b : Except ε α) = .ok a
      simp

theorem except_forM_eq_ok {f : α → Except ε Unit} {l : List α} :
    l.forM f = .ok () ↔ ∀ a ∈ l, f a = .ok () := by
  induction l with
  | nil => exact iff_of_true rfl fun a h => absurd h List.not_mem_nil
  | cons a l ih =>
      show (f a >>= fun _ => l.forM f) = .ok () ↔ _
      rw [except_bind_eq_ok, List.forall_mem_cons, ← ih]
      exact ⟨fun ⟨_, ha, hl⟩ => ⟨ha, hl⟩, fun ⟨ha, hl⟩ => ⟨_, ha, hl⟩⟩

theorem exists_ok_and_iff {P : α → Prop} {a : α} :
    (∃ b, (.ok a : Except ε α) = .ok b ∧ P b) ↔ P a := by
  constructor
  · rintro ⟨b, heq, h⟩
    cases heq
    exact h
  · intro h
    exact ⟨a, rfl, h⟩

instance decidableYields (x : Except ε α) {P : α → Prop} [∀ a, Decidable (P a)] :
    Decidable (∃ a, x = .ok a ∧ P a) :=
  match x with
  | .ok a => decidable_of_iff (P a) exists_ok_and_iff.symm
  | .error e => isFalse (by simp)

theorem ofFnM_eq_ok {n : Nat} {f : Fin n → Except ε α} {v : Vector α n}
    (h : Vector.ofFnM f = .ok v) (i : Fin n) : f i = .ok v[i] := by
  induction n with
  | zero => exact i.elim0
  | succ n ih =>
      rw [Vector.ofFnM_succ] at h
      obtain ⟨init, hinit, h⟩ := except_bind_eq_ok.mp h
      obtain ⟨last, hlast, h⟩ := except_bind_eq_ok.mp h
      cases h
      refine Fin.lastCases ?_ (fun j => ?_) i
      · rw [hlast]
        simp
      · rw [ih hinit j]
        simp

theorem ofFnM_of_forall {n : Nat} {f : Fin n → Except ε α} {g : Fin n → α}
    (h : ∀ i, f i = .ok (g i)) : Vector.ofFnM f = .ok (Vector.ofFn g) := by
  rw [show f = fun i => pure (g i) from funext h]
  exact Vector.ofFnM_pure

theorem ofFnM_eq_error {n : Nat} {f : Fin n → Except ε α} {e : ε}
    (h : Vector.ofFnM f = .error e) : ∃ i, f i = .error e := by
  induction n with
  | zero => simp [pure, Except.pure] at h
  | succ n ih =>
      rw [Vector.ofFnM_succ] at h
      rcases except_bind_eq_error.mp h with hinit | ⟨init, -, h⟩
      · obtain ⟨i, hi⟩ := ih hinit
        exact ⟨i.castSucc, hi⟩
      · rcases except_bind_eq_error.mp h with hlast | ⟨last, -, h⟩
        · exact ⟨Fin.last n, hlast⟩
        · cases h

/-! ## With state -/

section State

variable {x : EStateM ε σ α} {f : α → EStateM ε σ β} {s s' : σ}

theorem bind_eq_ok {b : β} :
    (x >>= f) s = .ok b s' ↔ ∃ a s₁, x s = .ok a s₁ ∧ f a s₁ = .ok b s' := by
  show EStateM.bind x f s = .ok b s' ↔ _
  unfold EStateM.bind
  cases x s with
  | ok a s₁ =>
      constructor
      · intro h
        exact ⟨a, s₁, rfl, h⟩
      · rintro ⟨_, _, ⟨⟩, h⟩
        exact h
  | error e s₁ => simp

theorem bind_eq_error {e : ε} :
    (x >>= f) s = .error e s' ↔
      x s = .error e s' ∨ ∃ a s₁, x s = .ok a s₁ ∧ f a s₁ = .error e s' := by
  show EStateM.bind x f s = .error e s' ↔ _
  unfold EStateM.bind
  cases x s with
  | ok a s₁ =>
      constructor
      · intro h
        exact Or.inr ⟨a, s₁, rfl, h⟩
      · intro h
        rcases h with h | ⟨_, _, ha, h⟩
        · cases h
        · cases ha; exact h
  | error e s₁ => simp

theorem bind_of_ok {a : α} (h : x s = .ok a s') : (x >>= f) s = f a s' := by
  show EStateM.bind x f s = _
  unfold EStateM.bind
  rw [h]

theorem bind_of_error {e : ε} (h : x s = .error e s') : (x >>= f) s = .error e s' := by
  show EStateM.bind x f s = _
  unfold EStateM.bind
  rw [h]

theorem pure_eq_ok {a b : α} :
    (pure a : EStateM ε σ α) s = .ok b s' ↔ a = b ∧ s = s' := by
  show EStateM.Result.ok a s = .ok b s' ↔ _
  simp

theorem pure_ne_error {a : α} {e : ε} : (pure a : EStateM ε σ α) s ≠ .error e s' := by
  show EStateM.Result.ok a s ≠ .error e s'
  simp

theorem throw_ne_ok {e : ε} {b : α} : (throw e : EStateM ε σ α) s ≠ .ok b s' := by
  show EStateM.Result.error e s ≠ .ok b s'
  simp

theorem throw_eq_error {e e' : ε} :
    (throw e : EStateM ε σ α) s = .error e' s' ↔ e = e' ∧ s = s' := by
  show EStateM.Result.error e s = .error e' s' ↔ _
  simp

theorem get_eq_ok {t : σ} :
    (get : EStateM ε σ σ) s = .ok t s' ↔ s = t ∧ s = s' := by
  show EStateM.Result.ok s s = .ok t s' ↔ _
  simp

theorem ofExcept_eq_ok {y : Except ε α} {a : α} :
    (ofExcept y : EStateM ε σ α) s = .ok a s' ↔ y = .ok a ∧ s = s' := by
  cases y with
  | ok b =>
      show EStateM.Result.ok b s = .ok a s' ↔ _
      simp
  | error e =>
      show EStateM.Result.error e s = .ok a s' ↔ _
      simp

theorem adaptExcept_eq_ok {g : ε → ε'} {a : α} :
    (x.adaptExcept g) s = .ok a s' ↔ x s = .ok a s' := by
  unfold EStateM.adaptExcept
  cases x s with
  | ok b s₁ => simp
  | error e s₁ => simp

theorem adaptExcept_eq_error {g : ε → ε'} {e : ε'} :
    (x.adaptExcept g) s = .error e s' ↔ ∃ cause, x s = .error cause s' ∧ g cause = e := by
  unfold EStateM.adaptExcept
  cases x s with
  | ok b s₁ => simp
  | error cause s₁ =>
      constructor
      · rintro ⟨⟩
        exact ⟨cause, rfl, rfl⟩
      · rintro ⟨_, ⟨⟩, rfl⟩
        rfl

theorem exists_ok_iff {P : α → σ → Prop} {a : α} :
    (∃ b t, (.ok a s : EStateM.Result ε σ α) = .ok b t ∧ P b t) ↔ P a s := by
  constructor
  · rintro ⟨b, t, heq, h⟩
    cases heq
    exact h
  · intro h
    exact ⟨a, s, rfl, h⟩

/-- Whether a computation returns with something is found out by running it. -/
instance decidableReturns (x : EStateM ε σ α) (s : σ) {P : α → σ → Prop}
    [∀ a t, Decidable (P a t)] : Decidable (∃ a t, x s = .ok a t ∧ P a t) :=
  match x s with
  | .ok a t => decidable_of_iff (P a t) exists_ok_iff.symm
  | .error e t => isFalse (by simp)

theorem exists_error_iff {P : ε → σ → Prop} {e : ε} :
    (∃ e' t, (.error e s : EStateM.Result ε σ α) = .error e' t ∧ P e' t) ↔ P e s := by
  constructor
  · rintro ⟨e', t, heq, h⟩
    cases heq
    exact h
  · intro h
    exact ⟨e, s, rfl, h⟩

/-- Whether a computation fails with something is found out by running it. -/
instance decidableFails (x : EStateM ε σ α) (s : σ) {P : ε → σ → Prop}
    [∀ e t, Decidable (P e t)] : Decidable (∃ e t, x s = .error e t ∧ P e t) :=
  match x s with
  | .ok a t => isFalse (by simp)
  | .error e t => decidable_of_iff (P e t) exists_error_iff.symm

end State

/-! ## Both outcomes -/

/-- The state that a computation left behind, whether it returned or failed. -/
def final : EStateM.Result ε σ α → σ
  | .ok _ s => s
  | .error _ s => s

/-- A computation that starts in a state returns with `Q`, or fails in a state with `E`. -/
def Yields (s : σ) (x : EStateM ε σ α) (Q : α → σ → Prop) (E : σ → Prop) : Prop :=
  (∀ a s', x s = .ok a s' → Q a s') ∧ ∀ e s', x s = .error e s' → E s'

namespace Yields

variable {s : σ} {x : EStateM ε σ α} {f : α → EStateM ε σ β}
variable {P P' : α → σ → Prop} {Q : β → σ → Prop} {E E' : σ → Prop}

theorem imp (h : Yields s x P E) (hP : ∀ a s', P a s' → P' a s') (hE : ∀ s', E s' → E' s') :
    Yields s x P' E' :=
  ⟨fun a s' hok => hP a s' (h.1 a s' hok), fun e s' herror => hE s' (h.2 e s' herror)⟩

theorem congr {y : EStateM ε σ α} {t : σ} (hxy : x s = y t) (h : Yields t y P E) :
    Yields s x P E := by
  unfold Yields
  rw [hxy]
  exact h

theorem of_ok {a : α} {t : σ} (hx : x s = .ok a t) (h : P a t) : Yields s x P E := by
  constructor
  · intro b s' hok
    rw [hx] at hok
    cases hok
    exact h
  · intro e s' herror
    rw [hx] at herror
    cases herror

theorem of_error {e : ε} {t : σ} (hx : x s = .error e t) (h : E t) : Yields s x P E := by
  constructor
  · intro a s' hok
    rw [hx] at hok
    cases hok
  · intro e' s' herror
    rw [hx] at herror
    cases herror
    exact h

/-- What a computation returned can be kept in mind. -/
theorem run (h : Yields s x P E) : Yields s x (fun a s' => x s = .ok a s' ∧ P a s') E :=
  ⟨fun a s' hok => ⟨hok, h.1 a s' hok⟩, h.2⟩

theorem final (h : Yields s x (fun _ => E) E) : E (Sequencing.final (x s)) := by
  cases hx : x s with
  | ok a s' => exact h.1 a s' hx
  | error e s' => exact h.2 e s' hx

theorem bind (hx : Yields s x P E) (hf : ∀ a s', P a s' → Yields s' (f a) Q E) :
    Yields s (x >>= f) Q E := by
  constructor
  · intro b s' h
    obtain ⟨a, mid, hfirst, hsecond⟩ := bind_eq_ok.mp h
    exact (hf a mid (hx.1 a mid hfirst)).1 b s' hsecond
  · intro e s' h
    rcases bind_eq_error.mp h with hfirst | ⟨a, mid, hfirst, hsecond⟩
    · exact hx.2 e s' hfirst
    · exact (hf a mid (hx.1 a mid hfirst)).2 e s' hsecond

/-- The second step may rely on what the first one returned, and the way it fails is known. -/
theorem split (herror : ∀ e s', x s = .error e s' → E s')
    (hok : ∀ a s', x s = .ok a s' → Yields s' (f a) Q E) : Yields s (x >>= f) Q E :=
  .bind ⟨fun _ _ h => h, herror⟩ hok

theorem pure {a : α} (h : P a s) : Yields s (Pure.pure a : EStateM ε σ α) P E := .of_ok rfl h

theorem throw {e : ε} (h : E s) : Yields s (MonadExcept.throw e : EStateM ε σ α) P E :=
  .of_error rfl h

theorem ofExcept {y : Except ε α} (hok : ∀ a, y = .ok a → P a s) (herror : E s) :
    Yields s (MonadExcept.ofExcept y : EStateM ε σ α) P E := by
  cases y with
  | ok a => exact .pure (hok a rfl)
  | error e => exact .throw herror

theorem adaptExcept {g : ε → ε'} (h : Yields s x P E) : Yields s (x.adaptExcept g) P E := by
  cases hx : x s with
  | ok a t => exact .of_ok (by rw [EStateM.adaptExcept, hx]) (h.1 a t hx)
  | error e t => exact .of_error (by rw [EStateM.adaptExcept, hx]) (h.2 e t hx)

theorem get_bind {f : σ → EStateM ε σ β} (h : Yields s (f s) Q E) :
    Yields s (MonadState.get >>= f) Q E := h

theorem modify_bind {g : σ → σ} {f : PUnit → EStateM ε σ β} (h : Yields (g s) (f ⟨⟩) Q E) :
    Yields s (modify g >>= f) Q E := h

theorem modify {g : σ → σ} {P : PUnit → σ → Prop} (h : P ⟨⟩ (g s)) :
    Yields s (modify g : EStateM ε σ PUnit) P E := .of_ok rfl h

/-- A loop that keeps `P` yields it. -/
theorem foldlM {ι : Type} {items : List ι} {f : α → ι → EStateM ε σ α} {a : α}
    (hf : ∀ a item s', P a s' → Yields s' (f a item) P E) (h : P a s) :
    Yields s (items.foldlM f a) P E := by
  induction items generalizing a s with
  | nil => exact .pure h
  | cons item rest ih =>
      rw [List.foldlM_cons]
      exact (hf a item s h).bind fun _ _ => ih

end Yields

/-! ## Invariants -/

/-- A computation that starts where `I` holds ends where it holds, whether it returns or fails,
and what it returns satisfies `P`. -/
def Upholds (I : σ → Prop) (x : EStateM ε σ α) (P : α → Prop) : Prop :=
  ∀ s, I s → Yields s x (fun a s' => I s' ∧ P a) I

namespace Upholds

variable {I : σ → Prop} {x : EStateM ε σ α} {f : α → EStateM ε σ β}
variable {P : α → Prop} {Q : β → Prop}

theorem bind (hx : Upholds I x P) (hf : ∀ a, P a → Upholds I (f a) Q) : Upholds I (x >>= f) Q :=
  fun s hs => Yields.bind (hx s hs) fun a s' ha => hf a ha.2 s' ha.1

theorem pure {a : α} (h : P a) : Upholds I (Pure.pure a : EStateM ε σ α) P :=
  fun _ hs => Yields.pure ⟨hs, h⟩

theorem throw {e : ε} : Upholds I (MonadExcept.throw e : EStateM ε σ α) P :=
  fun _ hs => Yields.throw hs

theorem get : Upholds I (MonadState.get : EStateM ε σ σ) I := fun _ hs => Yields.of_ok rfl ⟨hs, hs⟩

theorem modify {g : σ → σ} (h : ∀ s, I s → I (g s)) :
    Upholds I (modify g : EStateM ε σ PUnit) fun _ => True :=
  fun s hs => Yields.modify ⟨h s hs, trivial⟩

theorem ofExcept {y : Except ε α} (h : ∀ a, y = .ok a → P a) :
    Upholds I (MonadExcept.ofExcept y : EStateM ε σ α) P :=
  fun _ hs => Yields.ofExcept (fun a ha => ⟨hs, h a ha⟩) hs

/-- What is done for every item of a list keeps what each of them keeps. -/
theorem forM {ι : Type} {items : List ι} {g : ι → EStateM ε σ PUnit}
    (h : ∀ item ∈ items, Upholds I (g item) fun _ => True) :
    Upholds I (items.forM g) fun _ => True := by
  induction items with
  | nil => exact pure trivial
  | cons item items ih =>
      obtain ⟨hitem, hitems⟩ := List.forall_mem_cons.mp h
      exact hitem.bind fun _ _ => ih hitems

end Upholds

end ScriptLedger.Sequencing
