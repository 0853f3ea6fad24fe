import Mathlib.Algebra.BigOperators.Fin
import Mathlib.Algebra.Order.BigOperators.Group.Finset
import Mathlib.Algebra.Order.Floor.Div
import Mathlib.Logic.Relation
import ScriptLedger.Work.Search

/-!
# Searching for a nonce side by side

A nonce writes down the lane and the counter that it belongs to, so no nonce is tried
twice.  The attempts are divided among the lanes and rounded up: there are at least as many
nonces as were asked for, and fewer than one more for each lane.

The lanes search at the same time.  Before each attempt a lane looks at a flag, which is
raised by a lane that has found a nonce, and stops if it sees the flag raised; it may see
that late or not at all.  A step of a search (`Miner.Progress.Step`) is what one lane does
until the next one may act, and when all lanes have ended, the first one that has found a
nonce gives the answer.  With several lanes it depends on the order of their steps which
nonce that is.

It does not depend on it whether there is one.  A lane gives up only after its last attempt,
or when the flag is raised, and then another lane has a nonce that seals
(`Miner.Progress.Sound`).  To go through the lanes one after the other is one of the orders.

## Main results

* `Miner.nodup_nonces`, `Miner.length_nonces` — the nonces of a search.
* `Miner.Progress.Step.sound`, `Miner.sound_of_leads` — what one step and any run preserve.
* `Miner.wellFounded_step`, `Miner.Progress.ended_or_exists_step` — every search ends.
* `Miner.outcome_mine` — the search that goes through the lanes in order.
* `Miner.search_complete` — when a search fails, and what it finds otherwise.
-/

namespace ScriptLedger

/-! ## Nonces -/

theorem Word.bigEndian_inj {v w : UInt64} (h : bigEndian v = bigEndian w) : v = w := by
  simp [bigEndian, ← UInt8.toNat_inj, Nat.shiftRight_eq_div_pow] at h
  -- What is left says that two numbers below `2⁶⁴` have the same digits in base 256.
  have hv := v.toNat_lt
  have hw := w.toNat_lt
  refine UInt64.toNat_inj.mp ?_
  omega

namespace Work

theorem nonceFor_inj {lane lane' : UInt8} {counter counter' : UInt64}
    (h : nonceFor lane counter = nonceFor lane' counter') : lane = lane' ∧ counter = counter' := by
  have hbytes : lane :: List.replicate 23 0 ++ Word.bigEndian counter =
      lane' :: List.replicate 23 0 ++ Word.bigEndian counter' := congrArg Blob.toList h
  obtain ⟨hlane, hrest⟩ := List.cons.inj hbytes
  exact ⟨hlane, Word.bigEndian_inj (List.append_cancel_left hrest)⟩

/-- The nonce of an attempt whose lane and counter are numbers. -/
def nonceAt (lane counter : Nat) : Hash := nonceFor (UInt8.ofNat lane) (UInt64.ofNat counter)

theorem nonceAt_inj {lane lane' counter counter' : Nat} (hlane : lane < UInt8.size)
    (hlane' : lane' < UInt8.size) (hcounter : counter < UInt64.size)
    (hcounter' : counter' < UInt64.size) (h : nonceAt lane counter = nonceAt lane' counter') :
    lane = lane' ∧ counter = counter' := by
  obtain ⟨hl, hc⟩ := nonceFor_inj h
  have hl := congrArg UInt8.toNat hl
  have hc := congrArg UInt64.toNat hc
  rw [UInt8.toNat_ofNat_of_lt' hlane, UInt8.toNat_ofNat_of_lt' hlane'] at hl
  rw [UInt64.toNat_ofNat_of_lt' hcounter, UInt64.toNat_ofNat_of_lt' hcounter'] at hc
  exact ⟨hl, hc⟩

end Work

namespace Miner

open Work (nonceAt)

variable {miner : Miner} {s : Skeleton} {nonce : Hash}

theorem lanes_pos (miner : Miner) : 0 < miner.lanes := by
  unfold lanes
  omega

theorem lanes_lt (miner : Miner) : miner.lanes < UInt8.size := by
  have hthreads : miner.threads.toNat < 256 := miner.threads.toNat_lt
  show max miner.threads.toNat 1 < 256
  omega

theorem attemptsPerLane_eq (miner : Miner) :
    miner.attemptsPerLane = miner.maxAttempts.toNat ⌈/⌉ miner.lanes := by
  rw [Nat.ceilDiv_eq_add_pred_div, attemptsPerLane, Nat.add_sub_assoc miner.lanes_pos]

theorem attemptsPerLane_lt (miner : Miner) : miner.attemptsPerLane < UInt64.size := by
  have hle : miner.attemptsPerLane ≤ miner.maxAttempts.toNat := by
    rw [attemptsPerLane_eq, ceilDiv_le_iff_le_mul miner.lanes_pos]
    exact Nat.le_mul_of_pos_left _ miner.lanes_pos
  exact Nat.lt_of_le_of_lt hle miner.maxAttempts.toNat_lt

/-- The nonces of all attempts, lane by lane. -/
def nonces (miner : Miner) : List Hash :=
  (List.range miner.lanes).flatMap fun lane =>
    (List.range miner.attemptsPerLane).map (nonceAt lane)

theorem mem_nonces_iff : nonce ∈ miner.nonces ↔
    ∃ lane < miner.lanes, ∃ counter < miner.attemptsPerLane, nonceAt lane counter = nonce := by
  simp [nonces, List.mem_flatMap]

/-- No nonce is tried twice. -/
theorem nodup_nonces (miner : Miner) : miner.nonces.Nodup := by
  have hinj : ∀ {lane lane' counter counter' : Nat}, lane < miner.lanes → lane' < miner.lanes →
      counter < miner.attemptsPerLane → counter' < miner.attemptsPerLane →
        nonceAt lane counter = nonceAt lane' counter' → lane = lane' ∧ counter = counter' :=
    fun hlane hlane' hcounter hcounter' =>
      Work.nonceAt_inj (hlane.trans miner.lanes_lt) (hlane'.trans miner.lanes_lt)
        (hcounter.trans miner.attemptsPerLane_lt) (hcounter'.trans miner.attemptsPerLane_lt)
  refine List.nodup_flatMap.mpr ⟨fun lane hlane => ?_, ?_⟩
  · have hlane := List.mem_range.mp hlane
    refine List.nodup_range.map_on fun c hc c' hc' heq => ?_
    exact (hinj hlane hlane (List.mem_range.mp hc) (List.mem_range.mp hc') heq).2
  · refine List.nodup_range.imp_of_mem fun {t t'} ht ht' hne nonce hmem hmem' => hne ?_
    obtain ⟨c, hc, rfl⟩ := List.mem_map.mp hmem
    obtain ⟨c', hc', heq⟩ := List.mem_map.mp hmem'
    exact (hinj (List.mem_range.mp ht) (List.mem_range.mp ht') (List.mem_range.mp hc)
      (List.mem_range.mp hc') heq.symm).1

/-- There are as many nonces as were asked for, and fewer than one more for each lane. -/
theorem length_nonces (miner : Miner) :
    miner.maxAttempts.toNat ≤ miner.nonces.length ∧
      miner.nonces.length < miner.maxAttempts.toNat + miner.lanes := by
  have hpos := miner.lanes_pos
  have hlength : miner.nonces.length = miner.lanes * miner.attemptsPerLane := by
    simp [nonces]
  rw [hlength]
  constructor
  · rw [attemptsPerLane_eq]
    exact (ceilDiv_le_iff_le_mul hpos).mp (Nat.le_refl _)
  · have hle := Nat.mul_div_le (miner.maxAttempts.toNat + (miner.lanes - 1)) miner.lanes
    rw [attemptsPerLane]
    omega

/-! ## Steps of a search -/

/-- What a lane is doing. -/
inductive Lane
  /-- The nonce of this counter is the next one. -/
  | searching (counter : Nat)
  | found (nonce : Hash)
  | stopped
deriving DecidableEq

/-- The nonce that a lane has found. -/
def Lane.nonce? : Lane → Option Hash
  | .found nonce => some nonce
  | .searching _ | .stopped => none

/-- What the lanes of a miner are doing, and the flag that all of them see. -/
structure Progress (miner : Miner) where
  raised : Bool
  lanes : Fin miner.lanes → Lane

/-- All lanes are before their first attempt. -/
def start (miner : Miner) : Progress miner :=
  { raised := false, lanes := fun _ => .searching 0 }

namespace Progress

/-- A lane goes on; it raises the flag if it has found a nonce. -/
def turn (p : Progress miner) (i : Fin miner.lanes) (lane : Lane) : Progress miner :=
  { raised := p.raised || lane.nonce?.isSome, lanes := Function.update p.lanes i lane }

section Turn

variable (p : Progress miner) {i j : Fin miner.lanes} (lane : Lane)

@[simp] theorem lanes_turn_self : (p.turn i lane).lanes i = lane := Function.update_self ..

theorem lanes_turn_of_ne (h : j ≠ i) : (p.turn i lane).lanes j = p.lanes j :=
  Function.update_of_ne h ..

theorem turn_turn_searching (counter : Nat) :
    (p.turn i (.searching counter)).turn i lane = p.turn i lane := by
  simp [turn, Lane.nonce?]

end Turn

/-- One lane does something. -/
inductive Step (s : Skeleton) (p : Progress miner) : Progress miner → Prop
  /-- An attempt fails. -/
  | miss {i : Fin miner.lanes} {counter : Nat} (hat : p.lanes i = .searching counter)
      (hleft : counter < miner.attemptsPerLane) (hseals : seals s (nonceAt i counter) = false) :
      Step s p (p.turn i (.searching (counter + 1)))
  /-- An attempt succeeds. -/
  | hit {i : Fin miner.lanes} {counter : Nat} (hat : p.lanes i = .searching counter)
      (hleft : counter < miner.attemptsPerLane) (hseals : seals s (nonceAt i counter) = true) :
      Step s p (p.turn i (.found (nonceAt i counter)))
  /-- The flag is seen before an attempt. -/
  | quit {i : Fin miner.lanes} {counter : Nat} (hat : p.lanes i = .searching counter)
      (hleft : counter < miner.attemptsPerLane) (hraised : p.raised = true) :
      Step s p (p.turn i .stopped)
  /-- There are no attempts left. -/
  | exhaust {i : Fin miner.lanes} {counter : Nat} (hat : p.lanes i = .searching counter)
      (hdone : miner.attemptsPerLane ≤ counter) : Step s p (p.turn i .stopped)

/-- No lane searches any more. -/
def Ended (p : Progress miner) : Prop := ∀ i counter, p.lanes i ≠ .searching counter

/-- The nonce of the first lane that has found one. -/
def nonce? (p : Progress miner) : Option Hash :=
  (List.finRange miner.lanes).findSome? fun i => (p.lanes i).nonce?

end Progress

/-- The lanes take steps in some order. -/
def Leads (s : Skeleton) : Progress miner → Progress miner → Prop :=
  Relation.ReflTransGen (Progress.Step s)

/-- What is answered when a search has ended. -/
def answer (miner : Miner) (s : Skeleton) : Option Hash → Except BlockError Block
  | some nonce => .ok { skeleton := s, nonce }
  | none => .error (.miningFailed miner.maxAttempts)

theorem mine_eq (miner : Miner) (s : Skeleton) :
    miner.mine s = miner.answer s (miner.search s) := by
  unfold mine
  cases miner.search s <;> rfl

/-- A search may end with this answer. -/
def Outcome (miner : Miner) (s : Skeleton) (r : Except BlockError Block) : Prop :=
  ∃ p, Leads s miner.start p ∧ p.Ended ∧ r = miner.answer s p.nonce?

/-! ## What is known of the lanes -/

/-- No attempt of a lane before this one succeeds. -/
def Passed (s : Skeleton) (lane counter : Nat) : Prop :=
  ∀ before < counter, seals s (nonceAt lane before) = false

/-- The first nonce of its lane that seals. -/
def First (miner : Miner) (s : Skeleton) (lane : Nat) (nonce : Hash) : Prop :=
  ∃ counter < miner.attemptsPerLane, nonce = nonceAt lane counter ∧ seals s nonce = true ∧
    Passed s lane counter

/-- What is known of a lane: what it has found is the first nonce that seals, and it stops
without one only after all attempts or when the flag is raised. -/
def Lane.Sound (miner : Miner) (s : Skeleton) (raised : Bool) (i : Nat) : Lane → Prop
  | .searching counter => Passed s i counter
  | .found nonce => miner.First s i nonce
  | .stopped => raised = true ∨ Passed s i miner.attemptsPerLane

theorem Lane.Sound.mono {raised raised' : Bool} {i : Nat} {lane : Lane}
    (h : lane.Sound miner s raised i) (hraised : raised = true → raised' = true) :
    lane.Sound miner s raised' i := by
  cases lane with
  | searching counter => exact h
  | found nonce => exact h
  | stopped => exact h.imp_left hraised

namespace Progress

variable {p q : Progress miner}

/-- What is known of all lanes, and that the flag is not raised for nothing. -/
structure Sound (s : Skeleton) (p : Progress miner) : Prop where
  lanes : ∀ i, (p.lanes i).Sound miner s p.raised i
  raised : p.raised = true → ∃ i nonce, p.lanes i = .found nonce

theorem sound_start (miner : Miner) (s : Skeleton) : miner.start.Sound s where
  lanes _ _ hlt := absurd hlt (Nat.not_lt_zero _)
  raised h := nomatch h

theorem Sound.turn (h : p.Sound s) {i : Fin miner.lanes} {lane : Lane}
    (hsearching : (p.lanes i).nonce? = none)
    (hlane : lane.Sound miner s (p.turn i lane).raised i) : (p.turn i lane).Sound s where
  lanes j := by
    by_cases hij : j = i
    · subst hij
      rwa [lanes_turn_self]
    · rw [lanes_turn_of_ne _ _ hij]
      exact (h.lanes j).mono fun hraised => by rw [Progress.turn, hraised, Bool.true_or]
  raised hraised := by
    rcases Bool.or_eq_true_iff.mp hraised with hold | hnew
    · obtain ⟨j, nonce, hfound⟩ := h.raised hold
      have hij : j ≠ i := by
        rintro rfl
        rw [hfound] at hsearching
        cases hsearching
      exact ⟨j, nonce, by rw [lanes_turn_of_ne _ _ hij, hfound]⟩
    · cases lane with
      | found nonce => exact ⟨i, nonce, lanes_turn_self p _⟩
      | searching counter => cases hnew
      | stopped => cases hnew

theorem Sound.passed (h : p.Sound s) {i : Fin miner.lanes} {counter : Nat}
    (hat : p.lanes i = .searching counter) : Passed s i counter := by
  have hlane := h.lanes i
  rw [hat] at hlane
  exact hlane

/-- What one step preserves. -/
theorem Step.sound (hstep : p.Step s q) (h : p.Sound s) : q.Sound s := by
  cases hstep with
  | miss hat hleft hseals =>
      refine h.turn (by rw [hat]; rfl) fun before hlt => ?_
      rcases Nat.lt_succ_iff_lt_or_eq.mp hlt with hlt | rfl
      · exact h.passed hat before hlt
      · exact hseals
  | @hit i counter hat hleft hseals =>
      exact h.turn (by rw [hat]; rfl) ⟨counter, hleft, rfl, hseals, h.passed hat⟩
  | quit hat hleft hraised =>
      exact h.turn (by rw [hat]; rfl) (.inl (by rw [Progress.turn, hraised, Bool.true_or]))
  | exhaust hat hdone =>
      exact h.turn (by rw [hat]; rfl)
        (.inr fun before hlt => h.passed hat before (Nat.lt_of_lt_of_le hlt hdone))

end Progress

/-- What any run preserves. -/
theorem sound_of_leads {p q : Progress miner} (h : Leads s p q) (hp : p.Sound s) : q.Sound s := by
  induction h with
  | refl => exact hp
  | tail _ hstep ih => exact hstep.sound ih

/-! ## Every search ends -/

/-- The number of steps that a lane has left at most. -/
def Lane.left (miner : Miner) : Lane → Nat
  | .searching counter => miner.attemptsPerLane - counter + 1
  | .found _ | .stopped => 0

namespace Progress

variable {p q : Progress miner}

/-- The number of steps that all lanes have left at most. -/
def left (p : Progress miner) : Nat := ∑ i, (p.lanes i).left miner

theorem left_turn_lt {i : Fin miner.lanes} {lane : Lane}
    (h : lane.left miner < (p.lanes i).left miner) : (p.turn i lane).left < p.left := by
  refine Finset.sum_lt_sum (fun j _ => ?_) ⟨i, Finset.mem_univ i, by rwa [lanes_turn_self]⟩
  by_cases hij : j = i
  · subst hij
    rw [lanes_turn_self]
    exact h.le
  · rw [lanes_turn_of_ne _ _ hij]

theorem Step.left_lt (hstep : p.Step s q) : q.left < p.left := by
  cases hstep with
  | miss hat hleft hseals =>
      refine left_turn_lt ?_
      rw [hat, Lane.left, Lane.left]
      omega
  | hit hat hleft hseals => exact left_turn_lt (by rw [hat]; exact Nat.succ_pos _)
  | quit hat hleft hraised => exact left_turn_lt (by rw [hat]; exact Nat.succ_pos _)
  | exhaust hat hdone => exact left_turn_lt (by rw [hat]; exact Nat.succ_pos _)

/-- A search that has not ended can go on. -/
theorem ended_or_exists_step (s : Skeleton) (p : Progress miner) : p.Ended ∨ ∃ q, p.Step s q := by
  by_cases hended : p.Ended
  · exact .inl hended
  · simp only [Ended, ne_eq, not_forall, not_not] at hended
    obtain ⟨i, counter, hat⟩ := hended
    refine .inr ?_
    by_cases hleft : counter < miner.attemptsPerLane
    · cases hseals : seals s (nonceAt i counter) with
      | true => exact ⟨_, .hit hat hleft hseals⟩
      | false => exact ⟨_, .miss hat hleft hseals⟩
    · exact ⟨_, .exhaust hat (Nat.le_of_not_lt hleft)⟩

end Progress

/-- No search goes on for ever. -/
theorem wellFounded_step (miner : Miner) (s : Skeleton) :
    WellFounded fun q p : Progress miner => p.Step s q :=
  Subrelation.wf (fun hstep => hstep.left_lt) (measure Progress.left).wf

/-! ## What a search answers -/

namespace Progress

variable {p : Progress miner}

theorem exists_first_of_nonce? (h : p.Sound s) (hnonce : p.nonce? = some nonce) :
    ∃ i : Fin miner.lanes, miner.First s i nonce := by
  obtain ⟨i, -, hi⟩ := List.exists_of_findSome?_eq_some hnonce
  have hlane := h.lanes i
  cases hfound : p.lanes i with
  | found other =>
      rw [hfound] at hi hlane
      cases hi
      exact ⟨i, hlane⟩
  | searching counter => rw [hfound] at hi; cases hi
  | stopped => rw [hfound] at hi; cases hi

/-- When all lanes have ended, one of them has found a nonce exactly if some nonce seals. -/
theorem nonce?_eq_none_iff (h : p.Sound s) (hended : p.Ended) :
    p.nonce? = none ↔ ∀ nonce ∈ miner.nonces, seals s nonce = false := by
  constructor
  · intro hnone nonce hmem
    have hstopped : ∀ i, p.lanes i = .stopped := by
      intro i
      have hi := List.findSome?_eq_none_iff.mp hnone i (List.mem_finRange i)
      cases hlane : p.lanes i with
      | found nonce => rw [hlane] at hi; cases hi
      | searching counter => exact absurd hlane (hended i counter)
      | stopped => rfl
    obtain ⟨lane, hlane, counter, hcounter, rfl⟩ := mem_nonces_iff.mp hmem
    have hsound := h.lanes ⟨lane, hlane⟩
    rw [hstopped] at hsound
    rcases hsound with hraised | hpassed
    · obtain ⟨i, nonce, hfound⟩ := h.raised hraised
      rw [hstopped i] at hfound
      cases hfound
    · exact hpassed counter hcounter
  · intro hall
    cases hnonce : p.nonce? with
    | none => rfl
    | some nonce =>
        obtain ⟨i, counter, hcounter, rfl, hseals, -⟩ := exists_first_of_nonce? h hnonce
        have hmem := mem_nonces_iff.mpr ⟨i, i.isLt, counter, hcounter, rfl⟩
        rw [hall _ hmem] at hseals
        cases hseals

end Progress

/-! ## Lane after lane -/

/-- How a lane ends that never looks at the flag. -/
def Lane.ended : Option Hash → Lane
  | some nonce => .found nonce
  | none => .stopped

theorem searchLane_succ (s : Skeleton) (lane left counter : Nat) :
    searchLane s lane (left + 1) counter =
      if seals s (nonceAt lane counter) then some (nonceAt lane counter)
      else searchLane s lane left (counter + 1) := rfl

theorem Lane.nonce?_ended (found : Option Hash) : (Lane.ended found).nonce? = found := by
  cases found <;> rfl

namespace Progress

theorem leads_turn {i : Fin miner.lanes} (left : Nat) {counter : Nat} {p : Progress miner}
    (hat : p.lanes i = .searching counter) (hleft : counter + left = miner.attemptsPerLane) :
    Leads s p (p.turn i (.ended (searchLane s i left counter))) := by
  induction left generalizing counter p with
  | zero => exact .single (.exhaust hat hleft.ge)
  | succ left ih =>
      have hlt : counter < miner.attemptsPerLane := by omega
      rw [searchLane_succ]
      cases hseals : seals s (nonceAt i counter) with
      | true => exact .single (.hit hat hlt hseals)
      | false =>
          have hrest := ih (p := p.turn i (.searching (counter + 1))) (lanes_turn_self ..)
            (by omega)
          rw [turn_turn_searching] at hrest
          exact .head (.miss hat hlt hseals) hrest

/-- Any lanes can be gone through in any order, and nothing else happens. -/
theorem exists_leads (l : List (Fin miner.lanes)) (hnodup : l.Nodup) (p : Progress miner)
    (hstart : ∀ i ∈ l, p.lanes i = .searching 0) :
    ∃ q, Leads s p q ∧ (∀ i ∈ l, q.lanes i = .ended (searchLane s i miner.attemptsPerLane 0)) ∧
      ∀ i ∉ l, q.lanes i = p.lanes i := by
  induction l generalizing p with
  | nil => exact ⟨p, .refl, fun _ hmem => absurd hmem List.not_mem_nil, fun _ _ => rfl⟩
  | cons i rest ih =>
      obtain ⟨hi, hrest⟩ := List.nodup_cons.mp hnodup
      have hfirst := leads_turn (s := s) miner.attemptsPerLane (hstart i List.mem_cons_self)
        (Nat.zero_add _)
      obtain ⟨q, hleads, hdone, hkeep⟩ := ih hrest
        (p.turn i (.ended (searchLane s i miner.attemptsPerLane 0))) fun j hj => by
          have hij : j ≠ i := fun heq => hi (heq ▸ hj)
          rw [lanes_turn_of_ne _ _ hij]
          exact hstart j (List.mem_cons_of_mem _ hj)
      refine ⟨q, hfirst.trans hleads, fun j hj => ?_, fun j hj => ?_⟩
      · rcases List.mem_cons.mp hj with rfl | hj
        · rw [hkeep j hi, lanes_turn_self]
        · exact hdone j hj
      · have hij : j ≠ i := fun heq => hj (heq ▸ List.mem_cons_self)
        rw [hkeep j fun hmem => hj (List.mem_cons_of_mem _ hmem), lanes_turn_of_ne _ _ hij]

end Progress

/-- The search that goes through the lanes in order is one of those that may happen. -/
theorem outcome_mine (miner : Miner) (s : Skeleton) : miner.Outcome s (miner.mine s) := by
  obtain ⟨p, hleads, hdone, -⟩ := Progress.exists_leads (s := s) (List.finRange miner.lanes)
    (List.nodup_finRange _) miner.start fun _ _ => rfl
  have hlanes := fun i => hdone i (List.mem_finRange i)
  refine ⟨p, hleads, fun i counter hat => ?_, ?_⟩
  · rw [hlanes] at hat
    cases hfound : searchLane s i miner.attemptsPerLane 0 with
    | some nonce => rw [hfound] at hat; cases hat
    | none => rw [hfound] at hat; cases hat
  · rw [mine_eq, search, Progress.nonce?, ← List.map_coe_finRange_eq_range, List.findSome?_map]
    simp only [hlanes, Lane.nonce?_ended]
    rfl

/-! ## All outcomes -/

/-- A search fails exactly if no nonce seals. -/
theorem Outcome.eq_error_iff {r : Except BlockError Block} (h : miner.Outcome s r) :
    r = .error (.miningFailed miner.maxAttempts) ↔
      ∀ nonce ∈ miner.nonces, seals s nonce = false := by
  obtain ⟨p, hleads, hended, rfl⟩ := h
  have hsound := sound_of_leads hleads (Progress.sound_start miner s)
  rw [← Progress.nonce?_eq_none_iff hsound hended]
  cases p.nonce? <;> simp [answer]

theorem Outcome.eq_of_error {cause : BlockError} (h : miner.Outcome s (.error cause)) :
    cause = .miningFailed miner.maxAttempts := by
  obtain ⟨p, -, -, hanswer⟩ := h
  cases hnonce : p.nonce? with
  | none => rw [hnonce] at hanswer; exact Except.error.inj hanswer
  | some nonce => rw [hnonce] at hanswer; cases hanswer

/-- What a search finds is the first nonce of some lane that seals. -/
theorem Outcome.exists_first {b : Block} (h : miner.Outcome s (.ok b)) :
    b.skeleton = s ∧ ∃ lane < miner.lanes, miner.First s lane b.nonce := by
  obtain ⟨p, hleads, -, hanswer⟩ := h
  have hsound := sound_of_leads hleads (Progress.sound_start miner s)
  cases hnonce : p.nonce? with
  | none => rw [hnonce] at hanswer; cases hanswer
  | some nonce =>
      rw [hnonce] at hanswer
      obtain rfl := Except.ok.inj hanswer
      obtain ⟨i, hfirst⟩ := Progress.exists_first_of_nonce? hsound hnonce
      exact ⟨rfl, i, i.isLt, hfirst⟩

/-- The nonces of a search are those of `n` lanes and as many counters as `m` attempts make
for each, rounded up; they are different, and between `m` and `m + n` in number.  Every
search ends, whatever the order in which the lanes act; it fails exactly if none of these
nonces brings the digest of the header to the target, and else gives a block over the
skeleton with its work done and one of these nonces.  A single lane finds the first one. -/
theorem search_complete (miner : Miner) (s : Skeleton) :
    let n := max miner.threads.toNat 1
    let m := miner.maxAttempts.toNat
    (∀ nonce, nonce ∈ miner.nonces ↔ ∃ lane < n, ∃ counter < m ⌈/⌉ n,
      nonce = Work.nonceFor (UInt8.ofNat lane) (UInt64.ofNat counter)) ∧
    miner.nonces.Nodup ∧ m ≤ miner.nonces.length ∧ miner.nonces.length < m + n ∧
    (WellFounded fun q p : Progress miner => p.Step s q) ∧
    (∀ p : Progress miner, p.Ended ∨ ∃ q, p.Step s q) ∧
    miner.Outcome s (miner.mine s) ∧
    ∀ r, miner.Outcome s r →
      (r = .error (.miningFailed miner.maxAttempts) ↔ ∀ nonce ∈ miner.nonces,
        Work.meetsTarget (Record.hash (s.withNonce nonce)) s.header.difficulty = false) ∧
      (∀ cause, r = .error cause → cause = .miningFailed miner.maxAttempts) ∧
      ∀ b, r = .ok b → b.skeleton = s ∧ b.meetsTarget = true ∧ b.nonce ∈ miner.nonces ∧
        (n = 1 → ∃ counter < m, b.nonce = Work.nonceFor 0 (UInt64.ofNat counter) ∧
          ∀ before < counter, Work.meetsTarget
            (Record.hash (s.withNonce (Work.nonceFor 0 (UInt64.ofNat before))))
            s.header.difficulty = false) := by
  obtain ⟨hmin, hmax⟩ := miner.length_nonces
  refine ⟨fun nonce => ?_, miner.nodup_nonces, hmin, hmax, miner.wellFounded_step s,
    fun p => p.ended_or_exists_step s, miner.outcome_mine s, fun r hr => ⟨hr.eq_error_iff, ?_, ?_⟩⟩
  · rw [mem_nonces_iff, attemptsPerLane_eq]
    simp only [nonceAt, eq_comm]
    rfl
  · rintro cause rfl
    exact hr.eq_of_error
  · rintro b rfl
    obtain ⟨hskeleton, lane, hlane, counter, hcounter, hnonce, hseals, hpassed⟩ := hr.exists_first
    subst hskeleton
    refine ⟨rfl, hseals, mem_nonces_iff.mpr ⟨lane, hlane, counter, hcounter, hnonce.symm⟩,
      fun hone => ?_⟩
    have hlanes : miner.lanes = 1 := hone
    obtain rfl : lane = 0 := by omega
    rw [attemptsPerLane, hlanes, Nat.sub_self, Nat.add_zero, Nat.div_one] at hcounter
    exact ⟨counter, hcounter, hnonce, hpassed⟩

end Miner

end ScriptLedger
