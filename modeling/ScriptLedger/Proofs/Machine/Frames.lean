import ScriptLedger.Proofs.Machine.Stretches

/-!
# Calls within a script and their returns

A call within a script pushes a frame of two entries, the frame pointer and the place to
return to, on the stack that holds everything else, and nothing protects it there.  What a
script has to keep to is that no instruction but a call and a return moves the frame pointer,
and that none takes off or overwrites the entries of a frame whose return is still to come.
`Machine.Underway` is a run that keeps to this, with the positions of those frames, the
innermost one first.

Then the frames are linked: each one holds the position of the next one below it, so that
every return puts the frame pointer back on the frame of its caller, however deep the calls
are nested.  The place that a call returns to is the item behind it, which is not the mark
that ends a run.

A position on the stack is a word, so a stack has no more entries than the words can count.

## Main results

* `Machine.calls_of_step`, `Machine.returns_of_step` — what a call and a return do.
* `Machine.Underway.linked` — the frames of a run within a call are linked.
* `Machine.return_to_call` — a call returns to where it came from.
-/

namespace ScriptLedger

open Sequencing Exec

variable {α : Type} {terms : Terms} {m m' : Machine}

/-! ## What a call and a return do -/

theorem Stack.getAt_eq_ok {index : Int64} {v : Value} {s s' : Stack}
    (h : Stack.getAt index s = .ok v s') :
    s' = s ∧ ∃ i : Nat, index.toInt = i ∧ s.entries[i]? = some v := by
  obtain ⟨_, _, hget, h⟩ := bind_eq_ok.mp h
  obtain ⟨rfl, rfl⟩ := get_eq_ok.mp hget
  by_cases hslot : 0 ≤ index.toInt ∧ index.toInt < s.size
  · rw [Stack.slot, if_pos hslot] at h
    cases hentry : s.entries[index.toInt.toNat]? with
    | none =>
        simp only [hentry] at h
        exact absurd h throw_ne_ok
    | some value =>
        simp only [hentry] at h
        obtain ⟨rfl, rfl⟩ := pure_eq_ok.mp h
        exact ⟨rfl, _, (Int.toNat_of_nonneg hslot.1).symm, hentry⟩
  · rw [Stack.slot, if_neg hslot] at h
    exact absurd h throw_ne_ok

namespace Registers

variable {r r' : Registers}

theorem onStack_eq_ok {x : StackM α} {a : α} (h : onStack x r = .ok a r') :
    ∃ s, x r.stack = .ok a s ∧ r' = { r with stack := s } := by
  unfold onStack at h
  cases hx : x r.stack with
  | error e s =>
      simp only [hx] at h
      cases h
  | ok b s =>
      simp only [hx] at h
      cases h
      exact ⟨s, rfl, rfl⟩

theorem push_eq_ok {v : Value} {u : Unit} (h : push v r = .ok u r') :
    r' = { r with stack := { r.stack with entries := r.stack.entries.push v } } := by
  obtain ⟨s, hpush, rfl⟩ := onStack_eq_ok h
  rw [Stack.eq_of_push hpush]

theorem intAt_eq_ok {op : Opcode} {index i : Int64} (h : intAt op index r = .ok i r') :
    r' = r ∧ ∃ n : Nat, index.toInt = n ∧ r.stack.entries[n]? = some (.int i) := by
  obtain ⟨v, _, hread, h⟩ := bind_eq_ok.mp h
  obtain ⟨s, hgetAt, rfl⟩ := onStack_eq_ok hread
  obtain ⟨rfl, n, hn, hentry⟩ := Stack.getAt_eq_ok hgetAt
  cases v with
  | int j =>
      obtain ⟨rfl, rfl⟩ := pure_eq_ok.mp h
      exact ⟨rfl, n, hn, hentry⟩
  | _ => exact absurd h throw_ne_ok

theorem frameSlot_eq_ok {op : Opcode} {offset index : Int64}
    (h : frameSlot op offset r = .ok index r') :
    r' = r ∧ index.toInt = r.fp.toInt + offset.toInt := by
  obtain ⟨_, _, hget, h⟩ := bind_eq_ok.mp h
  obtain ⟨rfl, rfl⟩ := get_eq_ok.mp hget
  cases hword : Word.signed? (r.fp.toInt + offset.toInt) with
  | none =>
      rw [hword] at h
      exact absurd h throw_ne_ok
  | some w =>
      rw [hword] at h
      obtain ⟨rfl, rfl⟩ := pure_eq_ok.mp h
      exact ⟨rfl, Word.signed?_eq_some_iff.mp hword⟩

theorem truncate_eq_ok {length : Nat} {u : Unit}
    (h : onStack (Stack.truncate length) r = .ok u r') :
    r' = { r with stack := { r.stack with entries := r.stack.entries.take length } } := by
  obtain ⟨s, htruncate, rfl⟩ := onStack_eq_ok h
  obtain ⟨_, _, hget, htruncate⟩ := bind_eq_ok.mp htruncate
  obtain ⟨rfl, rfl⟩ := get_eq_ok.mp hget
  by_cases hshort : r.stack.size < length
  · rw [if_pos hshort] at htruncate
    exact absurd htruncate throw_ne_ok
  · rw [if_neg hshort] at htruncate
    cases htruncate
    rw [Array.shrink_eq_take]

/-- The registers in the frame that a call has pushed. -/
def called (r : Registers) (entries : Array Value) : Registers where
  stack := { r.stack with
    entries := (entries.push (.int r.fp)).push (.int (r.pc + 1)) }
  pc := r.pc
  fp := Int64.ofInt entries.size

theorem call_eq_ok {flow : Flow} (h : ControlOp.run .call r = .ok flow r') :
    ∃ entries target, r.stack.entries = entries.push (.int target) ∧ flow = .goto target ∧
      r' = r.called entries := by
  simp only [ControlOp.run] at h
  obtain ⟨target, _, hpop, h⟩ := bind_eq_ok.mp h
  obtain ⟨s, htop, rfl⟩ := onStack_eq_ok hpop
  obtain ⟨entries, _, hentries, hint, rfl⟩ := Stack.exists_of_popAs htop
  obtain rfl := Value.int?_eq_some.mp hint
  obtain ⟨_, _, hget, h⟩ := bind_eq_ok.mp h
  obtain ⟨rfl, rfl⟩ := get_eq_ok.mp hget
  obtain ⟨_, _, hpush, h⟩ := bind_eq_ok.mp h
  obtain rfl := push_eq_ok hpush
  obtain ⟨_, _, hmodify, h⟩ := bind_eq_ok.mp h
  cases hmodify
  obtain ⟨_, _, hget, h⟩ := bind_eq_ok.mp h
  obtain ⟨rfl, rfl⟩ := get_eq_ok.mp hget
  obtain ⟨_, _, hpush, h⟩ := bind_eq_ok.mp h
  obtain rfl := push_eq_ok hpush
  obtain ⟨rfl, rfl⟩ := pure_eq_ok.mp h
  refine ⟨entries, target, hentries, rfl, ?_⟩
  have hframe : Int64.ofInt (entries.push (.int r.fp)).size - 1 = Int64.ofInt entries.size := by
    rw [Array.size_push, Nat.cast_succ, Int64.ofInt_add]
    exact Int64.add_sub_cancel _ _
  exact congrArg (fun fp => (⟨_, r.pc, fp⟩ : Registers)) hframe

/-- There is a value on top, and the frame that the frame pointer points to lies below it. -/
structure Framed (r : Registers) (entries : Array Value) (v : Value) (frame : Nat)
    (saved back : Int64) : Prop where
  top : r.stack.entries = entries.push v
  pointer : r.fp.toInt = frame
  saved : entries[frame]? = some (.int saved)
  back : entries[frame + 1]? = some (.int back)

/-- The registers when a return has put back a value and the frame pointer. -/
def returned (r : Registers) (entries : Array Value) (v : Value) (frame : Nat)
    (saved : Int64) : Registers where
  stack := { r.stack with entries := (entries.take frame).push v }
  pc := r.pc
  fp := saved

theorem ret_eq_ok {flow : Flow} (h : ControlOp.run .ret r = .ok flow r') :
    ∃ entries v frame saved back, r.Framed entries v frame saved back ∧
      if back = -1 then flow = .halt v
      else flow = .goto back ∧ r' = r.returned entries v frame saved := by
  simp only [ControlOp.run] at h
  obtain ⟨v, _, hpop, h⟩ := bind_eq_ok.mp h
  obtain ⟨s, htop, rfl⟩ := onStack_eq_ok hpop
  obtain ⟨entries, hentries, rfl⟩ := Stack.exists_of_pop htop
  obtain ⟨_, _, hget, h⟩ := bind_eq_ok.mp h
  obtain ⟨rfl, rfl⟩ := get_eq_ok.mp hget
  obtain ⟨saved, _, hread, h⟩ := bind_eq_ok.mp h
  obtain ⟨rfl, frame, hframe, hsaved⟩ := intAt_eq_ok hread
  obtain ⟨slot, _, hfound, h⟩ := bind_eq_ok.mp h
  obtain ⟨rfl, hslot⟩ := frameSlot_eq_ok hfound
  obtain ⟨back, _, hread', h⟩ := bind_eq_ok.mp h
  obtain ⟨rfl, next, hnext, hback⟩ := intAt_eq_ok hread'
  obtain ⟨_, _, hcut, h⟩ := bind_eq_ok.mp h
  obtain rfl := truncate_eq_ok hcut
  obtain rfl : next = frame + 1 := by
    rw [hnext, hframe, Int64.toInt_one] at hslot
    exact_mod_cast hslot
  refine ⟨entries, v, frame, saved, back, ⟨hentries, hframe, hsaved, hback⟩, ?_⟩
  by_cases houter : back = -1
  · rw [if_pos houter] at h ⊢
    exact (pure_eq_ok.mp h).1.symm
  · rw [if_neg houter] at h ⊢
    obtain ⟨_, _, hmodify, h⟩ := bind_eq_ok.mp h
    cases hmodify
    obtain ⟨_, _, hpush, h⟩ := bind_eq_ok.mp h
    obtain rfl := push_eq_ok hpush
    obtain ⟨rfl, rfl⟩ := pure_eq_ok.mp h
    refine ⟨rfl, ?_⟩
    show (⟨{ r.stack with entries := (entries.take r.fp.toInt.toNat).push v }, r.pc, saved⟩ :
      Registers) = _
    rw [hframe]
    rfl

end Registers

namespace Machine

variable {result : Option Value}

/-- A call takes its target off the stack, pushes a frame and goes on at the target. -/
theorem calls_of_step (hitem : terms.item? m.registers.pc = some (.op (.control .call)))
    (h : step terms m = .ok result m') :
    result = none ∧ ∃ entries target, m.registers.stack.entries = entries.push (.int target) ∧
      m' = m.resume 1 { m.registers.called entries with pc := target } := by
  obtain ⟨flow, r, hrun, hflow⟩ := inside_of_step hitem rfl h
  obtain ⟨entries, target, hentries, rfl, rfl⟩ := Registers.call_eq_ok hrun
  exact ⟨hflow.1, entries, target, hentries, hflow.2⟩

/-- A return finds its frame; unless that is the outermost one, it goes on at the place that
the frame has kept. -/
theorem returns_of_step (hitem : terms.item? m.registers.pc = some (.op (.control .ret)))
    (h : step terms m = .ok result m') :
    ∃ entries v frame saved back, m.registers.Framed entries v frame saved back ∧
      if back = -1 then result = some v
      else result = none ∧
        m' = m.resume 1 { m.registers.returned entries v frame saved with pc := back } := by
  obtain ⟨flow, r, hrun, hflow⟩ := inside_of_step hitem rfl h
  obtain ⟨entries, v, frame, saved, back, hframed, hback⟩ := Registers.ret_eq_ok hrun
  refine ⟨entries, v, frame, saved, back, hframed, ?_⟩
  by_cases houter : back = -1
  · rw [if_pos houter] at hback ⊢
    subst hback
    exact hflow.1
  · rw [if_neg houter] at hback ⊢
    obtain ⟨rfl, rfl⟩ := hback
    exact hflow

/-! ## Runs within a call -/

/-- A run from the first instruction after a call up to the return that belongs to it, with
the positions of the frames of all calls that have not returned, the innermost one first.
Only calls and returns move the frame pointer, and nothing overwrites or takes off an entry
of one of these frames. -/
inductive Underway (terms : Terms) (start : Machine) (base : Nat) : List Nat → Machine → Prop
  | entered : Underway terms start base [base] start
  | other {frames : List Nat} {m m' : Machine} {item : Script.Item}
      (hunderway : Underway terms start base frames m)
      (hitem : terms.item? m.registers.pc = some item) (hcall : item ≠ .op (.control .call))
      (hret : item ≠ .op (.control .ret)) (hstep : step terms m = .ok none m')
      (hfp : m'.registers.fp = m.registers.fp)
      (hkept : ∀ p ∈ frames,
        m'.registers.stack.entries[p]? = m.registers.stack.entries[p]? ∧
        m'.registers.stack.entries[p + 1]? = m.registers.stack.entries[p + 1]?) :
      Underway terms start base frames m'
  /-- The target of a call lies above all frames, and so does the frame that it pushes. -/
  | call {frames : List Nat} {m m' : Machine} (hunderway : Underway terms start base frames m)
      (hitem : terms.item? m.registers.pc = some (.op (.control .call)))
      (hstep : step terms m = .ok none m')
      (habove : ∀ p ∈ frames, p + 2 < m.registers.stack.size)
      (hword : m.registers.stack.size < 2 ^ 63) :
      Underway terms start base ((m.registers.stack.size - 1) :: frames) m'
  /-- The return of a call that was made since. -/
  | ret {p q : Nat} {frames : List Nat} {m m' : Machine}
      (hunderway : Underway terms start base (p :: q :: frames) m)
      (hitem : terms.item? m.registers.pc = some (.op (.control .ret)))
      (hstep : step terms m = .ok none m') : Underway terms start base (q :: frames) m'

/-- The frame pointer points to the innermost frame, and each frame holds the position of the
one below it; the outermost one has kept the frame pointer of the caller and the place that
it goes on at. -/
inductive Linked (entries : Array Value) (base : Nat) (caller back : Int64) :
    List Nat → Int64 → Prop
  | outermost {fp : Int64} (hfp : fp.toInt = base) (hsaved : entries[base]? = some (.int caller))
      (hback : entries[base + 1]? = some (.int back)) : Linked entries base caller back [base] fp
  | inner {p q : Nat} {frames : List Nat} {fp saved : Int64} (hfp : fp.toInt = p)
      (hsaved : entries[p]? = some (.int saved)) (hapart : q + 2 ≤ p)
      (hrest : Linked entries base caller back (q :: frames) saved) :
      Linked entries base caller back (p :: q :: frames) fp

namespace Linked

variable {entries entries' : Array Value} {base p q : Nat} {caller back fp : Int64}
variable {frames : List Nat}

/-- Only the entries of the frames matter. -/
theorem congr (h : Linked entries base caller back frames fp)
    (hkept : ∀ p ∈ frames, entries'[p]? = entries[p]? ∧ entries'[p + 1]? = entries[p + 1]?) :
    Linked entries' base caller back frames fp := by
  induction h with
  | outermost hfp hsaved hback =>
      obtain ⟨hfirst, hsecond⟩ := hkept _ List.mem_cons_self
      exact .outermost hfp (hfirst.trans hsaved) (hsecond.trans hback)
  | inner hfp hsaved hapart hrest ih =>
      obtain ⟨hframe, hframes⟩ := List.forall_mem_cons.mp hkept
      exact .inner hfp (hframe.1.trans hsaved) hapart (ih hframes)

theorem toInt_fp (h : Linked entries base caller back (p :: frames) fp) : fp.toInt = p := by
  cases h with
  | outermost hfp => exact hfp
  | inner hfp => exact hfp

/-- The frames lie one below the other. -/
theorem apart (h : Linked entries base caller back (p :: frames) fp) :
    ∀ q ∈ frames, q + 2 ≤ p := by
  induction frames generalizing p fp with
  | nil => exact fun q hq => absurd hq List.not_mem_nil
  | cons r frames ih =>
      cases h with
      | inner hfp hsaved hapart hrest =>
          refine List.forall_mem_cons.mpr ⟨hapart, fun q hq => ?_⟩
          have hlower := ih hrest q hq
          omega

/-- A call pushes its frame above the others. -/
theorem push {target next : Int64}
    (h : Linked (entries.push (.int target)) base caller back frames fp) (hframes : frames ≠ [])
    (habove : ∀ p ∈ frames, p + 2 ≤ entries.size) (hword : entries.size < 2 ^ 63) :
    Linked ((entries.push (.int fp)).push (.int next)) base caller back (entries.size :: frames)
      (Int64.ofInt entries.size) := by
  obtain ⟨q, rest, rfl⟩ := List.exists_cons_of_ne_nil hframes
  have hentry : ∀ (v w : Value) (i : Nat), i < entries.size →
      ((entries.push v).push w)[i]? = (entries.push (.int target))[i]? := by
    intro v w i hi
    rw [Array.getElem?_push, if_neg (by rw [Array.size_push]; omega), Array.getElem?_push,
      Array.getElem?_push, if_neg (Nat.ne_of_lt hi), if_neg (Nat.ne_of_lt hi)]
  refine .inner (Int64.toInt_ofNat_of_lt hword) ?_ (habove q List.mem_cons_self) (h.congr ?_)
  · rw [Array.getElem?_push, if_neg (by rw [Array.size_push]; omega), Array.getElem?_push,
      if_pos rfl]
  · intro p hp
    have hp := habove p hp
    exact ⟨hentry _ _ p (by omega), hentry _ _ (p + 1) (by omega)⟩

/-- A return drops the innermost frame, and the frame pointer that it has kept points to the
next one. -/
theorem pop {saved : Int64} {v : Value}
    (h : Linked (entries.push v) base caller back (p :: q :: frames) fp)
    (hsaved : entries[p]? = some (.int saved)) :
    Linked ((entries.take p).push v) base caller back (q :: frames) saved := by
  have hp : p < entries.size := (Array.getElem?_eq_some_iff.mp hsaved).1
  have hapart := h.apart
  have hentry : ∀ i < p, ((entries.take p).push v)[i]? = (entries.push v)[i]? := by
    intro i hi
    rw [Array.getElem?_push, if_neg (by rw [Array.size_extract]; omega), Array.getElem?_extract,
      if_pos (by omega), Array.getElem?_push, if_neg (by omega), Nat.zero_add]
  cases h with
  | inner hfp hkept hnext hrest =>
      rw [Array.getElem?_push, if_neg (Nat.ne_of_lt hp), hsaved] at hkept
      cases hkept
      refine hrest.congr fun r hr => ?_
      have hr := hapart r hr
      exact ⟨hentry r (by omega), hentry (r + 1) (by omega)⟩

end Linked

/-- The machine right after a call. -/
theorem linked_of_call {entries : Array Value} (hword : entries.size < 2 ^ 63) :
    Linked (m.registers.called entries).stack.entries entries.size m.registers.fp
      (m.registers.pc + 1) [entries.size] (m.registers.called entries).fp := by
  refine .outermost (Int64.toInt_ofNat_of_lt hword) ?_ ?_
  · show ((entries.push _).push _)[entries.size]? = _
    rw [Array.getElem?_push, if_neg (by rw [Array.size_push]; omega), Array.getElem?_push,
      if_pos rfl]
  · show ((entries.push _).push _)[entries.size + 1]? = _
    rw [Array.getElem?_push, if_pos (by rw [Array.size_push])]

/-- The frames of a run within a call stay linked, however deep its own calls are nested. -/
theorem Underway.linked {start : Machine} {base : Nat} {caller back : Int64} {frames : List Nat}
    (h : Underway terms start base frames m)
    (hstart : Linked start.registers.stack.entries base caller back [base] start.registers.fp) :
    Linked m.registers.stack.entries base caller back frames m.registers.fp ∧ frames ≠ [] := by
  induction h with
  | entered => exact ⟨hstart, List.cons_ne_nil _ _⟩
  | other hunderway hitem hcall hret hstep hfp hkept ih =>
      rw [hfp]
      exact ⟨ih.1.congr hkept, ih.2⟩
  | call hunderway hitem hstep habove hword ih =>
      obtain ⟨-, entries, target, hentries, rfl⟩ := calls_of_step hitem hstep
      obtain ⟨hlinked, hframes⟩ := ih
      have hsize : Stack.size _ = entries.size + 1 := (congrArg Array.size hentries).trans
        (Array.size_push _)
      rw [hsize] at habove hword ⊢
      rw [hentries] at hlinked
      exact ⟨hlinked.push hframes (fun p hp => by have := habove p hp; omega) (by omega),
        List.cons_ne_nil _ _⟩
  | ret hunderway hitem hstep ih =>
      obtain ⟨hlinked, -⟩ := ih
      obtain ⟨entries, v, frame, saved, back', hframed, hback⟩ := returns_of_step hitem hstep
      by_cases houter : back' = -1
      · rw [if_pos houter] at hback
        cases hback
      rw [if_neg houter] at hback
      obtain ⟨-, rfl⟩ := hback
      obtain rfl : frame = _ := by exact_mod_cast hframed.pointer.symm.trans hlinked.toInt_fp
      rw [hframed.top] at hlinked
      exact ⟨hlinked.pop hframed.saved, List.cons_ne_nil _ _⟩

/-! ## The return -/

/-- The place that a call returns to is not the mark that ends a run. -/
theorem next_ne_neg_one {item : Script.Item} {pc : Int64} (h : terms.item? pc = some item) :
    pc + 1 ≠ -1 := by
  rintro hback
  have hpc : pc = -2 := by
    rw [← Int64.add_sub_cancel pc 1, hback]
    rfl
  subst hpc
  cases h

/-- Entries that are the same up to the height of a stack are that stack. -/
theorem take_eq_of_forall {entries entries' : Array Value} (hsize : entries.size ≤ entries'.size)
    (h : ∀ i < entries.size, entries'[i]? = entries[i]?) :
    entries'.take entries.size = entries := by
  refine Array.ext_getElem? fun i => ?_
  rw [Array.take_eq_extract, Array.getElem?_extract, Nat.sub_zero, Nat.min_eq_left hsize,
    Nat.zero_add]
  by_cases hi : i < entries.size
  · rw [if_pos hi, h i hi]
  · rw [if_neg hi, Array.getElem?_eq_none (Nat.le_of_not_lt hi)]

/-- A call within a script returns to where it came from.  Whatever calls and returns are in
between, if only calls and returns move the frame pointer and the frames of the calls that
have not returned are left alone, then the return that belongs to a call goes on behind it with
the frame pointer of the caller, and puts its value on what is left of the caller's stack. -/
theorem return_to_call {m₁ m₂ m₃ : Machine} {result : Option Value} {entries : Array Value}
    {target : Int64} {v : Value}
    (hcall : terms.item? m.registers.pc = some (.op (.control .call)))
    (hstack : m.registers.stack.entries = entries.push (.int target))
    (hword : entries.size < 2 ^ 63) (hcalled : step terms m = .ok none m₁)
    (hunderway : Underway terms m₁ entries.size [entries.size] m₂)
    (hret : terms.item? m₂.registers.pc = some (.op (.control .ret)))
    (htop : m₂.registers.stack.entries.back? = some v)
    (hreturned : step terms m₂ = .ok result m₃) :
    result = none ∧ m₃.registers.pc = m.registers.pc + 1 ∧ m₃.registers.fp = m.registers.fp ∧
    entries.size < m₂.registers.stack.size ∧
    m₃.registers.stack.entries = (m₂.registers.stack.entries.take entries.size).push v ∧
    ((∀ i < entries.size, m₂.registers.stack.entries[i]? = entries[i]?) →
      m₃.registers.stack.entries = entries.push v) := by
  obtain ⟨-, _, _, hentries, rfl⟩ := calls_of_step hcall hcalled
  obtain ⟨-, rfl⟩ := Array.push_eq_push.mp (hstack.symm.trans hentries)
  obtain ⟨hlinked, -⟩ := hunderway.linked (linked_of_call hword)
  obtain ⟨rest, w, frame, saved, back, hframed, hback⟩ := returns_of_step hret hreturned
  have hreads : ∀ (i : Nat) (x : Value),
      rest[i]? = some x → m₂.registers.stack.entries[i]? = some x := by
    intro i x hx
    have hi := (Array.getElem?_eq_some_iff.mp hx).1
    rw [hframed.top, Array.getElem?_push, if_neg (Nat.ne_of_lt hi), hx]
  obtain rfl : w = v := by
    rw [hframed.top, Array.back?_push] at htop
    exact Option.some.inj htop
  cases hlinked with
  | outermost hfp hsaved' hback' =>
      obtain rfl : frame = entries.size := by exact_mod_cast hframed.pointer.symm.trans hfp
      obtain rfl : saved = m.registers.fp := by
        simpa using (hreads _ _ hframed.saved).symm.trans hsaved'
      obtain rfl : back = m.registers.pc + 1 := by
        simpa using (hreads _ _ hframed.back).symm.trans hback'
      rw [if_neg (next_ne_neg_one hcall)] at hback
      obtain ⟨rfl, rfl⟩ := hback
      have hbelow : entries.size < rest.size := (Array.getElem?_eq_some_iff.mp hframed.saved).1
      have hcut : m₂.registers.stack.entries.take entries.size = rest.take entries.size := by
        rw [hframed.top, Array.take_eq_extract, Array.extract_push, if_pos hbelow.le]
      refine ⟨rfl, rfl, rfl, ?_, congrArg (Array.push · w) hcut.symm, fun hkept => ?_⟩
      · rw [Stack.size, hframed.top, Array.size_push]
        omega
      · have hsame := take_eq_of_forall (by rw [hframed.top, Array.size_push]; omega) hkept
        exact congrArg (Array.push · w) (hcut.symm.trans hsame)

namespace Nested

/-- A script that calls itself twice over: the first call makes the second one, and passes on
what that returns. -/
def script : Terms :=
  { program := #[.op (.control .call), .op (.control .ret), .push (.int 6),
      .op (.control .call), .op (.control .ret), .push (.int 42), .op (.control .ret)]
    limits := {}, depth := 0, budget := 10 }

/-- A machine of this script, somewhere on its way. -/
def machine (entries : Array Value) (pc fp : Int64) (steps : Nat) : Machine :=
  { registers := ⟨⟨entries, 1024, 1024⟩, pc, fp⟩, steps, world := .empty 0
    account :=
      { pubKey := ⟨Vector.replicate 32 1⟩, balance := 0, code := "", ownerAccess := false
        storage := [] }
    archive := .empty }

/-- The run within the first call, from its first instruction to its return. -/
theorem underway : Underway script (machine #[.int 7, .int (-5), .int 2] 3 1 1) 1 [1]
    (machine #[.int 7, .int (-5), .int 2, .int 42] 5 1 5) := by
  have hsix : script.item? 3 = some (.push (.int 6)) := rfl
  have hvalue : script.item? 6 = some (.push (.int 42)) := rfl
  have hpushed : Underway script (machine #[.int 7, .int (-5), .int 2] 3 1 1) 1 [1]
      (machine #[.int 7, .int (-5), .int 2, .int 6] 4 1 2) := by
    refine .other .entered hsix (by decide) (by decide) rfl rfl ?_
    exact List.forall_mem_singleton.mpr ⟨rfl, rfl⟩
  have hcalled : Underway script (machine #[.int 7, .int (-5), .int 2] 3 1 1) 1 [3, 1]
      (machine #[.int 7, .int (-5), .int 2, .int 1, .int 5] 6 3 3) :=
    .call hpushed rfl rfl (by decide) (by decide)
  have hanswered : Underway script (machine #[.int 7, .int (-5), .int 2] 3 1 1) 1 [3, 1]
      (machine #[.int 7, .int (-5), .int 2, .int 1, .int 5, .int 42] 7 3 4) := by
    refine .other hcalled hvalue (by decide) (by decide) rfl rfl ?_
    exact List.forall_mem_cons.mpr ⟨⟨rfl, rfl⟩, List.forall_mem_singleton.mpr ⟨rfl, rfl⟩⟩
  exact .ret hanswered rfl rfl

end Nested

/-- The return that belongs to the first call of two. -/
theorem return_to_call_nested : ∃ m₃,
    step Nested.script (Nested.machine #[.int 7, .int (-5), .int 2, .int 42] 5 1 5) =
      .ok none m₃ ∧
    m₃.registers.pc = 2 ∧ m₃.registers.fp = -5 ∧
    m₃.registers.stack.entries = #[.int 7, .int 42] := by
  have hcalled : step Nested.script (Nested.machine #[.int 7, .int 3] 1 (-5) 0) =
      .ok none (Nested.machine #[.int 7, .int (-5), .int 2] 3 1 1) := rfl
  have hstack : (Nested.machine #[.int 7, .int 3] 1 (-5) 0).registers.stack.entries =
      #[.int 7].push (.int 3) := rfl
  have hreturned :
      step Nested.script (Nested.machine #[.int 7, .int (-5), .int 2, .int 42] 5 1 5) =
        .ok none (Nested.machine #[.int 7, .int 42] 2 (-5) 6) := rfl
  obtain ⟨-, hpc, hfp, -, -, hkept⟩ :=
    return_to_call rfl hstack (by decide) hcalled Nested.underway rfl rfl hreturned
  exact ⟨_, hreturned, hpc, hfp, hkept (by decide)⟩

end Machine

end ScriptLedger
