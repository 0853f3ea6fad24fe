import ScriptLedger.Digest.Basic

/-!
# SHA-256 on numbers

A proof that depends on the value of a digest has to compute it, and a message of many
blocks takes long if every word is a wrapped number and every value is kept as a term until
it is asked for.  Here is the same algorithm on plain numbers below `2 ^ 32`.  The functions
on numbers are called by their own names, because these are the ones that reduce at once,
and `force` computes a number before it is used.

## Main results

* `Digest.Numbers.stirAll_eq` — all rounds of a block.
* `Digest.Numbers.exists_hash` — the digest of a message that is given in words.
-/

namespace ScriptLedger.Digest

/-! ## States of anything -/

/-- The words of a state, each replaced. -/
def Octet.map {W V : Type} (f : W → V) (s : Octet W) : Octet V :=
  ⟨f s.a, f s.b, f s.c, f s.d, f s.e, f s.f, f s.g, f s.h⟩

/-- The state after one more block, given as words. -/
def Octet.absorbWords {W : Type} [Sha2 W] (s : Octet W) (words : List W) : Octet W :=
  s.add (stirAll Sha2.rounds (extended words) s)

/-- Words that no round is left for make no difference. -/
theorem Octet.stirAll_append {W : Type} [Sha2 W] {rounds words : List W} (extra : List W)
    (s : Octet W) (h : rounds.length ≤ words.length) :
    stirAll rounds (words ++ extra) s = stirAll rounds words s := by
  induction rounds generalizing words s with
  | nil => simp [stirAll]
  | cons r rounds ih =>
      cases words with
      | nil => simp at h
      | cons w words => exact ih _ (Nat.le_of_succ_le_succ h)

namespace Numbers

variable {α : Type}

/-! ## Computing first -/

/-- Goes on with a number that has been computed. -/
noncomputable def force (n : Nat) (k : Nat → α) : α := n.rec (k 0) fun n _ => k n.succ

theorem force_eq (n : Nat) (k : Nat → α) : force n k = k n := by
  cases n <;> rfl

/-- Goes on with numbers that have been computed. -/
noncomputable def forceAll : List Nat → (List Nat → α) → α
  | [], k => k []
  | n :: rest, k => force n fun n => forceAll rest fun rest => k (n :: rest)

theorem forceAll_eq (l : List Nat) (k : List Nat → α) : forceAll l k = k l := by
  induction l generalizing k with
  | nil => rfl
  | cons n rest ih => rw [forceAll, force_eq, ih]

/-! ## Words as numbers -/

/-- The word that a number is cut to. -/
def cut (n : Nat) : Nat := n.mod 4294967296

theorem cut_eq (n : Nat) : cut n = n % 4294967296 := rfl

/-- Rotates a word to the right. -/
def rotate (x amount : Nat) : Nat :=
  (x.shiftRight amount).lor (cut (x.shiftLeft (Nat.sub 32 amount)))

def extendLow (x : Nat) : Nat := ((rotate x 7).xor (rotate x 18)).xor (x.shiftRight 3)

def extendHigh (x : Nat) : Nat := ((rotate x 17).xor (rotate x 19)).xor (x.shiftRight 10)

def stirLow (x : Nat) : Nat := ((rotate x 2).xor (rotate x 13)).xor (rotate x 22)

def stirHigh (x : Nat) : Nat := ((rotate x 6).xor (rotate x 11)).xor (rotate x 25)

def choice (e f g : Nat) : Nat := (e.land f).xor ((Nat.sub 4294967295 e).land g)

def majority (a b c : Nat) : Nat := ((a.land b).xor (a.land c)).xor (b.land c)

section Words

variable (x y z : UInt32)

theorem toNat_add : (x + y).toNat = cut (x.toNat.add y.toNat) := UInt32.toNat_add x y

theorem toNat_extendLow : (Sha2.extendLow x).toNat = extendLow x.toNat := by
  simp only [Sha2.extendLow, rotate32, UInt32.reduceSub, UInt32.toNat_xor, UInt32.toNat_or,
    UInt32.toNat_shiftRight, UInt32.reduceToNat, Nat.reduceMod, UInt32.toNat_shiftLeft]
  rfl

theorem toNat_extendHigh : (Sha2.extendHigh x).toNat = extendHigh x.toNat := by
  simp only [Sha2.extendHigh, rotate32, UInt32.reduceSub, UInt32.toNat_xor, UInt32.toNat_or,
    UInt32.toNat_shiftRight, UInt32.reduceToNat, Nat.reduceMod, UInt32.toNat_shiftLeft]
  rfl

theorem toNat_stirLow : (Sha2.stirLow x).toNat = stirLow x.toNat := by
  simp only [Sha2.stirLow, rotate32, UInt32.reduceSub, UInt32.toNat_xor, UInt32.toNat_or,
    UInt32.toNat_shiftRight, UInt32.reduceToNat, Nat.reduceMod, UInt32.toNat_shiftLeft]
  rfl

theorem toNat_stirHigh : (Sha2.stirHigh x).toNat = stirHigh x.toNat := by
  simp only [Sha2.stirHigh, rotate32, UInt32.reduceSub, UInt32.toNat_xor, UInt32.toNat_or,
    UInt32.toNat_shiftRight, UInt32.reduceToNat, Nat.reduceMod, UInt32.toNat_shiftLeft]
  rfl

theorem toNat_choice : ((x &&& y) ^^^ (~~~x &&& z)).toNat = choice x.toNat y.toNat z.toNat := by
  simp only [UInt32.toNat_xor, UInt32.toNat_and, UInt32.toNat_not]
  rfl

theorem toNat_majority : ((x &&& y) ^^^ (x &&& z) ^^^ (y &&& z)).toNat =
    majority x.toNat y.toNat z.toNat := by
  simp only [UInt32.toNat_xor, UInt32.toNat_and]
  rfl

end Words

/-! ## Rounds -/

/-- The word that follows a window of sixteen. -/
def next (w₀ w₁ w₉ w₁₄ : Nat) : Nat :=
  cut ((w₀.add (extendLow w₁)).add (w₉.add (extendHigh w₁₄)))

/-- What a round makes of the second half of the state and a word; not cut yet. -/
def mixture (e f g h r w : Nat) : Nat :=
  (((h.add (stirHigh e)).add (choice e f g)).add r).add w

/-- What a round makes of the first half of the state; not cut yet. -/
def spread (a b c : Nat) : Nat := (stirLow a).add (majority a b c)

/-- One constant for each round. -/
def rounds : List Nat :=
  [0x428a2f98, 0x71374491, 0xb5c0fbcf, 0xe9b5dba5, 0x3956c25b, 0x59f111f1,
   0x923f82a4, 0xab1c5ed5, 0xd807aa98, 0x12835b01, 0x243185be, 0x550c7dc3,
   0x72be5d74, 0x80deb1fe, 0x9bdc06a7, 0xc19bf174, 0xe49b69c1, 0xefbe4786,
   0x0fc19dc6, 0x240ca1cc, 0x2de92c6f, 0x4a7484aa, 0x5cb0a9dc, 0x76f988da,
   0x983e5152, 0xa831c66d, 0xb00327c8, 0xbf597fc7, 0xc6e00bf3, 0xd5a79147,
   0x06ca6351, 0x14292967, 0x27b70a85, 0x2e1b2138, 0x4d2c6dfc, 0x53380d13,
   0x650a7354, 0x766a0abb, 0x81c2c92e, 0x92722c85, 0xa2bfe8a1, 0xa81a664b,
   0xc24b8b70, 0xc76c51a3, 0xd192e819, 0xd6990624, 0xf40e3585, 0x106aa070,
   0x19a4c116, 0x1e376c08, 0x2748774c, 0x34b0bcb5, 0x391c0cb3, 0x4ed8aa4a,
   0x5b9cca4f, 0x682e6ff3, 0x748f82ee, 0x78a5636f, 0x84c87814, 0x8cc70208,
   0x90befffa, 0xa4506ceb, 0xbef9a3f7, 0xc67178f2]

theorem rounds_eq : rounds = (Sha2.rounds (W := UInt32)).map UInt32.toNat := rfl

/-- All rounds of a block.  The words that are left are a window of sixteen and those that
follow it. -/
noncomputable def stirAll (l : List Nat) :
    (w₀ w₁ w₂ w₃ w₄ w₅ w₆ w₇ w₈ w₉ w₁₀ w₁₁ w₁₂ w₁₃ w₁₄ w₁₅ a b c d e f g h : Nat) →
      (Octet Nat → α) → α :=
  l.rec (fun _ _ _ _ _ _ _ _ _ _ _ _ _ _ _ _ a b c d e f g h k => k ⟨a, b, c, d, e, f, g, h⟩)
    fun r _ rest w₀ w₁ w₂ w₃ w₄ w₅ w₆ w₇ w₈ w₉ w₁₀ w₁₁ w₁₂ w₁₃ w₁₄ w₁₅ a b c d e f g h k =>
      force (next w₀ w₁ w₉ w₁₄) fun w₁₆ =>
      force (mixture e f g h r w₀) fun t =>
      force (cut (t.add (spread a b c))) fun a' =>
      force (cut (d.add t)) fun e' =>
      rest w₁ w₂ w₃ w₄ w₅ w₆ w₇ w₈ w₉ w₁₀ w₁₁ w₁₂ w₁₃ w₁₄ w₁₅ w₁₆ a' a b c e' e f g k

theorem stirAll_cons (r : Nat) (l : List Nat)
    (w₀ w₁ w₂ w₃ w₄ w₅ w₆ w₇ w₈ w₉ w₁₀ w₁₁ w₁₂ w₁₃ w₁₄ w₁₅ a b c d e f g h : Nat)
    (k : Octet Nat → α) :
    stirAll (r :: l) w₀ w₁ w₂ w₃ w₄ w₅ w₆ w₇ w₈ w₉ w₁₀ w₁₁ w₁₂ w₁₃ w₁₄ w₁₅ a b c d e f g h k =
      stirAll l w₁ w₂ w₃ w₄ w₅ w₆ w₇ w₈ w₉ w₁₀ w₁₁ w₁₂ w₁₃ w₁₄ w₁₅ (next w₀ w₁ w₉ w₁₄)
        (cut ((mixture e f g h r w₀).add (spread a b c))) a b c
        (cut (d.add (mixture e f g h r w₀))) e f g k := by
  simp only [stirAll, force_eq]

section Stir

variable (s : Octet UInt32) (r w : UInt32)

theorem toNat_next (w₀ w₁ w₉ w₁₄ : UInt32) :
    (w₀ + Sha2.extendLow w₁ + (w₉ + Sha2.extendHigh w₁₄)).toNat =
      next w₀.toNat w₁.toNat w₉.toNat w₁₄.toNat := by
  simp only [toNat_add, toNat_extendLow, toNat_extendHigh, next, cut_eq, Nat.add_eq]
  exact (Nat.add_mod _ _ _).symm

theorem toNat_stir_a : (s.stir r w).a.toNat = cut
    ((mixture s.e.toNat s.f.toNat s.g.toNat s.h.toNat r.toNat w.toNat).add
      (spread s.a.toNat s.b.toNat s.c.toNat)) := by
  simp only [Octet.stir, toNat_add, toNat_stirHigh, toNat_stirLow, toNat_choice, toNat_majority,
    mixture, spread, cut_eq, Nat.add_eq]
  omega

theorem toNat_stir_e : (s.stir r w).e.toNat = cut
    (s.d.toNat.add (mixture s.e.toNat s.f.toNat s.g.toNat s.h.toNat r.toNat w.toNat)) := by
  simp only [Octet.stir, toNat_add, toNat_stirHigh, toNat_choice, mixture, cut_eq, Nat.add_eq]
  omega

end Stir

/-- The rounds on numbers are the rounds on words. -/
theorem stirAll_eq (rs : List UInt32) (count : Nat)
    (w₀ w₁ w₂ w₃ w₄ w₅ w₆ w₇ w₈ w₉ w₁₀ w₁₁ w₁₂ w₁₃ w₁₄ w₁₅ : UInt32) (s : Octet UInt32)
    (hcount : rs.length ≤ 16 + count) (k : Octet Nat → α) :
    stirAll (rs.map UInt32.toNat) w₀.toNat w₁.toNat w₂.toNat w₃.toNat w₄.toNat w₅.toNat w₆.toNat
      w₇.toNat w₈.toNat w₉.toNat w₁₀.toNat w₁₁.toNat w₁₂.toNat w₁₃.toNat w₁₄.toNat w₁₅.toNat
      s.a.toNat s.b.toNat s.c.toNat s.d.toNat s.e.toNat s.f.toNat s.g.toNat s.h.toNat k =
    k ((Octet.stirAll rs
      ([w₀, w₁, w₂, w₃, w₄, w₅, w₆, w₇, w₈, w₉, w₁₀, w₁₁, w₁₂, w₁₃, w₁₄, w₁₅] ++
        extension count
          [w₀, w₁, w₂, w₃, w₄, w₅, w₆, w₇, w₈, w₉, w₁₀, w₁₁, w₁₂, w₁₃, w₁₄, w₁₅]) s).map
      UInt32.toNat) := by
  induction rs generalizing count w₀ w₁ w₂ w₃ w₄ w₅ w₆ w₇ w₈ w₉ w₁₀ w₁₁ w₁₂ w₁₃ w₁₄ w₁₅ s with
  | nil => rfl
  | cons r rs ih =>
      rw [List.map_cons, stirAll_cons, ← toNat_next, ← toNat_stir_a, ← toNat_stir_e]
      cases count with
      | succ count =>
          have hleft : rs.length ≤ 16 + count := Nat.le_of_succ_le_succ hcount
          exact ih count _ _ _ _ _ _ _ _ _ _ _ _ _ _ _ _ (s.stir r w₀) hleft
      | zero =>
          -- No word follows the window, and the rounds that are left need none.
          have hleft : rs.length ≤ [w₁, w₂, w₃, w₄, w₅, w₆, w₇, w₈, w₉, w₁₀, w₁₁, w₁₂, w₁₃, w₁₄,
              w₁₅].length := Nat.le_of_succ_le_succ hcount
          refine (ih 0 _ _ _ _ _ _ _ _ _ _ _ _ _ _ _ _ (s.stir r w₀) (Nat.le_succ_of_le hleft)).trans ?_
          exact congrArg (fun t => k (Octet.map UInt32.toNat t)) (Octet.stirAll_append [_] _ hleft)

/-! ## Messages -/

/-- The state after one more block. -/
noncomputable def absorb (s : Octet Nat) (words : List Nat) (k : Octet Nat → α) : α :=
  forceAll words fun words =>
    match words with
    | [w₀, w₁, w₂, w₃, w₄, w₅, w₆, w₇, w₈, w₉, w₁₀, w₁₁, w₁₂, w₁₃, w₁₄, w₁₅] =>
      stirAll rounds w₀ w₁ w₂ w₃ w₄ w₅ w₆ w₇ w₈ w₉ w₁₀ w₁₁ w₁₂ w₁₃ w₁₄ w₁₅
        s.a s.b s.c s.d s.e s.f s.g s.h fun t =>
          force (cut (s.a.add t.a)) fun a => force (cut (s.b.add t.b)) fun b =>
          force (cut (s.c.add t.c)) fun c => force (cut (s.d.add t.d)) fun d =>
          force (cut (s.e.add t.e)) fun e => force (cut (s.f.add t.f)) fun f =>
          force (cut (s.g.add t.g)) fun g => force (cut (s.h.add t.h)) fun h =>
            k ⟨a, b, c, d, e, f, g, h⟩
    | _ => k s

theorem absorb_eq (s : Octet UInt32) {words : List UInt32} (h : words.length = 16)
    (k : Octet Nat → α) : absorb (s.map UInt32.toNat) (words.map UInt32.toNat) k =
      k ((s.absorbWords words).map UInt32.toNat) := by
  obtain ⟨w₀, w₁, w₂, w₃, w₄, w₅, w₆, w₇, w₈, w₉, w₁₀, w₁₁, w₁₂, w₁₃, w₁₄, w₁₅, rfl⟩ :
      ∃ w₀ w₁ w₂ w₃ w₄ w₅ w₆ w₇ w₈ w₉ w₁₀ w₁₁ w₁₂ w₁₃ w₁₄ w₁₅,
        words = [w₀, w₁, w₂, w₃, w₄, w₅, w₆, w₇, w₈, w₉, w₁₀, w₁₁, w₁₂, w₁₃, w₁₄, w₁₅] := by
    match words, h with
    | [_, _, _, _, _, _, _, _, _, _, _, _, _, _, _, _], _ =>
      exact ⟨_, _, _, _, _, _, _, _, _, _, _, _, _, _, _, _, rfl⟩
  rw [absorb, forceAll_eq, rounds_eq]
  refine (stirAll_eq Sha2.rounds 48 _ _ _ _ _ _ _ _ _ _ _ _ _ _ _ _ s (Nat.le_refl 64) _).trans ?_
  simp only [force_eq]
  exact congrArg k (by simp only [Octet.map, Octet.absorbWords, Octet.add, toNat_add]; rfl)

/-- The state after all blocks. -/
noncomputable def absorbAll : List (List Nat) → Octet Nat → (Octet Nat → α) → α
  | [], s, k => k s
  | words :: rest, s, k => absorb s words fun s => absorbAll rest s k

theorem absorbAll_eq {blocks : List (List UInt32)} (h : ∀ words ∈ blocks, words.length = 16)
    (s : Octet UInt32) (k : Octet Nat → α) :
    absorbAll (blocks.map (List.map UInt32.toNat)) (s.map UInt32.toNat) k =
      k ((blocks.foldl Octet.absorbWords s).map UInt32.toNat) := by
  induction blocks generalizing s with
  | nil => rfl
  | cons words rest ih =>
      rw [List.map_cons, absorbAll, absorb_eq s (h words List.mem_cons_self),
        ih fun other hmem => h other (List.mem_cons_of_mem _ hmem)]
      rfl

/-- The state before the first block. -/
def start : Octet Nat :=
  ⟨0x6a09e667, 0xbb67ae85, 0x3c6ef372, 0xa54ff53a, 0x510e527f, 0x9b05688c, 0x1f83d9ab, 0x5be0cd19⟩

/-- The digest of a padded message of so many blocks. -/
noncomputable def hash (count : Nat) (words : List Nat) (k : Octet Nat → α) : α :=
  absorbAll (pieces 16 count words) start k

/-! ## Bytes -/

theorem toNat_append (w : UInt32) (b : UInt8) :
    ((w <<< 8) ||| b.toUInt32).toNat = (w.toNat * 256 + b.toNat) % 4294967296 := by
  have hb : b.toNat < 2 ^ 8 := b.toNat_lt
  have hcut : w.toNat <<< 8 % 4294967296 = (w.toNat % 16777216) <<< 8 := by
    simp only [Nat.shiftLeft_eq]
    omega
  have hor : ((w <<< 8) ||| b.toUInt32).toNat = (w.toNat <<< 8 % 4294967296) ||| b.toNat := by simp
  rw [hor, hcut, ← Nat.shiftLeft_add_eq_or_of_lt hb, Nat.shiftLeft_eq]
  omega

/-- The bytes of a word write it. -/
theorem ofBytes_toBytes (w : UInt32) : Sha2.ofBytes (Sha2.toBytes w) = w := by
  have hlt : w.toNat < 4294967296 := w.toNat_lt
  rw [← UInt32.toNat_inj]
  simp only [Sha2.ofBytes, Sha2.toBytes, List.map_cons, List.map_nil, List.foldl_cons,
    List.foldl_nil, toNat_append]
  simp only [UInt32.toNat_toUInt8, UInt32.toNat_shiftRight, UInt32.reduceToNat, Nat.reduceMod,
    Nat.shiftRight_eq_div_pow]
  omega

theorem length_toBytes (w : UInt32) : (Sha2.toBytes w).length = 4 := rfl

section Pieces

variable {β γ : Type} {size : Nat}

theorem pieces_flatten {l : List (List β)} (h : ∀ piece ∈ l, piece.length = size) :
    pieces size l.length l.flatten = l := by
  induction l with
  | nil => rfl
  | cons piece rest ih =>
      have hpiece := h piece List.mem_cons_self
      rw [List.length_cons, pieces, List.flatten_cons, List.take_left' hpiece,
        List.drop_left' hpiece, ih fun other hmem => h other (List.mem_cons_of_mem _ hmem)]

theorem length_of_mem_pieces {count : Nat} {l piece : List β} (hl : l.length = size * count)
    (h : piece ∈ pieces size count l) : piece.length = size := by
  induction count generalizing l with
  | zero => exact absurd h List.not_mem_nil
  | succ count ih =>
      rw [Nat.mul_succ] at hl
      rcases List.mem_cons.mp h with rfl | h
      · rw [List.length_take]
        omega
      · exact ih (by rw [List.length_drop]; omega) h

theorem length_flatMap_eq {width : Nat} {f : β → List γ} (hf : ∀ x, (f x).length = width)
    (l : List β) : (l.flatMap f).length = l.length * width := by
  induction l with
  | nil => simp
  | cons x rest ih =>
      rw [List.flatMap_cons, List.length_append, hf, ih, List.length_cons, Nat.succ_mul, Nat.add_comm]

/-- Cutting what a list writes is cutting the list, if each item writes as much. -/
theorem pieces_flatMap {width : Nat} {f : β → List γ} (hf : ∀ x, (f x).length = width)
    {count : Nat} {l : List β} (hl : l.length = size * count) :
    pieces (size * width) count (l.flatMap f) = (pieces size count l).map (List.flatMap f) := by
  induction count generalizing l with
  | zero => rfl
  | succ count ih =>
      rw [Nat.mul_succ] at hl
      have hfirst : ((l.take size).flatMap f).length = size * width := by
        rw [length_flatMap_eq hf, List.length_take, Nat.min_eq_left (by omega)]
      have hsplit : l.flatMap f = (l.take size).flatMap f ++ (l.drop size).flatMap f := by
        rw [← List.flatMap_append, List.take_append_drop]
      rw [pieces, pieces, List.map_cons, hsplit, List.take_left' hfirst, List.drop_left' hfirst,
        ih (by rw [List.length_drop]; omega)]

theorem pieces_map (f : β → γ) (count : Nat) (l : List β) :
    pieces size count (l.map f) = (pieces size count l).map (List.map f) := by
  induction count generalizing l with
  | zero => rfl
  | succ count ih => rw [pieces, pieces, ← List.map_take, ← List.map_drop, ih]; rfl

end Pieces

/-- A block of bytes is absorbed as the words that it writes. -/
theorem absorb_flatMap (s : Octet UInt32) {words : List UInt32} (h : words.length = 16) :
    s.absorb (words.flatMap Sha2.toBytes) = s.absorbWords words := by
  have hpieces : pieces 4 16 (words.flatMap Sha2.toBytes) = words.map Sha2.toBytes := by
    rw [List.flatMap_def, ← h, ← List.length_map Sha2.toBytes]
    refine pieces_flatten fun piece hmem => ?_
    obtain ⟨w, -, rfl⟩ := List.mem_map.mp hmem
    rfl
  have hwords : (words.map Sha2.toBytes).map (Sha2.ofBytes (W := UInt32)) = words := by
    rw [List.map_map]
    exact (List.map_congr_left fun w _ => ofBytes_toBytes w).trans (List.map_id words)
  unfold Octet.absorb Octet.absorbWords
  rw [show Sha2.wordSize UInt32 = 4 from rfl, hpieces, hwords]

theorem foldl_absorb {blocks : List (List UInt32)} (h : ∀ words ∈ blocks, words.length = 16)
    (s : Octet UInt32) :
    (blocks.map (List.flatMap Sha2.toBytes)).foldl Octet.absorb s =
      blocks.foldl Octet.absorbWords s := by
  induction blocks generalizing s with
  | nil => rfl
  | cons words rest ih =>
      rw [List.map_cons, List.foldl_cons, List.foldl_cons, absorb_flatMap s (h _ List.mem_cons_self),
        ih fun other hmem => h other (List.mem_cons_of_mem _ hmem)]

/-- The digest of a message, if its padded bytes are given in words. -/
theorem exists_hash {message : List UInt8} {words : List UInt32} {count : Nat}
    (hcount : words.length = 16 * count)
    (hwords : padded UInt32 message = words.flatMap Sha2.toBytes) :
    ∃ final : Octet UInt32, Digest.hash UInt32 message = final.toList.flatMap Sha2.toBytes ∧
      ∀ {α : Type} (k : Octet Nat → α),
        hash count (words.map UInt32.toNat) k = k (final.map UInt32.toNat) := by
  refine ⟨(pieces 16 count words).foldl Octet.absorbWords (Octet.start UInt32), ?_, fun k => ?_⟩
  · have hlength : (padded UInt32 message).length / 64 = count := by
      rw [hwords, length_flatMap_eq length_toBytes, hcount]
      omega
    have hblocks : (pieces 64 count (padded UInt32 message)).foldl Octet.absorb
        (Octet.start UInt32) =
          (pieces 16 count words).foldl Octet.absorbWords (Octet.start UInt32) := by
      rw [hwords, pieces_flatMap length_toBytes hcount]
      exact foldl_absorb (fun piece => length_of_mem_pieces hcount) (Octet.start UInt32)
    rw [← hblocks, ← hlength]
    rfl
  · rw [hash, pieces_map]
    exact absorbAll_eq (fun piece => length_of_mem_pieces hcount) (Octet.start UInt32) k

end Numbers

end ScriptLedger.Digest
