import ScriptLedger.Proofs.Digest.Numbers
import ScriptLedger.Proofs.Trie.Commitment

/-!
# A trie with one key

A trie with one key is a line of branches, each with one child that is not empty.  Its
hashes can be computed from the value upwards, one after the other; `climb` does so on
numbers.

## Main results

* `Node.put_empty` — a value that is put into an empty trie makes a line.
* `Node.injOn_digests_line` — a line commits to its branches, if its hashes are different.
* `Node.exists_climb` — the hashes of a line on numbers.
* `Node.nodup_lineHashes_ones` — the hashes of one line, which are different.
-/

namespace ScriptLedger

open Digest

namespace Node

variable {value : Hash} {path : Path} {hashes hashes' : Nibble → Hash}

/-! ## Lines -/

/-- The hash of one child among those of empty ones. -/
def beside (i : Nibble) (hash : Hash) : Nibble → Hash := fun j => if j = i then hash else Blob.zero

/-- The branches along a path, down to a value. -/
def line (value : Hash) : Path → Node
  | [] => .leaf value
  | i :: rest => .branch (hashOfChildren (beside i (line value rest).hash)) fun j =>
      if j = i then line value rest else .empty

/-- The hashes of the branches of a line, from the root down. -/
def lineHashes (value : Hash) : Path → List Hash
  | [] => []
  | i :: rest => (line value (i :: rest)).hash :: lineHashes value rest

theorem isEmpty_line (value : Hash) (path : Path) : (line value path).isEmpty = false := by
  cases path <;> rfl

/-- A value that is put below an empty node makes a line. -/
theorem put_empty (depth : Nat) (value : Hash) (path : Path) :
    put depth value path .empty = .ok (some (line value path)) := by
  induction path generalizing depth with
  | nil => simp [put, line]
  | cons i rest ih =>
      have hmade := ofChildren_replaceChild_eq (isEmpty_line value rest) (fun _ => .empty) i
      rw [put]
      simp only [childrenAt, ih, pure, Except.pure, bind, Except.bind, Option.map_some, hmade]
      rfl

theorem digests_line_cons {i : Nibble} {rest : Path} :
    (line value (i :: rest)).Digests hashes ↔
      hashes = beside i (line value rest).hash ∨ (line value rest).Digests hashes := by
  have hbeside : (fun j => Node.hash (if j = i then line value rest else .empty)) =
      beside i (line value rest).hash := by
    funext j
    rw [apply_ite Node.hash]
    rfl
  constructor
  · intro h
    cases h with
    | here => exact Or.inl hbeside
    | inside j h =>
        dsimp only at h
        by_cases hj : j = i
        · rw [if_pos hj] at h
          exact Or.inr h
        · rw [if_neg hj] at h
          cases h
  · rintro (rfl | h)
    · rw [← hbeside]
      exact .here
    · exact .inside i (by rwa [if_pos rfl])

theorem hashOfChildren_mem_lineHashes (h : (line value path).Digests hashes) :
    hashOfChildren hashes ∈ lineHashes value path := by
  induction path with
  | nil => cases h
  | cons i rest ih =>
      rcases digests_line_cons.mp h with rfl | h
      · exact List.mem_cons_self
      · exact List.mem_cons_of_mem _ (ih h)

/-- A line commits to its branches, if its hashes are different. -/
theorem injOn_digests_line (h : (lineHashes value path).Nodup) :
    {hashes | (line value path).Digests hashes}.InjOn hashOfChildren := by
  induction path with
  | nil => exact fun hashes hmem => by cases hmem
  | cons i rest ih =>
      obtain ⟨hnew, hrest⟩ := List.nodup_cons.mp h
      intro hashes hmem hashes' hmem' heq
      rcases digests_line_cons.mp hmem with rfl | hmem
      · rcases digests_line_cons.mp hmem' with rfl | hmem'
        · rfl
        · have hbelow := hashOfChildren_mem_lineHashes hmem'
          rw [← heq] at hbelow
          exact absurd hbelow hnew
      · rcases digests_line_cons.mp hmem' with rfl | hmem'
        · have hbelow := hashOfChildren_mem_lineHashes hmem
          rw [heq] at hbelow
          exact absurd hbelow hnew
        · exact ih hrest hmem hmem' heq

/-! ## Digests as numbers -/

/-- The digest that words write. -/
def ofWords (w : Octet UInt32) : Hash :=
  ⟨⟨(w.toList.flatMap Sha2.toBytes).toArray, by
    rw [List.size_toArray, Numbers.length_flatMap_eq Numbers.length_toBytes]
    rfl⟩⟩

theorem toList_ofWords (w : Octet UInt32) : (ofWords w).toList = w.toList.flatMap Sha2.toBytes := by
  simp only [ofWords, Blob.toList, Vector.toList_mk]

/-- Eight numbers as a state. -/
def octet : List Nat → Octet Nat
  | [a, b, c, d, e, f, g, h] => ⟨a, b, c, d, e, f, g, h⟩
  | _ => ⟨0, 0, 0, 0, 0, 0, 0, 0⟩

/-- The numbers that a digest writes. -/
def toNumbers (hash : Hash) : Octet Nat :=
  octet ((pieces 4 8 hash.toList).map fun bytes => (Sha2.ofBytes (W := UInt32) bytes).toNat)

/-- The numbers are words, and write the digest. -/
def Writes (d : Octet Nat) (hash : Hash) : Prop :=
  ∃ w : Octet UInt32, d = w.map UInt32.toNat ∧ hash = ofWords w

namespace Writes

variable {d : Octet Nat} {hash : Hash}

theorem ofWords_eq (h : Writes d hash) : ofWords (d.map UInt32.ofNat) = hash := by
  obtain ⟨w, rfl, rfl⟩ := h
  simp [Octet.map]

theorem toNumbers_eq (h : Writes d hash) : toNumbers hash = d := by
  obtain ⟨w, rfl, rfl⟩ := h
  have hpieces : pieces 4 8 (ofWords w).toList = w.toList.map Sha2.toBytes := by
    rw [toList_ofWords, List.flatMap_def]
    refine Numbers.pieces_flatten (l := w.toList.map Sha2.toBytes) fun piece hmem => ?_
    obtain ⟨word, -, rfl⟩ := List.mem_map.mp hmem
    exact Numbers.length_toBytes word
  have hwords : (w.toList.map Sha2.toBytes).map
      (fun bytes => (Sha2.ofBytes (W := UInt32) bytes).toNat) = w.toList.map UInt32.toNat := by
    rw [List.map_map]
    exact List.map_congr_left fun word _ => congrArg UInt32.toNat (Numbers.ofBytes_toBytes word)
  rw [toNumbers, hpieces, hwords]
  rfl

end Writes

/-! ## Lines on numbers -/

/-- The block that pads a message of eight blocks. -/
def padding : List UInt32 := 0x80000000 :: (List.replicate 14 0 ++ [4096])

theorem padded_eq {message : List UInt8} (h : message.length = 512) :
    padded UInt32 message = message ++ padding.flatMap Sha2.toBytes := by
  unfold padded
  rw [h, List.append_assoc]
  rfl

/-- The digests of sixteen children, if one of them is given and all others are zero, and
the padding of that message. -/
def message (i : Nibble) (d : Octet Nat) : List Nat :=
  ((List.finRange 16).flatMap fun j => if j = i then d.toList else List.replicate 8 0) ++
    0x80000000 :: (List.replicate 14 0 ++ [4096])

theorem exists_hash_message {d : Octet Nat} {hash : Hash} (h : Writes d hash) (i : Nibble) :
    ∃ root, Writes root (hashOfChildren (beside i hash)) ∧
      ∀ {α : Type} (k : Octet Nat → α), Numbers.hash 9 (message i d) k = k root := by
  obtain ⟨w, rfl, rfl⟩ := h
  let child (j : Nibble) : List UInt32 := if j = i then w.toList else List.replicate 8 0
  have hlength : ∀ j, (child j).length = 8 := by
    intro j
    by_cases hj : j = i
    · simp only [child, if_pos hj]
      rfl
    · simp only [child, if_neg hj, List.length_replicate]
  have hbytes : (List.finRange 16).flatMap (fun j => (beside i (ofWords w) j).toList) =
      ((List.finRange 16).flatMap child).flatMap Sha2.toBytes := by
    rw [List.flatMap_assoc]
    refine congrArg (List.flatMap · (List.finRange 16)) (funext fun j => ?_)
    by_cases hj : j = i
    · simp only [beside, child, if_pos hj, toList_ofWords]
    · simp only [beside, child, if_neg hj]
      rfl
  have hall : ((List.finRange 16).flatMap child).length = 128 := by
    rw [Numbers.length_flatMap_eq hlength, List.length_finRange]
  have hcount : ((List.finRange 16).flatMap child ++ padding).length = 16 * 9 := by
    rw [List.length_append, hall]
    rfl
  have hpadded : padded UInt32
      ((List.finRange 16).flatMap fun j => (beside i (ofWords w) j).toList) =
        ((List.finRange 16).flatMap child ++ padding).flatMap Sha2.toBytes := by
    rw [padded_eq, hbytes, List.flatMap_append]
    rw [hbytes, Numbers.length_flatMap_eq Numbers.length_toBytes, hall]
  obtain ⟨final, hfinal, hk⟩ := Numbers.exists_hash hcount hpadded
  have hmessage : ((List.finRange 16).flatMap child ++ padding).map UInt32.toNat =
      message i (w.map UInt32.toNat) := by
    rw [List.map_append, List.map_flatMap, message]
    refine congrArg₂ _ (congrArg (List.flatMap · (List.finRange 16)) (funext fun j => ?_)) rfl
    simp only [child, apply_ite (List.map UInt32.toNat)]
    rfl
  refine ⟨_, ⟨final, rfl, ?_⟩, fun k => by rw [← hmessage]; exact hk k⟩
  exact Blob.ext (Vector.toArray_inj.mp (congrArg List.toArray hfinal))

/-- Goes on with the hash of a line and the hashes of its branches. -/
noncomputable def climb {α : Type} : Path → Octet Nat → (Octet Nat → List (Octet Nat) → α) → α
  | [], d, k => k d []
  | i :: rest, d, k => climb rest d fun below seen =>
      Numbers.hash 9 (message i below) fun root => k root (root :: seen)

theorem exists_climb {d : Octet Nat} (h : Writes d value) (path : Path) :
    ∃ root seen, Writes root (line value path).hash ∧
      List.Forall₂ Writes seen (lineHashes value path) ∧
        ∀ {α : Type} (k : Octet Nat → List (Octet Nat) → α), climb path d k = k root seen := by
  induction path with
  | nil => exact ⟨d, [], h, .nil, fun k => rfl⟩
  | cons i rest ih =>
      obtain ⟨below, seen, hbelow, hseen, hclimb⟩ := ih
      obtain ⟨root, hroot, hhash⟩ := exists_hash_message hbelow i
      refine ⟨root, root :: seen, hroot, .cons hroot hseen, fun k => ?_⟩
      rw [climb, hclimb, hhash]

/-- The first word of a digest. -/
def firstWord (hash : Hash) : Nat := (toNumbers hash).a

theorem map_firstWord {seen : List (Octet Nat)} {hashes : List Hash}
    (h : List.Forall₂ Writes seen hashes) : hashes.map firstWord = seen.map Octet.a := by
  induction h with
  | nil => rfl
  | cons hd _ ih => rw [List.map_cons, List.map_cons, firstWord, hd.toNumbers_eq, ih]

/-- Digests whose first words are different from each other and from zero are, too. -/
theorem nodup_of_climb {seen : List (Octet Nat)} {hashes : List Hash}
    (h : List.Forall₂ Writes seen hashes) (hseen : (0 :: seen.map Octet.a).Nodup) :
    (Blob.zero :: hashes).Nodup := by
  refine List.Nodup.of_map firstWord ?_
  rw [List.map_cons, map_firstWord h]
  exact hseen

/-- A value that is not zero. -/
def ones : Hash := ofWords ⟨1, 1, 1, 1, 1, 1, 1, 1⟩

/-- The hashes of the line of this value under the least key are different, and none is zero. -/
theorem nodup_lineHashes_ones : (Blob.zero :: lineHashes ones (Path.ofHash Blob.zero)).Nodup := by
  have hwrites : Writes ⟨1, 1, 1, 1, 1, 1, 1, 1⟩ ones := ⟨_, rfl, rfl⟩
  obtain ⟨root, seen, -, hseen, hclimb⟩ := exists_climb hwrites (Path.ofHash Blob.zero)
  have hcomputed : climb (Path.ofHash Blob.zero) ⟨1, 1, 1, 1, 1, 1, 1, 1⟩
      (fun _ seen => decide (0 :: seen.map Octet.a).Nodup) = true := by
    decide +kernel
  rw [hclimb, decide_eq_true_iff] at hcomputed
  exact nodup_of_climb hseen hcomputed

end Node

end ScriptLedger
