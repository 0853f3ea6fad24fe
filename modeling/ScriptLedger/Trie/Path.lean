import ScriptLedger.Bytes.Blob

/-!
# Paths in half bytes

A trie is keyed by digests and branches sixteen ways, so a key is a path of
sixty-four half bytes, the high half of each byte first.  `Path.ofHash` and
`Path.toHash` pass between the two forms.
-/

namespace ScriptLedger

/-- Half a byte: the choice of a child. -/
abbrev Nibble := Fin 16

/-- The depth of every leaf: one level for each half byte of a digest. -/
def trieDepth : Nat := 64

namespace Nibble

/-- The lowest half byte of a number. -/
def ofNat (n : Nat) : Nibble := ⟨n % 16, Nat.mod_lt n (by decide)⟩

/-- The two halves of a byte, high half first. -/
def split (b : UInt8) : List Nibble := [ofNat (b.toNat / 16), ofNat b.toNat]

/-- The bytes whose halves are given in pairs. -/
def join : List Nibble → List UInt8
  | high :: low :: rest => UInt8.ofNat (16 * high.val + low.val) :: join rest
  | _ => []

theorem length_flatMap_split (bytes : List UInt8) :
    (bytes.flatMap split).length = 2 * bytes.length := by
  induction bytes with
  | nil => rfl
  | cons b rest ih => simp [split] at ih ⊢; omega

@[simp] theorem join_flatMap_split (bytes : List UInt8) :
    join (bytes.flatMap split) = bytes := by
  induction bytes with
  | nil => rfl
  | cons b rest ih =>
    have hb : b.toNat < 256 := b.toNat_lt
    simp only [List.flatMap_cons, split, List.cons_append, List.nil_append, join, ih,
      List.cons.injEq, and_true]
    rw [← UInt8.toNat_inj]
    simp only [UInt8.toNat_ofNat', ofNat]
    omega

end Nibble

/-- A path through a trie, from the root down; a key has `trieDepth` half bytes. -/
abbrev Path := List Nibble

namespace Path

/-- The half bytes of a digest. -/
def ofHash (hash : Hash) : Path := hash.toList.flatMap Nibble.split

/-- The digest with the given half bytes; zero if their number is not that of
a key. -/
def toHash (path : Path) : Hash :=
  match Blob.ofList .hash (Nibble.join path) with
  | .ok hash => hash
  | .error _ => Blob.zero

/-- Half bytes that two paths share before they part. -/
def commonLength (p q : Path) : Nat :=
  ((p.zip q).takeWhile fun (a, b) => a == b).length

@[simp] theorem length_ofHash (hash : Hash) : (ofHash hash).length = trieDepth := by
  rw [ofHash, Nibble.length_flatMap_split, Blob.length_toList]; rfl

@[simp] theorem toHash_ofHash (hash : Hash) : (ofHash hash).toHash = hash := by
  simp [toHash, ofHash]

end Path

end ScriptLedger
