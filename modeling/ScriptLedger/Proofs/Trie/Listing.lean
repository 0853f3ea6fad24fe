import ScriptLedger.Proofs.Trie.Canonical

/-!
# The leaves of a trie in order

The leaves of a canonical trie are what is found in it, each once, and in the order of the
bytes of their keys.  A key is cut into half bytes with the high half first, so the order of
the paths is the order of the keys.

## Main results

* `Trie.mem_leaves_iff` — the leaves are what is found.
* `Trie.get_of_mem_leaves` — whatever the trie, a leaf of it is found under its key.
* `Trie.pairwise_leaves` — their keys ascend.
-/

namespace ScriptLedger

/-! ## Orders -/

theorem Nibble.flatMap_split_lt_iff {l l' : List UInt8} :
    l.flatMap split < l'.flatMap split ↔ l < l' := by
  induction l generalizing l' with
  | nil =>
      cases l' with
      | nil => simp
      | cons c rest' => simp [split]
  | cons b rest ih =>
      cases l' with
      | nil => simp [split]
      | cons c rest' =>
          have hb : b.toNat < 256 := b.toNat_lt
          have hc : c.toNat < 256 := c.toNat_lt
          simp only [List.flatMap_cons, split, List.cons_append, List.nil_append,
            List.cons_lt_cons_iff, ih, Fin.lt_def, Fin.ext_iff, ofNat, UInt8.lt_iff_toNat_lt,
            ← UInt8.toNat_inj]
          by_cases hrest : rest < rest'
          · simp only [hrest, and_true]
            omega
          · simp only [hrest, and_false, or_false]
            omega

/-- Paths are in the order of their keys. -/
theorem Path.ofHash_lt_iff {key other : Hash} :
    ofHash key < ofHash other ↔ key.toList < other.toList := Nibble.flatMap_split_lt_iff

namespace Blob

theorem compareLex_eq_lt_iff {l l' : List UInt8} : l.compareLex compare l' = .lt ↔ l < l' := by
  induction l generalizing l' with
  | nil => cases l' <;> simp [List.compareLex]
  | cons b rest ih =>
      cases l' with
      | nil => simp [List.compareLex]
      | cons c rest' =>
          rw [List.compareLex_cons_cons, List.cons_lt_cons_iff, Ordering.then_eq_lt, ih,
            Std.compare_eq_lt, Std.compare_eq_iff_eq]

/-- Blobs are compared byte by byte. -/
theorem compare_eq_lt_iff {k : Kind} {x y : Blob k} :
    compare x y = .lt ↔ x.toList < y.toList := by
  rw [show compare x y = Vector.compareLex compare x.bytes y.bytes from rfl,
    Vector.compareLex_eq_compareLex_toList]
  exact compareLex_eq_lt_iff

end Blob

/-! ## Nodes -/

namespace Node

variable {levels : Nat} {n : Node} {path : Path} {value : Hash}

theorem length_of_mem_leaves {entry : Path × Hash} (h : entry ∈ n.leaves levels) :
    entry.1.length = levels := by
  induction levels generalizing n entry with
  | zero =>
      cases n with
      | leaf value => cases List.mem_singleton.mp h; rfl
      | _ => cases h
  | succ levels ih =>
      cases n with
      | branch hash children =>
          obtain ⟨i, -, hmem⟩ := List.mem_flatMap.mp h
          obtain ⟨below, hbelow, rfl⟩ := List.mem_map.mp hmem
          exact congrArg Nat.succ (ih hbelow)
      | _ => cases h

/-- A leaf is found at the end of its path. -/
theorem get_of_mem_leaves (h : (path, value) ∈ n.leaves levels) (depth : Nat) :
    get depth path n = .ok (some value) := by
  induction levels generalizing n path depth with
  | zero =>
      cases n with
      | leaf => cases List.mem_singleton.mp h; rfl
      | _ => cases h
  | succ levels ih =>
      cases n with
      | branch hash children =>
          obtain ⟨i, -, hmem⟩ := List.mem_flatMap.mp h
          obtain ⟨⟨rest, found⟩, hbelow, heq⟩ := List.mem_map.mp hmem
          cases heq
          exact ih hbelow (depth + 1)
      | _ => cases h

theorem mem_leaves_iff (h : n.Canonical levels) :
    (path, value) ∈ n.leaves levels ↔ path.length = levels ∧ find path n = some value := by
  induction h generalizing path with
  | empty levels => cases levels <;> simp [leaves]
  | leaf hvalue =>
      rw [leaves, List.mem_singleton, Prod.mk.injEq, List.length_eq_zero_iff]
      refine and_congr_right fun hpath => ?_
      rw [hpath, find, Option.some.injEq]
      exact eq_comm
  | branch _ _ _ ih =>
      rw [leaves, List.mem_flatMap]
      constructor
      · rintro ⟨i, -, hmem⟩
        obtain ⟨⟨rest, found⟩, hrest, heq⟩ := List.mem_map.mp hmem
        cases heq
        obtain ⟨hlen, hfound⟩ := (ih i).mp hrest
        exact ⟨congrArg Nat.succ hlen, hfound⟩
      · rintro ⟨hlen, hfound⟩
        cases path with
        | nil => cases hlen
        | cons i rest =>
            have hrest := (ih i).mpr ⟨Nat.succ.inj hlen, hfound⟩
            exact ⟨i, List.mem_finRange i, List.mem_map.mpr ⟨(rest, value), hrest, rfl⟩⟩

/-- The paths of the leaves ascend. -/
theorem pairwise_leaves (levels : Nat) (n : Node) :
    (n.leaves levels).Pairwise fun p q => p.1 < q.1 := by
  induction levels generalizing n with
  | zero => cases n <;> simp [leaves]
  | succ levels ih =>
      cases n with
      | branch hash children =>
          rw [leaves, List.pairwise_flatMap]
          constructor
          · intro i _
            rw [List.pairwise_map]
            refine (ih (children i)).imp fun {p q} hlt => ?_
            exact List.cons_lt_cons_iff.mpr (Or.inr ⟨rfl, hlt⟩)
          · refine (List.pairwise_lt_finRange 16).imp fun {i j} hlt p hp q hq => ?_
            obtain ⟨x, -, rfl⟩ := List.mem_map.mp hp
            obtain ⟨y, -, rfl⟩ := List.mem_map.mp hq
            exact List.cons_lt_cons_iff.mpr (Or.inl hlt)
      | _ => simp [leaves]

end Node

/-! ## Tries -/

namespace Trie

variable {t : Trie} {key value : Hash}

/-- The leaves are what is found. -/
theorem mem_leaves_iff (h : t.Canonical) : (key, value) ∈ t.leaves ↔ t.find key = some value := by
  rw [leaves, List.mem_map, find]
  constructor
  · rintro ⟨⟨path, found⟩, hmem, heq⟩
    obtain ⟨hlen, hfound⟩ := (Node.mem_leaves_iff h).mp hmem
    cases heq
    rw [Path.ofHash_toHash hlen, hfound]
  · intro hfound
    refine ⟨(Path.ofHash key, value), (Node.mem_leaves_iff h).mpr ⟨?_, hfound⟩, ?_⟩
    · exact Path.length_ofHash key
    · simp

/-- A leaf is found under its key. -/
theorem get_of_mem_leaves (h : (key, value) ∈ t.leaves) : t.get key = .ok (some value) := by
  obtain ⟨⟨path, found⟩, hmem, heq⟩ := List.mem_map.mp h
  cases heq
  rw [get, Path.ofHash_toHash (Node.length_of_mem_leaves hmem)]
  exact Node.get_of_mem_leaves hmem 0

/-- The keys of the leaves ascend. -/
theorem pairwise_leaves (t : Trie) : t.leaves.Pairwise fun p q => p.1.toList < q.1.toList := by
  rw [leaves, List.pairwise_map]
  refine (Node.pairwise_leaves trieDepth t.root).imp_of_mem fun {p q} hp hq hlt => ?_
  rw [← Path.ofHash_toHash (Node.length_of_mem_leaves hp),
    ← Path.ofHash_toHash (Node.length_of_mem_leaves hq)] at hlt
  exact Path.ofHash_lt_iff.mp hlt

theorem nodup_of_ascending {l : List (Hash × Hash)}
    (h : l.Pairwise fun p q => p.1.toList < q.1.toList) : l.Nodup := by
  refine h.imp fun {p q} hlt heq => ?_
  rw [heq] at hlt
  exact List.lt_irrefl _ hlt

theorem nodup_leaves (t : Trie) : t.leaves.Nodup := nodup_of_ascending (pairwise_leaves t)

/-- A list with the same leaves whose keys ascend is the list of leaves. -/
theorem leaves_eq_of_mem_iff {l : List (Hash × Hash)}
    (hl : l.Pairwise fun p q => p.1.toList < q.1.toList)
    (h : ∀ leaf, leaf ∈ t.leaves ↔ leaf ∈ l) : t.leaves = l := by
  have hperm := (List.perm_ext_iff_of_nodup t.nodup_leaves (nodup_of_ascending hl)).mpr h
  refine hperm.eq_of_pairwise (fun p q _ _ hpq hqp => ?_) (pairwise_leaves t) hl
  exact absurd (List.lt_trans hpq hqp) (List.lt_irrefl _)

end Trie

end ScriptLedger
