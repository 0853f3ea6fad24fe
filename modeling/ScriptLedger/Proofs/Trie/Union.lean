import ScriptLedger.Proofs.Trie.Listing
import ScriptLedger.Proofs.Trie.Regular

/-!
# Picking and merging as relations

Picking and merging walk over sixteen children at once and may fail at each of them.  The
relations below have one case for each way in which a node comes about, and say when the
two succeed and with what: `Node.Picked` the node with the routes that some paths take,
`Node.Merged` the node with what two views know.  What is kept by the two, and how they go
together, follows by induction on the relations.

## Main results

* `Node.pick_eq_ok_iff`, `Node.merge_eq_ok_iff` — the relations are the functions.
* `Node.Picked.union` — what is picked for two lists of paths merges to what is picked for
  both together.
* `Node.Views.merged` — a view merges with the whole to the whole.
* `Node.Picked.leaves_eq` — the leaves of a picked node are those at the ends of the paths.
-/

namespace ScriptLedger

open Sequencing

namespace Node

/-! ## The relations -/

/-- The second node has the routes of the first one that some paths take, and summaries
beside them. -/
inductive Picked : List Path → Node → Node → Prop
  | summary (n : Node) : Picked [] n (summary n.hash)
  | empty {paths : List Path} (hpaths : paths ≠ []) : Picked paths .empty .empty
  | leaf {paths : List Path} {value : Hash} (hpaths : paths ≠ []) :
      Picked paths (.leaf value) (.leaf value)
  | branch {paths : List Path} {hash : Hash} {children below : Nibble → Node}
      (hpaths : paths ≠ []) (hchildren : ∀ i, Picked (taking i paths) (children i) (below i)) :
      Picked paths (.branch hash children) (.branch hash below)

/-- The third node is what at least one of two views knows. -/
inductive Merged : Node → Node → Node → Prop
  | left {hash : Hash} {n : Node} (hhash : n.hash = hash) : Merged (.unknown hash) n n
  | right {hash : Hash} {n : Node} (hhash : n.hash = hash) : Merged n (.unknown hash) n
  | empty : Merged .empty .empty .empty
  | leaf {value : Hash} : Merged (.leaf value) (.leaf value) (.leaf value)
  | branch {hash : Hash} {left right below : Nibble → Node}
      (hchildren : ∀ i, Merged (left i) (right i) (below i)) :
      Merged (.branch hash left) (.branch hash right) (.branch hash below)

variable {depth levels : Nat} {paths others : List Path} {n m l r : Node}

theorem picked_of_pick (h : pick depth paths n = .ok m) : Picked paths n m := by
  induction n generalizing depth paths m with
  | empty =>
      cases paths with
      | nil => cases h; exact .summary _
      | cons path rest => cases h; exact .empty (List.cons_ne_nil _ _)
  | leaf value =>
      cases paths with
      | nil => cases h; exact .summary _
      | cons path rest => cases h; exact .leaf (List.cons_ne_nil _ _)
  | unknown hash =>
      cases paths with
      | nil => cases h; exact .summary _
      | cons path rest => cases h
  | branch hash children ih =>
      cases paths with
      | nil => cases h; exact .summary _
      | cons path rest =>
          obtain ⟨picked, hpicked, h⟩ := except_bind_eq_ok.mp h
          cases h
          exact .branch (List.cons_ne_nil _ _) fun i => ih i (ofFnM_eq_ok hpicked i)

theorem Picked.pick (h : Picked paths n m) (depth : Nat) : pick depth paths n = .ok m := by
  induction h generalizing depth with
  | summary n => rw [Node.pick]
  | empty hpaths =>
      obtain ⟨path, rest, rfl⟩ := List.exists_cons_of_ne_nil hpaths
      rfl
  | leaf hpaths =>
      obtain ⟨path, rest, rfl⟩ := List.exists_cons_of_ne_nil hpaths
      rfl
  | @branch paths hash children below hpaths _ ih =>
      obtain ⟨path, rest, rfl⟩ := List.exists_cons_of_ne_nil hpaths
      have hpicked := ofFnM_of_forall fun i => ih i (depth + 1)
      refine except_bind_eq_ok.mpr ⟨_, hpicked, ?_⟩
      show Except.ok (withHash hash (Vector.ofFn below)) = _
      simp [withHash]

/-- Picking succeeds with what is picked. -/
theorem pick_eq_ok_iff : pick depth paths n = .ok m ↔ Picked paths n m :=
  ⟨picked_of_pick, fun h => h.pick depth⟩

theorem merged_of_merge (h : l.merge r = .ok m) : Merged l r m := by
  fun_induction merge l r generalizing m with
  | case1 l r hhash => cases h
  | case2 hash r hhash =>
      cases h
      exact .left (not_not.mp hhash).symm
  | case3 l hash hl hhash =>
      cases h
      exact .right (not_not.mp hhash)
  | case4 hash left other right hhash ih =>
      cases not_not.mp hhash
      obtain ⟨merged, hmerged, h⟩ := except_bind_eq_ok.mp h
      cases h
      exact .branch fun i => ih i (ofFnM_eq_ok hmerged i)
  | case5 value other hhash =>
      cases not_not.mp hhash
      cases h
      exact .leaf
  | case6 =>
      cases h
      exact .empty
  | case7 => cases h

theorem Merged.hash_left (h : Merged l r m) : m.hash = l.hash := by
  cases h with
  | left hhash => exact hhash
  | _ => rfl

theorem Merged.symm (h : Merged l r m) : Merged r l m := by
  induction h with
  | left hhash => exact .right hhash
  | right hhash => exact .left hhash
  | empty => exact .empty
  | leaf => exact .leaf
  | branch _ ih => exact .branch ih

theorem Merged.hash_right (h : Merged l r m) : m.hash = r.hash := h.symm.hash_left

theorem Merged.merge (h : Merged l r m) : l.merge r = .ok m := by
  have hhash : ¬ l.hash ≠ r.hash := not_not.mpr (h.hash_left.symm.trans h.hash_right)
  induction h with
  | left => rw [Node.merge, if_neg hhash]
  | @right hash n hsame =>
      cases n with
      | unknown other =>
          rw [Node.merge, if_neg hhash, ← hsame]
          rfl
      | _ =>
          rw [Node.merge, if_neg hhash]
          intro other heq
          cases heq
  | empty => rw [Node.merge, if_neg hhash]
  | leaf => rw [Node.merge, if_neg hhash]
  | @branch hash left right below hchildren ih =>
      have hmerged := ofFnM_of_forall fun i => ih i
        (not_not.mpr ((hchildren i).hash_left.symm.trans (hchildren i).hash_right))
      rw [Node.merge, if_neg hhash]
      refine except_bind_eq_ok.mpr ⟨_, hmerged, ?_⟩
      show Except.ok (withHash hash (Vector.ofFn below)) = _
      simp [withHash]

/-- Merging succeeds with what is merged. -/
theorem merge_eq_ok_iff : l.merge r = .ok m ↔ Merged l r m := ⟨merged_of_merge, Merged.merge⟩

/-! ## What they keep -/

theorem Picked.hash_eq (h : Picked paths n m) : m.hash = n.hash := by
  cases h with
  | summary => exact hash_summary n.hash
  | _ => rfl

theorem Picked.regular (h : Picked paths n m) (hn : n.Regular levels) : m.Regular levels := by
  induction h generalizing levels with
  | summary n => exact regular_summary levels n.hash
  | empty => exact hn
  | leaf => exact hn
  | branch _ hchildren ih =>
      cases hn with
      | branch hhash hn =>
          refine .branch (hhash.trans (congrArg hashOfChildren ?_)) fun i => ih i (hn i)
          funext i
          exact (hchildren i).hash_eq.symm

theorem Picked.views (h : Picked paths n m) (hn : n.NonzeroBeside paths) : Views m n :=
  views_of_pick (h.pick 0) hn

theorem Views.populated (h : Views m n) (hn : n.Populated) : m.Populated := by
  induction h with
  | empty => exact .empty
  | leaf => exact .leaf _
  | summary => exact .unknown _
  | branch hchildren ih =>
      cases hn with
      | branch hn hsome =>
          obtain ⟨i, hi⟩ := hsome
          exact .branch (fun j => ih j (hn j)) ⟨i, (hchildren i).isEmpty_eq.trans hi⟩

theorem Merged.regular (h : Merged l r m) (hl : l.Regular levels) (hr : r.Regular levels) :
    m.Regular levels := by
  induction h generalizing levels with
  | left => exact hr
  | right => exact hl
  | empty => exact hl
  | leaf => exact hl
  | branch hchildren ih =>
      cases hl with
      | branch hhash hl =>
          cases hr with
          | branch _ hr =>
              refine .branch (hhash.trans (congrArg hashOfChildren ?_)) fun i => ih i (hl i) (hr i)
              funext i
              exact (hchildren i).hash_left.symm

/-- A summary does not stand for nothing, so nothing is lost. -/
theorem Merged.isEmpty_eq (h : Merged l r m) (hl : l.Regular levels)
    (hsome : l.isEmpty = false) : m.isEmpty = false := by
  cases h with
  | left hhash =>
      cases hl with
      | unknown _ hnonzero =>
          cases m with
          | empty => exact absurd hhash.symm hnonzero
          | _ => rfl
  | right => exact hsome
  | empty => exact hsome
  | leaf => rfl
  | branch => rfl

theorem Merged.populated (h : Merged l r m) (hregular : l.Regular levels) (hl : l.Populated)
    (hr : r.Populated) : m.Populated := by
  induction h generalizing levels with
  | left => exact hr
  | right => exact hl
  | empty => exact hl
  | leaf => exact hl
  | branch hchildren ih =>
      cases hregular with
      | branch _ hregular =>
          cases hl with
          | branch hl hsome =>
              cases hr with
              | branch hr _ =>
                  obtain ⟨i, hi⟩ := hsome
                  exact .branch (fun j => ih j (hregular j) (hl j) (hr j))
                    ⟨i, (hchildren i).isEmpty_eq (hregular i) hi⟩

/-! ## Answers of what is picked -/

/-- The node answers as before at the ends of the paths. -/
theorem Picked.get_eq {path : Path} (h : Picked paths n m) (hpath : path ∈ paths) (depth : Nat) :
    get depth path m = get depth path n := by
  induction h generalizing path depth with
  | summary => cases hpath
  | empty => rfl
  | leaf => rfl
  | branch _ _ ih =>
      cases path with
      | nil => rfl
      | cons i rest => exact ih i (mem_taking.mpr hpath) (depth + 1)

/-- Routes that a lookup can follow can be picked. -/
theorem exists_picked_of_get (h : ∀ path ∈ paths, ∃ found, get depth path n = .ok found) :
    ∃ m, Picked paths n m := by
  by_cases hpaths : paths = []
  · subst hpaths
    exact ⟨_, .summary n⟩
  induction n generalizing depth paths with
  | empty => exact ⟨_, .empty hpaths⟩
  | leaf => exact ⟨_, .leaf hpaths⟩
  | unknown hash =>
      obtain ⟨path, hmem⟩ := List.exists_mem_of_ne_nil paths hpaths
      obtain ⟨found, hget⟩ := h path hmem
      cases path <;> cases hget
  | branch hash children ih =>
      have hbelow : ∀ i, ∃ m, Picked (taking i paths) (children i) m := by
        intro i
        by_cases hnone : taking i paths = []
        · rw [hnone]
          exact ⟨_, .summary _⟩
        · exact ih i (fun path hmem => h (i :: path) (mem_taking.mp hmem)) hnone
      choose below hpicked using hbelow
      exact ⟨.branch hash below, .branch hpaths hpicked⟩

/-! ## Picking for two lists of paths -/

theorem Views.refl (n : Node) : Views n n := by
  induction n with
  | empty => exact .empty
  | leaf => exact .leaf
  | unknown => exact .summary rfl rfl
  | branch hash children ih => exact .branch ih

/-- A view merges with the whole to the whole. -/
theorem Views.merged (h : Views m n) : Merged m n n := by
  induction h with
  | empty => exact .empty
  | leaf => exact .leaf
  | summary hhash => exact .left hhash
  | branch _ ih => exact .branch ih

theorem taking_append (i : Nibble) (paths others : List Path) :
    taking i (paths ++ others) = taking i paths ++ taking i others := by
  rw [taking, List.filter_append, List.map_append]
  rfl

/-- A summary merges with what is picked of the same node. -/
theorem Picked.merged_summary (h : Picked paths n m) (hn : n.Regular levels) (hzero : n.Nonzero) :
    Merged (Node.summary n.hash) m m := by
  cases hsome : n.isEmpty with
  | false =>
      rw [hn.summary_eq hzero hsome]
      exact .left h.hash_eq
  | true =>
      rw [isEmpty_iff.mp hsome] at h ⊢
      cases h with
      | summary => exact .empty
      | empty => exact .empty

/-- What is picked for two lists of paths merges to what is picked for both together. -/
theorem Picked.union (hl : Picked paths n l) (hr : Picked others n r) (hn : n.Regular levels)
    (hzero : n.Nonzero) : ∃ m, Picked (paths ++ others) n m ∧ Merged l r m := by
  induction hl generalizing others r levels with
  | summary n => exact ⟨r, hr, hr.merged_summary hn hzero⟩
  | empty hpaths =>
      have hboth := List.append_ne_nil_of_left_ne_nil hpaths others
      cases hr with
      | summary => exact ⟨.empty, .empty hboth, .empty⟩
      | empty => exact ⟨.empty, .empty hboth, .empty⟩
  | leaf hpaths =>
      have hboth := List.append_ne_nil_of_left_ne_nil hpaths others
      cases hr with
      | summary => exact ⟨_, .leaf hboth, ((Picked.leaf hpaths).merged_summary hn hzero).symm⟩
      | leaf => exact ⟨_, .leaf hboth, .leaf⟩
  | @branch paths hash children below hpaths hchildren ih =>
      have hboth := List.append_ne_nil_of_left_ne_nil hpaths others
      cases hr with
      | summary =>
          have hl : Picked paths (.branch hash children) (.branch hash below) :=
            .branch hpaths hchildren
          refine ⟨_, ?_, (hl.merged_summary hn hzero).symm⟩
          rw [List.append_nil]
          exact hl
      | branch _ hothers =>
          cases hn with
          | branch _ hn =>
              choose joined hpicked hmerged using fun i =>
                ih i (hothers i) (hn i) (hzero.child i)
              refine ⟨.branch hash joined, .branch hboth fun i => ?_, .branch hmerged⟩
              rw [taking_append]
              exact hpicked i

/-! ## The leaves of what is picked -/

/-- The leaves of a picked node are those at the ends of the paths. -/
theorem Picked.leaves_eq (h : Picked paths n m) (hn : n.Regular levels)
    (hpaths : ∀ path ∈ paths, path.length = levels) :
    m.leaves levels = (n.leaves levels).filter fun entry => entry.1 ∈ paths := by
  induction h generalizing levels with
  | summary n =>
      have hnone : (Node.summary n.hash).leaves levels = [] := by
        unfold Node.summary
        by_cases hzero : n.hash.isZero = true
        · rw [if_pos hzero]
          cases levels <;> rfl
        · rw [if_neg hzero]
          cases levels <;> rfl
      simp [hnone]
  | empty => cases levels <;> simp [leaves]
  | @leaf paths value hsome =>
      cases hn with
      | leaf =>
          obtain ⟨path, hmem⟩ := List.exists_mem_of_ne_nil paths hsome
          have hnil : path = [] := List.length_eq_zero_iff.mp (hpaths path hmem)
          simp [leaves, ← hnil, hmem]
  | @branch paths hash children below _ _ ih =>
      cases hn with
      | @branch levels _ _ _ hn =>
          have hbelow : ∀ i, (below i).leaves levels =
              ((children i).leaves levels).filter fun entry => entry.1 ∈ taking i paths := by
            refine fun i => ih i (hn i) fun path hmem => ?_
            exact Nat.succ.inj (hpaths _ (mem_taking.mp hmem))
          simp only [leaves, hbelow, List.filter_flatMap, List.filter_map, mem_taking]
          rfl

end Node

/-- The paths of keys end at the last level. -/
theorem Path.length_of_mem_map (keys : List Hash) :
    ∀ path ∈ keys.map Path.ofHash, path.length = trieDepth := by
  intro path hmem
  obtain ⟨key, -, rfl⟩ := List.mem_map.mp hmem
  exact Path.length_ofHash key

/-! ## Tries -/

namespace Trie

variable {t u view : Trie} {keys : List Hash}

theorem picked_of_cherryPick (h : t.cherryPick keys = .ok view) :
    Node.Picked (keys.map Path.ofHash) t.root view.root := by
  obtain ⟨node, hpick, rfl⟩ := except_map_eq_ok.mp h
  exact Node.picked_of_pick hpick

theorem cherryPick_of_picked (h : Node.Picked (keys.map Path.ofHash) t.root view.root) :
    t.cherryPick keys = .ok view := by
  rw [cherryPick, h.pick]
  rfl

theorem merged_of_merge {v : Trie} (h : t.merge u = .ok v) :
    Node.Merged t.root u.root v.root := by
  obtain ⟨node, hmerge, rfl⟩ := except_map_eq_ok.mp h
  exact Node.merged_of_merge hmerge

theorem merge_of_merged {v : Trie} (h : Node.Merged t.root u.root v.root) :
    t.merge u = .ok v := by
  rw [merge, h.merge]
  rfl

/-- Tries with different root hashes do not merge. -/
theorem merge_of_ne (h : t.rootHash ≠ u.rootHash) :
    t.merge u = .error (.rootMismatch t.rootHash u.rootHash) := by
  have hne : t.root.hash ≠ u.root.hash := h
  unfold merge Node.merge
  rw [if_pos hne]
  rfl

theorem exists_cherryPick_of_get (h : ∀ key ∈ keys, ∃ found, t.get key = .ok found) :
    ∃ view, t.cherryPick keys = .ok view := by
  have hpaths : ∀ path ∈ keys.map Path.ofHash, ∃ found, t.root.get 0 path = .ok found := by
    intro path hmem
    obtain ⟨key, hkey, rfl⟩ := List.mem_map.mp hmem
    exact h key hkey
  obtain ⟨node, hpicked⟩ := Node.exists_picked_of_get hpaths
  exact ⟨⟨node⟩, cherryPick_of_picked hpicked⟩

theorem get_cherryPick (h : t.cherryPick keys = .ok view) {key : Hash} (hkey : key ∈ keys) :
    view.get key = t.get key :=
  (picked_of_cherryPick h).get_eq (List.mem_map_of_mem hkey) 0

/-- What is picked for two lists of keys merges, either way round, to what is picked for both
together. -/
theorem exists_union {l r : Trie} {others : List Hash} (ht : t.root.Regular trieDepth)
    (hzero : t.root.Nonzero) (hl : t.cherryPick keys = .ok l) (hr : t.cherryPick others = .ok r) :
    ∃ m, t.cherryPick (keys ++ others) = .ok m ∧ l.merge r = .ok m ∧ r.merge l = .ok m := by
  obtain ⟨node, hpicked, hmerged⟩ :=
    (picked_of_cherryPick hl).union (picked_of_cherryPick hr) ht hzero
  rw [← List.map_append] at hpicked
  exact ⟨⟨node⟩, cherryPick_of_picked hpicked, merge_of_merged hmerged,
    merge_of_merged hmerged.symm⟩

/-- The leaves of a picked trie are those under the keys. -/
theorem leaves_cherryPick (ht : t.root.Regular trieDepth) (h : t.cherryPick keys = .ok view) :
    view.leaves = t.leaves.filter fun entry => entry.1 ∈ keys := by
  rw [leaves, leaves, (picked_of_cherryPick h).leaves_eq ht (Path.length_of_mem_map keys),
    List.filter_map]
  refine congrArg _ (List.filter_congr fun entry hentry => ?_)
  have hpath := Path.ofHash_toHash (Node.length_of_mem_leaves hentry)
  have hkey : entry.1 ∈ keys.map Path.ofHash ↔ entry.1.toHash ∈ keys := by
    rw [← hpath, List.mem_map_of_injective (fun _ _ => ofHash_inj.mp), Path.toHash_ofHash]
  exact decide_eq_decide.mpr hkey

/-- A value under a key that was not picked is summed up. -/
theorem pruned_of_not_mem (ht : t.root.Regular trieDepth)
    (hnonzero : t.root.NonzeroBeside (keys.map Path.ofHash)) (hpick : t.cherryPick keys = .ok view)
    (hget : t.get key = .ok (some value)) (hkey : key ∉ keys) :
    ∃ cause : TrieError, cause.Pruned ∧ view.get key = .error cause := by
  rcases (views_of_cherryPick hpick ht.hashed hnonzero).get key with hpruned | hsame
  · exact hpruned
  · have hmem := mem_leaves_of_get (hsame.trans hget)
    rw [leaves_cherryPick ht hpick, List.mem_filter] at hmem
    exact absurd (of_decide_eq_true hmem.2) hkey

end Trie

end ScriptLedger
