import ScriptLedger.Proofs.Trie.Update
import ScriptLedger.Trie.View

/-!
# A view of a trie and the whole of it

A node views another one if it is the same node with some subtries summed up by their
hashes.  What a view answers is what the whole answers, unless it cannot tell because
the way leads into a summary; and the two stay view and whole when the same value is
put into both.

That a branch keeps the true digest of its children matters here: a summary may hide
that a value is there already, and then the view makes a node again that the whole
keeps.  The zero digest stands for the empty subtrie, so a subtrie that has it by
accident would be taken for empty.

## Main results

* `Node.views_of_pick` — a picked node is a view of the one that it was picked from.
* `Trie.Views.get`, `Trie.Views.put`, `Trie.Views.remove` — what a view answers and becomes.
-/

namespace ScriptLedger

open Sequencing

namespace Node

/-! ## True digests -/

/-- Every branch keeps the digest of its children. -/
inductive Hashed : Node → Prop
  | empty : Hashed .empty
  | leaf (value : Hash) : Hashed (.leaf value)
  | unknown (hash : Hash) : Hashed (.unknown hash)
  | branch {hash : Hash} {children : Nibble → Node}
      (hhash : hash = hashOfChildren fun i => (children i).hash)
      (hchildren : ∀ i, Hashed (children i)) : Hashed (.branch hash children)

/-- What is left of the paths that take a child. -/
def taking (i : Nibble) (paths : List Path) : List Path :=
  (paths.filter fun path => path.head? == some i).map List.tail

theorem mem_taking {i : Nibble} {path : Path} {paths : List Path} : path ∈ taking i paths ↔ i :: path ∈ paths := by
  simp only [taking, List.mem_map, List.mem_filter, beq_iff_eq]
  constructor
  · rintro ⟨whole, ⟨hmem, hhead⟩, rfl⟩
    cases whole with
    | nil => cases hhead
    | cons j rest => cases hhead; exact hmem
  · intro hmem
    exact ⟨i :: path, ⟨hmem, rfl⟩, rfl⟩

/-- Beside the routes that some paths take, nothing but an empty subtrie has the zero
hash. -/
def NonzeroBeside (paths : List Path) : Node → Prop
  | .empty => True
  | .leaf value => paths = [] → value ≠ Blob.zero
  | .unknown hash => paths = [] → hash ≠ Blob.zero
  | .branch hash children =>
    (paths = [] → hash ≠ Blob.zero) ∧
      (paths ≠ [] → ∀ i, (children i).NonzeroBeside (taking i paths))

instance decidableNonzeroBeside (paths : List Path) :
    (node : Node) → Decidable (node.NonzeroBeside paths)
  | .empty => isTrue trivial
  | .leaf value => inferInstanceAs (Decidable (paths = [] → value ≠ Blob.zero))
  | .unknown hash => inferInstanceAs (Decidable (paths = [] → hash ≠ Blob.zero))
  | .branch hash children =>
    have (i : Nibble) := decidableNonzeroBeside (taking i paths) (children i)
    have : Decidable (∀ i, (children i).NonzeroBeside (taking i paths)) :=
      Nat.decidableForallFin _
    inferInstanceAs (Decidable ((paths = [] → hash ≠ Blob.zero) ∧
      (paths ≠ [] → ∀ i, (children i).NonzeroBeside (taking i paths))))

theorem empty_of_nonzeroBeside {node : Node} (h : node.NonzeroBeside [])
    (hzero : node.hash = Blob.zero) : node = .empty := by
  cases node with
  | empty => rfl
  | leaf value => exact absurd hzero (h rfl)
  | unknown hash => exact absurd hzero (h rfl)
  | branch hash children => exact absurd hzero (h.1 rfl)

theorem hereditary_hashed : Hereditary fun _ node => node.Hashed where
  empty _ := .empty
  child h i := by
    cases h with
    | branch _ hchildren => exact hchildren i
  branch h _ := .branch rfl h

/-- An update keeps true digests. -/
theorem hashed_put {depth : Nat} {value : Hash} {path : Path} {node : Node}
    {result : Option Node} (h : put depth value path node = .ok result) (hnode : node.Hashed) :
    (result.getD node).Hashed :=
  hereditary_hashed.put (.leaf value) h hnode

/-- A node into which something was put is not empty. -/
theorem isEmpty_getD_of_put {depth : Nat} {value : Hash} {path : Path} {node : Node}
    {result : Option Node} (h : put depth value path node = .ok result) :
    (result.getD node).isEmpty = false := by
  have hget := get_put h (q := path) rfl
  rw [if_pos rfl] at hget
  cases hnode : result.getD node with
  | empty =>
      rw [hnode] at hget
      cases path <;> cases hget
  | _ => rfl

/-! ## Views -/

/-- A node that is like another one where it is known, and knows the hash of the rest. -/
inductive Views : Node → Node → Prop
  | empty : Views .empty .empty
  | leaf {value : Hash} : Views (.leaf value) (.leaf value)
  | branch {hash : Hash} {children below : Nibble → Node}
      (hchildren : ∀ i, Views (children i) (below i)) :
      Views (.branch hash children) (.branch hash below)
  | summary {hash : Hash} {node : Node} (hhash : node.hash = hash) (hsome : node.isEmpty = false) :
      Views (.unknown hash) node

theorem Views.hash_eq {view node : Node} (h : Views view node) : view.hash = node.hash := by
  cases h with
  | empty => rfl
  | leaf => rfl
  | branch hchildren => rfl
  | summary hhash hsome => exact hhash.symm

theorem Views.isEmpty_eq {view node : Node} (h : Views view node) :
    view.isEmpty = node.isEmpty := by
  cases h with
  | summary _ hsome => rw [hsome]; rfl
  | _ => rfl

theorem Views.hashed {view node : Node} (h : Views view node) (hnode : node.Hashed) :
    view.Hashed := by
  induction h with
  | empty => exact .empty
  | leaf => exact .leaf _
  | summary hhash hsome => exact .unknown _
  | @branch hash children below hchildren ih =>
      cases hnode with
      | branch hhash hbelow =>
          refine .branch (hhash.trans (congrArg hashOfChildren ?_)) fun i => ih i (hbelow i)
          funext i
          exact (hchildren i).hash_eq.symm

/-- Branches that keep true digests are view and whole as soon as their children are. -/
theorem Views.of_children {hash hash' : Hash} {children below : Nibble → Node}
    (hview : (Node.branch hash children).Hashed) (hnode : (Node.branch hash' below).Hashed)
    (h : ∀ i, Views (children i) (below i)) :
    Views (.branch hash children) (.branch hash' below) := by
  have hsame : (fun i => (children i).hash) = fun i => (below i).hash := by
    funext i
    exact (h i).hash_eq
  cases hview with
  | branch hhash =>
      cases hnode with
      | branch hhash' =>
          rw [hhash, hhash', hsame]
          exact .branch h

theorem Views.of_childrenAt {depth : Nat} {view node : Node} {children below : Nibble → Node}
    (hview : view.Hashed) (hnode : node.Hashed) (hsome : view.isEmpty = false)
    (hsome' : node.isEmpty = false) (hchildren : view.childrenAt depth = .ok children)
    (hbelow : node.childrenAt depth = .ok below) (h : ∀ i, Views (children i) (below i)) :
    Views view node := by
  cases view with
  | empty => cases hsome
  | leaf value => cases hchildren
  | unknown hash => cases hchildren
  | branch hash _ =>
      cases node with
      | empty => cases hsome'
      | leaf value => cases hbelow
      | unknown hash => cases hbelow
      | branch hash' _ =>
          cases hchildren
          cases hbelow
          exact .of_children hview hnode h

/-! ## Picking -/

theorem views_summary {node : Node} (h : node.NonzeroBeside []) :
    Views (summary node.hash) node := by
  unfold summary
  by_cases hzero : node.hash.isZero = true
  · rw [if_pos hzero]
    rw [empty_of_nonzeroBeside h (by simpa [Blob.isZero] using hzero)]
    exact .empty
  · rw [if_neg hzero]
    refine .summary rfl ?_
    cases node with
    | empty => exact absurd rfl hzero
    | _ => rfl

/-- A picked node is a view of the one that it was picked from. -/
theorem views_of_pick {depth : Nat} {paths : List Path} {node view : Node}
    (h : pick depth paths node = .ok view) (hnode : node.NonzeroBeside paths) :
    Views view node := by
  induction node generalizing depth paths view with
  | empty =>
      cases paths with
      | nil => cases h; exact views_summary hnode
      | cons path rest => cases h; exact .empty
  | leaf value =>
      cases paths with
      | nil => cases h; exact views_summary hnode
      | cons path rest => cases h; exact .leaf
  | unknown hash =>
      cases paths with
      | nil => cases h; exact views_summary hnode
      | cons path rest => cases h
  | branch hash children ih =>
      cases paths with
      | nil => cases h; exact views_summary hnode
      | cons path rest =>
          obtain ⟨picked, hpicked, h⟩ := except_bind_eq_ok.mp h
          cases h
          exact .branch fun i => ih i (ofFnM_eq_ok hpicked i) (hnode.2 (List.cons_ne_nil _ _) i)

end Node

/-! ## What a view answers -/

/-- The way led into a subtrie of which only the hash is known. -/
def TrieError.Pruned (cause : TrieError) : Prop := ∃ depth hash, cause = .prunedNode depth hash

namespace Node

theorem Views.get {view node : Node} (h : Views view node) (depth : Nat) (path : Path) :
    (∃ cause : TrieError, cause.Pruned ∧ get depth path view = .error cause) ∨
      get depth path view = get depth path node := by
  induction h generalizing depth path with
  | empty => exact Or.inr rfl
  | leaf => exact Or.inr rfl
  | summary hhash hsome =>
      left
      cases path with
      | nil => exact ⟨_, ⟨_, _, rfl⟩, rfl⟩
      | cons i rest => exact ⟨_, ⟨_, _, rfl⟩, rfl⟩
  | branch hchildren ih =>
      cases path with
      | nil => exact Or.inr rfl
      | cons i rest => exact ih i (depth + 1) rest

theorem Views.childrenAt {view node : Node} (h : Views view node) (depth : Nat) :
    (∃ cause : TrieError, cause.Pruned ∧ view.childrenAt depth = .error cause) ∨
      (∃ cause, view.childrenAt depth = .error cause ∧ node.childrenAt depth = .error cause) ∨
        ∃ children below, view.childrenAt depth = .ok children ∧
          node.childrenAt depth = .ok below ∧ ∀ i, Views (children i) (below i) := by
  cases h with
  | empty => exact Or.inr (Or.inr ⟨_, _, rfl, rfl, fun _ => .empty⟩)
  | leaf => exact Or.inr (Or.inl ⟨_, rfl, rfl⟩)
  | summary hhash hsome => exact Or.inl ⟨_, ⟨_, _, rfl⟩, rfl⟩
  | branch hchildren => exact Or.inr (Or.inr ⟨_, _, rfl, rfl, hchildren⟩)

/-- Putting a value keeps view and whole together. -/
theorem Views.put {view node : Node} (h : Views view node) (hnode : node.Hashed) (depth : Nat)
    (value : Hash) (path : Path) :
    (∃ cause : TrieError, cause.Pruned ∧ put depth value path view = .error cause) ∨
      (∃ cause, put depth value path view = .error cause ∧
        put depth value path node = .error cause) ∨
        ∃ result result', put depth value path view = .ok result ∧
          put depth value path node = .ok result' ∧
            Views (result.getD view) (result'.getD node) := by
  induction path generalizing depth view node with
  | nil =>
      have hleaf : ∀ node : Node,
          (if node = .leaf value then none else some (Node.leaf value)).getD node =
            .leaf value := by
        intro node
        by_cases hsame : node = .leaf value
        · rw [if_pos hsame]
          exact hsame
        · rw [if_neg hsame]
          rfl
      refine Or.inr (Or.inr ⟨_, _, rfl, rfl, ?_⟩)
      rw [hleaf, hleaf]
      exact .leaf
  | cons i rest ih =>
      rcases h.childrenAt depth with ⟨cause, hpruned, hchildren⟩ |
        ⟨cause, hchildren, hbelow⟩ | ⟨children, below, hchildren, hbelow, hviews⟩
      · refine Or.inl ⟨cause, hpruned, ?_⟩
        rw [Node.put, hchildren]
        rfl
      · refine Or.inr (Or.inl ⟨cause, ?_, ?_⟩)
        · rw [Node.put, hchildren]
          rfl
        · rw [Node.put, hbelow]
          rfl
      have hhashed := hereditary_hashed.childrenAt rest.length hbelow hnode i
      rcases ih (hviews i) hhashed (depth + 1) with ⟨cause, hpruned, hput⟩ |
        ⟨cause, hput, hput'⟩ | ⟨child, child', hput, hput', hchild⟩
      · refine Or.inl ⟨cause, hpruned, ?_⟩
        rw [put_cons_of_childrenAt hchildren, hput]
        rfl
      · refine Or.inr (Or.inl ⟨cause, ?_, ?_⟩)
        · rw [put_cons_of_childrenAt hchildren, hput]
          rfl
        · rw [put_cons_of_childrenAt hbelow, hput']
          rfl
      · right
        right
        have hview : Node.put depth value (i :: rest) view =
            .ok (child.map fun child => ofChildren (replaceChild children i child)) := by
          rw [put_cons_of_childrenAt hchildren, hput]
          rfl
        have hwhole : Node.put depth value (i :: rest) node =
            .ok (child'.map fun child => ofChildren (replaceChild below i child)) := by
          rw [put_cons_of_childrenAt hbelow, hput']
          rfl
        obtain ⟨_, _, hc, hp, hafter⟩ := childrenAt_put hview
        obtain ⟨_, _, hc', hp', hafter'⟩ := childrenAt_put hwhole
        rw [hchildren] at hc
        cases hc
        rw [hbelow] at hc'
        cases hc'
        rw [hput] at hp
        cases hp
        rw [hput'] at hp'
        cases hp'
        have hbetween : ∀ j, Views (if j = i then child.getD (children i) else children j)
            (if j = i then child'.getD (below i) else below j) := by
          intro j
          by_cases hj : j = i
          · rw [if_pos hj, if_pos hj]
            exact hchild
          · rw [if_neg hj, if_neg hj]
            exact hviews j
        have hresult := Views.of_childrenAt (hashed_put hview (h.hashed hnode))
          (hashed_put hwhole hnode) (isEmpty_getD_of_put hview) (isEmpty_getD_of_put hwhole)
          hafter hafter' hbetween
        exact ⟨_, _, hview, hwhole, hresult⟩

/-- Sixteen views make a view, or nothing if they view nothing. -/
theorem Views.ofChildren {views nodes : Vector Node 16}
    (h : ∀ i : Nibble, Views (getElem views i i.isLt) (getElem nodes i i.isLt)) :
    Views (ofChildren views) (ofChildren nodes) := by
  have hhashes : (fun i : Nibble => views[i].hash) = fun i : Nibble => nodes[i].hash :=
    funext fun i => (h i).hash_eq
  have hempty : views.toList.all isEmpty = true ↔ nodes.toList.all isEmpty = true := by
    simp only [all_isEmpty_iff, (h _).isEmpty_eq]
  unfold Node.ofChildren
  by_cases hall : nodes.toList.all isEmpty = true
  · rw [if_pos hall, if_pos (hempty.mpr hall)]
    exact .empty
  · rw [if_neg hall, if_neg (mt hempty.mp hall), hhashes]
    exact .branch h

/-- What can be taken out of a view can be taken out of the whole, and they stay together. -/
theorem Views.remove {view node : Node} (h : Views view node) {depth : Nat} {path : Path}
    {result : Option Node} (hremove : remove depth path view = .ok result) :
    ∃ result', Node.remove depth path node = .ok result' ∧ Option.Rel Views result result' := by
  induction path generalizing depth view node result with
  | nil =>
      cases h with
      | empty => cases hremove; exact ⟨none, rfl, .none⟩
      | leaf => cases hremove; exact ⟨some .empty, rfl, .some .empty⟩
      | summary => cases hremove
      | branch => cases hremove
  | cons i rest ih =>
      cases h with
      | empty => cases hremove; exact ⟨none, rfl, .none⟩
      | leaf => cases hremove
      | summary => cases hremove
      | @branch hash children below hchildren =>
          obtain ⟨child?, hchild, rfl⟩ := remove_cons_eq_ok hremove
          obtain ⟨child?', hchild', hrel⟩ := ih (hchildren i) hchild
          refine ⟨_, by rw [Node.remove, hchild']; rfl, ?_⟩
          cases hrel with
          | none => exact .none
          | some hviews =>
              refine .some (Views.ofChildren fun j => ?_)
              rw [getElem_replaceChild, getElem_replaceChild]
              by_cases hj : j = i
              · rw [if_pos hj, if_pos hj]
                exact hviews
              · rw [if_neg hj, if_neg hj]
                exact hchildren j

end Node

/-! ## Tries -/

namespace Trie

/-- A trie is a view of another one that keeps true digests. -/
structure Views (view whole : Trie) : Prop where
  root : view.root.Views whole.root
  hashed : whole.root.Hashed

theorem views_of_cherryPick {t view : Trie} {keys : List Hash} (h : t.cherryPick keys = .ok view)
    (hhashed : t.root.Hashed) (hnonzero : t.root.NonzeroBeside (keys.map Path.ofHash)) :
    Views view t := by
  obtain ⟨node, hpick, rfl⟩ := except_map_eq_ok.mp h
  exact ⟨Node.views_of_pick hpick hnonzero, hhashed⟩

/-- Putting a value keeps true digests. -/
theorem hashed_put {t u : Trie} {key value : Hash} (h : t.put key value = .ok u)
    (ht : t.root.Hashed) : u.root.Hashed :=
  hereditary_put Node.hereditary_hashed (fun _ => .leaf value) h ht

namespace Views

variable {view whole : Trie} (h : Views view whole)

include h

theorem rootHash_eq : view.rootHash = whole.rootHash := h.root.hash_eq

theorem get (key : Hash) :
    (∃ cause : TrieError, cause.Pruned ∧ view.get key = .error cause) ∨
      view.get key = whole.get key := h.root.get 0 (Path.ofHash key)

theorem contains (key : Hash) :
    (∃ cause : TrieError, cause.Pruned ∧ view.contains key = .error cause) ∨
      view.contains key = whole.contains key := by
  unfold Trie.contains
  rcases h.get key with ⟨cause, hpruned, hget⟩ | hget
  · refine Or.inl ⟨cause, hpruned, ?_⟩
    rw [hget]
    rfl
  · exact Or.inr (by rw [hget])

/-- Putting a value keeps view and whole together. -/
theorem put (key value : Hash) :
    (∃ cause : TrieError, cause.Pruned ∧ view.put key value = .error cause) ∨
      (∃ cause, view.put key value = .error cause ∧ whole.put key value = .error cause) ∨
        ∃ view' whole', view.put key value = .ok view' ∧ whole.put key value = .ok whole' ∧
          Views view' whole' := by
  unfold Trie.put
  by_cases hzero : value.isZero = true
  · rw [if_pos hzero, if_pos hzero]
    exact Or.inr (Or.inl ⟨_, rfl, rfl⟩)
  rw [if_neg hzero, if_neg hzero]
  rcases h.root.put h.hashed 0 value (Path.ofHash key) with ⟨cause, hpruned, hput⟩ |
    ⟨cause, hput, hput'⟩ | ⟨result, result', hput, hput', hviews⟩
  · refine Or.inl ⟨cause, hpruned, ?_⟩
    rw [hput]
    rfl
  · rw [hput, hput']
    exact Or.inr (Or.inl ⟨cause, rfl, rfl⟩)
  · rw [hput, hput']
    exact Or.inr (Or.inr ⟨_, _, rfl, rfl, hviews, Node.hashed_put hput' h.hashed⟩)

/-- Taking a key away keeps view and whole together. -/
theorem remove {key : Hash} {view' : Trie} {removed : Bool}
    (hremove : view.remove key = .ok (view', removed)) :
    ∃ whole', whole.remove key = .ok (whole', removed) ∧ Views view' whole' := by
  obtain ⟨result, hnode, rfl, rfl⟩ := remove_eq_ok hremove
  obtain ⟨result', hnode', hrel⟩ := h.root.remove hnode
  have hwhole : whole.remove key = .ok (⟨result'.getD whole.root⟩, result.isSome) := by
    rw [Trie.remove, hnode']
    cases hrel <;> rfl
  refine ⟨_, hwhole, ?_, hereditary_remove Node.hereditary_hashed hwhole h.hashed⟩
  cases hrel with
  | none => exact h.root
  | some hviews => exact hviews

end Views

end Trie

end ScriptLedger
