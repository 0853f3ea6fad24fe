import ScriptLedger.Proofs.Trie.Regular

/-!
# Half bytes by their place

The operations on nodes recurse on what is left of a path.  A walk that keeps the whole path
asks it for the half byte at the place of the depth instead, and may ask for one past the
end; such a walk has no outcome.  The operations are given here in that form, and on regular
nodes they never ask past the end: the outcome is that of the recursion.

Looking up, putting and taking away compare the depth before they ask, so they need not be
given a regular node.  Picking asks wherever it meets a branch, and that branches are above
the last level is what keeps it inside its paths.

## Main results

* `Node.getAt_eq`, `Node.putAt_eq`, `Node.removeAt_eq`, `Node.pickAt_eq` — the walks have
  the outcomes of the operations.
-/

namespace ScriptLedger

/-! ## Asking a path -/

/-- Walks that ask paths for half bytes, and have no outcome if one is not there. -/
abbrev Asking := ExceptT TrieError Option

/-- A walk with this outcome. -/
def Asking.settled {α : Type} (outcome : Except TrieError α) : Asking α :=
  ExceptT.mk (some outcome)

theorem Asking.settled_bind {α β : Type} {x : Except TrieError α} {f : α → Asking β}
    {g : α → Except TrieError β} (h : ∀ a, f a = settled (g a)) :
    (settled x >>= f) = settled (x >>= g) := by
  cases x with
  | error e => rfl
  | ok a => exact h a

namespace Path

/-- The half byte at a place of a path. -/
def ask (path : Path) (place : Nat) : Asking Nibble := ExceptT.lift path[place]?

/-- Those of some paths that have the half byte at a place; all of them are asked. -/
def askEach (place : Nat) (i : Nibble) : List Path → Asking (List Path)
  | [] => pure []
  | path :: rest => do
    let j ← path.ask place
    let taken ← askEach place i rest
    pure (if j = i then path :: taken else taken)

theorem ask_eq (path : Path) (place : Nat) (h : place < path.length) :
    ∃ i, path.ask place = .settled (.ok i) ∧ path.drop place = i :: path.drop (place + 1) := by
  refine ⟨path[place], ?_, List.drop_eq_getElem_cons h⟩
  rw [ask, List.getElem?_eq_getElem h]
  rfl

/-- The paths that have a half byte at a place are those that take it from there. -/
theorem askEach_eq {place : Nat} (i : Nibble) {paths : List Path}
    (h : ∀ path ∈ paths, place < path.length) :
    ∃ taken : List Path, askEach place i paths = .settled (.ok taken) ∧
      (∀ path ∈ taken, path ∈ paths) ∧
        taken.map (List.drop (place + 1)) = Node.taking i (paths.map (List.drop place)) := by
  induction paths with
  | nil => exact ⟨[], rfl, fun _ hmem => hmem, rfl⟩
  | cons path rest ih =>
      obtain ⟨hpath, hrest⟩ := List.forall_mem_cons.mp h
      obtain ⟨taken, hask, hmem, htaken⟩ := ih hrest
      obtain ⟨j, hj, hdrop⟩ := ask_eq path place hpath
      have heach : askEach place i (path :: rest) =
          .settled (.ok (if j = i then path :: taken else taken)) := by
        rw [askEach, hj, hask]
        rfl
      refine ⟨_, heach, ?_, ?_⟩
      · by_cases hi : j = i
        · rw [if_pos hi]
          intro other hother
          rcases List.mem_cons.mp hother with rfl | hin
          · exact List.mem_cons_self
          · exact List.mem_cons_of_mem _ (hmem _ hin)
        · rw [if_neg hi]
          exact fun other hother => List.mem_cons_of_mem _ (hmem _ hother)
      · rw [List.map_cons, hdrop]
        by_cases hi : j = i
        · rw [if_pos hi, hi, List.map_cons, htaken]
          simp [Node.taking]
        · rw [if_neg hi, htaken]
          simp [Node.taking, hi]

end Path

namespace Node

/-! ## Walks -/

/-- Looking up the value at the end of a path. -/
def getAt (path : Path) (depth : Nat) : Node → Asking (Option Hash)
  | .empty => pure none
  | .unknown hash => throw (.prunedNode depth hash)
  | .leaf value => if depth = trieDepth then pure (some value) else throw (.malformedNode depth)
  | .branch _ children =>
    if depth = trieDepth then throw (.malformedNode depth)
    else do
      let i ← path.ask depth
      getAt path (depth + 1) (children i)

/-- Putting a value at the end of a path, with so many levels left. -/
def putAt (path : Path) (value : Hash) : (levels : Nat) → Node → Asking (Option Node)
  | 0, node => pure (if node = .leaf value then none else some (.leaf value))
  | levels + 1, node => do
    let depth := trieDepth - (levels + 1)
    let children ← Asking.settled (node.childrenAt depth)
    let i ← path.ask depth
    let child? ← putAt path value levels (children i)
    pure (child?.map fun child => ofChildren (replaceChild children i child))

/-- Taking away the value at the end of a path. -/
def removeAt (path : Path) (depth : Nat) : Node → Asking (Option Node)
  | .empty => pure none
  | .unknown hash => throw (.prunedNode depth hash)
  | .leaf _ => if depth = trieDepth then pure (some .empty) else throw (.malformedNode depth)
  | .branch _ children =>
    if depth = trieDepth then throw (.malformedNode depth)
    else do
      let i ← path.ask depth
      let child? ← removeAt path (depth + 1) (children i)
      pure (child?.map fun child => ofChildren (replaceChild children i child))

/-- Picking the routes that some paths take. -/
def pickAt (depth : Nat) : List Path → Node → Asking Node
  | [], node => pure (summary node.hash)
  | _ :: _, .empty => pure .empty
  | _ :: _, .leaf value => pure (.leaf value)
  | _ :: _, .unknown hash => throw (.prunedNode depth hash)
  | paths@(_ :: _), .branch hash children => do
    let picked ← Vector.ofFnM fun i : Nibble => do
      let below ← Path.askEach depth i paths
      (children i).pickAt (depth + 1) below
    pure (withHash hash picked)

/-! ## The outcomes -/

variable {depth levels : Nat} {path : Path} {node : Node}

theorem getAt_eq (hpath : path.length = trieDepth) (hdepth : depth ≤ trieDepth) :
    getAt path depth node = .settled (get depth (path.drop depth) node) := by
  induction node generalizing depth with
  | empty => cases path.drop depth <;> rfl
  | unknown hash => cases path.drop depth <;> rfl
  | leaf value =>
      by_cases hend : depth = trieDepth
      · rw [getAt, if_pos hend, hend, ← hpath, List.drop_length]
        rfl
      · obtain ⟨i, -, hdrop⟩ := path.ask_eq depth (by omega)
        rw [getAt, if_neg hend, hdrop]
        rfl
  | branch hash children ih =>
      by_cases hend : depth = trieDepth
      · rw [getAt, if_pos hend, hend, ← hpath, List.drop_length]
        rfl
      · obtain ⟨i, hask, hdrop⟩ := path.ask_eq depth (by omega)
        rw [getAt, if_neg hend, hdrop, hask, get]
        exact ih i (by omega)

theorem putAt_eq (hpath : path.length = trieDepth) (value : Hash) (hlevels : levels ≤ trieDepth) :
    putAt path value levels node =
      .settled (put (trieDepth - levels) value (path.drop (trieDepth - levels)) node) := by
  induction levels generalizing node with
  | zero =>
      rw [putAt, Nat.sub_zero, ← hpath, List.drop_length]
      rfl
  | succ levels ih =>
      have hnext : trieDepth - (levels + 1) + 1 = trieDepth - levels := by omega
      obtain ⟨i, hask, hdrop⟩ := path.ask_eq (trieDepth - (levels + 1)) (by omega)
      rw [putAt, hdrop, put, hask]
      refine Asking.settled_bind fun children => ?_
      show (putAt path value levels (children i) >>= _) = _
      rw [ih (by omega), ← hnext]
      exact Asking.settled_bind fun _ => rfl

theorem removeAt_eq (hpath : path.length = trieDepth) (hdepth : depth ≤ trieDepth) :
    removeAt path depth node = .settled (remove depth (path.drop depth) node) := by
  induction node generalizing depth with
  | empty => cases path.drop depth <;> rfl
  | unknown hash => cases path.drop depth <;> rfl
  | leaf value =>
      by_cases hend : depth = trieDepth
      · rw [removeAt, if_pos hend, hend, ← hpath, List.drop_length]
        rfl
      · obtain ⟨i, -, hdrop⟩ := path.ask_eq depth (by omega)
        rw [removeAt, if_neg hend, hdrop]
        rfl
  | branch hash children ih =>
      by_cases hend : depth = trieDepth
      · rw [removeAt, if_pos hend, hend, ← hpath, List.drop_length]
        rfl
      · obtain ⟨i, hask, hdrop⟩ := path.ask_eq depth (by omega)
        rw [removeAt, if_neg hend, hdrop, hask, remove]
        show (removeAt path (depth + 1) (children i) >>= _) = _
        rw [ih i (by omega)]
        exact Asking.settled_bind fun _ => rfl

/-- Entries with an outcome each make a vector with an outcome. -/
theorem ofFnM_settled {α : Type} {n : Nat} {f : Fin n → Except TrieError α} :
    Vector.ofFnM (fun i => Asking.settled (f i)) = .settled (Vector.ofFnM f) := by
  induction n with
  | zero => simp [pure, Except.pure, ExceptT.pure, Asking.settled]
  | succ n ih =>
      rw [Vector.ofFnM_succ, Vector.ofFnM_succ, ih]
      exact Asking.settled_bind fun init => Asking.settled_bind fun last => rfl

/-- A regular node does not lead a walk past the ends of its paths. -/
theorem pickAt_eq {paths : List Path} (h : node.Regular levels)
    (hdepth : depth + levels = trieDepth) (hpaths : ∀ path ∈ paths, path.length = trieDepth) :
    pickAt depth paths node = .settled (pick depth (paths.map (List.drop depth)) node) := by
  induction h generalizing depth paths with
  | empty => cases paths <;> rfl
  | leaf => cases paths <;> rfl
  | unknown => cases paths <;> rfl
  | @branch levels hash children _ _ ih =>
      cases paths with
      | nil => rfl
      | cons path rest =>
          have hplaces : ∀ other ∈ path :: rest, depth < other.length := by
            intro other hmem
            have hlength := hpaths other hmem
            omega
          have hbelow : ∀ i : Nibble, (do
              let below ← Path.askEach depth i (path :: rest)
              (children i).pickAt (depth + 1) below) =
                Asking.settled (pick (depth + 1)
                  (taking i ((path :: rest).map (List.drop depth))) (children i)) := by
            intro i
            obtain ⟨taken, hask, hmem, htaken⟩ := Path.askEach_eq i hplaces
            rw [hask, ← htaken]
            exact ih i (by omega) fun other hother => hpaths other (hmem other hother)
          rw [pickAt, funext hbelow, ofFnM_settled]
          exact Asking.settled_bind fun picked => rfl

end Node

end ScriptLedger
