import ScriptLedger.Proofs.Account.Validity
import ScriptLedger.Proofs.World.WellFormed

/-!
# What is given to stores

The journal of an archive lists what was given to its stores.  Between two moments the journal
gets longer by a list of accounts, those of attempts that failed included, and what a store
shows afterwards it showed before, or is on that list.

`Archive.Gives` follows the list through a computation.  It says when the list has valid
accounts only, and what is known of the snapshot at the end then, if something was known at the
start.  It has to be known that no digests collide: a snapshot names its accounts by their
digests, and a store may have something else under the digest of an account that it is given.

## Main results

* `Archive.adds_insert` — what one more record adds.
* `World.Valid.put` — a snapshot with valid accounts only, after a put.
* `Archive.Gives.trans` — one computation after the other.
-/

namespace ScriptLedger

open Sequencing

variable {a b c : Archive} {given more : List Account} {id : StoreId} {hash : Hash}
variable {account other new : Account} {w w' : World}

namespace Archive

/-- The second archive is the first one after these accounts were given to stores. -/
structure Adds (given : List Account) (a b : Archive) : Prop where
  journal : b.journal = given ++ a.journal
  shows : ∀ {id hash account}, b.get? id hash = some account →
    a.get? id hash = some account ∨ account ∈ given

namespace Adds

theorem refl (a : Archive) : Adds [] a a := ⟨rfl, Or.inl⟩

theorem trans (h : Adds given a b) (h' : Adds more b c) : Adds (more ++ given) a c where
  journal := by rw [h'.journal, h.journal, List.append_assoc]
  shows hshown := by
    rw [List.mem_append]
    rcases h'.shows hshown with hbefore | hmem
    · exact (h.shows hbefore).imp_right Or.inr
    · exact Or.inr (Or.inl hmem)

theorem collisionless (h : Adds given a b) (hcol : b.Collisionless) : a.Collisionless := by
  have hjournal : ∀ x ∈ a.journal, x ∈ b.journal := by
    intro x hx
    rw [h.journal]
    exact List.mem_append_right given hx
  exact fun x hx y hy heq => hcol x (hjournal x hx) y (hjournal y hy) heq

end Adds

private theorem layers_insert (a : Archive) (id : StoreId) (account : Account) (layer : StoreId) :
    (a.insert id account).layers layer = a.layers layer := by
  by_cases hlayer : layer < a.stores.size
  · rw [layers_of_lt hlayer, layers_of_lt (by rw [size_insert]; exact hlayer), below_insert]
  · have hnone := Nat.le_of_not_lt hlayer
    rw [layers, layers, Array.getElem?_eq_none (by rw [size_insert]; exact hnone),
      Array.getElem?_eq_none hnone]

theorem adds_insert (a : Archive) (target : StoreId) (given : Account) :
    Adds [given] a (a.insert target given) where
  journal := rfl
  shows {id hash account} hshown := by
    obtain ⟨layer, hlayer, hrecord⟩ := List.exists_of_findSome?_eq_some hshown
    rw [getElem?_records_insert] at hrecord
    rw [List.mem_singleton]
    split at hrecord
    · right
      exact (Option.some.inj hrecord).symm
    · -- Something was shown before, and it still is.
      left
      have hsome : (a.get? id hash).isSome = true := by
        rw [get?, List.isSome_findSome?, List.any_eq_true]
        rw [layers_insert] at hlayer
        exact ⟨layer, hlayer, by rw [hrecord]; rfl⟩
      obtain ⟨before, hbefore⟩ := Option.isSome_iff_exists.mp hsome
      have hkept := (growsTo_insert a target given).shows hbefore
      rw [hshown] at hkept
      rw [hbefore, Option.some.inj hkept]

end Archive

namespace World

/-- Every account that can be read from the snapshot is valid. -/
def Valid (a : Archive) (w : World) : Prop :=
  ∀ address account, w.account? a address = .ok (some account) → account.Valid

theorem Valid.adds (hw : w.Valid a) (h : a.Adds given b) (hgiven : ∀ x ∈ given, x.Valid) :
    w.Valid b := by
  intro address account hfound
  obtain ⟨hash, hget, hrecord⟩ := account?_eq_some_iff.mp hfound
  rcases h.shows hrecord with hbefore | hmem
  · exact hw address account (account?_eq_some_iff.mpr ⟨hash, hget, hbefore⟩)
  · exact hgiven account hmem

theorem Valid.put (hw : w.Valid a) (h : w.put new a = .ok w' b) (hnew : new.Valid)
    (hcol : b.Collisionless) : w'.Valid b := by
  obtain ⟨rfl, trie, hput, rfl⟩ := put_eq_ok_iff.mp h
  intro address account hfound
  obtain ⟨hash, hget, hrecord⟩ := account?_eq_some_iff.mp hfound
  rw [Trie.get_put hput address] at hget
  by_cases haddress : address = new.address
  · rw [if_pos haddress] at hget
    cases hget
    have hsame := hcol account (Archive.mem_journal_of_get? hrecord) new List.mem_cons_self
      (Archive.hash_of_get? hrecord)
    rw [hsame]
    exact hnew
  · rw [if_neg haddress] at hget
    have hgiven : ∀ x ∈ [new], x.Valid := by
      simpa only [List.forall_mem_singleton] using hnew
    refine hw.adds (Archive.adds_insert a w.store new) hgiven address account ?_
    exact account?_eq_some_iff.mpr ⟨hash, hget, hrecord⟩

end World

/-! ## Following the list -/

/-- A computation leads from one archive to another.  If `P` held before and no digests collide,
what it has given to stores is valid exactly if it was careful, and then `Q` holds. -/
def Archive.Gives (careful P : Prop) (a : Archive) (Q : Prop) (b : Archive) : Prop :=
  ∃ given, a.Adds given b ∧
    (P → b.Collisionless → ((∀ x ∈ given, x.Valid) ↔ careful) ∧ (careful → Q))

namespace Archive.Gives

variable {careful careful' P Q R : Prop}

theorem refl (h : P → Q) : Gives True P a Q a :=
  ⟨[], .refl a, fun hP _ => ⟨iff_of_true nofun trivial, fun _ => h hP⟩⟩

/-- Two computations are careful if both are.  The second one starts from what the first one
has left if that was careful, and nothing else is asked of it. -/
theorem trans (h : Gives careful P a Q b) (h' : Gives careful' Q b R c) :
    Gives (careful ∧ careful') P a R c := by
  obtain ⟨given, hadds, hgiven⟩ := h
  obtain ⟨more, hadds', hmore⟩ := h'
  refine ⟨more ++ given, hadds.trans hadds', fun hP hcol => ?_⟩
  obtain ⟨hvalid, hQ⟩ := hgiven hP (hadds'.collisionless hcol)
  rw [List.forall_mem_append, hvalid]
  constructor
  · constructor
    · rintro ⟨hlater, hcareful⟩
      exact ⟨hcareful, (hmore (hQ hcareful) hcol).1.mp hlater⟩
    · rintro ⟨hcareful, hcareful'⟩
      exact ⟨(hmore (hQ hcareful) hcol).1.mpr hcareful', hcareful⟩
  · rintro ⟨hcareful, hcareful'⟩
    exact (hmore (hQ hcareful) hcol).2 hcareful'

theorem congr (h : Gives careful P a Q b) (hiff : careful ↔ careful') :
    Gives careful' P a Q b := by
  rwa [← propext hiff]

/-- Nothing can go wrong after a computation. -/
theorem followed (h : Gives careful P a Q b) (h' : Gives True Q b R c) : Gives careful P a R c :=
  (h.trans h').congr (and_iff_left trivial)

/-- Nothing can go wrong before a computation. -/
theorem preceded (h : Gives True P a Q b) (h' : Gives careful Q b R c) : Gives careful P a R c :=
  (h.trans h').congr (and_iff_right trivial)

theorem imp (h : Gives careful P a Q b) (hQ : P → Q → R) : Gives careful P a R b := by
  obtain ⟨given, hadds, hgiven⟩ := h
  refine ⟨given, hadds, fun hP hcol => ?_⟩
  obtain ⟨hvalid, hQ'⟩ := hgiven hP hcol
  exact ⟨hvalid, fun hcareful => hQ hP (hQ' hcareful)⟩

/-- A snapshot that had valid accounts only has valid accounts only. -/
theorem keeps (h : Gives careful P a Q b) (hw : P → w.Valid a) :
    Gives careful P a (Q ∧ w.Valid b) b := by
  obtain ⟨given, hadds, hgiven⟩ := h
  refine ⟨given, hadds, fun hP hcol => ?_⟩
  obtain ⟨hvalid, hQ⟩ := hgiven hP hcol
  exact ⟨hvalid, fun hcareful => ⟨hQ hcareful, (hw hP).adds hadds (hvalid.mpr hcareful)⟩⟩

/-- A put gives one account to a store, whether it succeeds or not. -/
theorem put (hvalid : P → w.Valid a ∧ (new.Valid ↔ careful)) :
    Yields a (w.put new) (fun w' b => Gives careful P a (w'.Valid b) b)
      (Gives careful P a True) := by
  have hgiven : P → ((∀ x ∈ [new], x.Valid) ↔ careful) := by
    simpa only [List.forall_mem_singleton] using fun hP => (hvalid hP).2
  constructor
  · intro w' b h
    refine ⟨[new], ?_, fun hP hcol => ⟨hgiven hP, fun hcareful => ?_⟩⟩
    · obtain ⟨rfl, -⟩ := World.put_eq_ok_iff.mp h
      exact adds_insert a w.store new
    · obtain ⟨hw, hnew⟩ := hvalid hP
      exact hw.put h (hnew.mpr hcareful) hcol
  · intro e b h
    refine ⟨[new], ?_, fun hP _ => ⟨hgiven hP, fun _ => trivial⟩⟩
    rw [World.put_eq] at h
    cases hput : w.trie.put new.address (Record.hash new) with
    | ok trie => rw [hput] at h; cases h
    | error cause =>
        rw [hput] at h
        cases h
        exact adds_insert a w.store new

end Archive.Gives

end ScriptLedger
