import ScriptLedger.Proofs.Trie.Union
import ScriptLedger.Proofs.World.Confined
import ScriptLedger.Proofs.World.Genesis

/-!
# Stores and snapshots in use

On a desk lie stores, which share layers, and snapshots, which share stores.  New
snapshots are made of those that are there, in any order, and stores are also written
to directly.  Each of these acts may fail, and keeps what it wrote until then.

Whatever is done, the stores only grow, so that a snapshot goes on reading what it once
read: its trie never changes, and the record that its store shows under a digest is
found there for ever, in whatever layer it lay and into whatever layer it is copied
later.

A property that every act hands on from old snapshots to new ones belongs to all
snapshots on the desk (`Desk.each_run`); this is the induction that the later
results about commits and root hashes start from.

## Main results

* `Desk.archive_step`, `Desk.growsTo_run` — what an act does to the stores; they only grow.
* `Desk.answers_of_run` — snapshots and stores answer as before.
* `Desk.each_run` — what snapshots inherit from those that they are made of.
* `Desk.backed_of_mem` — all snapshots are backed by their stores.
-/

namespace ScriptLedger

open Sequencing

variable {a a' : Archive} {w w' : World} {keys : List Hash}

namespace World

/-! ## A part of a snapshot -/

/-- The part of a snapshot that answers for the given keys, over the same store. -/
def cherryPick (w : World) (keys : List Hash) : Archived StateError World :=
  ofExcept (((w.trie.cherryPick keys).mapError StateError.trie).map fun trie => { w with trie })

theorem cherryPick_eq_ok_iff :
    w.cherryPick keys a = .ok w' a' ↔
      (∃ trie, w.trie.cherryPick keys = .ok trie ∧ { w with trie } = w') ∧ a = a' := by
  rw [cherryPick, ofExcept_eq_ok, except_map_eq_ok]
  simp only [except_mapError_eq_ok]

end World

/-! ## The desk -/

/-- Stores, and the snapshots that were made over them, latest last. -/
structure Desk where
  archive : Archive
  worlds : List World

/-- What can be done with stores and snapshots; a snapshot is named by its place. -/
inductive Desk.Act
  | addStore
  | addOverlay (base : StoreId)
  | insert (store : StoreId) (account : Account)
  /-- Lays the snapshot without accounts over a store. -/
  | start (store : StoreId)
  | put (place : Nat) (account : Account)
  | fork (place : Nat)
  | commit (place : Nat)
  | cherryPick (place : Nat) (keys : List Hash)

namespace Desk

/-- The desk without anything on it. -/
def empty : Desk := ⟨Archive.empty, []⟩

/-- Carries out a computation.  The snapshot that it returns is laid on the desk; what it
wrote to stores stays there in any case. -/
def take (d : Desk) (x : Archived StateError World) : Desk :=
  match x d.archive with
  | .ok w a => ⟨a, d.worlds ++ [w]⟩
  | .error _ a => ⟨a, d.worlds⟩

/-- Carries out a computation on a snapshot, if there is one at the place. -/
def make (d : Desk) (place : Nat) (f : World → Archived StateError World) : Desk :=
  match d.worlds[place]? with
  | some w => d.take (f w)
  | none => d

/-- The desk after one act; nothing can be done with a store that is not there. -/
def step (d : Desk) : Act → Desk
  | .addStore => { d with archive := d.archive.addStore.2 }
  | .addOverlay base =>
    if base < d.archive.stores.size then { d with archive := (d.archive.addOverlay base).2 } else d
  | .insert store account =>
    if store < d.archive.stores.size then { d with archive := d.archive.insert store account }
    else d
  | .start store =>
    if store < d.archive.stores.size then { d with worlds := d.worlds ++ [World.empty store] }
    else d
  | .put place account => d.make place fun w => w.put account
  | .fork place => d.make place World.fork
  | .commit place => d.make place World.commit
  | .cherryPick place keys => d.make place fun w => w.cherryPick keys

/-- The desk after some acts. -/
def run (d : Desk) (acts : List Act) : Desk := acts.foldl step d

variable {d : Desk} {act : Act} {acts : List Act} {place : Nat}
  {f : World → Archived StateError World}

@[simp] theorem run_nil : d.run [] = d := rfl

@[simp] theorem run_cons : d.run (act :: acts) = (d.step act).run acts := rfl

theorem run_append (d : Desk) (acts more : List Act) :
    d.run (acts ++ more) = (d.run acts).run more :=
  List.foldl_append

theorem make_of_ok (hplace : d.worlds[place]? = some w) (hf : f w d.archive = .ok w' a') :
    d.make place f = ⟨a', d.worlds ++ [w']⟩ := by
  simp only [make, hplace, take, hf]

/-! ## A history -/

/-- The factory can be put where there is a snapshot without accounts, and is alone there. -/
theorem run_factory {worlds : List World} {store : StoreId}
    (hrun : empty.run acts = ⟨a, worlds⟩) (place : Nat)
    (hplace : worlds[place]? = some (World.empty store))
    (hwithin : a.Within {Genesis.account}) (hstore : store < a.stores.size) :
    Genesis.Alone (a.insert store Genesis.account) ⟨Genesis.trie, store⟩ ∧
      empty.run (acts ++ [.put place Genesis.account]) =
        ⟨a.insert store Genesis.account, worlds ++ [⟨Genesis.trie, store⟩]⟩ := by
  refine ⟨Genesis.alone_put hwithin hstore, ?_⟩
  rw [run_append, hrun, run_cons, run_nil, step]
  exact make_of_ok hplace (Genesis.put_empty store a)

/-- A store, an overlay of it, and the factory put there. -/
def founding : List Act := [.addStore, .start 0, .fork 0, .put 1 Genesis.account]

theorem run_founding : ∃ a, Genesis.Alone a ⟨Genesis.trie, 1⟩ ∧ a.below 1 = [0] ∧
    empty.run founding = ⟨a, [World.empty 0, World.empty 1, ⟨Genesis.trie, 1⟩]⟩ := by
  obtain ⟨a, hfork, hwithin, hsize, hbelow⟩ : ∃ a : Archive,
      empty.run [.addStore, .start 0, .fork 0] = ⟨a, [World.empty 0, World.empty 1]⟩ ∧
        a.Within {Genesis.account} ∧ 1 < a.stores.size ∧ a.below 1 = [0] :=
    ⟨(Archive.empty.addStore.2.addOverlay 0).2, rfl, (fun _ hmem => nomatch hmem), by decide, rfl⟩
  obtain ⟨halone, hrun⟩ := run_factory hfork 1 rfl hwithin hsize
  exact ⟨_, halone, by rw [Archive.below_insert, hbelow], hrun⟩

/-! ## Stores only grow -/

/-- What a computation on any snapshot keeps, whether it succeeds or not, is kept. -/
theorem make_of_yields {R : Archive → Prop} (h : R d.archive)
    (hf : ∀ w, Yields d.archive (f w) (fun _ => R) R) : R (d.make place f).archive := by
  unfold make
  cases d.worlds[place]? with
  | none => exact h
  | some w =>
      dsimp only [take]
      cases hrun : f w d.archive with
      | ok w' a => exact (hf w).1 w' a hrun
      | error e a => exact (hf w).2 e a hrun

/-- An act adds a store or a record, or commits, or does nothing to the stores; what each of
these keeps every act keeps. -/
theorem archive_step {R : Archive → Prop} (h : R d.archive) (haddStore : R d.archive.addStore.2)
    (haddOverlay : ∀ base, R (d.archive.addOverlay base).2)
    (hinsert : ∀ store account, R (d.archive.insert store account))
    (hcommit : ∀ w : World, Yields d.archive w.commit (fun _ => R) R) (act : Act) :
    R (d.step act).archive := by
  cases act with
  | addStore => exact haddStore
  | addOverlay base =>
      dsimp only [step]
      split
      · exact haddOverlay base
      · exact h
  | insert store account =>
      dsimp only [step]
      split
      · exact hinsert store account
      · exact h
  | start store =>
      dsimp only [step]
      split
      · exact h
      · exact h
  | put place account =>
      refine make_of_yields h fun w => ?_
      cases hadd : w.trie.put account.address (Record.hash account) with
      | ok trie => exact .of_ok (by rw [World.put_eq, hadd]) (hinsert w.store account)
      | error cause => exact .of_error (by rw [World.put_eq, hadd]) (hinsert w.store account)
  | fork place => exact make_of_yields h fun w => .of_ok rfl (haddOverlay w.store)
  | commit place => exact make_of_yields h hcommit
  | cherryPick place keys => exact make_of_yields h fun _ => .ofExcept (fun _ _ => h) h

theorem growsTo_step (d : Desk) (act : Act) : d.archive.GrowsTo (d.step act).archive :=
  archive_step (.refl _) d.archive.growsTo_addStore d.archive.growsTo_addOverlay
    d.archive.growsTo_insert (fun _ => World.yields_commit) act

theorem growsTo_run (d : Desk) (acts : List Act) : d.archive.GrowsTo (d.run acts).archive := by
  induction acts generalizing d with
  | nil => exact .refl _
  | cons act rest ih => exact (growsTo_step d act).trans (ih (d.step act))

/-- Whatever is done with stores and snapshots, no snapshot answers otherwise than it
did, and no store shows another record under a digest. -/
theorem answers_of_run (d : Desk) (acts : List Act) :
    (∀ (w : World) (address : Hash) (found : Option Account),
      w.account? d.archive address = .ok found →
        w.account? (d.run acts).archive address = .ok found) ∧
    ∀ (store : StoreId) (hash : Hash) (account : Account),
      d.archive.get? store hash = some account →
        (d.run acts).archive.get? store hash = some account :=
  ⟨fun _ _ _ hanswer => World.account?_of_growsTo hanswer (growsTo_run d acts),
    fun _ _ _ => (growsTo_run d acts).shows⟩

/-- The factory can still be read from the overlay after it was committed, and after it was put
into a part of the snapshot that has no answer for it, which fails. -/
theorem answers_of_run_founding : ∃ d hash, d = empty.run founding ∧
    World.account? d.archive ⟨Genesis.trie, 1⟩ Genesis.address = .ok (some Genesis.account) ∧
    d.archive.get? 1 hash = some Genesis.account ∧
    let d' := d.run [.commit 2, .cherryPick 2 [], .put 4 Genesis.account]
    World.account? d'.archive ⟨Genesis.trie, 1⟩ Genesis.address = .ok (some Genesis.account) ∧
      d'.archive.get? 1 hash = some Genesis.account := by
  obtain ⟨a, halone, -, hrun⟩ := run_founding
  have hanswer : World.account? a ⟨Genesis.trie, 1⟩ Genesis.address = .ok (some Genesis.account) :=
    halone.holds
  obtain ⟨hash, -, hrecord⟩ := World.account?_eq_some_iff.mp hanswer
  refine ⟨empty.run founding, hash, rfl, ?_⟩
  rw [hrun]
  refine ⟨hanswer, hrecord, ?_⟩
  exact ⟨(answers_of_run ⟨a, _⟩ _).1 _ _ _ hanswer, (answers_of_run ⟨a, _⟩ _).2 _ _ _ hrecord⟩

/-! ## What the snapshots on a desk have in common -/

/-- What is made at a place was there before, or was made of a snapshot that was. -/
theorem mem_make (h : w ∈ (d.make place f).worlds) :
    w ∈ d.worlds ∨ ∃ old ∈ d.worlds, f old d.archive = .ok w (d.make place f).archive := by
  unfold make at h ⊢
  cases hplace : d.worlds[place]? with
  | none =>
      rw [hplace] at h
      exact .inl h
  | some old =>
      rw [hplace] at h
      dsimp only [take] at h ⊢
      cases hrun : f old d.archive with
      | error e a =>
          rw [hrun] at h
          exact .inl h
      | ok new a =>
          rw [hrun] at h
          rcases List.mem_append.mp h with h | h
          · exact .inl h
          · obtain rfl := List.mem_singleton.mp h
            exact .inr ⟨old, List.mem_of_getElem? hplace, hrun⟩

/-- A property that is never lost when stores grow, and that new snapshots have if they
are empty or made of one that has it. -/
structure Inherited (P : Archive → World → Prop) : Prop where
  growsTo : ∀ {a a' w}, a.GrowsTo a' → P a w → P a' w
  empty : ∀ {a store}, store < a.stores.size → P a (World.empty store)
  put : ∀ {a a' w w' account}, P a w → w.put account a = .ok w' a' → P a' w'
  fork : ∀ {a a' w w'}, P a w → (w.fork : Archived StateError World) a = .ok w' a' → P a' w'
  commit : ∀ {a a' w w'}, P a w → w.commit a = .ok w' a' → P a' w'

section Inherited

variable {P : Archive → World → Prop} (hP : Inherited P)

include hP

theorem each_make (hold : ∀ w ∈ d.worlds, P d.archive w)
    (hgrows : d.archive.GrowsTo (d.make place f).archive)
    (hf : ∀ {w w' a'}, P d.archive w → f w d.archive = .ok w' a' → P a' w') :
    ∀ w ∈ (d.make place f).worlds, P (d.make place f).archive w := by
  intro w hmem
  rcases mem_make hmem with hmem | ⟨old, hmem, hmake⟩
  · exact hP.growsTo hgrows (hold w hmem)
  · exact hf (hold old hmem) hmake

theorem each_step
    (hpick : ∀ place keys, act = .cherryPick place keys → ∀ {a a' w w'}, P a w →
      w.cherryPick keys a = .ok w' a' → P a' w')
    (hold : ∀ w ∈ d.worlds, P d.archive w) :
    ∀ w ∈ (d.step act).worlds, P (d.step act).archive w := by
  have hgrows := growsTo_step d act
  have hkeep : ∀ w ∈ d.worlds, P (d.step act).archive w := fun w hmem =>
    hP.growsTo hgrows (hold w hmem)
  cases act with
  | addStore => exact hkeep
  | addOverlay base =>
      have hworlds : (d.step (.addOverlay base)).worlds = d.worlds := by
        dsimp only [step]
        split <;> rfl
      rw [hworlds]
      exact hkeep
  | insert store account =>
      have hworlds : (d.step (.insert store account)).worlds = d.worlds := by
        dsimp only [step]
        split <;> rfl
      rw [hworlds]
      exact hkeep
  | start store =>
      dsimp only [step]
      split
      case isFalse => exact hold
      case isTrue hstore =>
        intro w hmem
        rcases List.mem_append.mp hmem with hmem | hmem
        · exact hold w hmem
        · obtain rfl := List.mem_singleton.mp hmem
          exact hP.empty hstore
  | put place account => exact each_make hP hold hgrows hP.put
  | fork place => exact each_make hP hold hgrows hP.fork
  | commit place => exact each_make hP hold hgrows hP.commit
  | cherryPick place keys => exact each_make hP hold hgrows (hpick place keys rfl)

/-- Every snapshot on a desk has a property that is inherited, if parts of snapshots
inherit it as well or none are made. -/
theorem each_run
    (hpick : ∀ place keys, Act.cherryPick place keys ∈ acts → ∀ {a a' w w'}, P a w →
      w.cherryPick keys a = .ok w' a' → P a' w')
    (hold : ∀ w ∈ d.worlds, P d.archive w) :
    ∀ w ∈ (d.run acts).worlds, P (d.run acts).archive w := by
  induction acts generalizing d with
  | nil => exact hold
  | cons act rest ih =>
      refine ih (fun place keys hmem => hpick place keys (List.mem_cons_of_mem _ hmem)) ?_
      exact each_step hP (fun place keys heq => hpick place keys (heq ▸ List.mem_cons_self)) hold

/-- So has every snapshot that was made on a desk without anything on it. -/
theorem each_of_mem
    (hpick : ∀ place keys, Act.cherryPick place keys ∈ acts → ∀ {a a' w w'}, P a w →
      w.cherryPick keys a = .ok w' a' → P a' w')
    (h : w ∈ (empty.run acts).worlds) : P (empty.run acts).archive w :=
  each_run hP hpick (fun _ hmem => absurd hmem List.not_mem_nil) w h

end Inherited

/-! ## What all snapshots have in common -/

theorem Inherited.and {P Q : Archive → World → Prop} (hP : Inherited P) (hQ : Inherited Q) :
    Inherited fun a w => P a w ∧ Q a w where
  growsTo hgrows h := ⟨hP.growsTo hgrows h.1, hQ.growsTo hgrows h.2⟩
  empty hstore := ⟨hP.empty hstore, hQ.empty hstore⟩
  put h hput := ⟨hP.put h.1 hput, hQ.put h.2 hput⟩
  fork h hfork := ⟨hP.fork h.1 hfork, hQ.fork h.2 hfork⟩
  commit h hcommit := ⟨hP.commit h.1 hcommit, hQ.commit h.2 hcommit⟩

/-- Only a put changes the trie of a snapshot. -/
theorem inherited_trie {P : Trie → Prop} (hempty : P Trie.empty)
    (hput : ∀ {t u key value}, P t → t.put key value = .ok u → P u) :
    Inherited fun _ w => P w.trie where
  growsTo _ h := h
  empty _ := hempty
  put h hrun := by
    obtain ⟨-, trie, hadd, rfl⟩ := World.put_eq_ok_iff.mp hrun
    exact hput h hadd
  fork h hfork := by
    obtain ⟨rfl, -⟩ := World.fork_eq_ok hfork
    exact h
  commit h hcommit := by
    rcases World.commit_eq_ok hcommit with ⟨-, rfl, -⟩ | ⟨-, rfl, -⟩
    · exact h
    · exact h

theorem inherited_backed : Inherited fun a w => w.Backed a where
  growsTo hgrows h := h.growsTo hgrows
  empty hstore := ⟨hstore, fun _ _ hmem => nomatch hmem⟩
  put h hput := h.put hput
  fork h hfork := h.fork hfork
  commit h hcommit := by
    obtain ⟨v, b, hrun, hbacked⟩ := h.exists_commit
    cases hcommit.symm.trans hrun
    exact hbacked

/-- Every snapshot is backed by its store, and its trie is regular. -/
theorem backed_of_mem (h : w ∈ (empty.run acts).worlds) :
    w.Backed (empty.run acts).archive ∧ w.trie.root.Regular trieDepth := by
  have hregular : Inherited fun _ w => w.trie.root.Regular trieDepth :=
    inherited_trie (.empty trieDepth) fun ht hadd =>
      Trie.hereditary_put Node.hereditary_regular .leaf hadd ht
  refine each_of_mem (inherited_backed.and hregular) ?_ h
  intro _ keys _ a a' w w' ⟨hbacked, hw⟩ hpick
  obtain ⟨⟨trie, htrie, rfl⟩, rfl⟩ := World.cherryPick_eq_ok_iff.mp hpick
  refine ⟨⟨hbacked.lt_size, fun address hash hmem => hbacked.shown address hash ?_⟩,
    (Trie.picked_of_cherryPick htrie).regular hw⟩
  rw [Trie.leaves_cherryPick hw htrie] at hmem
  exact (List.mem_filter.mp hmem).1

end Desk

end ScriptLedger
