import ScriptLedger.Proofs.Trie.Recipe

/-!
# Working on a view

A session is a list of requests that are made of one trie, each of what the one before it has
left.  It is logged what every request is answered, and which root hash there is after it.
What is logged of a view is what is logged of the whole: a view refuses what it cannot tell,
and as long as it refuses nothing, nobody who sees the log can say which of the two was asked.

## Main results

* `Trie.Views.request` — one request keeps view and whole together.
* `Trie.Views.session` — so does a session, and the logs are the same.
* `Trie.session_of_cherryPick` — what was picked from a trie stands in for it.
-/

namespace ScriptLedger

open Sequencing

namespace Trie

/-! ## Sessions -/

/-- What can be asked of a trie. -/
inductive Request
  | get (key : Hash)
  | contains (key : Hash)
  | put (key value : Hash)
  | remove (key : Hash)

/-- What a request is answered. -/
inductive Answer
  | found (value? : Option Hash)
  | present (flag : Bool)
  | stored
  | removed (flag : Bool)
deriving DecidableEq

/-- The trie after a request, and the answer. -/
def request (t : Trie) : Request → Except TrieError (Trie × Answer)
  | .get key => (t.get key).map fun value? => (t, .found value?)
  | .contains key => (t.contains key).map fun flag => (t, .present flag)
  | .put key value => (t.put key value).map fun u => (u, .stored)
  | .remove key => (t.remove key).map fun (u, flag) => (u, .removed flag)

/-- What is answered to each of some requests and the root hash after it, if none of them is
refused. -/
def session : List Request → Trie → Except TrieError (List (Answer × Hash))
  | [], _ => .ok []
  | q :: rest, t => do
    let (u, answer) ← t.request q
    let log ← u.session rest
    pure ((answer, u.rootHash) :: log)

variable {t u : Trie} {q : Request} {rest : List Request} {answer : Answer}
  {log : List (Answer × Hash)}

theorem session_cons (h : t.request q = .ok (u, answer)) (hrest : u.session rest = .ok log) :
    t.session (q :: rest) = .ok ((answer, u.rootHash) :: log) := by
  rw [session, h]
  show (u.session rest >>= fun log => pure ((answer, u.rootHash) :: log)) = _
  rw [hrest]
  rfl

theorem session_cons_eq_ok (h : t.session (q :: rest) = .ok log) :
    ∃ u answer more, t.request q = .ok (u, answer) ∧ u.session rest = .ok more ∧
      log = (answer, u.rootHash) :: more := by
  obtain ⟨⟨u, answer⟩, hrequest, h⟩ := except_bind_eq_ok.mp h
  obtain ⟨more, hrest, h⟩ := except_bind_eq_ok.mp h
  cases h
  exact ⟨u, answer, more, hrequest, hrest, rfl⟩

/-! ## View and whole -/

namespace Views

variable {view view' whole : Trie}

theorem get_eq_ok (h : Views view whole) {key : Hash} {value? : Option Hash}
    (hget : view.get key = .ok value?) : whole.get key = .ok value? := by
  rcases h.get key with ⟨_, -, herror⟩ | hsame
  · rw [hget] at herror
    cases herror
  · rw [← hsame, hget]

theorem put_eq_ok (h : Views view whole) {key value : Hash}
    (hput : view.put key value = .ok view') :
    ∃ whole', whole.put key value = .ok whole' ∧ Views view' whole' := by
  rcases h.put key value with ⟨_, -, herror⟩ | ⟨_, herror, -⟩ | ⟨_, whole', hput', hwhole, hviews⟩
  · rw [hput] at herror
    cases herror
  · rw [hput] at herror
    cases herror
  · rw [hput] at hput'
    cases hput'
    exact ⟨whole', hwhole, hviews⟩

/-- What a view does not refuse, the whole answers alike, and they stay together. -/
theorem request (h : Views view whole) (hrequest : view.request q = .ok (view', answer)) :
    ∃ whole', whole.request q = .ok (whole', answer) ∧ Views view' whole' := by
  cases q with
  | get key =>
      obtain ⟨value?, hget, heq⟩ := except_map_eq_ok.mp hrequest
      cases heq
      exact ⟨whole, except_map_eq_ok.mpr ⟨value?, h.get_eq_ok hget, rfl⟩, h⟩
  | contains key =>
      obtain ⟨flag, hcontains, heq⟩ := except_map_eq_ok.mp hrequest
      obtain ⟨value?, hget, rfl⟩ := except_map_eq_ok.mp hcontains
      cases heq
      have hwhole : whole.contains key = .ok value?.isSome :=
        except_map_eq_ok.mpr ⟨value?, h.get_eq_ok hget, rfl⟩
      exact ⟨whole, except_map_eq_ok.mpr ⟨_, hwhole, rfl⟩, h⟩
  | put key value =>
      obtain ⟨made, hput, heq⟩ := except_map_eq_ok.mp hrequest
      cases heq
      obtain ⟨whole', hwhole, hviews⟩ := h.put_eq_ok hput
      exact ⟨whole', except_map_eq_ok.mpr ⟨whole', hwhole, rfl⟩, hviews⟩
  | remove key =>
      obtain ⟨⟨left, flag⟩, hremove, heq⟩ := except_map_eq_ok.mp hrequest
      cases heq
      obtain ⟨whole', hwhole, hviews⟩ := h.remove hremove
      exact ⟨whole', except_map_eq_ok.mpr ⟨_, hwhole, rfl⟩, hviews⟩

/-- A session in which a view refuses nothing is logged of the whole as it is logged of the
view. -/
theorem session {requests : List Request} (h : Views view whole)
    (hsession : view.session requests = .ok log) : whole.session requests = .ok log := by
  induction requests generalizing view whole log with
  | nil => exact hsession
  | cons q rest ih =>
      obtain ⟨view', answer, more, hrequest, hrest, rfl⟩ := session_cons_eq_ok hsession
      obtain ⟨whole', hwhole, hviews⟩ := h.request hrequest
      rw [hviews.rootHash_eq]
      exact session_cons hwhole (ih hviews hrest)

end Views

/-- What was picked from a trie stands in for it, as long as it refuses nothing. -/
theorem session_of_cherryPick {r : Recipe} {view : Trie} {keys : List Hash}
    {requests : List Request} (hmake : r.make = .ok t) (hzero : t.root.Nonzero)
    (hpick : t.cherryPick keys = .ok view) (hsession : view.session requests = .ok log) :
    t.session requests = .ok log := by
  have hregular := Recipe.regular_of_make hmake
  have hviews : Views view t :=
    views_of_cherryPick hpick hregular.hashed (hregular.nonzeroBeside hzero _)
  exact hviews.session hsession

/-- Beside the only value of a trie, of which the view keeps just a hash, another one is put
and taken away. -/
theorem session_of_cherryPick_single : ∃ t view log, Recipe.single.make = .ok t ∧
    t.root.Nonzero ∧ t.cherryPick [Recipe.far] = .ok view ∧
      view.session [.get Recipe.far, .contains Recipe.far, .put Recipe.far Node.ones,
        .get Recipe.far, .remove Recipe.far] = .ok log ∧
      t.session [.get Recipe.far, .contains Recipe.far, .put Recipe.far Node.ones,
        .get Recipe.far, .remove Recipe.far] = .ok log := by
  obtain ⟨t, hmake, hnonzero, hknown, hfar, -⟩ := Recipe.exists_single
  obtain ⟨view, hpick⟩ := exists_cherryPick_of_get fun key (_ : key ∈ [Recipe.far]) => hknown key
  have hget : view.get Recipe.far = .ok none := (get_cherryPick hpick (by simp)).trans hfar
  obtain ⟨more, hput⟩ := exists_put_of_get hget (show Node.ones ≠ Blob.zero by decide)
  have hagain : more.get Recipe.far = .ok (some Node.ones) := by rw [get_put hput, if_pos rfl]
  obtain ⟨last, hremove⟩ := exists_remove_of_get hagain
  have hcontains : view.contains Recipe.far = .ok false :=
    except_map_eq_ok.mpr ⟨none, hget, rfl⟩
  have hfound : view.request (.get Recipe.far) = .ok (view, .found none) :=
    except_map_eq_ok.mpr ⟨none, hget, rfl⟩
  have hpresent : view.request (.contains Recipe.far) = .ok (view, .present false) :=
    except_map_eq_ok.mpr ⟨false, hcontains, rfl⟩
  have hstored : view.request (.put Recipe.far Node.ones) = .ok (more, .stored) :=
    except_map_eq_ok.mpr ⟨more, hput, rfl⟩
  have hthere : more.request (.get Recipe.far) = .ok (more, .found (some Node.ones)) :=
    except_map_eq_ok.mpr ⟨_, hagain, rfl⟩
  have hremoved : more.request (.remove Recipe.far) = .ok (last, .removed true) :=
    except_map_eq_ok.mpr ⟨_, hremove, rfl⟩
  have hlast : last.session [] = .ok [] := rfl
  have hsession := session_cons hfound (session_cons hpresent (session_cons hstored
    (session_cons hthere (session_cons hremoved hlast))))
  exact ⟨t, view, _, hmake, hnonzero, hpick, hsession,
    session_of_cherryPick hmake hnonzero hpick hsession⟩

end Trie

end ScriptLedger
