import BitFS.Library.Transition

/-! # What a lock guards

The place of a thread says whether it has the lock. Between two turns of the
owner the rest of the system takes any number of steps. If no single one of them
takes the lock away or does more to the state than the owner allows for, all of
them together do not.
-/

namespace BitFS.Mutex

open Transition

variable {σ α ι : Type*} {step : σ → α → σ}

/-- Where a thread stands with respect to a lock. -/
inductive Place where
  | inside
  | outside
  /-- nothing is known any more -/
  | lost

/-- A thread `me` at such a place agrees with the owner of the lock. -/
def Place.Agrees (me : ι) (owner : Option ι) : Place → Prop
  | .inside => owner = some me
  | .outside => owner ≠ some me
  | .lost => True

section Place

variable {me : ι} {m m' : Option ι} {place : Place}

theorem Place.Agrees.inside (h : place.Agrees me m) (hown : m = some me) :
    place = .inside ∨ place = .lost := by
  cases place with
  | inside => exact Or.inl rfl
  | outside => exact absurd hown h
  | lost => exact Or.inr rfl

/-- What others do to the lock does not matter, as long as they neither take it from the
thread nor give it to it. -/
theorem Place.Agrees.change (h : place.Agrees me m)
    (hiff : m' = some me ↔ m = some me) : place.Agrees me m' := by
  cases place with
  | inside => exact hiff.mpr h
  | outside => exact mt hiff.mp h
  | lost => trivial

end Place

/-- Where `I` holds, an action that is not the turn of the owner leaves it the lock
and changes the state at most as `Allowed` says. -/
structure Guards (step : σ → α → σ) (I : σ → Prop) (turn : ι → α) (owner : σ → Option ι)
    (Allowed : ι → σ → σ → Prop) : Prop where
  keeps : ∀ s a, I s → I (step s a)
  refl : ∀ r s, Allowed r s s
  trans : ∀ r s s' s'', Allowed r s s' → Allowed r s' s'' → Allowed r s s''
  others : ∀ s a r, I s → owner s = some r → a ≠ turn r →
    owner (step s a) = some r ∧ Allowed r s (step s a)

variable {I : σ → Prop} {turn : ι → α} {owner : σ → Option ι} {Allowed : ι → σ → σ → Prop}

/-- At its next turn the owner still has the lock. -/
theorem Guards.reaches (h : Guards step I turn owner Allowed) {s s' : σ} {r : ι} (hs : I s)
    (hr : owner s = some r) (hrun : Reaches step (fun a => a ≠ turn r) s s') :
    owner s' = some r ∧ Allowed r s s' := by
  have hall : I s' ∧ owner s' = some r ∧ Allowed r s s' := by
    apply hrun.invariant (I := fun x => I x ∧ owner x = some r ∧ Allowed r s x)
    · intro x a hx ha
      obtain ⟨hI, hown, hsame⟩ := hx
      have hnext := h.others x a r hI hown ha
      exact ⟨h.keeps x a hI, hnext.1, h.trans r s x _ hsame hnext.2⟩
    · exact ⟨hs, hr, h.refl r s⟩
  exact hall.2

end BitFS.Mutex
