import BitFS.Library.Transition

/-! # Simulation with stuttering

One system follows another when every action of the first can be answered in the
second by some admitted actions, perhaps none, that restore a relation between
the two states. Then whatever run the first takes, the second has one beside it.
-/

namespace BitFS.Simulation

open Transition

variable {σ τ α β : Type*} {step : σ → α → σ} {step' : τ → β → τ}
variable {ok : α → Prop} {ok' : β → Prop}

theorem reaches_step {b : β} (hb : ok' b) (x : τ) : Reaches step' ok' x (step' x b) :=
  ⟨[b], by simpa using hb, rfl⟩

theorem reaches_trans {x y z : τ} (h : Reaches step' ok' x y) (h' : Reaches step' ok' y z) :
    Reaches step' ok' x z := by
  obtain ⟨as, has, rfl⟩ := h
  obtain ⟨bs, hbs, rfl⟩ := h'
  refine ⟨as ++ bs, ?_, run_append step' x as bs⟩
  intro c hc
  rcases List.mem_append.mp hc with hc | hc
  · exact has c hc
  · exact hbs c hc

/-- `R` is restored in the second system after every action of the first. -/
def Follows (step : σ → α → σ) (ok : α → Prop) (step' : τ → β → τ) (ok' : β → Prop)
    (R : σ → τ → Prop) : Prop :=
  ∀ s x a, R s x → ok a → ∃ y, Reaches step' ok' x y ∧ R (step s a) y

variable {R : σ → τ → Prop}

/-- Every reachable state has a related one that is reachable too. -/
theorem Follows.reaches (h : Follows step ok step' ok' R) {s s' : σ} {x : τ} (hR : R s x)
    (hs : Reaches step ok s s') : ∃ y, Reaches step' ok' x y ∧ R s' y := by
  apply hs.invariant (I := fun u => ∃ y, Reaches step' ok' x y ∧ R u y)
  · intro u a hu ha
    obtain ⟨y, hxy, hRy⟩ := hu
    obtain ⟨z, hyz, hRz⟩ := h u y a hRy ha
    exact ⟨z, reaches_trans hxy hyz, hRz⟩
  · exact ⟨x, .refl step' ok' x, hR⟩

end BitFS.Simulation
