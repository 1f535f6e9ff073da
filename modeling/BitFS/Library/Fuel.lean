import Mathlib.Order.Lattice.Nat

/-! # Enough fuel

What holds for every amount of fuel from some amount on: a run needs more than the calls that
it makes. A run whose fuel did not run out has the same result with more fuel.
-/

namespace BitFS.Fuel

variable {P Q : Nat → Prop}

theorem enough_of_add (m : Nat) (h : ∀ fuel, Q (fuel + m)) : ∃ N, ∀ fuel ≥ N, Q fuel := by
  refine ⟨m, ?_⟩
  intro fuel hfuel
  rw [← Nat.sub_add_cancel hfuel]
  exact h (fuel - m)

/-- What the calls have enough of, with `m` more, the run has enough of. -/
theorem enough_add (m : Nat) (h : ∃ N, ∀ fuel ≥ N, P fuel)
    (hstep : ∀ fuel, P fuel → Q (fuel + m)) : ∃ N, ∀ fuel ≥ N, Q fuel := by
  obtain ⟨N, hN⟩ := h
  apply enough_of_add (N + m)
  intro fuel
  rw [← Nat.add_assoc]
  exact hstep (fuel + N) (hN _ (Nat.le_add_left N fuel))

theorem enough_shift (m : Nat) (h : ∃ N, ∀ fuel ≥ N, P fuel) : ∃ N, ∀ fuel ≥ N, P (fuel + m) := by
  obtain ⟨N, hN⟩ := h
  exact ⟨N, fun fuel hfuel => hN _ (Nat.le_add_right_of_le hfuel)⟩

theorem enough_and (hP : ∃ N, ∀ fuel ≥ N, P fuel) (hQ : ∃ N, ∀ fuel ≥ N, Q fuel) :
    ∃ N, ∀ fuel ≥ N, P fuel ∧ Q fuel := by
  obtain ⟨N, hN⟩ := hP
  obtain ⟨N', hN'⟩ := hQ
  refine ⟨max N N', ?_⟩
  intro fuel hfuel
  exact ⟨hN fuel (le_of_max_le_left hfuel), hN' fuel (le_of_max_le_right hfuel)⟩

/-! ## Runs that end -/

section Ends

variable {ε α β : Type} {out : ε}

/-- The run has a result, or an error of its own: the fuel did not run out. -/
def Ends (out : ε) (x : Except ε α) : Prop := x ≠ .error out

/-- With more fuel `x` is `y`. -/
def Approx (out : ε) (x y : Except ε α) : Prop := Ends out x → x = y

theorem ends_ok (a : α) : Ends out (.ok a) := by
  intro h
  cases h

theorem ends_error {e : ε} (he : e ≠ out) : Ends out (.error e : Except ε α) := by
  intro h
  cases h
  exact he rfl

theorem Ends.bind {x : Except ε α} {f : α → Except ε β} (hx : Ends out x)
    (hf : ∀ a, x = .ok a → Ends out (f a)) : Ends out (x >>= f) := by
  cases x with
  | error e => exact ends_error fun he => hx (congrArg Except.error he)
  | ok a => exact hf a rfl

theorem Approx.refl (x : Except ε α) : Approx out x x := fun _ => rfl

theorem approx_out (y : Except ε α) : Approx out (.error out) y := fun h => absurd rfl h

theorem Approx.trans {x y z : Except ε α} (hxy : Approx out x y) (hyz : Approx out y z) :
    Approx out x z := by
  intro hx
  obtain rfl := hxy hx
  exact hyz hx

theorem Approx.bind {x y : Except ε α} {f g : α → Except ε β} (hxy : Approx out x y)
    (hfg : ∀ a, Approx out (f a) (g a)) : Approx out (x >>= f) (y >>= g) := by
  cases x with
  | error e =>
      intro hends
      have hx : Ends out (.error e : Except ε α) := by
        intro he
        cases he
        exact hends rfl
      rw [← hxy hx]
      rfl
  | ok a =>
      rw [← hxy (ends_ok a)]
      exact hfg a

/-- One more unit of fuel at a time. -/
theorem approx_of_le {f : Nat → Except ε α} (hstep : ∀ fuel, Approx out (f fuel) (f (fuel + 1)))
    {fuel fuel' : Nat} (hle : fuel ≤ fuel') : Approx out (f fuel) (f fuel') := by
  induction hle with
  | refl => exact Approx.refl _
  | step hle ih => exact ih.trans (hstep _)

/-- A run that ends has the result that enough fuel gives. -/
theorem eq_of_enough {f : Nat → Except ε α} (hstep : ∀ fuel, Approx out (f fuel) (f (fuel + 1)))
    {a : α} (h : ∃ N, ∀ fuel ≥ N, f fuel = .ok a) {fuel : Nat} (hends : Ends out (f fuel)) :
    f fuel = .ok a := by
  obtain ⟨N, hN⟩ := h
  rw [approx_of_le hstep (le_max_left fuel N) hends]
  exact hN _ (le_max_right fuel N)

end Ends

end BitFS.Fuel
