import BitFS.Library.Transition
import Mathlib.Algebra.BigOperators.Group.Finset.Basic
import Mathlib.Data.Countable.Basic
import Mathlib.Data.Nat.Pairing
import Mathlib.Logic.Denumerable

/-! # Runs in which everyone gets a turn

A rank that is the sum of the ranks of all threads changes with the thread whose turn it is.
Where no action raises the rank, every turn from some point on leaves it as it is. There are
schedules in which each of countably many choices comes again and again.
-/

namespace BitFS.Fairness

open Transition

theorem sum_update {ι β : Type*} [Fintype ι] [DecidableEq ι] (f : β → Nat) (x : ι → β) (r : ι)
    (y : β) : (∑ r', f (Function.update x r y r')) + f (x r) = (∑ r', f (x r')) + f y := by
  have hrest : ∑ r' ∈ Finset.univ.erase r, f (Function.update x r y r') =
      ∑ r' ∈ Finset.univ.erase r, f (x r') := by
    apply Finset.sum_congr rfl
    intro r' hr'
    rw [Function.update_of_ne (Finset.ne_of_mem_erase hr')]
  rw [← Finset.add_sum_erase _ _ (Finset.mem_univ r),
    ← Finset.add_sum_erase Finset.univ (fun r' => f (x r')) (Finset.mem_univ r), hrest,
    Function.update_self]
  omega

section Rank

variable {σ α ι : Type*} (step : σ → α → σ) (turn : ι → α) (rank : σ → Nat)
  (polls : ι → σ → Prop) {s : σ} {acts : Nat → α}

/-- From `N` on the rank stands still, and whoever has a turn polls. -/
structure Quiet (s : σ) (acts : Nat → α) (N : Nat) : Prop where
  still : ∀ n, N ≤ n → rank (stateAt step s acts (n + 1)) = rank (stateAt step s acts n)
  polls : ∀ n, N ≤ n → ∀ r, acts n = turn r → polls r (stateAt step s acts n)

/-- A run comes to rest where no action raises the rank, and turns that do not poll lower it. -/
theorem exists_quiet
    (hle : ∀ n, rank (stateAt step s acts (n + 1)) ≤ rank (stateAt step s acts n))
    (hturn : ∀ n r, acts n = turn r →
      rank (stateAt step s acts (n + 1)) < rank (stateAt step s acts n) ∨
        polls r (stateAt step s acts n)) :
    ∃ N, Quiet step turn rank polls s acts N := by
  obtain ⟨N, hN⟩ := exists_stable step rank hle
  have hsame (n : Nat) (hn : N ≤ n) :
      rank (stateAt step s acts (n + 1)) = rank (stateAt step s acts n) :=
    (hN (n + 1) (by omega)).trans (hN n hn).symm
  refine ⟨N, hsame, ?_⟩
  intro n hn r hr
  rcases hturn n r hr with hlt | hpolls
  · have heq := hsame n hn
    omega
  · exact hpolls

end Rank

/-- A schedule in which every choice comes again and again. -/
theorem exists_recurring (α : Type*) [Countable α] [Nonempty α] :
    ∃ f : Nat → α, ∀ x n, ∃ m, n ≤ m ∧ f m = x := by
  obtain ⟨g, hg⟩ := exists_surjective_nat α
  -- the first half of a pair picks the choice, the second makes it come again
  refine ⟨fun m => g m.unpair.1, ?_⟩
  intro x n
  obtain ⟨c, hc⟩ := hg x
  refine ⟨Nat.pair c n, Nat.right_le_pair c n, ?_⟩
  dsimp only
  rw [Nat.unpair_pair]
  exact hc

end BitFS.Fairness
