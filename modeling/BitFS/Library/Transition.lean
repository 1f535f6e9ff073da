import Mathlib.Order.WellFounded
import Mathlib.Order.Monotone.Basic
import Mathlib.Order.Lattice.Nat

/-! # Runs of a step function driven by actions

A system is a total step function; an action that is not possible in a state
leaves it as it is. Invariants are carried along finite runs and along the
states of an infinite sequence of actions, where a measure that never grows
comes to rest.
-/

namespace BitFS.Transition

variable {σ α : Type*} (step : σ → α → σ)

/-- The state after a finite list of actions. -/
def run (s : σ) (acts : List α) : σ := acts.foldl step s

@[simp] theorem run_nil (s : σ) : run step s [] = s := rfl

@[simp] theorem run_cons (s : σ) (a : α) (acts : List α) :
    run step s (a :: acts) = run step (step s a) acts := rfl

theorem run_append (s : σ) (as bs : List α) :
    run step s (as ++ bs) = run step (run step s as) bs := List.foldl_append

/-- What every admitted step preserves holds after every admitted run. -/
theorem run_invariant {I : σ → Prop} {ok : α → Prop}
    (hstep : ∀ s a, I s → ok a → I (step s a)) {s : σ} (hs : I s) {acts : List α}
    (hacts : ∀ a ∈ acts, ok a) : I (run step s acts) := by
  induction acts generalizing s with
  | nil => exact hs
  | cons a acts ih =>
      exact ih (hstep s a hs (hacts a List.mem_cons_self))
        (fun b hb => hacts b (List.mem_cons_of_mem a hb))

/-- `s'` is the state after some run of admitted actions from `s`. -/
def Reaches (ok : α → Prop) (s s' : σ) : Prop := ∃ acts, (∀ a ∈ acts, ok a) ∧ run step s acts = s'

theorem Reaches.invariant {ok : α → Prop} {s s' : σ} (h : Reaches step ok s s') {I : σ → Prop}
    (hstep : ∀ s a, I s → ok a → I (step s a)) (hs : I s) : I s' := by
  obtain ⟨acts, hacts, rfl⟩ := h
  exact run_invariant step hstep hs hacts

theorem Reaches.refl (ok : α → Prop) (s : σ) : Reaches step ok s s := ⟨[], by simp, rfl⟩

/-- How many actions of a run are `counted`. -/
def count (counted : σ → α → Bool) (s : σ) : List α → Nat
  | [] => 0
  | a :: acts => (counted s a).toNat + count counted (step s a) acts

/-- A run has no more actions that lower a measure than the measure is high, if no other
raises it. -/
theorem count_le_rank {I : σ → Prop} {ok : α → Prop} (counted : σ → α → Bool) (rank : σ → Nat)
    (hkeep : ∀ s a, I s → ok a → I (step s a))
    (hrank : ∀ s a, I s → ok a → rank (step s a) + (counted s a).toNat ≤ rank s) {s : σ}
    (hs : I s) {acts : List α} (hacts : ∀ a ∈ acts, ok a) :
    count step counted s acts + rank (run step s acts) ≤ rank s := by
  induction acts generalizing s with
  | nil => simp [count]
  | cons a acts ih =>
      have ha := hacts a List.mem_cons_self
      have hrest := ih (hkeep s a hs ha) (fun b hb => hacts b (List.mem_cons_of_mem a hb))
      have hfirst := hrank s a hs ha
      simp only [count, run_cons]
      omega

/-- The state before action `n` of an infinite sequence. -/
def stateAt (s : σ) (acts : Nat → α) : Nat → σ
  | 0 => s
  | n + 1 => step (stateAt s acts n) (acts n)

/-- The states of a sequence are the ends of its finite runs. -/
theorem stateAt_eq_run (s : σ) (acts : Nat → α) (n : Nat) :
    stateAt step s acts n = run step s ((List.range n).map acts) := by
  induction n with
  | zero => rfl
  | succ n ih =>
      rw [List.range_succ, List.map_append, run_append, ← ih]
      rfl

theorem reaches_stateAt {ok : α → Prop} (s : σ) {acts : Nat → α} (hacts : ∀ n, ok (acts n))
    (n : Nat) : Reaches step ok s (stateAt step s acts n) := by
  refine ⟨(List.range n).map acts, ?_, (stateAt_eq_run step s acts n).symm⟩
  simpa using fun m _ => hacts m

/-- What holds at `m` and is preserved from there on holds at every later state. -/
theorem stateAt_persists {P : σ → Prop} {s : σ} {acts : Nat → α} {m : Nat}
    (hm : P (stateAt step s acts m))
    (hstep : ∀ n, m ≤ n → P (stateAt step s acts n) → P (stateAt step s acts (n + 1)))
    {n : Nat} (hn : m ≤ n) : P (stateAt step s acts n) := by
  induction n, hn using Nat.le_induction with
  | base => exact hm
  | succ n hn ih => exact hstep n hn ih

/-- A measure no step increases is constant from some point on. -/
theorem exists_stable {s : σ} {acts : Nat → α} (rank : σ → Nat)
    (h : ∀ n, rank (stateAt step s acts (n + 1)) ≤ rank (stateAt step s acts n)) :
    ∃ N, ∀ n, N ≤ n → rank (stateAt step s acts n) = rank (stateAt step s acts N) := by
  have hanti : Antitone fun n => rank (stateAt step s acts n) := antitone_nat_of_succ_le h
  obtain ⟨N, hN⟩ : ∃ N, ∀ n, rank (stateAt step s acts N) ≤ rank (stateAt step s acts n) :=
    ⟨Function.argmin fun n => rank (stateAt step s acts n),
      fun n => Function.argmin_le (fun n => rank (stateAt step s acts n)) n⟩
  exact ⟨N, fun n hn => le_antisymm (hanti hn) (hN n)⟩

/-- Where the turn of a part of the state comes again and again, and nothing but its
turn changes it, its next turn finds it as it is. -/
theorem exists_turn {β : Type*} {s : σ} {acts : Nat → α} (part : σ → β) (turn : α → Prop)
    (hkeep : ∀ n, ¬ turn (acts n) →
      part (stateAt step s acts (n + 1)) = part (stateAt step s acts n))
    (hfair : ∀ n, ∃ m, n ≤ m ∧ turn (acts m)) (n : Nat) :
    ∃ m, n ≤ m ∧ turn (acts m) ∧ part (stateAt step s acts m) = part (stateAt step s acts n) := by
  classical
  have hex : ∃ d, turn (acts (n + d)) := by
    obtain ⟨m, hm, ht⟩ := hfair n
    exact ⟨m - n, by rwa [Nat.add_sub_cancel' hm]⟩
  refine ⟨n + Nat.find hex, Nat.le_add_right _ _, Nat.find_spec hex, ?_⟩
  have hsame : ∀ d, d ≤ Nat.find hex →
      part (stateAt step s acts (n + d)) = part (stateAt step s acts n) := by
    intro d
    induction d with
    | zero => exact fun _ => rfl
    | succ d ih =>
        intro hd
        rw [← Nat.add_assoc, hkeep _ (Nat.find_min hex (by omega)), ih (by omega)]
  exact hsame _ le_rfl

end BitFS.Transition
