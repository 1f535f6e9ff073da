import BitFS.Library.Fairness
import BitFS.Library.Mutex

/-! # Threads over a shared state

A thread has a state of its own, and its turns change that and what is shared. All
other actions leave it where it is. So its next turn finds it as it is now, what its
own turns preserve is preserved, and a rank that is summed over all threads goes down
with the rank of the one whose turn it is.
-/

namespace BitFS.Threads

open Transition Fairness Mutex

variable {σ α ι S R : Type*} [DecidableEq ι]

/-- `next` is what the turn of a thread does, to what is `shared` and to the thread. -/
structure Threaded (step : σ → α → σ) (turn : ι → α) (shared : σ → S) (thread : σ → ι → R)
    (next : ι → S → R → S × R) : Prop where
  own_shared : ∀ s r, shared (step s (turn r)) = (next r (shared s) (thread s r)).1
  own_thread : ∀ s r, thread (step s (turn r)) =
    Function.update (thread s) r (next r (shared s) (thread s r)).2
  world : ∀ s a, (∀ r, a ≠ turn r) → thread (step s a) = thread s

variable {step : σ → α → σ} {turn : ι → α} {shared : σ → S} {thread : σ → ι → R}
  {next : ι → S → R → S × R}

/-- Only its own turns move a thread. -/
theorem Threaded.others (h : Threaded step turn shared thread next) (s : σ) {a : α} {r : ι}
    (ha : a ≠ turn r) : thread (step s a) r = thread s r := by
  by_cases hturn : ∃ r', a = turn r'
  · obtain ⟨r', rfl⟩ := hturn
    have hne : r ≠ r' := fun he => ha (congrArg turn he.symm)
    rw [h.own_thread, Function.update_of_ne hne]
  · rw [h.world s a (not_exists.mp hturn)]

theorem Threaded.own (h : Threaded step turn shared thread next) (s : σ) (r : ι) :
    (shared (step s (turn r)), thread (step s (turn r)) r) = next r (shared s) (thread s r) := by
  rw [h.own_shared, h.own_thread, Function.update_self]

/-- Turns of one thread only. -/
theorem Threaded.run_turns (h : Threaded step turn shared thread next) (s : σ) (r : ι) (n : Nat) :
    (shared (run step s (List.replicate n (turn r))),
        thread (run step s (List.replicate n (turn r))) r) =
      (fun x => next r x.1 x.2)^[n] (shared s, thread s r) := by
  induction n generalizing s with
  | zero => rfl
  | succ n ih =>
      rw [List.replicate_succ, run_cons, ih, Function.iterate_succ_apply, h.own]

/-! ## Along a run -/

section Run

variable {s : σ} {acts : Nat → α} {r : ι} {n : Nat}

/-- What a thread does in its turn. -/
theorem Threaded.stateAt_turn (h : Threaded step turn shared thread next) (hr : acts n = turn r)
    {x : R} (hx : thread (stateAt step s acts n) r = x) :
    thread (stateAt step s acts (n + 1)) r = (next r (shared (stateAt step s acts n)) x).2 ∧
      shared (stateAt step s acts (n + 1)) = (next r (shared (stateAt step s acts n)) x).1 := by
  subst hx
  rw [stateAt, hr, h.own_shared, h.own_thread, Function.update_self]
  exact ⟨rfl, rfl⟩

/-- The next turn of a thread finds it as it is now. -/
theorem Threaded.next_turn (h : Threaded step turn shared thread next)
    (hfair : ∀ n, ∃ m, n ≤ m ∧ acts m = turn r) (n : Nat) :
    ∃ m, n ≤ m ∧ acts m = turn r ∧
      thread (stateAt step s acts m) r = thread (stateAt step s acts n) r :=
  exists_turn step (fun s => thread s r) (fun a => a = turn r)
    (fun _ ha => h.others _ ha) hfair n

/-- What the turns of a thread preserve stays true of it. -/
theorem Threaded.persists (h : Threaded step turn shared thread next) {P : R → Prop}
    (hn : P (thread (stateAt step s acts n) r))
    (hturn : ∀ m, n ≤ m → acts m = turn r → P (thread (stateAt step s acts m) r) →
      P (thread (stateAt step s acts (m + 1)) r)) {m : Nat} (hm : n ≤ m) :
    P (thread (stateAt step s acts m) r) := by
  apply stateAt_persists step (P := fun s => P (thread s r)) hn _ hm
  intro m hm hP
  by_cases hr : acts m = turn r
  · exact hturn m hm hr hP
  · rw [stateAt, h.others _ hr]
    exact hP

end Run

/-! ## Ranks -/

section Rank

variable [Fintype ι] (c : Nat) (weight : R → Nat) (rest : S → Nat)

/-- The weights of all threads, `c` times, and the weight of what is shared. -/
def total (shared : σ → S) (thread : σ → ι → R) (s : σ) : Nat :=
  c * ∑ r, weight (thread s r) + rest (shared s)

/-- A turn lowers what the thread and the shared state weigh together, or the thread polls. -/
def Descends (polls : S → R → Prop) (sh : S) (x : R) (out : S × R) : Prop :=
  c * weight out.2 + rest out.1 < c * weight x + rest sh ∨
    (polls sh x ∧ c * weight out.2 + rest out.1 ≤ c * weight x + rest sh)

variable {c weight}

theorem Threaded.total_turn (h : Threaded step turn shared thread next) {rest : S → Nat}
    {polls : S → R → Prop} {s : σ} {r : ι}
    (hd : Descends c weight rest polls (shared s) (thread s r)
      (next r (shared s) (thread s r))) :
    total c weight rest shared thread (step s (turn r)) < total c weight rest shared thread s ∨
      (polls (shared s) (thread s r) ∧
        total c weight rest shared thread (step s (turn r)) ≤
          total c weight rest shared thread s) := by
  have hsum := sum_update weight (thread s) r (next r (shared s) (thread s r)).2
  have hscale := congrArg (c * ·) hsum
  simp only [Nat.mul_add] at hscale
  unfold Descends at hd
  unfold total
  rw [h.own_shared, h.own_thread]
  rcases hd with hd | ⟨hp, hd⟩
  · left
    omega
  · exact Or.inr ⟨hp, by omega⟩

theorem Threaded.total_world (h : Threaded step turn shared thread next) {s : σ} {a : α}
    (ha : ∀ r, a ≠ turn r) {n : Nat} (hn : rest (shared (step s a)) + n ≤ rest (shared s)) :
    total c weight rest shared thread (step s a) + n ≤ total c weight rest shared thread s := by
  unfold total
  rw [h.world s a ha]
  omega

end Rank

/-! ## Locks -/

section Lock

variable (owner : S → Option ι) (Kept : S → S → Prop) (I : σ → Prop)

/-- A lock guards the place of its owner, and of what is shared all that others keep while
it is held. -/
theorem Threaded.guards (h : Threaded step turn shared thread next)
    (hkeeps : ∀ s a, I s → I (step s a)) (hrefl : ∀ x, Kept x x)
    (htrans : ∀ x y z, Kept x y → Kept y z → Kept x z)
    (hothers : ∀ s a r, I s → owner (shared s) = some r → a ≠ turn r →
      owner (shared (step s a)) = some r ∧ Kept (shared s) (shared (step s a))) :
    Guards step I turn (fun s => owner (shared s))
      (fun r s s' => thread s' r = thread s r ∧ Kept (shared s) (shared s')) where
  keeps := hkeeps
  refl _ _ := ⟨rfl, hrefl _⟩
  trans _ _ _ _ hab hbc := ⟨hbc.1.trans hab.1, htrans _ _ _ hab.2 hbc.2⟩
  others s a r hI hr ha := by
    obtain ⟨hown, hkept⟩ := hothers s a r hI hr ha
    exact ⟨hown, h.others s ha, hkept⟩

end Lock

end BitFS.Threads
