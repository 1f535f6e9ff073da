import BitFS.Library.Slice

/-! # Consecutive blocks

A block is a start and a length. A list of blocks tiles `a .. b` when each one
starts where the one before ends.
-/

namespace BitFS.Tiling

open Memory

def Tiles : Nat → List (Nat × Nat) → Nat → Prop
  | a, [], b => a = b
  | a, (s, n) :: l, b => s = a ∧ Tiles (a + n) l b

theorem Tiles.append {a b c : Nat} {l l' : List (Nat × Nat)} (h : Tiles a l b)
    (h' : Tiles b l' c) : Tiles a (l ++ l') c := by
  induction l generalizing a with
  | nil =>
      obtain rfl : a = b := h
      exact h'
  | cons x l ih => exact ⟨h.1, ih h.2⟩

theorem Tiles.shift (d : Nat) {a b : Nat} {l : List (Nat × Nat)} (h : Tiles a l b) :
    Tiles (d + a) (l.map fun x => (d + x.1, x.2)) (d + b) := by
  induction l generalizing a with
  | nil => exact congrArg (d + ·) h
  | cons x l ih =>
      obtain ⟨hx, htail⟩ := h
      refine ⟨congrArg (d + ·) hx, ?_⟩
      rw [Nat.add_assoc]
      exact ih htail

/-- Tilings of consecutive stretches make a tiling of the whole. -/
theorem tiles_flatMap {f : Nat → List (Nat × Nat)} {pos : Nat → Nat} (n : Nat)
    (h : ∀ p < n, Tiles (pos p) (f p) (pos (p + 1))) :
    Tiles (pos 0) ((List.range n).flatMap f) (pos n) := by
  induction n with
  | zero => rfl
  | succ n ih =>
      rw [List.range_succ, List.flatMap_append, List.flatMap_singleton]
      exact (ih fun p hp => h p (Nat.lt_succ_of_lt hp)).append (h n (Nat.lt_succ_self n))

theorem Tiles.le {a b : Nat} {l : List (Nat × Nat)} (h : Tiles a l b) : a ≤ b := by
  induction l generalizing a with
  | nil => exact Nat.le_of_eq h
  | cons x l ih =>
      have := ih h.2
      omega

/-- The windows at the blocks join to the window at the stretch. -/
theorem Tiles.flatMap_slice {α : Type*} (s : List α) {a b : Nat} {l : List (Nat × Nat)}
    (h : Tiles a l b) : (l.flatMap fun r => slice s r.1 r.2) = slice s a (b - a) := by
  induction l generalizing a with
  | nil =>
      obtain rfl : a = b := h
      rw [Nat.sub_self, slice_zero]
      rfl
  | cons r l ih =>
      obtain ⟨hr, htail⟩ := h
      have hle := htail.le
      rw [List.flatMap_cons, ih htail, hr, slice_append]
      congr 1
      omega

/-- The blocks cover exactly the stretch. -/
theorem Tiles.mem_iff {a b : Nat} {l : List (Nat × Nat)} (h : Tiles a l b) (x : Nat) :
    (∃ r ∈ l, r.1 ≤ x ∧ x < r.1 + r.2) ↔ a ≤ x ∧ x < b := by
  induction l generalizing a with
  | nil =>
      obtain rfl : a = b := h
      simp
  | cons r l ih =>
      obtain ⟨hr, htail⟩ := h
      have hle := htail.le
      simp only [List.mem_cons, exists_eq_or_imp, ih htail]
      omega

/-- The blocks do not overlap. -/
theorem Tiles.pairwise {a b : Nat} {l : List (Nat × Nat)} (h : Tiles a l b) :
    l.Pairwise fun r r' => r.1 + r.2 ≤ r'.1 := by
  induction l generalizing a with
  | nil => exact List.Pairwise.nil
  | cons r l ih =>
      obtain ⟨hr, htail⟩ := h
      refine List.Pairwise.cons (fun r' hr' => ?_) (ih htail)
      -- The first byte of a later block lies in what the tail covers, unless it is empty.
      clear ih
      induction l generalizing a r with
      | nil => cases hr'
      | cons r'' l ihl =>
          obtain ⟨hr'', hrest⟩ := htail
          rcases List.mem_cons.mp hr' with rfl | hmem
          · omega
          · have := ihl (a := a + r.2) (r := r'') hr'' hrest hmem
            omega

end BitFS.Tiling
