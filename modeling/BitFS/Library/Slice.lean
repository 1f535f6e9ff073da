import Mathlib.Data.List.Basic
import Mathlib.Tactic.NormNum

/-! # Slices of a list and copies between memory blocks

`slice` is the window a `(offset, length)` pair selects. A memory block is the
list of its cells; `memcpy` is defined exactly while both windows stay inside
their blocks, so an out-of-bounds copy has no result at all.
-/

namespace BitFS.Memory

variable {α : Type*}

/-- The `n` cells of `l` from position `o` on. -/
def slice (l : List α) (o n : Nat) : List α := (l.drop o).take n

@[simp] theorem slice_zero (l : List α) (o : Nat) : slice l o 0 = [] := by
  simp [slice]

theorem slice_length (l : List α) (o n : Nat) : (slice l o n).length = min n (l.length - o) := by
  simp [slice]

theorem slice_length_of_le {l : List α} {o n : Nat} (h : o + n ≤ l.length) :
    (slice l o n).length = n := by
  rw [slice_length]
  omega

theorem slice_all (l : List α) : slice l 0 l.length = l := by
  simp [slice]

/-- Adjacent windows join. -/
theorem slice_append (l : List α) (o a b : Nat) :
    slice l o a ++ slice l (o + a) b = slice l o (a + b) := by
  unfold slice
  rw [List.take_add, List.drop_drop]

/-- A window inside a window is a window of the whole list. -/
theorem slice_slice (l : List α) {p m o n : Nat} (h : o + n ≤ m) :
    slice (slice l p m) o n = slice l (p + o) n := by
  unfold slice
  rw [List.drop_take, List.take_take, List.drop_drop]
  congr 1
  omega

theorem getElem?_slice (l : List α) {o n k : Nat} (h : k < n) :
    (slice l o n)[k]? = l[o + k]? := by
  simp [slice, h]

/-- The cells of `l` from position `p` on start with `bs`. -/
def Holds (l : List α) (p : Nat) (bs : List α) : Prop := slice l p bs.length = bs

theorem holds_append_iff {l : List α} {p : Nat} {a b : List α} :
    Holds l p (a ++ b) ↔ Holds l p a ∧ Holds l (p + a.length) b := by
  unfold Holds
  rw [List.length_append, ← slice_append]
  constructor
  · intro h
    have hlen := congrArg List.length h
    simp only [List.length_append, slice_length] at hlen
    refine List.append_inj h ?_
    rw [slice_length]
    omega
  · intro ⟨ha, hb⟩
    rw [ha, hb]

theorem Holds.getElem? {l : List α} {p : Nat} {bs : List α} (h : Holds l p bs) {i : Nat}
    (hi : i < bs.length) : l[p + i]? = bs[i]? := by
  rw [← getElem?_slice l hi, h]

theorem Holds.head {l : List α} {p : Nat} {c : α} {bs : List α} (h : Holds l p (c :: bs)) :
    l[p]? = some c := h.getElem? (i := 0) (Nat.succ_pos _)

theorem Holds.tail {l : List α} {p : Nat} {c : α} {bs : List α} (h : Holds l p (c :: bs)) :
    Holds l (p + 1) bs := (holds_append_iff (a := [c]).mp h).2

theorem Holds.le {l : List α} {p : Nat} {bs : List α} (h : Holds l p bs) (hne : bs ≠ []) :
    p + bs.length ≤ l.length := by
  have hlen := congrArg List.length h
  have hpos := List.length_pos_of_ne_nil hne
  rw [slice_length] at hlen
  omega

theorem Holds.drop_eq {l : List α} {p : Nat} {bs : List α} (h : Holds l p bs) :
    l.drop p = bs ++ l.drop (p + bs.length) := by
  calc l.drop p = (l.drop p).take bs.length ++ (l.drop p).drop bs.length :=
        (List.take_append_drop _ _).symm
    _ = bs ++ l.drop (p + bs.length) := by rw [List.drop_drop, show (l.drop p).take _ = bs from h]

/-- What stands between two parts of a concatenation. -/
theorem holds_middle (a b c : List α) : Holds (a ++ b ++ c) a.length b := by
  unfold Holds slice
  rw [List.append_assoc, List.drop_left, List.take_left]

/-- `memcpy(dst + at, src + start, n)` on blocks given by their cells. -/
def memcpy (dst : List α) (pos : Int) (src : List α) (start n : Int) : Option (List α) :=
  if 0 ≤ pos ∧ 0 ≤ start ∧ 0 ≤ n ∧ pos + n ≤ dst.length ∧ start + n ≤ src.length then
    some (dst.take pos.toNat ++ slice src start.toNat n.toNat ++ dst.drop (pos.toNat + n.toNat))
  else none

theorem memcpy_of_bounds {dst src : List α} {pos start n : Nat}
    (hd : pos + n ≤ dst.length) (hs : start + n ≤ src.length) :
    memcpy dst pos src start n =
      some (dst.take pos ++ slice src start n ++ dst.drop (pos + n)) := by
  unfold memcpy
  rw [if_pos ⟨by omega, by omega, by omega, by omega, by omega⟩]
  simp

theorem memcpy_bounds {dst src out : List α} {pos start n : Int}
    (h : memcpy dst pos src start n = some out) :
    0 ≤ pos ∧ 0 ≤ start ∧ 0 ≤ n ∧ pos + n ≤ dst.length ∧ start + n ≤ src.length := by
  unfold memcpy at h
  split at h
  · assumption
  · contradiction

/-- A copy leaves the size of the destination as it is. -/
theorem memcpy_length {dst src out : List α} {pos start n : Int}
    (h : memcpy dst pos src start n = some out) : out.length = dst.length := by
  have hb := memcpy_bounds h
  unfold memcpy at h
  rw [if_pos hb, Option.some.injEq] at h
  rw [← h]
  simp only [List.length_append, List.length_take, slice_length, List.length_drop]
  omega

/-- What stood before the window stays, and the window holds the copied cells. -/
theorem memcpy_take {dst src out : List α} {pos start n : Nat}
    (h : memcpy dst pos src start n = some out) :
    out.take (pos + n) = dst.take pos ++ slice src start n := by
  obtain ⟨-, -, -, hd, hs⟩ := memcpy_bounds h
  have hd' : pos + n ≤ dst.length := by omega
  have hs' : start + n ≤ src.length := by omega
  rw [memcpy_of_bounds hd' hs', Option.some.injEq] at h
  have hlen : (dst.take pos ++ slice src start n).length = pos + n := by
    rw [List.length_append, List.length_take, slice_length_of_le hs']
    omega
  rw [← h, List.take_append_of_le_length (le_of_eq hlen.symm),
    List.take_of_length_le (le_of_eq hlen)]

/-- What stood behind the window stays. -/
theorem memcpy_drop {dst src out : List α} {pos start n : Nat}
    (h : memcpy dst pos src start n = some out) : out.drop (pos + n) = dst.drop (pos + n) := by
  obtain ⟨-, -, -, hd, hs⟩ := memcpy_bounds h
  have hs' : start + n ≤ src.length := by omega
  rw [memcpy_of_bounds (by omega) hs', Option.some.injEq] at h
  have hlen : (dst.take pos ++ slice src start n).length = pos + n := by
    rw [List.length_append, List.length_take, slice_length_of_le hs']
    omega
  rw [← h, List.drop_append_of_le_length (le_of_eq hlen.symm),
    List.drop_eq_nil_of_le (le_of_eq hlen),
    List.nil_append]

end BitFS.Memory
