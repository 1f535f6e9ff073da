import Mathlib.Tactic.NormNum
import Mathlib.Tactic.Ring

/-! # C `int` arithmetic

A C `int` is an `Int` kept inside the 32-bit range. Conversions to `int` wrap,
as they do on every target of interest; arithmetic on `int` is undefined when
it leaves the range, so a checked operation returns `none` there.
-/

namespace BitFS.MachineInt

/-- The values of a 32-bit two's complement `int`. -/
def Fits32 (x : Int) : Prop := -2147483648 ≤ x ∧ x ≤ 2147483647

instance (x : Int) : Decidable (Fits32 x) := inferInstanceAs (Decidable (_ ∧ _))

/-- The values of a 32-bit unsigned integer. -/
def FitsU32 (x : Int) : Prop := 0 ≤ x ∧ x ≤ 4294967295

instance (x : Int) : Decidable (FitsU32 x) := inferInstanceAs (Decidable (_ ∧ _))

/-- `(int) x` for a wider integer `x`. -/
def toInt32 (x : Int) : Int := x.bmod 4294967296

/-- `(long) x` for a wider integer `x`. -/
def toInt64 (x : Int) : Int := x.bmod 18446744073709551616

/-- The result `x` of an `int` operation, undefined when it overflows. -/
def checked32 (x : Int) : Option Int := if Fits32 x then some x else none

/-- The result `x` of a `uint32_t` operation that is meant not to wrap. -/
def checkedU32 (x : Int) : Option Int := if FitsU32 x then some x else none

theorem toInt32_fits (x : Int) : Fits32 (toInt32 x) := by
  have hlo := Int.le_bmod (x := x) (m := 4294967296) (by decide)
  have hhi := Int.bmod_lt (x := x) (m := 4294967296) (by decide)
  unfold Fits32 toInt32
  omega

theorem toInt32_of_fits {x : Int} (h : Fits32 x) : toInt32 x = x := by
  obtain ⟨hlo, hhi⟩ := h
  exact Int.bmod_eq_of_le (by omega) (by omega)

theorem toInt64_of_fits32 {x : Int} (h : Fits32 x) : toInt64 x = x := by
  obtain ⟨hlo, hhi⟩ := h
  exact Int.bmod_eq_of_le (by omega) (by omega)

/-- Below `2 ^ 31` nothing is lost, and from there on the value always changes. -/
theorem toInt32_eq_self_iff {x : Int} (h : 0 ≤ x) : toInt32 x = x ↔ x ≤ 2147483647 := by
  constructor
  · intro he
    have hf := toInt32_fits x
    rw [he] at hf
    exact hf.2
  · intro hx
    exact toInt32_of_fits ⟨by omega, hx⟩

/-- The conversion never exceeds a non-negative argument. -/
theorem toInt32_le {x : Int} (h : 0 ≤ x) : toInt32 x ≤ x := by
  by_cases hx : x ≤ 2147483647
  · exact le_of_eq ((toInt32_eq_self_iff h).mpr hx)
  · have := (toInt32_fits x).2
    omega

@[simp] theorem checked32_of_fits {x : Int} (h : Fits32 x) : checked32 x = some x := if_pos h

theorem checked32_eq_some {x y : Int} : checked32 x = some y ↔ Fits32 x ∧ y = x := by
  unfold checked32
  split
  · rename_i h
    simp [h, eq_comm]
  · rename_i h
    simp [h]

@[simp] theorem checkedU32_of_fits {x : Int} (h : FitsU32 x) : checkedU32 x = some x := if_pos h

end BitFS.MachineInt
