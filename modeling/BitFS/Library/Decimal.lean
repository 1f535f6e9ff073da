import Mathlib.Data.Nat.Digits.Defs
import Mathlib.Tactic.IntervalCases

/-! # Decimal numerals in ASCII

The digits of a number without leading zeros, and the value a left-to-right scan
accumulates, also when every step of it wraps around.
-/

namespace BitFS.Decimal

def isDigit (c : UInt8) : Bool := 48 ≤ c && c ≤ 57

/-- The decimal digits of `n`, the leading one first. -/
def digits (n : Nat) : List Nat := if n = 0 then [0] else (Nat.digits 10 n).reverse

/-- The numeral of `n`. -/
def decimal (n : Nat) : List UInt8 := (digits n).map fun d => UInt8.ofNat (48 + d)

theorem digits_ne_nil (n : Nat) : digits n ≠ [] := by
  unfold digits
  split
  · exact List.cons_ne_nil 0 []
  · rename_i h
    exact fun hnil => h (Nat.digits_eq_nil_iff_eq_zero.mp (List.reverse_eq_nil_iff.mp hnil))

theorem digits_lt {n d : Nat} (h : d ∈ digits n) : d < 10 := by
  unfold digits at h
  split at h
  · rw [List.mem_singleton] at h
    omega
  · exact Nat.digits_lt_base (by decide) (List.mem_reverse.mp h)

/-- The scan of the digits gives the number back. -/
theorem foldl_digits (n : Nat) : (digits n).foldl (fun a d => a * 10 + d) 0 = n := by
  unfold digits
  split
  · rename_i h
    exact h.symm
  · rw [List.foldl_reverse]
    have hval := Nat.ofDigits_digits 10 n
    rw [Nat.ofDigits_eq_foldr] at hval
    refine Eq.trans ?_ hval
    congr 1
    funext d a
    simp only [Nat.cast_id]
    omega

theorem decimal_ne_nil (n : Nat) : decimal n ≠ [] := by
  simpa [decimal] using digits_ne_nil n

theorem isDigit_ofNat {d : Nat} (h : d < 10) : isDigit (UInt8.ofNat (48 + d)) = true := by
  interval_cases d <;> rfl

theorem toNat_ofNat {d : Nat} (h : d < 10) : (UInt8.ofNat (48 + d)).toNat = 48 + d := by
  interval_cases d <;> rfl

theorem exists_ofNat_of_isDigit {c : UInt8} (h : isDigit c = true) :
    ∃ d < 10, c = UInt8.ofNat (48 + d) := by
  have hrange : 48 ≤ c.toNat ∧ c.toNat ≤ 57 := by
    simpa [isDigit, UInt8.le_iff_toNat_le] using h
  refine ⟨c.toNat - 48, by omega, ?_⟩
  rw [Nat.add_sub_cancel' hrange.1, UInt8.ofNat_toNat]

theorem isDigit_of_mem {n : Nat} {c : UInt8} (h : c ∈ decimal n) : isDigit c = true := by
  obtain ⟨d, hd, rfl⟩ := List.mem_map.mp h
  exact isDigit_ofNat (digits_lt hd)

/-- A numeral starts with a digit. -/
theorem exists_decimal (n : Nat) : ∃ c cs, decimal n = c :: cs ∧ isDigit c = true := by
  obtain ⟨c, cs, hcons⟩ := List.exists_cons_of_ne_nil (decimal_ne_nil n)
  exact ⟨c, cs, hcons, isDigit_of_mem (hcons ▸ List.mem_cons_self)⟩

theorem decimal_injective {n m : Nat} (h : decimal n = decimal m) : n = m := by
  have hdigits (k : Nat) : (decimal k).map (fun c => c.toNat - 48) = digits k := by
    have hback : ∀ d ∈ digits k, (UInt8.ofNat (48 + d)).toNat - 48 = d := by
      intro d hd
      rw [toNat_ofNat (digits_lt hd), Nat.add_sub_cancel_left]
    rw [decimal, List.map_map]
    exact (List.map_congr_left hback).trans (List.map_id _)
  rw [← foldl_digits n, ← foldl_digits m, ← hdigits n, ← hdigits m, h]

/-- A numeral ends where the digits do. -/
theorem decimal_append_cons {n m : Nat} {c d : UInt8} {a b : List UInt8}
    (hc : isDigit c = false) (hd : isDigit d = false)
    (h : decimal n ++ c :: a = decimal m ++ d :: b) : n = m ∧ c :: a = d :: b := by
  have hspan {k : Nat} {c : UInt8} {a : List UInt8} (hc : isDigit c = false) :
      (decimal k ++ c :: a).takeWhile isDigit = decimal k := by
    rw [List.takeWhile_append_of_pos fun _ hmem => isDigit_of_mem hmem,
      List.takeWhile_cons_of_neg (by rw [hc]; exact Bool.false_ne_true), List.append_nil]
  have hnumeral := congrArg (List.takeWhile isDigit) h
  rw [hspan hc, hspan hd] at hnumeral
  rw [hnumeral] at h
  exact ⟨decimal_injective hnumeral, List.append_cancel_left h⟩

theorem digits_of_lt {n : Nat} (h : n < 10) : digits n = [n] := by
  interval_cases n <;> rfl

theorem two_le_digits {n : Nat} (h : 10 ≤ n) : 2 ≤ (digits n).length := by
  unfold digits
  rw [if_neg (by omega), List.length_reverse, Nat.digits_def' (by decide) (by omega),
    Nat.digits_def' (by decide) (by omega)]
  simp only [List.length_cons]
  omega

/-- Wrapping around at every step of a scan is wrapping around once at its end. -/
theorem foldl_bmod (m : Nat) (ds : List Nat) (a : Int) :
    ds.foldl (fun (x : Int) (d : Nat) => ((x * 10).bmod m + d).bmod m) (a.bmod m) =
      (ds.foldl (fun (x : Int) (d : Nat) => x * 10 + d) a).bmod m := by
  induction ds generalizing a with
  | nil => rfl
  | cons d ds ih =>
      rw [List.foldl_cons, List.foldl_cons, ← ih]
      congr 1
      rw [Int.bmod_add_bmod, ← Int.bmod_add_bmod, Int.bmod_mul_bmod, Int.bmod_add_bmod]

theorem foldl_natCast (ds : List Nat) (a : Nat) :
    ds.foldl (fun (x : Int) (d : Nat) => x * 10 + d) (a : Int) =
      ((ds.foldl (fun a d => a * 10 + d) a : Nat) : Int) := by
  induction ds generalizing a with
  | nil => rfl
  | cons d ds ih =>
      rw [List.foldl_cons, List.foldl_cons, ← ih]
      push_cast
      rfl

end BitFS.Decimal
