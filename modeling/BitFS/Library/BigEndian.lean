import Mathlib.Data.List.Basic

/-! # 32-bit numbers in network order -/

namespace BitFS.BigEndian

/-- The four bytes that `htonl` leaves in memory for the low 32 bits of `n`. -/
def be32 (n : Nat) : List UInt8 :=
  [UInt8.ofNat (n / 16777216), UInt8.ofNat (n / 65536), UInt8.ofNat (n / 256), UInt8.ofNat n]

def ofBe32 : List UInt8 → Nat
  | [a, b, c, d] => ((a.toNat * 256 + b.toNat) * 256 + c.toNat) * 256 + d.toNat
  | _ => 0

@[simp] theorem be32_length (n : Nat) : (be32 n).length = 4 := rfl

theorem ofBe32_be32 {n : Nat} (h : n < 4294967296) : ofBe32 (be32 n) = n := by
  simp only [be32, ofBe32, UInt8.toNat_ofNat']
  omega

theorem be32_ofBe32 {s : List UInt8} (h : s.length = 4) : be32 (ofBe32 s) = s := by
  obtain ⟨a, b, c, d, rfl⟩ := List.length_eq_four.mp h
  have ha := a.toNat_lt
  have hb := b.toNat_lt
  have hc := c.toNat_lt
  have hd := d.toNat_lt
  simp only [be32, ofBe32, List.cons.injEq, ← UInt8.toNat_inj, UInt8.toNat_ofNat', and_true]
  omega

theorem ofBe32_lt (s : List UInt8) : ofBe32 s < 4294967296 := by
  unfold ofBe32
  split
  · rename_i a b c d
    have ha := a.toNat_lt
    have hb := b.toNat_lt
    have hc := c.toNat_lt
    have hd := d.toNat_lt
    omega
  · omega

end BitFS.BigEndian
