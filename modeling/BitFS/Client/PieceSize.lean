import BitFS.Library.MachineInt
import Mathlib.Data.Rat.Floor

/-! # Sizes of pieces in the client

`piece_size` and the piece count of `parse_metainfo`, with every `int` operation
checked.
-/

namespace BitFS.Client

open MachineInt

/-- The fields of `metainfo_info_t` that the download reads. -/
structure MetainfoInfo where
  infohash : List UInt8
  piece_length : Int
  file_length : Int
  num_pieces : Int

/-- `static int min(int a, int b)`. -/
protected def min (a b : Int) : Int := if a > b then b else a

/-- `(int) ceil((double) file_length / (double) piece_length)`. The quotient of two
32-bit operands is close enough for `ceil` to be that of the exact quotient. -/
def numPieces (file_length piece_length : Int) : Int := ⌈(file_length : ℚ) / piece_length⌉

def pieceSize (piece : Int) (m : MetainfoInfo) : Option Int :=
  if piece ≥ m.num_pieces then some (-1)
  else do
    let skipped ← checked32 (m.piece_length * piece)
    let rest ← checked32 (m.file_length - skipped)
    pure (Client.min rest m.piece_length)

theorem min_eq (a b : Int) : Client.min a b = min a b := by
  unfold Client.min
  split <;> omega

theorem numPieces_natCast (fl pl : Nat) : numPieces fl pl = -((-(fl : Int)) / pl) :=
  Rat.ceil_intCast_div_natCast _ _

/-- The metainfo of a file of `fl` bytes in pieces of `pl`. -/
structure MetainfoInfo.Sized (m : MetainfoInfo) (fl pl : Nat) : Prop where
  piece_length : m.piece_length = pl
  file_length : m.file_length = fl
  num_pieces : m.num_pieces = numPieces fl pl
  length_fits : fl ≤ 2147483647
  pieceLength_pos : 1 ≤ pl
  pieceLength_fits : pl ≤ 2147483647

/-- The bytes of piece `p`. -/
def sizeOf (fl pl p : Nat) : Nat := min (fl - pl * p) pl

section Sized

variable {m : MetainfoInfo} {fl pl p : Nat}

theorem lt_numPieces_iff (hpl : 1 ≤ pl) : (p : Int) < numPieces fl pl ↔ pl * p < fl := by
  have hpos : (0 : Int) < pl := by omega
  rw [numPieces_natCast, lt_neg, Int.ediv_lt_iff_lt_mul hpos, ← Int.neg_mul_eq_neg_mul,
    neg_lt_neg_iff, mul_comm]
  exact_mod_cast Iff.rfl

theorem numPieces_nonneg (hpl : 1 ≤ pl) : 0 ≤ numPieces fl pl := by
  have hpos : (0 : Int) < pl := by omega
  have hneg : -(fl : Int) / pl ≤ 0 := Int.ediv_nonpos_of_nonpos_of_neg (by omega) (by omega)
  rw [numPieces_natCast]
  omega

theorem numPieces_le (hpl : 1 ≤ pl) : numPieces fl pl ≤ fl := by
  by_contra hlt
  have hmul : pl * fl < fl := (lt_numPieces_iff hpl).mp (not_le.mp hlt)
  have := Nat.le_mul_of_pos_left fl hpl
  omega

theorem MetainfoInfo.Sized.lt_iff (h : m.Sized fl pl) : (p : Int) < m.num_pieces ↔ pl * p < fl := by
  rw [h.num_pieces, lt_numPieces_iff h.pieceLength_pos]

theorem MetainfoInfo.Sized.le_iff (h : m.Sized fl pl) : m.num_pieces ≤ p ↔ fl ≤ pl * p := by
  rw [← not_lt, h.lt_iff, not_lt]

/-- For a piece of the torrent nothing overflows. -/
theorem MetainfoInfo.Sized.pieceSize_eq (h : m.Sized fl pl) (hp : (p : Int) < m.num_pieces) :
    pieceSize p m = some (sizeOf fl pl p : Int) := by
  have hlt := h.lt_iff.mp hp
  have hfl := h.length_fits
  have hprod : m.piece_length * p = ((pl * p : Nat) : Int) := by
    rw [h.piece_length]
    push_cast
    rfl
  unfold pieceSize sizeOf
  rw [if_neg (by omega), hprod, checked32_of_fits ⟨by omega, by omega⟩, h.file_length,
    h.piece_length]
  simp only [Option.bind_eq_bind, Option.bind_some, min_eq]
  rw [checked32_of_fits ⟨by omega, by omega⟩]
  simp only [Option.bind_some, Option.pure_def, Option.some.injEq]
  omega

theorem sizeOf_bounds (hpl : 1 ≤ pl) (h : pl * p < fl) :
    1 ≤ sizeOf fl pl p ∧ sizeOf fl pl p ≤ pl ∧ pl * p + sizeOf fl pl p ≤ fl := by
  unfold sizeOf
  omega

theorem sizeOf_behind (h : fl ≤ pl * p) : sizeOf fl pl p = 0 := by
  unfold sizeOf
  omega

/-- A piece ends where the next one starts, the last one at the end of the file. -/
theorem add_sizeOf (h : pl * p < fl) : pl * p + sizeOf fl pl p = min fl (pl * (p + 1)) := by
  unfold sizeOf
  rw [Nat.mul_succ]
  omega

end Sized

/-- A file of 50000 bytes in pieces of 20000: the last piece is short, and in every piece the last
block. -/
def threePieces : MetainfoInfo := ⟨[], 20000, 50000, numPieces 50000 20000⟩

theorem threePieces_sized : threePieces.Sized 50000 20000 :=
  ⟨rfl, rfl, rfl, by omega, by omega, by omega⟩

theorem threePieces_count : threePieces.num_pieces = 3 := by
  show numPieces (50000 : Nat) (20000 : Nat) = 3
  rw [numPieces_natCast]
  rfl

end BitFS.Client
