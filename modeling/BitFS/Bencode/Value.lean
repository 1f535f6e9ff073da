import BitFS.Library.Decimal

/-! # Bencoded values

The grammar that a torrent file follows: values and the bytes that encode them.
-/

namespace BitFS.Bencode

open Decimal

inductive Value where
  | int (i : Int)
  | str (s : List UInt8)
  | list (vs : List Value)
  | dict (es : List (List UInt8 × Value))

/-- A string: its length, a colon, its bytes. -/
def encodeStr (s : List UInt8) : List UInt8 := decimal s.length ++ 58 :: s

mutual

/-- `i..e`, `l..e` and `d..e` around numbers, lists and dictionaries. -/
def encode : Value → List UInt8
  | .int i => 105 :: (if i < 0 then [45] else []) ++ decimal i.natAbs ++ [101]
  | .str s => encodeStr s
  | .list vs => 108 :: encodeList vs ++ [101]
  | .dict es => 100 :: encodeDict es ++ [101]

def encodeList : List Value → List UInt8
  | [] => []
  | v :: vs => encode v ++ encodeList vs

/-- Every key is a string followed by its value. -/
def encodeDict : List (List UInt8 × Value) → List UInt8
  | [] => []
  | (k, v) :: es => encodeStr k ++ encode v ++ encodeDict es

end

theorem two_le_encodeStr (s : List UInt8) : s.length + 2 ≤ (encodeStr s).length := by
  obtain ⟨c, cs, hcons, -⟩ := exists_decimal s.length
  simp only [encodeStr, hcons, List.length_append, List.length_cons]
  omega

theorem two_le_encode (v : Value) : 2 ≤ (encode v).length := by
  cases v with
  | str s =>
      have := two_le_encodeStr s
      rw [encode]
      omega
  | int | list | dict =>
      rw [encode]
      simp only [List.length_append, List.length_cons]
      omega

theorem encode_dict_length (es : List (List UInt8 × Value)) :
    (encode (.dict es)).length = (encodeDict es).length + 2 := by
  rw [encode]
  simp only [List.length_append, List.length_cons, List.length_nil]

theorem encodeDict_cons_length (k : List UInt8) (v : Value) (es : List (List UInt8 × Value)) :
    (encodeDict ((k, v) :: es)).length =
      (encodeStr k).length + (encode v).length + (encodeDict es).length := by
  rw [encodeDict, List.length_append, List.length_append]

/-- The first byte tells the kinds of values apart. -/
def kindByte : Value → UInt8 → Prop
  | .int _, c => c = 105
  | .str _, c => isDigit c = true
  | .list _, c => c = 108
  | .dict _, c => c = 100

theorem isDigit_ne {c d : UInt8} (hc : isDigit c = true) (hd : isDigit d = false) : c ≠ d := by
  rintro rfl
  rw [hc] at hd
  cases hd

/-- No value starts with the byte that closes a list or a dictionary. -/
theorem kindByte_ne_e {v : Value} {c : UInt8} (h : kindByte v c) : c ≠ 101 := by
  cases v with
  | str s => exact isDigit_ne h rfl
  | int | list | dict =>
      obtain rfl := h
      decide

theorem encode_head (v : Value) : ∃ c cs, encode v = c :: cs ∧ kindByte v c := by
  cases v with
  | str s =>
      obtain ⟨c, cs, hcons, hdigit⟩ := exists_decimal s.length
      exact ⟨c, cs ++ 58 :: s, by rw [encode, encodeStr, hcons]; rfl, hdigit⟩
  | int i => exact ⟨105, _, by rw [encode]; rfl, rfl⟩
  | list vs => exact ⟨108, _, by rw [encode]; rfl, rfl⟩
  | dict es => exact ⟨100, _, by rw [encode]; rfl, rfl⟩

/-! ## The bytes tell the value -/

theorem encodeStr_append {s t a b : List UInt8} (h : encodeStr s ++ a = encodeStr t ++ b) :
    s = t ∧ a = b := by
  rw [encodeStr, encodeStr, List.append_assoc, List.append_assoc, List.cons_append,
    List.cons_append] at h
  obtain ⟨hlen, htail⟩ := decimal_append_cons rfl rfl h
  exact List.append_inj (List.cons.inj htail).2 hlen

/-- A value with other bytes behind it starts with a byte of its kind. -/
theorem encode_append_head (v : Value) (a : List UInt8) :
    ∃ c cs, encode v ++ a = c :: cs ∧ kindByte v c := by
  obtain ⟨c, cs, hcons, hkind⟩ := encode_head v
  exact ⟨c, cs ++ a, by rw [hcons, List.cons_append], hkind⟩

/-- Two values whose bytes start in the same way start with one byte. -/
theorem exists_kindByte {v w : Value} {a b : List UInt8} (h : encode v ++ a = encode w ++ b) :
    ∃ c, kindByte v c ∧ kindByte w c := by
  obtain ⟨c, cs, hv, hc⟩ := encode_append_head v a
  obtain ⟨d, ds, hw, hd⟩ := encode_append_head w b
  rw [hv, hw, List.cons.injEq] at h
  exact ⟨c, hc, h.1 ▸ hd⟩

theorem encode_int_append {i j : Int} {a b : List UInt8}
    (h : encode (.int i) ++ a = encode (.int j) ++ b) : i = j ∧ a = b := by
  obtain ⟨c, cs, hci, hcdigit⟩ := exists_decimal i.natAbs
  obtain ⟨d, ds, hdj, hddigit⟩ := exists_decimal j.natAbs
  have hminus : isDigit 45 = false := rfl
  simp only [encode, List.cons_append, List.append_assoc, List.cons.injEq, true_and] at h
  by_cases hi : i < 0 <;> by_cases hj : j < 0
  · rw [if_pos hi, if_pos hj, List.append_cancel_left_eq] at h
    obtain ⟨habs, htail⟩ := decimal_append_cons rfl rfl h
    exact ⟨by omega, (List.cons.inj htail).2⟩
  · rw [if_pos hi, if_neg hj, hdj] at h
    exact absurd (List.cons.inj h).1.symm (isDigit_ne hddigit hminus)
  · rw [if_neg hi, if_pos hj, hci] at h
    exact absurd (List.cons.inj h).1 (isDigit_ne hcdigit hminus)
  · rw [if_neg hi, if_neg hj, List.nil_append, List.nil_append] at h
    obtain ⟨habs, htail⟩ := decimal_append_cons rfl rfl h
    exact ⟨by omega, (List.cons.inj htail).2⟩

mutual

/-- No encoding is the start of another. -/
theorem encode_append (v w : Value) {a b : List UInt8} (h : encode v ++ a = encode w ++ b) :
    v = w ∧ a = b := by
  obtain ⟨c, hv, hw⟩ := exists_kindByte h
  match v, w with
  | .int i, .int j =>
      obtain ⟨rfl, hrest⟩ := encode_int_append h
      exact ⟨rfl, hrest⟩
  | .str s, .str t =>
      rw [encode, encode] at h
      obtain ⟨rfl, hrest⟩ := encodeStr_append h
      exact ⟨rfl, hrest⟩
  | .list vs, .list ws =>
      simp only [encode, List.cons_append, List.append_assoc, List.cons.injEq, true_and,
        List.nil_append] at h
      obtain ⟨rfl, hrest⟩ := encodeList_append vs ws h
      exact ⟨rfl, hrest⟩
  | .dict es, .dict fs =>
      simp only [encode, List.cons_append, List.append_assoc, List.cons.injEq, true_and,
        List.nil_append] at h
      obtain ⟨rfl, hrest⟩ := encodeDict_append_inj es fs h
      exact ⟨rfl, hrest⟩
  | .str _, .int _ | .str _, .list _ | .str _, .dict _ =>
      cases hw
      cases hv
  | .int _, .str _ | .list _, .str _ | .dict _, .str _ =>
      cases hv
      cases hw
  | .int _, .list _ | .int _, .dict _ | .list _, .int _ | .list _, .dict _ | .dict _, .int _
  | .dict _, .list _ => exact absurd (hv.symm.trans hw) (by decide)

theorem encodeList_append (vs ws : List Value) {a b : List UInt8}
    (h : encodeList vs ++ 101 :: a = encodeList ws ++ 101 :: b) : vs = ws ∧ a = b := by
  match vs, ws with
  | [], [] => exact ⟨rfl, (List.cons.inj h).2⟩
  | [], w :: ws =>
      obtain ⟨c, cs, hcons, hkind⟩ := encode_append_head w (encodeList ws ++ 101 :: b)
      rw [encodeList, encodeList, List.append_assoc, hcons] at h
      exact absurd (List.cons.inj h).1.symm (kindByte_ne_e hkind)
  | v :: vs, [] =>
      obtain ⟨c, cs, hcons, hkind⟩ := encode_append_head v (encodeList vs ++ 101 :: a)
      rw [encodeList, encodeList, List.append_assoc, hcons] at h
      exact absurd (List.cons.inj h).1 (kindByte_ne_e hkind)
  | v :: vs, w :: ws =>
      rw [encodeList, encodeList, List.append_assoc, List.append_assoc] at h
      obtain ⟨rfl, htail⟩ := encode_append v w h
      obtain ⟨rfl, hrest⟩ := encodeList_append vs ws htail
      exact ⟨rfl, hrest⟩

theorem encodeDict_append_inj (es fs : List (List UInt8 × Value)) {a b : List UInt8}
    (h : encodeDict es ++ 101 :: a = encodeDict fs ++ 101 :: b) : es = fs ∧ a = b := by
  match es, fs with
  | [], [] => exact ⟨rfl, (List.cons.inj h).2⟩
  | [], (k, w) :: fs =>
      obtain ⟨c, cs, hcons, hkind⟩ :=
        encode_append_head (.str k) (encode w ++ encodeDict fs ++ 101 :: b)
      rw [encode, ← List.append_assoc, ← List.append_assoc] at hcons
      rw [encodeDict, encodeDict, hcons] at h
      exact absurd (List.cons.inj h).1.symm (kindByte_ne_e hkind)
  | (k, v) :: es, [] =>
      obtain ⟨c, cs, hcons, hkind⟩ :=
        encode_append_head (.str k) (encode v ++ encodeDict es ++ 101 :: a)
      rw [encode, ← List.append_assoc, ← List.append_assoc] at hcons
      rw [encodeDict, encodeDict, hcons] at h
      exact absurd (List.cons.inj h).1 (kindByte_ne_e hkind)
  | (k, v) :: es, (l, w) :: fs =>
      simp only [encodeDict, List.append_assoc] at h
      obtain ⟨rfl, hvalue⟩ := encodeStr_append h
      obtain ⟨rfl, htail⟩ := encode_append v w hvalue
      obtain ⟨rfl, hrest⟩ := encodeDict_append_inj es fs htail
      exact ⟨rfl, hrest⟩

end

end BitFS.Bencode
