import BitFS.Bencode.Reader
import BitFS.Bencode.Value

/-! # The reader on well-formed values

Where the buffer holds the encoding of a value, the reader finds its end, and a cursor
walks over the entries of a dictionary one by one.
-/

namespace BitFS.Bencode

open MachineInt Memory Decimal

variable {buf : List UInt8}

theorem peek_of_getElem? {p : Nat} {c : UInt8} (h : buf[p]? = some c) : peek buf p = .ok c := by
  simp only [peek, h]

theorem peek_head {p : Nat} {c : UInt8} {bs : List UInt8} (h : Holds buf p (c :: bs)) :
    peek buf p = .ok c := peek_of_getElem? h.head

/-! ## Numbers -/

theorem readDigits_map (m : Nat) {ds : List Nat} (hds : ∀ d ∈ ds, d < 10) {c : UInt8}
    (hc : isDigit c = false) (rest : List UInt8) (val : Int) (sp : Nat) :
    readDigits m (ds.map (fun d => UInt8.ofNat (48 + d)) ++ c :: rest) val sp =
      .ok (ds.foldl (fun (x : Int) (d : Nat) => ((x * 10).bmod m + d).bmod m) val,
        sp + ds.length) := by
  induction ds generalizing val sp with
  | nil =>
      rw [List.map_nil, List.nil_append, readDigits, hc]
      rfl
  | cons d ds ih =>
      have hd := hds d List.mem_cons_self
      rw [List.map_cons, List.cons_append, readDigits, if_pos (isDigit_ofNat hd),
        ih fun d hd => hds d (List.mem_cons_of_mem _ hd), toNat_ofNat hd, List.foldl_cons,
        List.length_cons]
      have hval : (((48 + d : Nat) : Int) - 48) = (d : Int) := by omega
      rw [hval, Nat.add_assoc, Nat.add_comm 1]

/-- The digits of a number, up to the byte behind them. -/
theorem readDigits_decimal (m : Nat) {p n : Nat} {c : UInt8} (hc : isDigit c = false)
    (h : Holds buf p (decimal n ++ [c])) :
    readDigits m (buf.drop p) 0 p = .ok ((n : Int).bmod m, p + (decimal n).length) := by
  have hscan := foldl_bmod m (digits n) 0
  have hvalue := foldl_natCast (digits n) 0
  rw [foldl_digits, Nat.cast_zero] at hvalue
  rw [hvalue, Int.zero_bmod] at hscan
  rw [h.drop_eq, List.append_assoc, List.singleton_append, decimal,
    readDigits_map m (fun d hd => digits_lt hd) hc, hscan, List.length_map]

theorem not_isDigit_colon : isDigit 58 = false := rfl

theorem not_isDigit_e : isDigit 101 = false := rfl

/-- A string in the buffer: its length and where its bytes start. -/
theorem readStringLen_spec {p : Nat} {s : List UInt8} (hs : s.length ≤ 2147483647)
    (h : Holds buf p (encodeStr s)) :
    readStringLen buf p = .ok (some ((s.length : Int), p + (decimal s.length).length + 1)) := by
  obtain ⟨c, cs, hcons, hc⟩ := exists_decimal s.length
  have hsplit : Holds buf p (decimal s.length ++ [58] ++ s) := by
    rwa [List.append_assoc]
  have hdigits := readDigits_decimal 4294967296 not_isDigit_colon (holds_append_iff.mp hsplit).1
  have hcolon := peek_head (holds_append_iff.mp h).2
  have hfirst : peek buf p = .ok c := by
    unfold encodeStr at h
    rw [hcons] at h
    exact peek_head h
  have hlen : ((s.length : Int).bmod 4294967296) = s.length := toInt32_of_fits ⟨by omega, by omega⟩
  have hnonneg : (0 : Int) ≤ s.length := by omega
  simp only [readStringLen, hfirst, ok_bind, hc, if_true, hdigits, hcolon, hlen, hnonneg, and_self,
    pure_eq_ok]

/-- Digits that end before `c`, which need not be a numeral. -/
theorem readStringInt_digits {p : Nat} {ds : List Nat} (hne : ds ≠ []) (hds : ∀ d ∈ ds, d < 10)
    {c : UInt8} (hc : isDigit c = false)
    (h : Holds buf p (ds.map (fun d => UInt8.ofNat (48 + d)) ++ [c])) :
    ∃ val, readStringInt buf p = .ok (val, some (p + ds.length)) := by
  obtain ⟨d, ds', rfl⟩ := List.exists_cons_of_ne_nil hne
  have hd : isDigit (UInt8.ofNat (48 + d)) = true := isDigit_ofNat (hds d List.mem_cons_self)
  have hfirst : peek buf p = .ok (UInt8.ofNat (48 + d)) := peek_head h
  have hminus : UInt8.ofNat (48 + d) ≠ 45 := isDigit_ne hd rfl
  obtain ⟨val, hscan⟩ : ∃ val, readDigits 18446744073709551616 (buf.drop p) 0 p =
      .ok (val, p + (d :: ds').length) := by
    rw [h.drop_eq, List.append_assoc, List.singleton_append]
    exact ⟨_, readDigits_map _ hds hc _ _ _⟩
  simp only [readStringInt, hfirst, ok_bind, if_neg hminus, hd, if_true, hscan]
  exact ⟨_, rfl⟩

theorem readStringInt_none {p : Nat} {c : UInt8} (hp : peek buf p = .ok c) (hminus : c ≠ 45)
    (hc : isDigit c = false) : readStringInt buf p = .ok (0, none) := by
  simp only [readStringInt, hp, ok_bind, if_neg hminus, hc, Bool.false_eq_true, if_false,
    pure_eq_ok]

theorem toInt64_bmod_mul (x y : Int) :
    toInt64 (x.bmod 18446744073709551616 * y) = toInt64 (x * y) :=
  Int.bmod_mul_bmod

/-- The digits of an integer between `i` and `e`. -/
theorem readStringInt_spec {p : Nat} {i : Int}
    (h : Holds buf p ((if i < 0 then [45] else []) ++ decimal i.natAbs ++ [101])) :
    readStringInt buf p =
        .ok (toInt64 i, some (p + (if i < 0 then 1 else 0) + (decimal i.natAbs).length)) ∧
      peek buf (p + (if i < 0 then 1 else 0) + (decimal i.natAbs).length) = .ok 101 := by
  have hsign : Holds buf (p + if i < 0 then 1 else 0) (decimal i.natAbs ++ [101]) := by
    rw [List.append_assoc, holds_append_iff] at h
    have := h.2
    split at this <;> rename_i hi <;> simpa [hi] using this
  have he := peek_head (holds_append_iff.mp hsign).2
  have hdigits := readDigits_decimal 18446744073709551616 not_isDigit_e hsign
  obtain ⟨c, cs, hcons, hc⟩ := exists_decimal i.natAbs
  have hdigit : peek buf (p + if i < 0 then 1 else 0) = .ok c := by
    rw [hcons] at hsign
    exact peek_head hsign
  refine ⟨?_, he⟩
  by_cases hi : i < 0
  · have hval : ((i.natAbs : Nat) : Int) * -1 = i := by omega
    rw [if_pos hi] at h hdigit hdigits ⊢
    have hminus : peek buf p = .ok 45 := peek_head h
    simp only [readStringInt, hminus, ok_bind, if_true, hdigit, hc, hdigits, pure_eq_ok,
      toInt64_bmod_mul, hval]
  · have hval : ((i.natAbs : Nat) : Int) * 1 = i := by omega
    rw [if_neg hi, Nat.add_zero] at hdigit hdigits ⊢
    have hminus : c ≠ 45 := isDigit_ne hc rfl
    simp only [readStringInt, hdigit, ok_bind, if_neg hminus, hc, if_true, hdigits, pure_eq_ok,
      toInt64_bmod_mul, hval]

/-! ## Cursors -/

/-- A cursor at `p`, with a length that reaches the end `n` of the file. -/
structure CursorAt (n : Nat) (be : BencodeT) (p : Nat) : Prop where
  str : be.str = some p
  start : be.start ≤ p
  reaches : (n : Int) ≤ be.start + be.len
  len_le : be.len ≤ n

theorem cursorAt_init (n : Nat) : CursorAt n (bencodeInit 0 n) 0 :=
  ⟨rfl, le_rfl, by simp [bencodeInit], le_rfl⟩

section Cursor

variable {n p q : Nat} {be : BencodeT}

/-- The length carried over to an item reaches the end of the file too. -/
theorem CursorAt.carryLength (h : CursorAt n be p) (hn : n ≤ 2147483647) (hpq : p ≤ q)
    (hq : q < n) :
    ∃ len, Bencode.carryLength be q = .ok len ∧ CursorAt n (bencodeInit q len) q := by
  obtain ⟨hstr, hstart, hreach, hlen⟩ := h
  have hfit : toInt32 (be.len - ((q : Int) - p)) = be.len - ((q : Int) - p) :=
    toInt32_of_fits ⟨by omega, by omega⟩
  refine ⟨be.len - ((q : Int) - p), ?_, ⟨rfl, le_rfl, ?_, ?_⟩⟩
  · simp only [Bencode.carryLength, hstr, deref, ok_bind]
    rw [if_pos (by omega), hfit]
    rfl
  · dsimp only [bencodeInit]
    omega
  · dsimp only [bencodeInit]
    omega

/-- A cursor on its way through a dictionary: at its next key, or at the start. -/
def AtKey (buf : List UInt8) (p q : Nat) : Prop := q = p ∨ (q = p + 1 ∧ buf[p]? = some 100)

theorem AtKey.le (h : AtKey buf p q) : p ≤ q := by
  rcases h with rfl | ⟨rfl, -⟩
  · exact le_rfl
  · exact Nat.le_succ p

/-- A dictionary in the buffer: its start, and its entries behind it. -/
theorem Holds.dict {es : List (List UInt8 × Value)} (h : Holds buf p (encode (.dict es))) :
    AtKey buf p (p + 1) ∧ Holds buf (p + 1) (encodeDict es ++ [101]) := by
  rw [encode, List.cons_append] at h
  exact ⟨Or.inr ⟨rfl, h.head⟩, h.tail⟩

/-- The bytes of an encoded string. -/
theorem Holds.bytes {s : List UInt8} (h : Holds buf p (encodeStr s)) :
    Holds buf (p + (decimal s.length).length + 1) s :=
  Memory.Holds.tail (holds_append_iff.mp h).2

/-- At a string. -/
theorem exists_peek_str {s : List UInt8} (h : Holds buf p (encodeStr s)) :
    ∃ c, peek buf p = .ok c ∧ isDigit c = true := by
  obtain ⟨c, cs, hcons, hc⟩ := exists_decimal s.length
  unfold encodeStr at h
  rw [hcons] at h
  exact ⟨c, peek_head h, hc⟩

theorem dictHasNext_true (h : CursorAt n be p) (hat : AtKey buf p q) {s : List UInt8}
    (hs : Holds buf q (encodeStr s)) (hq : q + 1 < n) : bencodeDictHasNext buf be = .ok true := by
  obtain ⟨hstr, hstart, hreach, hlen⟩ := h
  obtain ⟨c, hkey, hc⟩ := exists_peek_str hs
  have he : c ≠ 101 := isDigit_ne hc rfl
  have hpq := hat.le
  have hinside : (p : Int) < be.start + be.len - 1 := by
    omega
  rcases hat with rfl | ⟨rfl, hd⟩
  · have hstop : ¬ (c = 101 ∨ c = 0 ∨ c = 13) := by
      have h0 : c ≠ 0 := isDigit_ne hc rfl
      have h13 : c ≠ 13 := isDigit_ne hc rfl
      tauto
    have hd : c ≠ 100 := isDigit_ne hc rfl
    simp only [bencodeDictHasNext, hstr, hkey, ok_bind, if_neg hstop, if_neg hd, pure_eq_ok,
      hinside, decide_true]
  · have hstop : ¬ ((100 : UInt8) = 101 ∨ (100 : UInt8) = 0 ∨ (100 : UInt8) = 13) := by decide
    simp only [bencodeDictHasNext, hstr, peek_of_getElem? hd, ok_bind, if_neg hstop, if_true, hkey,
      if_neg he, pure_eq_ok, hinside, decide_true]

theorem dictHasNext_end (hstr : be.str = some p) (hp : peek buf p = .ok 101) :
    bencodeDictHasNext buf be = .ok false := by
  simp only [bencodeDictHasNext, hstr, hp, ok_bind]
  rfl

theorem dictHasNext_empty (hstr : be.str = some p) (hp : peek buf p = .ok 100)
    (he : peek buf (p + 1) = .ok 101) : bencodeDictHasNext buf be = .ok false := by
  simp only [bencodeDictHasNext, hstr, hp, he, ok_bind]
  rfl

/-- The loop ends at the `e` where a key would be. -/
theorem dictHasNext_last (hstr : be.str = some p) (hat : AtKey buf p q)
    (hq : peek buf q = .ok 101) : bencodeDictHasNext buf be = .ok false := by
  rcases hat with rfl | ⟨rfl, hd⟩
  · exact dictHasNext_end hstr hq
  · exact dictHasNext_empty hstr (peek_of_getElem? hd) hq

/-- The next entry, provided the walk over its value goes well. -/
theorem dictGetNext_spec {fuel r : Nat} (hn : n ≤ 2147483647) (h : CursorAt n be p)
    (hat : AtKey buf p q) {k : List UInt8} (hk : Holds buf q (encodeStr k))
    (hend : q + (encodeStr k).length < n)
    (hnext : iterateToNextStringPos buf fuel be (q + (encodeStr k).length) = .ok (some r)) :
    ∃ value, CursorAt n value (q + (encodeStr k).length) ∧
      value.start = q + (encodeStr k).length ∧
      bencodeDictGetNext buf (fuel + 1) be = .ok ({ be with str := some r },
        some ⟨q + (decimal k.length).length + 1, k.length, value⟩) := by
  obtain ⟨c, hkey, hc⟩ := exists_peek_str hk
  have he : c ≠ 101 := isDigit_ne hc rfl
  have hlen : (encodeStr k).length = (decimal k.length).length + 1 + k.length := by
    simp only [encodeStr, List.length_append, List.length_cons]
    omega
  have hpq := hat.le
  obtain ⟨len, hcarry, hvalue⟩ := h.carryLength hn (hpq.trans (Nat.le_add_right _ _)) hend
  have hread := readStringLen_spec (by omega) hk
  have hpos : q + (decimal k.length).length + 1 + ((k.length : Nat) : Int).toNat =
      q + (encodeStr k).length := by
    rw [Int.toNat_natCast, hlen]
    omega
  refine ⟨_, hvalue, rfl, ?_⟩
  have hstr := h.str
  rcases hat with rfl | ⟨rfl, hd⟩
  · have hd : c ≠ 100 := isDigit_ne hc rfl
    simp only [bencodeDictGetNext, hstr, deref, hkey, ok_bind, if_neg he, if_neg hd, hread, hpos,
      hcarry, hnext, pure_eq_ok]
  · have hne : ¬ (100 : UInt8) = 101 := by decide
    simp only [bencodeDictGetNext, hstr, deref, peek_of_getElem? hd, ok_bind, if_neg hne, if_true,
      hkey, if_neg he, hread, hpos, hcarry, hnext, pure_eq_ok]

theorem isKind_spec {c d : UInt8} (hstr : be.str = some p) (hp : peek buf p = .ok d) :
    isKind buf c be = .ok (d == c) := by
  simp only [isKind, hstr, hp, ok_bind, pure_eq_ok]

theorem isString_spec (hstr : be.str = some p) {s : List UInt8} (hs : Holds buf p (encodeStr s)) :
    bencodeIsString buf be = .ok true := by
  obtain ⟨c, hp, hc⟩ := exists_peek_str hs
  have hsplit : Holds buf p (decimal s.length ++ [58] ++ s) := by
    rwa [List.append_assoc]
  have hdigits := readDigits_decimal 4294967296 not_isDigit_colon (holds_append_iff.mp hsplit).1
  have hcolon := peek_head (holds_append_iff.mp hs).2
  simp only [bencodeIsString, hstr, hp, ok_bind, hc, if_true, hdigits, hcolon, pure_eq_ok,
    BEq.rfl]

theorem isString_other (hstr : be.str = some p) {c : UInt8} (hp : peek buf p = .ok c)
    (hc : isDigit c = false) : bencodeIsString buf be = .ok false := by
  simp only [bencodeIsString, hstr, hp, ok_bind, hc, pure_eq_ok]
  rfl

theorem stringValue_spec (h : CursorAt n be p) (hn : n ≤ 2147483647) {s : List UInt8}
    (hs : Holds buf p (encodeStr s)) (hend : p + (encodeStr s).length ≤ n) :
    bencodeStringValue buf be =
      .ok (some (p + (decimal s.length).length + 1, (s.length : Int))) := by
  obtain ⟨hstr, hstart, hreach, hlen⟩ := h
  have hsize : (encodeStr s).length = (decimal s.length).length + 1 + s.length := by
    simp only [encodeStr, List.length_append, List.length_cons]
    omega
  have hread := readStringLen_spec (by omega) hs
  have hpos : ¬ be.len ≤ 0 := by omega
  have hfits : ¬ ((p + (decimal s.length).length + 1 : Nat) : Int) + s.length >
      be.start + be.len := by omega
  simp only [bencodeStringValue, isString_spec hstr hs, ok_bind, if_true, hstr, deref, hread,
    if_neg hpos, if_neg hfits, pure_eq_ok]

/-- At an integer or a list in the place of a key. -/
theorem dictHasNext_other (h : CursorAt n be p) {c : UInt8} (hp : peek buf p = .ok c)
    (hc : c = 105 ∨ c = 108) (hend : p + 2 ≤ n) : bencodeDictHasNext buf be = .ok true := by
  have hstop : ¬ (c = 101 ∨ c = 0 ∨ c = 13) := by
    rcases hc with rfl | rfl <;> decide
  have hd : ¬ c = 100 := by
    rcases hc with rfl | rfl <;> decide
  have hinside : (p : Int) < be.start + be.len - 1 := by
    have := h.reaches
    omega
  simp only [bencodeDictHasNext, h.str, hp, ok_bind, if_neg hstop, if_neg hd, pure_eq_ok, hinside,
    decide_true]

theorem dictGetNext_other {fuel : Nat} (hstr : be.str = some p) {c : UInt8}
    (hp : peek buf p = .ok c) (hc : c = 105 ∨ c = 108) :
    bencodeDictGetNext buf (fuel + 1) be = .error .assertion := by
  have he : ¬ c = 101 := by
    rcases hc with rfl | rfl <;> decide
  have hd : ¬ c = 100 := by
    rcases hc with rfl | rfl <;> decide
  have hdigit : isDigit c = false := by
    rcases hc with rfl | rfl <;> rfl
  simp only [bencodeDictGetNext, hstr, deref, hp, ok_bind, if_neg he, if_neg hd, readStringLen,
    hdigit, Bool.false_eq_true, if_false, pure_eq_ok]

theorem walkDict_other {fuel : Nat} (h : CursorAt n be p) {c : UInt8} (hp : peek buf p = .ok c)
    (hc : c = 105 ∨ c = 108) (hend : p + 2 ≤ n) :
    walkDict buf (fuel + 2) be = .error .assertion := by
  have hnext : bencodeDictGetNext buf (fuel + 1) be = .error .assertion :=
    dictGetNext_other h.str hp hc
  rw [walkDict, dictHasNext_other h hp hc hend, ok_bind, if_pos rfl, hnext, error_bind]

/-- At a key without a value. -/
theorem dictGetNext_last {fuel : Nat} (hn : n ≤ 2147483647) (h : CursorAt n be p)
    {k : List UInt8} (hk : Holds buf p (encodeStr k ++ [101]))
    (hend : p + (encodeStr k).length < n) :
    bencodeDictGetNext buf (fuel + 2) be = .ok ({ be with str := none }, none) := by
  obtain ⟨hkey, hlast⟩ := holds_append_iff.mp hk
  obtain ⟨c, hfirst, hc⟩ := exists_peek_str hkey
  have he : ¬ c = 101 := isDigit_ne hc rfl
  have hd : ¬ c = 100 := isDigit_ne hc rfl
  have hlen : (encodeStr k).length = (decimal k.length).length + 1 + k.length := by
    simp only [encodeStr, List.length_append, List.length_cons]
    omega
  obtain ⟨len, hcarry, hiter⟩ := h.carryLength hn (q := p + (encodeStr k).length) (by omega) hend
  have hread := readStringLen_spec (by omega) hkey
  have hpos : p + (decimal k.length).length + 1 + ((k.length : Nat) : Int).toNat =
      p + (encodeStr k).length := by
    rw [Int.toNat_natCast, hlen]
    omega
  have hpeek : peek buf (p + (encodeStr k).length) = .ok 101 := peek_head hlast
  have hnone : iterateToNextStringPos buf (fuel + 1) be (p + (encodeStr k).length) = .ok none := by
    have hdict : isKind buf 100 (bencodeInit (p + (encodeStr k).length) len) = .ok false :=
      isKind_spec rfl hpeek
    have hlist : isKind buf 108 (bencodeInit (p + (encodeStr k).length) len) = .ok false :=
      isKind_spec rfl hpeek
    have hint : isKind buf 105 (bencodeInit (p + (encodeStr k).length) len) = .ok false :=
      isKind_spec rfl hpeek
    have hstr : bencodeIsString buf (bencodeInit (p + (encodeStr k).length) len) = .ok false :=
      isString_other rfl hpeek rfl
    simp only [iterateToNextStringPos, hcarry, ok_bind, bencodeIsDict, hdict, bencodeIsList, hlist,
      hstr, bencodeIsInt, hint, Bool.false_eq_true, if_false, pure_eq_ok]
  simp only [bencodeDictGetNext, h.str, deref, hfirst, ok_bind, if_neg he, if_neg hd, hread, hpos,
    hcarry, hnone, pure_eq_ok]

/-- A cursor on its way through a list: at its next item, or at the start. -/
def AtItem (buf : List UInt8) (start p q : Nat) : Prop :=
  (q = p ∧ start < p) ∨ (q = p + 1 ∧ p = start ∧ buf[p]? = some 108)

theorem listHasNext_true (hstr : be.str = some p) (hat : AtItem buf be.start p q) {v : Value}
    (hv : Holds buf q (encode v)) : bencodeListHasNext buf be = .ok (true, be) := by
  obtain ⟨c, cs, hcons, hkind⟩ := encode_head v
  have hitem : peek buf q = .ok c := by
    rw [hcons] at hv
    exact peek_head hv
  have he : c ≠ 101 := kindByte_ne_e hkind
  rcases hat with ⟨rfl, hlt⟩ | ⟨rfl, hstart, hd⟩
  · have hne : ¬ (c = 108 ∧ q = be.start) := fun hc => absurd hc.2 (by omega)
    simp only [bencodeListHasNext, hstr, deref, hitem, ok_bind, if_neg hne, pure_eq_ok]
    rw [bne_iff_ne.mpr he]
  · simp only [bencodeListHasNext, hstr, deref, peek_of_getElem? hd, ok_bind, true_and,
      if_pos hstart, hitem, if_neg he, pure_eq_ok]

theorem listHasNext_end (hstr : be.str = some p) (hp : peek buf p = .ok 101) :
    bencodeListHasNext buf be = .ok (false, be) := by
  simp only [bencodeListHasNext, hstr, deref, hp, ok_bind]
  rfl

theorem listHasNext_empty (hstr : be.str = some p) (hstart : p = be.start)
    (hp : peek buf p = .ok 108) (he : peek buf (p + 1) = .ok 101) :
    bencodeListHasNext buf be = .ok (false, { be with str := some (p + 1) }) := by
  simp only [bencodeListHasNext, hstr, deref, hp, ok_bind, true_and, if_pos hstart, he, if_true,
    pure_eq_ok]

/-- The next item, provided the walk over it goes well. -/
theorem listGetNext_spec {fuel r : Nat} (hstr : be.str = some p) (hat : AtItem buf be.start p q)
    {v : Value} (hv : Holds buf q (encode v))
    (hnext : iterateToNextStringPos buf fuel be q = .ok (some r)) :
    bencodeListGetNext buf (fuel + 1) be = .ok (1, { be with str := some r }) := by
  obtain ⟨c, cs, hcons, hkind⟩ := encode_head v
  have hitem : peek buf q = .ok c := by
    rw [hcons] at hv
    exact peek_head hv
  have he : c ≠ 101 := kindByte_ne_e hkind
  rcases hat with ⟨rfl, hlt⟩ | ⟨rfl, hstart, hd⟩
  · have hne : ¬ (c = 108 ∧ be.start = q) := fun hc => absurd hc.2 (by omega)
    simp only [bencodeListGetNext, hstr, hitem, ok_bind, if_neg he, if_neg hne, hnext, pure_eq_ok]
  · have hne : ¬ (108 : UInt8) = 101 := by decide
    simp only [bencodeListGetNext, hstr, peek_of_getElem? hd, ok_bind, if_neg hne, true_and,
      if_pos hstart.symm, hitem, if_neg he, hnext, pure_eq_ok]

end Cursor

/-! ## Behind a value -/

section Iterate

variable {n : Nat}

theorem CursorAt.move {be : BencodeT} {p r : Nat} (h : CursorAt n be p) (hr : p ≤ r) :
    CursorAt n { be with str := some r } r :=
  ⟨rfl, h.start.trans hr, h.reaches, h.len_le⟩

section Kinds

variable {fuel q r : Nat} {be : BencodeT} {len : Int}

theorem iterate_int (hcarry : carryLength be q = .ok len) {i : Int}
    (hv : Holds buf q (encode (.int i))) :
    iterateToNextStringPos buf (fuel + 1) be q = .ok (some (q + (encode (.int i)).length)) := by
  rw [encode] at hv ⊢
  have hp : peek buf q = .ok 105 := peek_head hv
  obtain ⟨hread, he⟩ := readStringInt_spec (Holds.tail hv)
  have hlen : (105 :: (if i < 0 then [45] else []) ++ decimal i.natAbs ++ [101]).length =
      1 + (if i < 0 then 1 else 0) + (decimal i.natAbs).length + 1 := by
    split <;> simp <;> omega
  have hdict : isKind buf 100 (bencodeInit q len) = .ok false := isKind_spec rfl hp
  have hlist : isKind buf 108 (bencodeInit q len) = .ok false := isKind_spec rfl hp
  have hint : isKind buf 105 (bencodeInit q len) = .ok true := isKind_spec rfl hp
  have hstr : bencodeIsString buf (bencodeInit q len) = .ok false := isString_other rfl hp rfl
  simp only [iterateToNextStringPos, hcarry, ok_bind, bencodeIsDict, hdict, bencodeIsList, hlist,
    hstr, bencodeIsInt, hint, hread, he, Bool.false_eq_true, if_false, if_true, pure_eq_ok, hlen,
    ← Nat.add_assoc]

theorem iterate_str {n : Nat} (hn : n ≤ 2147483647) (hcarry : carryLength be q = .ok len)
    (hiter : CursorAt n (bencodeInit q len) q) {s : List UInt8}
    (hv : Holds buf q (encodeStr s)) (hend : q + (encodeStr s).length ≤ n) :
    iterateToNextStringPos buf (fuel + 1) be q = .ok (some (q + (encodeStr s).length)) := by
  obtain ⟨c, hp, hc⟩ := exists_peek_str hv
  have hdict : isKind buf 100 (bencodeInit q len) = .ok false := by
    rw [isKind_spec rfl hp, beq_eq_false_iff_ne.mpr (isDigit_ne hc rfl)]
  have hlist : isKind buf 108 (bencodeInit q len) = .ok false := by
    rw [isKind_spec rfl hp, beq_eq_false_iff_ne.mpr (isDigit_ne hc rfl)]
  have hstr := isString_spec hiter.str hv
  have hvalue := stringValue_spec hiter hn hv hend
  have hlen : (encodeStr s).length = (decimal s.length).length + 1 + s.length := by
    simp only [encodeStr, List.length_append, List.length_cons]
    omega
  simp only [iterateToNextStringPos, hcarry, ok_bind, bencodeIsDict, hdict, bencodeIsList, hlist,
    hstr, hvalue, Bool.false_eq_true, if_false, if_true, pure_eq_ok, Int.toNat_natCast, hlen,
    ← Nat.add_assoc]

theorem iterate_list (hcarry : carryLength be q = .ok len) (hp : peek buf q = .ok 108)
    {iter : BencodeT} (hstr : iter.str = some r)
    (hloop : listToEnd buf fuel (bencodeInit q len) = .ok (some iter)) :
    iterateToNextStringPos buf (fuel + 1) be q = .ok (some (r + 1)) := by
  have hdict : isKind buf 100 (bencodeInit q len) = .ok false := isKind_spec rfl hp
  have hlist : isKind buf 108 (bencodeInit q len) = .ok true := isKind_spec rfl hp
  simp only [iterateToNextStringPos, hcarry, ok_bind, bencodeIsDict, hdict, bencodeIsList, hlist,
    hloop, hstr, deref, Bool.false_eq_true, if_false, if_true, pure_eq_ok]

theorem iterate_dict (hcarry : carryLength be q = .ok len) (hp : peek buf q = .ok 100)
    {iter : BencodeT} (hstr : iter.str = some r)
    (hloop : dictToEnd buf fuel (bencodeInit q len) = .ok (some iter))
    (hlast : peek buf r = .ok 101) :
    iterateToNextStringPos buf (fuel + 1) be q = .ok (some (r + 1)) := by
  have hdict : isKind buf 100 (bencodeInit q len) = .ok true := isKind_spec rfl hp
  have hne : ¬ (101 : UInt8) = 100 := by decide
  simp only [iterateToNextStringPos, hcarry, ok_bind, bencodeIsDict, hdict, hloop, hstr, deref,
    hlast, if_neg hne, if_true, pure_eq_ok]

/-- The cursor stays at the start of an empty dictionary. -/
theorem iterate_empty (hcarry : carryLength be q = .ok len) (hp : peek buf q = .ok 100)
    (he : peek buf (q + 1) = .ok 101) :
    iterateToNextStringPos buf (fuel + 2) be q = .ok (some (q + 2)) := by
  have hdict : isKind buf 100 (bencodeInit q len) = .ok true := isKind_spec rfl hp
  have hnext : bencodeDictHasNext buf (bencodeInit q len) = .ok false :=
    dictHasNext_empty rfl hp he
  have hloop : dictToEnd buf (fuel + 1) (bencodeInit q len) = .ok (some (bencodeInit q len)) := by
    simp only [dictToEnd, hnext, ok_bind, Bool.false_eq_true, if_false, pure_eq_ok]
  have hstr : (bencodeInit q len).str = some q := rfl
  simp only [iterateToNextStringPos, hcarry, ok_bind, bencodeIsDict, hdict, hloop, hstr, deref,
    hp, he, if_true, pure_eq_ok]

end Kinds

mutual

/-- The walk over a value ends right behind it. -/
theorem iterate_spec (hn : n ≤ 2147483647) (v : Value) {fuel : Nat}
    (hfuel : 2 * (encode v).length ≤ fuel) {be : BencodeT} {p q : Nat} (h : CursorAt n be p)
    (hpq : p ≤ q) (hv : Holds buf q (encode v)) (hend : q + (encode v).length ≤ n) :
    iterateToNextStringPos buf fuel be q = .ok (some (q + (encode v).length)) := by
  have h2 := two_le_encode v
  obtain ⟨len, hcarry, hiter⟩ := h.carryLength hn hpq (show q < n by omega)
  match v, fuel with
  | .int i, fuel + 1 => exact iterate_int hcarry hv
  | .str s, fuel + 1 => exact iterate_str hn hcarry hiter hv hend
  | .list vs, fuel + 1 =>
      rw [encode, List.cons_append] at hv hend hfuel ⊢
      rw [List.length_cons, List.length_append, List.length_singleton] at hend hfuel ⊢
      have hp := peek_head hv
      have htail := Holds.tail hv
      have hend' : q + ((encodeList vs).length + 1 + 1) = q + 1 + (encodeList vs).length + 1 := by
        omega
      rw [hend']
      by_cases hnil : vs = []
      · subst hnil
        rw [encodeList] at htail ⊢
        have hlast : bencodeListHasNext buf (bencodeInit q len) =
            .ok (false, { bencodeInit q len with str := some (q + 1) }) :=
          listHasNext_empty rfl rfl hp (peek_head htail)
        obtain ⟨fuel, rfl⟩ := Nat.exists_eq_add_of_le' (show 1 ≤ fuel by omega)
        have hloop : listToEnd buf (fuel + 1) (bencodeInit q len) =
            .ok (some { bencodeInit q len with str := some (q + 1) }) := by
          simp only [listToEnd, hlast, ok_bind, pure_eq_ok]
        exact iterate_list hcarry hp rfl hloop
      · have hat :
            if vs = [] then q + 1 = q else AtItem buf (bencodeInit q len).start q (q + 1) := by
          rw [if_neg hnil]
          exact Or.inr ⟨rfl, rfl, hv.head⟩
        exact iterate_list hcarry hp rfl
          (listToEnd_spec hn vs (by omega) hiter hat htail (by omega))
  | .dict es, fuel + 1 =>
      rw [encode, List.cons_append] at hv hend hfuel ⊢
      rw [List.length_cons, List.length_append, List.length_singleton] at hend hfuel ⊢
      have hp := peek_head hv
      have htail := Holds.tail hv
      have hend' : q + ((encodeDict es).length + 1 + 1) = q + 1 + (encodeDict es).length + 1 := by
        omega
      rw [hend']
      by_cases hnil : es = []
      · subst hnil
        rw [encodeDict] at htail ⊢
        obtain ⟨fuel, rfl⟩ := Nat.exists_eq_add_of_le' (show 1 ≤ fuel by omega)
        exact iterate_empty hcarry hp (peek_head htail)
      · have hat : if es = [] then q + 1 = q else AtKey buf q (q + 1) := by
          rw [if_neg hnil]
          exact Or.inr ⟨rfl, hv.head⟩
        exact iterate_dict hcarry hp rfl
          (dictToEnd_spec hn es (by omega) hiter hat htail (by omega))
          (peek_head (holds_append_iff.mp htail).2)
  | v, 0 => omega

theorem dictToEnd_spec (hn : n ≤ 2147483647) (es : List (List UInt8 × Value)) {fuel : Nat}
    (hfuel : 2 * (encodeDict es).length + 2 ≤ fuel) {iter : BencodeT} {p q : Nat}
    (h : CursorAt n iter p)
    (hat : if es = [] then q = p else AtKey buf p q) (hes : Holds buf q (encodeDict es ++ [101]))
    (hend : q + (encodeDict es).length < n) :
    dictToEnd buf fuel iter =
      .ok (some { iter with str := some (q + (encodeDict es).length) }) := by
  match es, fuel with
  | [], fuel + 1 =>
      rw [if_pos rfl] at hat
      subst hat
      have hlast := dictHasNext_end h.str (peek_head hes)
      simp only [dictToEnd, hlast, ok_bind, Bool.false_eq_true, if_false, pure_eq_ok, encodeDict,
        List.length_nil, Nat.add_zero, ← h.str]
  | (k, v) :: es, fuel + 2 =>
      rw [if_neg (List.cons_ne_nil _ _)] at hat
      rw [encodeDict_cons_length] at hfuel hend ⊢
      rw [encodeDict, List.append_assoc, holds_append_iff, holds_append_iff, List.length_append,
        ← Nat.add_assoc] at hes
      obtain ⟨⟨hk, hv⟩, hrest⟩ := hes
      have h2 := two_le_encode v
      have hpq := hat.le
      have hnext := iterate_spec hn v (show 2 * (encode v).length ≤ fuel by omega) h (by omega) hv
        (by omega)
      obtain ⟨value, -, -, hget⟩ := dictGetNext_spec hn h hat hk (by omega) hnext
      have hhas := dictHasNext_true h hat hk (by omega)
      have hat' : if es = [] then q + (encodeStr k).length + (encode v).length =
          q + (encodeStr k).length + (encode v).length
          else AtKey buf (q + (encodeStr k).length + (encode v).length)
            (q + (encodeStr k).length + (encode v).length) := by
        split
        · rfl
        · exact Or.inl rfl
      have hloop := dictToEnd_spec hn es (show 2 * (encodeDict es).length + 2 ≤ fuel + 1 by omega)
        (h.move (by omega)) hat' hrest (by omega)
      rw [dictToEnd]
      simp only [hhas, ok_bind, if_true, hget, ← Nat.add_assoc]
      exact hloop
  | _, 0 => omega
  | (k, v) :: es, 1 =>
      have h2 := two_le_encode v
      rw [encodeDict_cons_length] at hfuel
      omega

theorem listToEnd_spec (hn : n ≤ 2147483647) (vs : List Value) {fuel : Nat}
    (hfuel : 2 * (encodeList vs).length + 2 ≤ fuel) {iter : BencodeT} {p q : Nat}
    (h : CursorAt n iter p)
    (hat : if vs = [] then q = p else AtItem buf iter.start p q)
    (hvs : Holds buf q (encodeList vs ++ [101])) (hend : q + (encodeList vs).length < n) :
    listToEnd buf fuel iter =
      .ok (some { iter with str := some (q + (encodeList vs).length) }) := by
  match vs, fuel with
  | [], fuel + 1 =>
      rw [if_pos rfl] at hat
      subst hat
      have hlast := listHasNext_end h.str (peek_head hvs)
      simp only [listToEnd, hlast, ok_bind, pure_eq_ok, encodeList, List.length_nil, Nat.add_zero,
        ← h.str]
  | v :: vs, fuel + 2 =>
      rw [if_neg (List.cons_ne_nil _ _)] at hat
      rw [encodeList, List.length_append] at hfuel hend ⊢
      rw [encodeList, List.append_assoc, holds_append_iff] at hvs
      obtain ⟨hv, hrest⟩ := hvs
      have h2 := two_le_encode v
      have hpq : p ≤ q ∧ iter.start ≤ q := by
        rcases hat with ⟨rfl, hlt⟩ | ⟨rfl, hstart, -⟩
        · omega
        · omega
      have hnext := iterate_spec hn v (show 2 * (encode v).length ≤ fuel by omega) h hpq.1 hv
        (by omega)
      have hget := listGetNext_spec h.str hat hv hnext
      have hhas := listHasNext_true h.str hat hv
      have hat' : if vs = [] then q + (encode v).length = q + (encode v).length
          else AtItem buf iter.start (q + (encode v).length) (q + (encode v).length) := by
        split
        · rfl
        · exact Or.inl ⟨rfl, by omega⟩
      have hloop := listToEnd_spec hn vs (show 2 * (encodeList vs).length + 2 ≤ fuel + 1 by omega)
        (h.move (by omega)) hat' hrest (by omega)
      rw [listToEnd]
      simp only [hhas, ok_bind, hget, ← Nat.add_assoc]
      exact hloop
  | _, 0 => omega
  | v :: vs, 1 =>
      have h2 := two_le_encode v
      rw [encodeList, List.length_append] at hfuel
      omega

end

/-! ## The copied cursor -/

theorem walkDict_of_dictToEnd (fuel : Nat) {ben ben' : BencodeT}
    (h : dictToEnd buf fuel ben = .ok (some ben')) : walkDict buf fuel ben = .ok ben' := by
  induction fuel generalizing ben with
  | zero => cases h
  | succ fuel ih =>
      rw [dictToEnd] at h
      rw [walkDict]
      cases hhas : bencodeDictHasNext buf ben with
      | error e =>
          rw [hhas] at h
          cases h
      | ok more =>
          rw [hhas] at h
          cases more with
          | false =>
              simp only [ok_bind, Bool.false_eq_true, if_false, pure_eq_ok, Except.ok.injEq,
                Option.some.injEq] at h ⊢
              exact h
          | true =>
              simp only [ok_bind, if_true] at h ⊢
              cases hnext : bencodeDictGetNext buf fuel ben with
              | error e =>
                  rw [hnext] at h
                  cases h
              | ok res =>
                  obtain ⟨ben1, item⟩ := res
                  rw [hnext] at h
                  cases item with
                  | none => cases h
                  | some item => exact ih h

/-- The span of a dictionary with an entry: all of it. -/
theorem getStartAndLen_spec (hn : n ≤ 2147483647) {es : List (List UInt8 × Value)} (hne : es ≠ [])
    {fuel : Nat} (hfuel : 2 * (encode (.dict es)).length ≤ fuel) {be : BencodeT} {p : Nat}
    (h : CursorAt n be p) (hes : Holds buf p (encode (.dict es)))
    (hend : p + (encode (.dict es)).length ≤ n) :
    bencodeDictGetStartAndLen buf fuel be = .ok (p, ((encode (.dict es)).length : Int)) := by
  rw [encode, List.cons_append] at hes
  have hlen := encode_dict_length es
  rw [hlen] at hfuel hend ⊢
  have hat : if es = [] then p + 1 = p else AtKey buf p (p + 1) := by
    rw [if_neg hne]
    exact Or.inr ⟨rfl, hes.head⟩
  have hwalk := walkDict_of_dictToEnd fuel
    (dictToEnd_spec hn es (by omega) h hat (Holds.tail hes) (by omega))
  have hfits : toInt32 (((p + 1 + (encodeDict es).length : Nat) : Int) - p + 1) =
      ((encodeDict es).length + 2 : Nat) := by
    rw [toInt32_of_fits ⟨by omega, by omega⟩]
    omega
  simp only [bencodeDictGetStartAndLen, hwalk, ok_bind, h.str, deref, hfits, pure_eq_ok]

/-- The span of an empty dictionary: its first byte only. -/
theorem getStartAndLen_empty {fuel : Nat} {be : BencodeT} {p : Nat} (hstr : be.str = some p)
    (hes : Holds buf p (encode (.dict []))) :
    bencodeDictGetStartAndLen buf (fuel + 1) be = .ok (p, 1) := by
  have hlast := dictHasNext_empty hstr (peek_head hes) (peek_head (Holds.tail hes))
  have hwalk : walkDict buf (fuel + 1) be = .ok be := by
    simp only [walkDict, hlast, ok_bind, Bool.false_eq_true, if_false, pure_eq_ok]
  have hfits : toInt32 ((p : Int) - p + 1) = 1 := by
    rw [sub_self]
    rfl
  simp only [bencodeDictGetStartAndLen, hwalk, ok_bind, hstr, deref, hfits, pure_eq_ok]

end Iterate

end BitFS.Bencode
