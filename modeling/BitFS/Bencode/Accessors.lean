import BitFS.Bencode.Validate

/-! # Values read through the accessors

A caller that asks for the kind of an item and for its value, and goes into dictionaries and
lists entry by entry, gets back every value that was encoded. Only an integer comes back as
what a `long` keeps of it.
-/

namespace BitFS.Bencode

open MachineInt Memory Decimal Fuel

variable (buf : List UInt8)

mutual

/-- The value of an item, unless a call says that it is invalid. -/
def valueAt (fuel : Nat) (be : BencodeT) : Except Halt (Option Value) :=
  match fuel with
  | 0 => .error .fuel
  | fuel + 1 => do
    if ← bencodeIsDict buf be then
      return (← entriesAt fuel be).map .dict
    else if ← bencodeIsList buf be then
      return (← itemsAt fuel be).map .list
    else if ← bencodeIsString buf be then
      match ← bencodeStringValue buf be with
      | none => pure none
      | some (str, slen) => pure (some (.str (slice buf str slen.toNat)))
    else if ← bencodeIsInt buf be then
      let (val, ret) ← bencodeIntValue buf be
      pure (if ret then some (.int val) else none)
    else pure none

/-- The entries from the cursor of a dictionary on, each with its key. -/
def entriesAt (fuel : Nat) (be : BencodeT) : Except Halt (Option (List (List UInt8 × Value))) :=
  match fuel with
  | 0 => .error .fuel
  | fuel + 1 => do
    if ← bencodeDictHasNext buf be then
      match ← bencodeDictGetNext buf fuel be with
      | (_, none) => pure none
      | (be, some item) =>
        match ← valueAt fuel item.value with
        | none => pure none
        | some v => return (← entriesAt fuel be).map ((slice buf item.key item.klen.toNat, v) :: ·)
    else pure (some [])

/-- The items from the cursor of a list on. -/
def itemsAt (fuel : Nat) (be : BencodeT) : Except Halt (Option (List Value)) :=
  match fuel with
  | 0 => .error .fuel
  | fuel + 1 => do
    match ← bencodeListHasNext buf be with
    | (false, _) => pure (some [])
    | (true, be) =>
      match ← bencodeListGetNextItem buf fuel be with
      | (_, be, some item) =>
        match ← valueAt fuel item with
        | none => pure none
        | some v => return (← itemsAt fuel be).map (v :: ·)
      | (_, _, none) => pure none

end

variable {buf}

mutual

/-- What is left of a value where every integer is a `long`. -/
def Value.toLong : Value → Value
  | .int i => .int (toInt64 i)
  | .str s => .str s
  | .list vs => .list (toLongList vs)
  | .dict es => .dict (toLongDict es)

def toLongList : List Value → List Value
  | [] => []
  | v :: vs => v.toLong :: toLongList vs

def toLongDict : List (List UInt8 × Value) → List (List UInt8 × Value)
  | [] => []
  | (k, v) :: es => (k, v.toLong) :: toLongDict es

end

mutual

/-- Every integer in the value is a `long`. -/
def Value.Long : Value → Prop
  | .int i => -9223372036854775808 ≤ i ∧ i ≤ 9223372036854775807
  | .str _ => True
  | .list vs => LongList vs
  | .dict es => LongDict es

def LongList : List Value → Prop
  | [] => True
  | v :: vs => v.Long ∧ LongList vs

def LongDict : List (List UInt8 × Value) → Prop
  | [] => True
  | (_, v) :: es => v.Long ∧ LongDict es

end

theorem toInt64_eq_self_iff (i : Int) :
    toInt64 i = i ↔ -9223372036854775808 ≤ i ∧ i ≤ 9223372036854775807 := by
  constructor
  · intro h
    have hlo := Int.le_bmod (x := i) (m := 18446744073709551616) (by decide)
    have hhi := Int.bmod_lt (x := i) (m := 18446744073709551616) (by decide)
    unfold toInt64 at h
    omega
  · intro h
    exact Int.bmod_eq_of_le (by omega) (by omega)

mutual

theorem toLong_eq_self_iff (v : Value) : v.toLong = v ↔ v.Long := by
  match v with
  | .int i => rw [Value.toLong, Value.Long, Value.int.injEq, toInt64_eq_self_iff]
  | .str s => simp only [Value.toLong, Value.Long]
  | .list vs => rw [Value.toLong, Value.Long, Value.list.injEq, toLongList_eq_self_iff vs]
  | .dict es => rw [Value.toLong, Value.Long, Value.dict.injEq, toLongDict_eq_self_iff es]

theorem toLongList_eq_self_iff (vs : List Value) : toLongList vs = vs ↔ LongList vs := by
  match vs with
  | [] => simp only [toLongList, LongList]
  | v :: vs =>
      rw [toLongList, LongList, List.cons.injEq, toLong_eq_self_iff v, toLongList_eq_self_iff vs]

theorem toLongDict_eq_self_iff (es : List (List UInt8 × Value)) :
    toLongDict es = es ↔ LongDict es := by
  match es with
  | [] => simp only [toLongDict, LongDict]
  | (k, v) :: es =>
      rw [toLongDict, LongDict, List.cons.injEq, Prod.mk.injEq, toLong_eq_self_iff v,
        toLongDict_eq_self_iff es]
      simp only [true_and]

end

/-! ## One step -/

section Step

variable {n p q fuel : Nat} {be : BencodeT}

theorem valueAt_int (hstr : be.str = some q) {i : Int} (hv : Holds buf q (encode (.int i))) :
    valueAt buf (fuel + 1) be = .ok (some (.int (toInt64 i))) := by
  rw [encode] at hv
  have hp : peek buf q = .ok 105 := peek_head hv
  obtain ⟨hread, he⟩ := readStringInt_spec (Holds.tail hv)
  have hdict : isKind buf 100 be = .ok false := isKind_spec hstr hp
  have hlist : isKind buf 108 be = .ok false := isKind_spec hstr hp
  have hint : isKind buf 105 be = .ok true := isKind_spec hstr hp
  have hisStr : bencodeIsString buf be = .ok false := isString_other hstr hp rfl
  have hvalue : bencodeIntValue buf be = .ok (toInt64 i, true) := by
    simp only [bencodeIntValue, hstr, deref, ok_bind, hread, he, if_true, pure_eq_ok]
  simp only [valueAt, bencodeIsDict, hdict, bencodeIsList, hlist, hisStr, bencodeIsInt, hint,
    hvalue, ok_bind, Bool.false_eq_true, if_false, if_true, pure_eq_ok]

theorem valueAt_str (hn : n ≤ 2147483647) (h : CursorAt n be q) {s : List UInt8}
    (hv : Holds buf q (encodeStr s)) (hend : q + (encodeStr s).length ≤ n) :
    valueAt buf (fuel + 1) be = .ok (some (.str s)) := by
  obtain ⟨c, hp, hc⟩ := exists_peek_str hv
  have hdict : isKind buf 100 be = .ok false := by
    rw [isKind_spec h.str hp, beq_eq_false_iff_ne.mpr (isDigit_ne hc rfl)]
  have hlist : isKind buf 108 be = .ok false := by
    rw [isKind_spec h.str hp, beq_eq_false_iff_ne.mpr (isDigit_ne hc rfl)]
  have hisStr := isString_spec h.str hv
  have hvalue := stringValue_spec h hn hv hend
  have hbytes : slice buf _ s.length = s := Holds.bytes hv
  simp only [valueAt, bencodeIsDict, hdict, bencodeIsList, hlist, hisStr, hvalue, ok_bind,
    Bool.false_eq_true, if_false, if_true, pure_eq_ok, Int.toNat_natCast, hbytes]

/-- One entry of a dictionary, and the rest. -/
theorem entriesAt_next (hn : n ≤ 2147483647) (h : CursorAt n be p) (hat : AtKey buf p q)
    {k : List UInt8} {v w : Value} (hk : Holds buf q (encodeStr k))
    (hv : Holds buf (q + (encodeStr k).length) (encode v))
    (hend : q + (encodeStr k).length + (encode v).length ≤ n)
    (hfuel : 2 * (encode v).length ≤ fuel)
    (hvalue : ∀ value, CursorAt n value (q + (encodeStr k).length) →
      value.start = q + (encodeStr k).length → valueAt buf (fuel + 1) value = .ok (some w)) :
    entriesAt buf (fuel + 2) be =
      (entriesAt buf (fuel + 1)
        { be with str := some (q + (encodeStr k).length + (encode v).length) } >>= fun es =>
          pure (es.map ((k, w) :: ·))) := by
  have h2 := two_le_encode v
  have hpq := hat.le
  have hnext := iterate_spec hn v hfuel h (show p ≤ q + (encodeStr k).length by omega) hv hend
  obtain ⟨value, hcur, hstart, hget⟩ := dictGetNext_spec hn h hat hk (by omega) hnext
  have hhas := dictHasNext_true h hat hk (by omega)
  have hkey : slice buf _ k.length = k := Holds.bytes hk
  rw [entriesAt, hhas, ok_bind, if_pos rfl, hget, ok_bind]
  dsimp only
  rw [hvalue value hcur hstart, ok_bind]
  dsimp only
  rw [Int.toNat_natCast, hkey]

theorem itemAt_of_encode {start : Nat} (hat : AtItem buf start p q) {v : Value}
    (hv : Holds buf q (encode v)) : ItemAt buf start p q := by
  obtain ⟨c, cs, hcons, hkind⟩ := encode_head v
  rw [hcons] at hv
  have he := kindByte_ne_e hkind
  rcases hat with ⟨rfl, hlt⟩ | ⟨rfl, hstart, hl⟩
  · have hinner : ¬ (c = 108 ∧ q = start) := fun hboth => absurd hboth.2 (by omega)
    exact ⟨⟨c, hv.head, he, Or.inr ⟨hinner, rfl⟩⟩, c, hv.head, he⟩
  · exact ⟨⟨108, hl, by decide, Or.inl ⟨rfl, hstart, rfl⟩⟩, c, hv.head, he⟩

/-- One item of a list, and the rest. -/
theorem itemsAt_next (hn : n ≤ 2147483647) (h : CursorAt n be p) (hat : AtItem buf be.start p q)
    {v w : Value} (hv : Holds buf q (encode v)) (hend : q + (encode v).length ≤ n)
    (hfuel : 2 * (encode v).length ≤ fuel)
    (hvalue : ∀ value, CursorAt n value q → value.start = q →
      valueAt buf fuel value = .ok (some w)) :
    itemsAt buf (fuel + 1) be =
      (itemsAt buf fuel { be with str := some (q + (encode v).length) } >>= fun vs =>
        pure (vs.map (w :: ·))) := by
  have h2 := two_le_encode v
  have hpq : p ≤ q := by
    rcases hat with ⟨rfl, -⟩ | ⟨rfl, -, -⟩ <;> omega
  have hnext := iterate_spec hn v hfuel h hpq hv hend
  obtain ⟨len, hcarry, hcur⟩ := h.carryLength hn hpq (show q < n by omega)
  have hhas := listHasNext_true h.str hat hv
  have hget := (itemAt_of_encode hat hv).listGetNextItem h.str fuel
  rw [hcarry, ok_bind, hnext, ok_bind] at hget
  rw [itemsAt, hhas, ok_bind]
  dsimp only
  rw [hget, pure_eq_ok, ok_bind]
  dsimp only [Option.elim]
  rw [hvalue _ hcur rfl, ok_bind]

end Step

/-! ## Whole values -/

section Whole

variable {n : Nat}

mutual

/-- The accessors give back the value that is encoded at the cursor. -/
theorem valueAt_spec (hn : n ≤ 2147483647) (v : Value) {fuel : Nat}
    (hfuel : 2 * (encode v).length ≤ fuel) {be : BencodeT} {q : Nat} (h : CursorAt n be q)
    (hstart : be.start = q) (hv : Holds buf q (encode v)) (hend : q + (encode v).length ≤ n) :
    valueAt buf fuel be = .ok (some v.toLong) := by
  have h2 := two_le_encode v
  match v, fuel with
  | .int i, fuel + 1 =>
      rw [Value.toLong]
      exact valueAt_int h.str hv
  | .str s, fuel + 1 =>
      rw [Value.toLong]
      exact valueAt_str hn h hv hend
  | .list vs, fuel + 1 =>
      rw [encode, List.cons_append] at hv hend hfuel
      rw [List.length_cons, List.length_append, List.length_singleton] at hend hfuel
      have hp := peek_head hv
      have htail := Holds.tail hv
      have hdict : isKind buf 100 be = .ok false := isKind_spec h.str hp
      have hlist : isKind buf 108 be = .ok true := isKind_spec h.str hp
      have hitems : itemsAt buf fuel be = .ok (some (toLongList vs)) := by
        by_cases hnil : vs = []
        · subst hnil
          have hlast := listHasNext_empty h.str hstart.symm hp (peek_head htail)
          obtain ⟨fuel, rfl⟩ := Nat.exists_eq_add_of_le' (show 1 ≤ fuel by omega)
          rw [itemsAt, hlast, ok_bind, toLongList]
          rfl
        · have hat : if vs = [] then q + 1 = q else AtItem buf be.start q (q + 1) := by
            rw [if_neg hnil]
            exact Or.inr ⟨rfl, hstart.symm, hv.head⟩
          exact itemsAt_spec hn vs (by omega) h hat htail (by omega)
      rw [valueAt, bencodeIsDict, hdict, ok_bind, if_neg Bool.false_ne_true, bencodeIsList, hlist,
        ok_bind, if_pos rfl, hitems, Value.toLong]
      rfl
  | .dict es, fuel + 1 =>
      rw [encode, List.cons_append] at hv hend hfuel
      rw [List.length_cons, List.length_append, List.length_singleton] at hend hfuel
      have hp := peek_head hv
      have htail := Holds.tail hv
      have hdict : isKind buf 100 be = .ok true := isKind_spec h.str hp
      have hentries : entriesAt buf fuel be = .ok (some (toLongDict es)) := by
        by_cases hnil : es = []
        · subst hnil
          have hlast := dictHasNext_empty h.str hp (peek_head htail)
          obtain ⟨fuel, rfl⟩ := Nat.exists_eq_add_of_le' (show 1 ≤ fuel by omega)
          rw [entriesAt, hlast, ok_bind, if_neg Bool.false_ne_true, toLongDict]
          rfl
        · have hat : if es = [] then q + 1 = q else AtKey buf q (q + 1) := by
            rw [if_neg hnil]
            exact Or.inr ⟨rfl, hv.head⟩
          exact entriesAt_spec hn es (by omega) h hat htail (by omega)
      rw [valueAt, bencodeIsDict, hdict, ok_bind, if_pos rfl, hentries, Value.toLong]
      rfl
  | v, 0 => omega

theorem entriesAt_spec (hn : n ≤ 2147483647) (es : List (List UInt8 × Value)) {fuel : Nat}
    (hfuel : 2 * (encodeDict es).length + 2 ≤ fuel) {be : BencodeT} {p q : Nat}
    (h : CursorAt n be p) (hat : if es = [] then q = p else AtKey buf p q)
    (hes : Holds buf q (encodeDict es ++ [101])) (hend : q + (encodeDict es).length < n) :
    entriesAt buf fuel be = .ok (some (toLongDict es)) := by
  match es, fuel with
  | [], fuel + 1 =>
      rw [if_pos rfl] at hat
      subst hat
      have hlast := dictHasNext_end h.str (peek_head hes)
      rw [entriesAt, hlast, ok_bind, if_neg Bool.false_ne_true, toLongDict]
      rfl
  | (k, v) :: es, fuel + 2 =>
      rw [if_neg (List.cons_ne_nil _ _)] at hat
      rw [encodeDict_cons_length] at hfuel hend
      rw [encodeDict, List.append_assoc, holds_append_iff, holds_append_iff, List.length_append,
        ← Nat.add_assoc] at hes
      obtain ⟨⟨hk, hv⟩, hrest⟩ := hes
      have h2 := two_le_encode v
      have hpq := hat.le
      have hvalue : ∀ value, CursorAt n value (q + (encodeStr k).length) →
          value.start = q + (encodeStr k).length →
          valueAt buf (fuel + 1) value = .ok (some v.toLong) := by
        intro value hcur hstart
        exact valueAt_spec hn v (by omega) hcur hstart hv (by omega)
      have hat' : if es = [] then q + (encodeStr k).length + (encode v).length =
          q + (encodeStr k).length + (encode v).length
          else AtKey buf (q + (encodeStr k).length + (encode v).length)
            (q + (encodeStr k).length + (encode v).length) := by
        split
        · rfl
        · exact Or.inl rfl
      have hloop := entriesAt_spec hn es (show 2 * (encodeDict es).length + 2 ≤ fuel + 1 by omega)
        (h.move (by omega)) hat' hrest (by omega)
      rw [entriesAt_next hn h hat hk hv (by omega) (by omega) hvalue, hloop, ok_bind, toLongDict]
      rfl
  | _, 0 => omega
  | (k, v) :: es, 1 =>
      have h2 := two_le_encode v
      rw [encodeDict_cons_length] at hfuel
      omega

theorem itemsAt_spec (hn : n ≤ 2147483647) (vs : List Value) {fuel : Nat}
    (hfuel : 2 * (encodeList vs).length + 2 ≤ fuel) {be : BencodeT} {p q : Nat}
    (h : CursorAt n be p) (hat : if vs = [] then q = p else AtItem buf be.start p q)
    (hvs : Holds buf q (encodeList vs ++ [101])) (hend : q + (encodeList vs).length < n) :
    itemsAt buf fuel be = .ok (some (toLongList vs)) := by
  match vs, fuel with
  | [], fuel + 1 =>
      rw [if_pos rfl] at hat
      subst hat
      have hlast := listHasNext_end h.str (peek_head hvs)
      rw [itemsAt, hlast, ok_bind, toLongList]
      rfl
  | v :: vs, fuel + 1 =>
      rw [if_neg (List.cons_ne_nil _ _)] at hat
      rw [encodeList, List.length_append] at hfuel hend
      rw [encodeList, List.append_assoc, holds_append_iff] at hvs
      obtain ⟨hv, hrest⟩ := hvs
      have h2 := two_le_encode v
      have hpq : p ≤ q ∧ be.start ≤ q := by
        rcases hat with ⟨rfl, hlt⟩ | ⟨rfl, hstart, -⟩
        · omega
        · omega
      have hvalue : ∀ value, CursorAt n value q → value.start = q →
          valueAt buf fuel value = .ok (some v.toLong) := by
        intro value hcur hstart
        exact valueAt_spec hn v (by omega) hcur hstart hv (by omega)
      have hat' : if vs = [] then q + (encode v).length = q + (encode v).length
          else AtItem buf be.start (q + (encode v).length) (q + (encode v).length) := by
        split
        · rfl
        · exact Or.inl ⟨rfl, by omega⟩
      have hloop := itemsAt_spec hn vs (show 2 * (encodeList vs).length + 2 ≤ fuel by omega)
        (h.move (show p ≤ q + (encode v).length by omega)) hat' hrest (by omega)
      rw [itemsAt_next hn h hat hv (by omega) (by omega) hvalue, hloop, ok_bind, toLongList]
      rfl
  | _, 0 => omega

end

/-- The accessors give back every value that was encoded, with its integers as `long`s, whatever
follows. -/
theorem valueAt_encode (v : Value) (rest : List UInt8)
    (hlen : (encode v ++ rest).length ≤ 2147483647) {fuel : Nat}
    (hfuel : 2 * (encode v).length ≤ fuel) :
    valueAt (encode v ++ rest ++ [0]) fuel (bencodeInit 0 (encode v ++ rest).length) =
        .ok (some v.toLong) ∧
      (valueAt (encode v ++ rest ++ [0]) fuel (bencodeInit 0 (encode v ++ rest).length) =
        .ok (some v) ↔ v.Long) := by
  have hvalue := valueAt_spec hlen v hfuel (cursorAt_init _) rfl (holds_encode v rest)
    (encode_le v rest)
  refine ⟨hvalue, ?_⟩
  rw [hvalue, Except.ok.injEq, Option.some.injEq, toLong_eq_self_iff]

/-- Two entries under one key, and an integer beyond a `long`. -/
def doubledKey : Value := .dict [([97], .list [.int 9223372036854775808]), ([97], .dict [])]

theorem doubledKey_read :
    valueAt (encode doubledKey ++ [120] ++ [0]) 80
        (bencodeInit 0 (encode doubledKey ++ [120]).length) = .ok (some doubledKey.toLong) ∧
      (valueAt (encode doubledKey ++ [120] ++ [0]) 80
        (bencodeInit 0 (encode doubledKey ++ [120]).length) = .ok (some doubledKey) ↔
          doubledKey.Long) := by
  apply valueAt_encode
  · simp [doubledKey, encode, encodeDict, encodeList, encodeStr, decimal, digits]
  · simp [doubledKey, encode, encodeDict, encodeList, encodeStr, decimal, digits]

end Whole

end BitFS.Bencode
