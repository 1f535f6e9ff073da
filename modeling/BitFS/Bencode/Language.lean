import BitFS.Bencode.Walk
import BitFS.Library.Fuel

/-! # What the reader gets over

The reader takes more than well-formed values. Numerals may have leading zeros and lengths
wrap around, a dictionary also ends at a 0 byte, a carriage return or the last byte of what
passes for the input, and a `d` before a key is skipped.
-/

namespace BitFS.Bencode

open MachineInt Memory Decimal Fuel

/-! ## The language -/

/-- Digits from `p` on, and the byte behind them. -/
structure DigitsAt (buf : List UInt8) (p : Nat) (ds : List Nat) (c : UInt8) : Prop where
  ne_nil : ds ≠ []
  lt : ∀ d ∈ ds, d < 10
  holds : Holds buf p (ds.map (fun d => UInt8.ofNat (48 + d)) ++ [c])
  stop : isDigit c = false

/-- The number that digits stand for. -/
def number (ds : List Nat) : Int := ds.foldl (fun (x : Int) (d : Nat) => x * 10 + d) 0

/-- A string at `q` with `len` bytes from `str` on, by its number in an `int`. -/
def StringAt (buf : List UInt8) (q str len : Nat) : Prop :=
  ∃ ds, DigitsAt buf q ds 58 ∧ str = q + ds.length + 1 ∧ (len : Int) = toInt32 (number ds)

/-- An integer from behind its `i` to its `e`. -/
def IntegerAt (buf : List UInt8) (p e : Nat) : Prop :=
  ∃ q ds, (q = p ∨ (q = p + 1 ∧ buf[p]? = some 45)) ∧ DigitsAt buf q ds 101 ∧ e = q + ds.length

/-- With `c` at `p` the loop over a dictionary stops. -/
def Stop (buf : List UInt8) (lim : Int) (p : Nat) (c : UInt8) : Prop :=
  c = 101 ∨ c = 0 ∨ c = 13 ∨ (c = 100 ∧ buf[p + 1]? = some 101) ∨ lim ≤ p + 1

def StopsAt (buf : List UInt8) (lim : Int) (p : Nat) : Prop :=
  ∃ c, buf[p]? = some c ∧ Stop buf lim p c

/-- The loop goes on with a key at `q`, with `len` bytes from `str` on. -/
structure KeyAt (buf : List UInt8) (lim : Int) (p q str len : Nat) : Prop where
  more : ∃ c, buf[p]? = some c ∧ ¬ Stop buf lim p c
  atKey : AtKey buf p q
  key : StringAt buf q str len

/-- Behind a dictionary that stops at `s`. -/
def behind (buf : List UInt8) (s : Nat) : Nat :=
  if buf[s]? = some 100 ∧ buf[s + 1]? = some 101 then s + 2 else s + 1

/-- An item, the items of a list, or the entries of a dictionary. -/
inductive Part where
  | item
  | items
  | entries (start : Nat)

/-- The reader gets from one position to another, with the length it carries there. -/
inductive Reads (buf : List UInt8) : Part → Int → Nat → Nat → Prop where
  | int {len : Int} {q e : Nat} (hi : buf[q]? = some 105) (hint : IntegerAt buf (q + 1) e) :
      Reads buf .item len q (e + 1)
  | str {len : Int} {q str n : Nat} (hstr : StringAt buf q str n)
      (hfits : (str + n : Int) ≤ q + len) :
      Reads buf .item len q (str + n)
  | emptyList {len : Int} {q : Nat} (hl : buf[q]? = some 108) (he : buf[q + 1]? = some 101) :
      Reads buf .item len q (q + 2)
  | list {len : Int} {q r s : Nat} (hl : buf[q]? = some 108) (he : buf[q + 1]? ≠ some 101)
      (hitem : Reads buf .item (len - 1) (q + 1) r) (hitems : Reads buf .items len r s) :
      Reads buf .item len q (s + 1)
  | dict {len : Int} {q s : Nat} (hd : buf[q]? = some 100)
      (hentries : Reads buf (.entries q) len q s) : Reads buf .item len q (behind buf s)
  | lastItem {len : Int} {p : Nat} (he : buf[p]? = some 101) : Reads buf .items len p p
  | nextItem {len : Int} {p r s : Nat} (he : buf[p]? ≠ some 101) (hitem : Reads buf .item len p r)
      (hitems : Reads buf .items len r s) : Reads buf .items len p s
  | lastEntry {len : Int} {start p : Nat} (hstop : StopsAt buf (start + len) p) :
      Reads buf (.entries start) len p p
  | nextEntry {len : Int} {start p q str n r s : Nat} (hkey : KeyAt buf (start + len) p q str n)
      (hitem : Reads buf .item (len - (((str + n : Nat) : Int) - p)) (str + n) r)
      (hentries : Reads buf (.entries start) len r s) : Reads buf (.entries start) len p s

/-! ## Numbers and strings -/

variable {buf : List UInt8}

theorem peek_ok_iff {p : Nat} {c : UInt8} : peek buf p = .ok c ↔ buf[p]? = some c := by
  unfold peek
  cases buf[p]? with
  | none => simp
  | some d => simp

theorem DigitsAt.last {p : Nat} {ds : List Nat} {c : UInt8} (h : DigitsAt buf p ds c) :
    buf[p + ds.length]? = some c := by
  have hlast := (holds_append_iff.mp h.holds).2
  rw [List.length_map] at hlast
  exact hlast.head

theorem DigitsAt.head {p : Nat} {ds : List Nat} {c : UInt8} (h : DigitsAt buf p ds c) :
    ∃ d, buf[p]? = some d ∧ isDigit d = true := by
  obtain ⟨d, ds', rfl⟩ := List.exists_cons_of_ne_nil h.ne_nil
  have hhead := h.holds
  rw [List.map_cons, List.cons_append] at hhead
  exact ⟨_, hhead.head, isDigit_ofNat (h.lt d List.mem_cons_self)⟩

theorem DigitsAt.readDigits {p : Nat} {ds : List Nat} {c : UInt8} (h : DigitsAt buf p ds c)
    (m : Nat) : readDigits m (buf.drop p) 0 p = .ok ((number ds).bmod m, p + ds.length) := by
  have hscan := foldl_bmod m ds 0
  rw [Int.zero_bmod] at hscan
  rw [h.holds.drop_eq, List.append_assoc, List.singleton_append, readDigits_map m h.lt h.stop,
    hscan, number]

theorem holds_of_drop {p : Nat} {bs rest : List UInt8} (h : buf.drop p = bs ++ rest) :
    Holds buf p bs := by
  unfold Holds slice
  rw [h, List.take_left]

theorem readDigits_ok {m : Nat} {bytes : List UInt8} {val v : Int} {sp e : Nat}
    (h : readDigits m bytes val sp = .ok (v, e)) :
    ∃ (ds : List Nat) (c : UInt8) (rest : List UInt8),
      bytes = ds.map (fun d => UInt8.ofNat (48 + d)) ++ c :: rest ∧ (∀ d ∈ ds, d < 10) ∧
        isDigit c = false ∧ e = sp + ds.length := by
  induction bytes generalizing val sp with
  | nil => cases h
  | cons b bytes ih =>
      rw [readDigits] at h
      split at h
      · rename_i hb
        obtain ⟨ds, c, rest, rfl, hds, hc, rfl⟩ := ih h
        obtain ⟨d, hd, rfl⟩ := exists_ofNat_of_isDigit hb
        refine ⟨d :: ds, c, rest, rfl, ?_, hc, ?_⟩
        · intro d' hd'
          rcases List.mem_cons.mp hd' with rfl | hmem
          · exact hd
          · exact hds d' hmem
        · rw [List.length_cons]
          omega
      · rename_i hb
        cases h
        exact ⟨[], b, bytes, rfl, fun d hd => absurd hd List.not_mem_nil,
          Bool.eq_false_iff.mpr hb, rfl⟩

/-- The loop over digits was at digits. -/
theorem digitsAt_of_readDigits {m p e : Nat} {v : Int} {d : UInt8} (hfirst : buf[p]? = some d)
    (hd : isDigit d = true) (h : readDigits m (buf.drop p) 0 p = .ok (v, e)) :
    ∃ ds c, DigitsAt buf p ds c ∧ e = p + ds.length ∧ v = (number ds).bmod m := by
  obtain ⟨ds, c, rest, hsplit, hds, hc, rfl⟩ := readDigits_ok h
  have hne : ds ≠ [] := by
    intro hnil
    subst hnil
    have hhead : buf[p]? = some c := by
      have := congrArg List.head? hsplit
      rwa [List.head?_drop] at this
    rw [hfirst] at hhead
    cases hhead
    rw [hd] at hc
    cases hc
  have hat : DigitsAt buf p ds c := by
    refine ⟨hne, hds, ?_, hc⟩
    rw [← List.singleton_append, ← List.append_assoc] at hsplit
    exact holds_of_drop hsplit
  have hval := hat.readDigits m
  rw [h] at hval
  exact ⟨ds, c, hat, rfl, congrArg Prod.fst (Except.ok.inj hval)⟩

theorem readStringLen_of_stringAt {q str n : Nat} (h : StringAt buf q str n) :
    readStringLen buf q = .ok (some ((n : Int), str)) := by
  obtain ⟨ds, hds, rfl, hn⟩ := h
  obtain ⟨d, hfirst, hd⟩ := hds.head
  have hnonneg : (0 : Int) ≤ n := Int.natCast_nonneg n
  have hval : (number ds).bmod 4294967296 = n := hn.symm
  simp only [readStringLen, peek_of_getElem? hfirst, ok_bind, hd, if_true, hds.readDigits,
    peek_of_getElem? hds.last, hval, hnonneg, and_self, pure_eq_ok]

theorem stringAt_of_readStringLen {q str : Nat} {slen : Int}
    (h : readStringLen buf q = .ok (some (slen, str))) :
    ∃ n : Nat, slen = n ∧ StringAt buf q str n := by
  obtain ⟨c, hfirst, hrest⟩ := bind_eq_ok.mp h
  rw [peek_ok_iff] at hfirst
  split at hrest
  · rename_i hc
    obtain ⟨⟨v, e⟩, hdigits, hcolon⟩ := bind_eq_ok.mp hrest
    obtain ⟨c', hlast, hend⟩ := bind_eq_ok.mp hcolon
    obtain ⟨ds, c0, hds, rfl, rfl⟩ := digitsAt_of_readDigits hfirst hc hdigits
    rw [peek_ok_iff, hds.last] at hlast
    cases hlast
    split at hend
    · rename_i hok
      cases hend
      obtain ⟨rfl, hnonneg⟩ := hok
      obtain ⟨n, hn⟩ := Int.eq_ofNat_of_zero_le hnonneg
      exact ⟨n, hn, ds, hds, rfl, hn.symm⟩
    · cases hend
  · cases hrest

section Cursor

variable {be : BencodeT} {q str : Nat}

theorem isString_of_digitsAt (hstr : be.str = some q) {ds : List Nat} (h : DigitsAt buf q ds 58) :
    bencodeIsString buf be = .ok true := by
  obtain ⟨d, hfirst, hd⟩ := h.head
  simp only [bencodeIsString, hstr, peek_of_getElem? hfirst, ok_bind, hd, if_true, h.readDigits,
    peek_of_getElem? h.last, pure_eq_ok, BEq.rfl]

theorem digitsAt_of_isString (hstr : be.str = some q) (h : bencodeIsString buf be = .ok true) :
    ∃ ds, DigitsAt buf q ds 58 := by
  simp only [bencodeIsString, hstr] at h
  obtain ⟨c, hfirst, hrest⟩ := bind_eq_ok.mp h
  rw [peek_ok_iff] at hfirst
  split at hrest
  · rename_i hc
    obtain ⟨⟨v, e⟩, hdigits, hcolon⟩ := bind_eq_ok.mp hrest
    obtain ⟨c', hlast, hend⟩ := bind_eq_ok.mp hcolon
    obtain ⟨ds, c0, hds, rfl, -⟩ := digitsAt_of_readDigits hfirst hc hdigits
    have hc' : c' = 58 := by simpa using hend
    subst hc'
    rw [peek_ok_iff, hds.last] at hlast
    cases hlast
    exact ⟨ds, hds⟩
  · cases hrest

theorem stringValue_of_stringAt (hstr : be.str = some q) (hlen : 0 < be.len) {n : Nat}
    (h : StringAt buf q str n) (hfits : (str + n : Int) ≤ be.start + be.len) :
    bencodeStringValue buf be = .ok (some (str, (n : Int))) := by
  have hread := readStringLen_of_stringAt h
  obtain ⟨ds, hds, -, -⟩ := h
  have hpos : ¬ be.len ≤ 0 := by omega
  have hin : ¬ (str : Int) + n > be.start + be.len := by omega
  simp only [bencodeStringValue, isString_of_digitsAt hstr hds, ok_bind, if_true, hstr, deref,
    hread, if_neg hpos, if_neg hin, pure_eq_ok]

theorem stringAt_of_stringValue (hstr : be.str = some q) {slen : Int}
    (h : bencodeStringValue buf be = .ok (some (str, slen))) :
    ∃ n : Nat, slen = n ∧ StringAt buf q str n ∧ (str + n : Int) ≤ be.start + be.len := by
  obtain ⟨isStr, -, hrest⟩ := bind_eq_ok.mp h
  split at hrest
  · rw [hstr, deref, ok_bind] at hrest
    obtain ⟨read, hread, hvalue⟩ := bind_eq_ok.mp hrest
    split at hvalue
    · cases hvalue
    · rename_i slen' sp
      split at hvalue
      · cases hvalue
      · split at hvalue
        · cases hvalue
        · rename_i hin
          cases hvalue
          obtain ⟨n, rfl, hat⟩ := stringAt_of_readStringLen hread
          exact ⟨n, rfl, hat, by omega⟩
  · cases hrest

end Cursor

theorem readStringInt_of_integerAt {p e : Nat} (h : IntegerAt buf p e) :
    ∃ val, readStringInt buf p = .ok (val, some e) ∧ peek buf e = .ok 101 := by
  obtain ⟨q, ds, hq, hds, rfl⟩ := h
  obtain ⟨d, hfirst, hd⟩ := hds.head
  have hne : d ≠ 45 := isDigit_ne hd rfl
  rcases hq with rfl | ⟨rfl, hminus⟩
  · simp only [readStringInt, peek_of_getElem? hfirst, ok_bind, if_neg hne, hd, if_true,
      hds.readDigits, peek_of_getElem? hds.last, pure_eq_ok]
    exact ⟨_, rfl, trivial⟩
  · simp only [readStringInt, peek_of_getElem? hminus, peek_of_getElem? hfirst, ok_bind, hd,
      if_true,
      hds.readDigits, peek_of_getElem? hds.last, pure_eq_ok]
    exact ⟨_, rfl, trivial⟩

theorem integerAt_of_readStringInt {p e : Nat} {val : Int}
    (h : readStringInt buf p = .ok (val, some e)) (he : peek buf e = .ok 101) :
    IntegerAt buf p e := by
  obtain ⟨c, hfirst, hrest⟩ := bind_eq_ok.mp h
  rw [peek_ok_iff] at hfirst he
  have hsign : ∃ q, (q = p ∨ (q = p + 1 ∧ buf[p]? = some 45)) ∧
      ∃ c', buf[q]? = some c' ∧ isDigit c' = true ∧
        ∃ v, readDigits 18446744073709551616 (buf.drop q) 0 q = .ok (v, e) := by
    by_cases hc : c = 45
    · subst hc
      simp only [if_true] at hrest
      obtain ⟨c', hnext, hvalue⟩ := bind_eq_ok.mp hrest
      rw [peek_ok_iff] at hnext
      split at hvalue
      · rename_i hdigit
        obtain ⟨⟨v, e'⟩, hdigits, hend⟩ := bind_eq_ok.mp hvalue
        cases hend
        exact ⟨p + 1, Or.inr ⟨rfl, hfirst⟩, c', hnext, hdigit, v, hdigits⟩
      · cases hvalue
    · simp only [if_neg hc] at hrest
      obtain ⟨c', hnext, hvalue⟩ := bind_eq_ok.mp hrest
      rw [peek_ok_iff] at hnext
      split at hvalue
      · rename_i hdigit
        obtain ⟨⟨v, e'⟩, hdigits, hend⟩ := bind_eq_ok.mp hvalue
        cases hend
        exact ⟨p, Or.inl rfl, c', hnext, hdigit, v, hdigits⟩
      · cases hvalue
  obtain ⟨q, hq, c', hnext, hdigit, v, hdigits⟩ := hsign
  obtain ⟨ds, c0, hds, rfl, -⟩ := digitsAt_of_readDigits hnext hdigit hdigits
  rw [hds.last] at he
  cases he
  exact ⟨q, ds, hq, hds, rfl⟩

/-! ## Cursors -/

/-- The input with the 0 behind it. -/
structure Input (buf : List UInt8) (n : Nat) : Prop where
  length : buf.length = n + 1
  last : buf[n]? = some 0
  fits : n ≤ 2147483647

section Input

variable {n p q : Nat} {be : BencodeT} {c : UInt8}

theorem Input.lt (h : Input buf n) (hc : buf[p]? = some c) (hne : c ≠ 0) : p < n := by
  have hlen := (List.getElem?_eq_some_iff.mp hc).1
  have hlast := h.last
  rw [h.length] at hlen
  by_contra hge
  obtain rfl : p = n := by omega
  rw [hc] at hlast
  cases hlast
  exact hne rfl

theorem Input.exists_next (h : Input buf n) (hp : p < n) : ∃ d, buf[p + 1]? = some d :=
  ⟨_, List.getElem?_eq_getElem (by rw [h.length]; omega)⟩

theorem CursorAt.carryLength_eq (h : CursorAt n be p) (hin : Input buf n) (hpq : p ≤ q)
    (hq : q < n) : Bencode.carryLength be q = .ok (be.len - ((q : Int) - p)) ∧
      CursorAt n (bencodeInit q (be.len - ((q : Int) - p))) q := by
  obtain ⟨len, hcarry, hcur⟩ := h.carryLength hin.fits hpq hq
  have hstart := h.start
  have hreach := h.reaches
  have hle := h.len_le
  have hfits := hin.fits
  have hlen : len = be.len - ((q : Int) - p) := by
    simp only [Bencode.carryLength, h.str, deref, ok_bind] at hcarry
    rw [if_pos (by omega), toInt32_of_fits ⟨by omega, by omega⟩] at hcarry
    exact (Except.ok.inj hcarry).symm
  rw [← hlen]
  exact ⟨hcarry, hcur⟩

/-- Whether the loop over a dictionary goes on. -/
theorem dictHasNext_eq (hin : Input buf n) (hstr : be.str = some p) (hc : buf[p]? = some c) :
    ∃ more, bencodeDictHasNext buf be = .ok more ∧
      (more = true ↔ ¬ Stop buf (be.start + be.len) p c) := by
  have hlim : ((p : Int) < be.start + be.len - 1) ↔ ¬ ((be.start : Int) + be.len ≤ p + 1) := by
    omega
  by_cases hstop : c = 101 ∨ c = 0 ∨ c = 13
  · refine ⟨false, ?_, ?_⟩
    · simp only [bencodeDictHasNext, hstr, peek_of_getElem? hc, ok_bind, if_pos hstop, pure_eq_ok]
    · unfold Stop
      tauto
  · by_cases hd : c = 100
    · subst hd
      obtain ⟨d, hnext⟩ := hin.exists_next (hin.lt hc (by decide))
      by_cases he : d = 101
      · subst he
        refine ⟨false, ?_, ?_⟩
        · simp only [bencodeDictHasNext, hstr, peek_of_getElem? hc, peek_of_getElem? hnext, ok_bind,
            if_neg hstop, if_true, pure_eq_ok]
        · unfold Stop
          tauto
      · have hne : buf[p + 1]? ≠ some 101 := by
          rw [hnext]
          exact fun heq => he (Option.some.inj heq)
        refine ⟨decide ((p : Int) < be.start + be.len - 1), ?_, ?_⟩
        · simp only [bencodeDictHasNext, hstr, peek_of_getElem? hc, peek_of_getElem? hnext, ok_bind,
            if_neg hstop, if_true, if_neg he, pure_eq_ok]
        · rw [decide_eq_true_iff, hlim]
          unfold Stop
          tauto
    · refine ⟨decide ((p : Int) < be.start + be.len - 1), ?_, ?_⟩
      · simp only [bencodeDictHasNext, hstr, peek_of_getElem? hc, ok_bind, if_neg hstop, if_neg hd,
          pure_eq_ok]
      · rw [decide_eq_true_iff, hlim]
        unfold Stop
        tauto

theorem dictHasNext_false_iff (hin : Input buf n) (hstr : be.str = some p) :
    bencodeDictHasNext buf be = .ok false ↔ StopsAt buf (be.start + be.len) p := by
  constructor
  · intro h
    obtain ⟨c, hc, -⟩ : ∃ c, peek buf p = .ok c ∧ _ := by
      simp only [bencodeDictHasNext, hstr] at h
      exact bind_eq_ok.mp h
    rw [peek_ok_iff] at hc
    obtain ⟨more, hmore, hiff⟩ := dictHasNext_eq hin hstr hc
    rw [hmore] at h
    cases h
    exact ⟨c, hc, not_not.mp (fun hgo => Bool.false_ne_true (hiff.mpr hgo))⟩
  · intro h
    obtain ⟨c, hc, hstop⟩ := h
    obtain ⟨more, hmore, hiff⟩ := dictHasNext_eq hin hstr hc
    rw [hmore, Bool.eq_false_iff.mpr fun htrue => hiff.mp htrue hstop]

theorem dictHasNext_true_iff (hin : Input buf n) (hstr : be.str = some p) :
    bencodeDictHasNext buf be = .ok true ↔
      ∃ c, buf[p]? = some c ∧ ¬ Stop buf (be.start + be.len) p c := by
  constructor
  · intro h
    obtain ⟨c, hc, -⟩ : ∃ c, peek buf p = .ok c ∧ _ := by
      simp only [bencodeDictHasNext, hstr] at h
      exact bind_eq_ok.mp h
    rw [peek_ok_iff] at hc
    obtain ⟨more, hmore, hiff⟩ := dictHasNext_eq hin hstr hc
    rw [hmore] at h
    cases h
    exact ⟨c, hc, hiff.mp rfl⟩
  · intro h
    obtain ⟨c, hc, hgo⟩ := h
    obtain ⟨more, hmore, hiff⟩ := dictHasNext_eq hin hstr hc
    rw [hmore, hiff.mpr hgo]

end Input

/-! ## What a run reads is in the language -/

section Back

variable {n : Nat}

/-- An item that was iterated over was inside of the input. -/
theorem iterate_lt (hin : Input buf n) {fuel : Nat} {be : BencodeT} {q r : Nat}
    (h : iterateToNextStringPos buf fuel be q = .ok (some r)) :
    q < n ∧ ∃ c, buf[q]? = some c := by
  cases fuel with
  | zero => cases h
  | succ fuel =>
      rw [iterateToNextStringPos] at h
      obtain ⟨len, -, hkinds⟩ := bind_eq_ok.mp h
      obtain ⟨isDict, hdict, hrest⟩ := bind_eq_ok.mp hkinds
      obtain ⟨c, hc, hkind⟩ := bind_eq_ok.mp (show (peek buf q >>= _) = Except.ok isDict from hdict)
      have hget := peek_ok_iff.mp hc
      by_cases h0 : c = 0
      · subst h0
        have hlist : isKind buf 108 (bencodeInit q len) = .ok false := isKind_spec rfl hc
        have hint : isKind buf 105 (bencodeInit q len) = .ok false := isKind_spec rfl hc
        have hstr : bencodeIsString buf (bencodeInit q len) = .ok false := isString_other rfl hc rfl
        cases hkind
        rw [if_neg (by decide)] at hrest
        simp only [bencodeIsList, hlist, hstr, bencodeIsInt, hint, ok_bind, Bool.false_eq_true,
          if_false, pure_eq_ok, Except.ok.injEq, reduceCtorEq] at hrest
      · exact ⟨hin.lt hget h0, c, hget⟩

def IterateReads (buf : List UInt8) (n fuel : Nat) : Prop :=
  ∀ be p q r, CursorAt n be p → p ≤ q → iterateToNextStringPos buf fuel be q = .ok (some r) →
    Reads buf .item (be.len - ((q : Int) - p)) q r

/-- What `bencode_dict_get_next` tells of an entry. -/
def EntryRead (buf : List UInt8) (be : BencodeT) (p : Nat) (be' : BencodeT) (item : Item) : Prop :=
  ∃ q str len r, KeyAt buf (be.start + be.len) p q str len ∧
    Reads buf .item (be.len - (((str + len : Nat) : Int) - p)) (str + len) r ∧
    be' = { be with str := some r } ∧
    item = ⟨str, len, bencodeInit (str + len) (be.len - (((str + len : Nat) : Int) - p))⟩

def NextReads (buf : List UInt8) (n fuel : Nat) : Prop :=
  ∀ be p be' item, CursorAt n be p → bencodeDictHasNext buf be = .ok true →
    bencodeDictGetNext buf fuel be = .ok (be', some item) → EntryRead buf be p be' item

def DictReads (buf : List UInt8) (n fuel : Nat) : Prop :=
  ∀ be p be', CursorAt n be p → dictToEnd buf fuel be = .ok (some be') →
    ∃ s, be' = { be with str := some s } ∧ Reads buf (.entries be.start) be.len p s

theorem KeyAt.lt {lim : Int} {p q str len : Nat} (h : KeyAt buf lim p q str len) : p < str := by
  obtain ⟨ds, hds, rfl, -⟩ := h.key
  rcases h.atKey with rfl | ⟨rfl, -⟩
  · omega
  · omega

theorem Reads.le {part : Part} {len : Int} {p r : Nat} (h : Reads buf part len p r) : p ≤ r := by
  induction h with
  | int hi hint =>
      obtain ⟨q, ds, hq, -, rfl⟩ := hint
      omega
  | str hstr hfits =>
      obtain ⟨ds, -, rfl, -⟩ := hstr
      omega
  | emptyList hl he => omega
  | list hl he hitem hitems ih ih' => omega
  | dict hd hentries ih =>
      unfold behind
      split <;> omega
  | lastItem he => exact le_rfl
  | nextItem he hitem hitems ih ih' => exact ih.trans ih'
  | lastEntry hstop => exact le_rfl
  | nextEntry hkey hitem hentries ih ih' =>
      have := hkey.lt
      omega

theorem nextReads_succ (hin : Input buf n) {fuel : Nat} (hiter : IterateReads buf n fuel) :
    NextReads buf n (fuel + 1) := by
  intro be p be' item h hhas hget
  obtain ⟨c, hc, hmore⟩ := (dictHasNext_true_iff hin h.str).mp hhas
  have he : ¬ c = 101 := fun heq => hmore (Or.inl heq)
  have hempty : ¬ (c = 100 ∧ buf[p + 1]? = some 101) := fun hd =>
    hmore (Or.inr (Or.inr (Or.inr (Or.inl hd))))
  rw [bencodeDictGetNext, h.str, deref, ok_bind, peek_of_getElem? hc, ok_bind, if_neg he] at hget
  obtain ⟨q, hq, hat⟩ : ∃ q, (if c = 100 then p + 1 else p) = q ∧ AtKey buf p q := by
    by_cases hd : c = 100
    · subst hd
      exact ⟨p + 1, if_pos rfl, Or.inr ⟨rfl, hc⟩⟩
    · exact ⟨p, if_neg hd, Or.inl rfl⟩
  simp only [hq] at hget
  obtain ⟨c', hc', hrest⟩ := bind_eq_ok.mp hget
  split at hrest
  · cases hrest
  · obtain ⟨read, hread, hitem⟩ := bind_eq_ok.mp hrest
    cases read with
    | none => cases hitem
    | some read =>
        obtain ⟨slen, str⟩ := read
        obtain ⟨len, rfl, hkey⟩ := stringAt_of_readStringLen hread
        dsimp only at hitem
        rw [Int.toNat_natCast] at hitem
        obtain ⟨carried, hcarry, hwalk⟩ := bind_eq_ok.mp hitem
        obtain ⟨next, hnext, hend⟩ := bind_eq_ok.mp hwalk
        cases next with
        | none => cases hend
        | some r =>
            have hkeyAt : KeyAt buf (be.start + be.len) p q str len := ⟨⟨c, hc, hmore⟩, hat, hkey⟩
            have hpos := hkeyAt.lt
            obtain ⟨hlt, -⟩ := iterate_lt hin hnext
            obtain ⟨hcarry', -⟩ := h.carryLength_eq hin (q := str + len) (by omega) hlt
            rw [hcarry'] at hcarry
            cases hcarry
            cases hend
            exact ⟨q, str, len, r, hkeyAt, hiter be p (str + len) r h (by omega) hnext, rfl, rfl⟩

theorem dictReads_succ (hin : Input buf n) {fuel : Nat} (hnext : NextReads buf n fuel)
    (hdict : DictReads buf n fuel) : DictReads buf n (fuel + 1) := by
  intro be p be' h hrun
  rw [dictToEnd] at hrun
  obtain ⟨more, hmore, hrest⟩ := bind_eq_ok.mp hrun
  cases more with
  | false =>
      cases hrest
      refine ⟨p, ?_, .lastEntry ((dictHasNext_false_iff hin h.str).mp hmore)⟩
      rw [← h.str]
  | true =>
      rw [if_pos rfl] at hrest
      obtain ⟨⟨be1, item⟩, hget, hloop⟩ := bind_eq_ok.mp hrest
      cases item with
      | none => cases hloop
      | some item =>
          obtain ⟨q, str, len, r, hkey, hitem, rfl, -⟩ := hnext be p be1 item h hmore hget
          have hpos := hkey.lt
          have hle := hitem.le
          obtain ⟨s, rfl, hentries⟩ := hdict _ r be' (h.move (by omega)) hloop
          exact ⟨s, rfl, .nextEntry hkey hitem hentries⟩

/-- The loop over a list starts, ends or goes on. -/
theorem listHasNext_cases {be be1 : BencodeT} {p : Nat} {more : Bool} (hstr : be.str = some p)
    (h : bencodeListHasNext buf be = .ok (more, be1)) :
    ∃ c, buf[p]? = some c ∧
      ((c = 108 ∧ p = be.start ∧ buf[p + 1]? = some 101 ∧ more = false ∧
          be1 = { be with str := some (p + 1) }) ∨
        (c = 108 ∧ p = be.start ∧ (∃ d, buf[p + 1]? = some d ∧ d ≠ 101) ∧ more = true ∧ be1 = be) ∨
        (¬ (c = 108 ∧ p = be.start) ∧ more = (c != 101) ∧ be1 = be)) := by
  rw [bencodeListHasNext, hstr, deref, ok_bind] at h
  obtain ⟨c, hc, hrest⟩ := bind_eq_ok.mp h
  refine ⟨c, peek_ok_iff.mp hc, ?_⟩
  split at hrest
  · rename_i hstart
    obtain ⟨d, hd, hend⟩ := bind_eq_ok.mp hrest
    split at hend
    · rename_i he
      subst he
      cases hend
      exact Or.inl ⟨hstart.1, hstart.2, peek_ok_iff.mp hd, rfl, rfl⟩
    · rename_i he
      cases hend
      exact Or.inr (Or.inl ⟨hstart.1, hstart.2, ⟨d, peek_ok_iff.mp hd, he⟩, rfl, rfl⟩)
  · rename_i hinner
    cases hrest
    exact Or.inr (Or.inr ⟨hinner, rfl, rfl⟩)

/-- `bencode_list_get_next` at its first item, and at a later one. -/
theorem listGetNext_eq {be : BencodeT} {p q fuel : Nat} {c d : UInt8} (hstr : be.str = some p)
    (hc : buf[p]? = some c) (hne : c ≠ 101)
    (hq : (c = 108 ∧ p = be.start ∧ q = p + 1) ∨ (¬ (c = 108 ∧ p = be.start) ∧ q = p))
    (hd : buf[q]? = some d) (hitem : d ≠ 101) :
    bencodeListGetNext buf (fuel + 1) be =
      (iterateToNextStringPos buf fuel be q >>= fun next => pure (next.elim
        (-1, { be with str := none }) fun next => (1, { be with str := some next }))) := by
  rcases hq with ⟨rfl, hstart, rfl⟩ | ⟨hinner, rfl⟩
  · simp only [bencodeListGetNext, hstr, peek_of_getElem? hc, ok_bind, if_neg hne, true_and,
      if_pos hstart.symm, peek_of_getElem? hd, if_neg hitem]
    congr 1
    funext next
    cases next <;> rfl
  · have hpos : ¬ (c = 108 ∧ be.start = q) := fun h => hinner ⟨h.1, h.2.symm⟩
    simp only [bencodeListGetNext, hstr, peek_of_getElem? hc, ok_bind, if_neg hne, if_neg hpos]
    congr 1
    funext next
    cases next <;> rfl

def ListReads (buf : List UInt8) (n fuel : Nat) : Prop :=
  ∀ be p be', CursorAt n be p → listToEnd buf fuel be = .ok (some be') →
    ∃ s, be'.str = some s ∧ (be.start < p → Reads buf .items be.len p s) ∧
      (be.start = p → buf[p]? = some 108 → Reads buf .item be.len p (s + 1))

/-- One item of a list, and the loop over the rest. -/
theorem listToEnd_next {be be' : BencodeT} {p q fuel : Nat} {c d : UInt8} (hstr : be.str = some p)
    (hc : buf[p]? = some c) (hne : c ≠ 101)
    (hq : (c = 108 ∧ p = be.start ∧ q = p + 1) ∨ (¬ (c = 108 ∧ p = be.start) ∧ q = p))
    (hd : buf[q]? = some d) (hitem : d ≠ 101)
    (hhas : bencodeListHasNext buf be = .ok (true, be))
    (h : listToEnd buf (fuel + 1) be = .ok (some be')) :
    ∃ m < fuel, ∃ r, iterateToNextStringPos buf m be q = .ok (some r) ∧
      listToEnd buf fuel { be with str := some r } = .ok (some be') := by
  rw [listToEnd, hhas, ok_bind] at h
  dsimp only at h
  obtain ⟨m, rfl⟩ : ∃ m, fuel = m + 1 := by
    cases fuel with
    | zero => cases h
    | succ m => exact ⟨m, rfl⟩
  rw [listGetNext_eq hstr hc hne hq hd hitem] at h
  obtain ⟨⟨ret, be1⟩, hget, hloop⟩ := bind_eq_ok.mp h
  obtain ⟨next, hnext, hret⟩ := bind_eq_ok.mp hget
  cases next with
  | none =>
      cases hret
      cases hloop
  | some r =>
      cases hret
      exact ⟨m, Nat.lt_succ_self m, r, hnext, hloop⟩

theorem listReads_succ {fuel : Nat} (hiter : ∀ m < fuel, IterateReads buf n m)
    (hlist : ListReads buf n fuel) : ListReads buf n (fuel + 1) := by
  intro be p be' h hrun
  have hrun' := hrun
  rw [listToEnd] at hrun'
  obtain ⟨⟨more, be1⟩, hhas, hrest⟩ := bind_eq_ok.mp hrun'
  obtain ⟨c, hc, hcases⟩ := listHasNext_cases h.str hhas
  rcases hcases with ⟨rfl, hstart, he, rfl, rfl⟩ | ⟨rfl, hstart, ⟨d, hd, hne⟩, rfl, rfl⟩ |
    ⟨hinner, rfl, rfl⟩
  · cases hrest
    exact ⟨p + 1, rfl, fun hlt => absurd hstart (by omega), fun _ _ => .emptyList hc he⟩
  · obtain ⟨m, hm, r, hnext, hloop⟩ := listToEnd_next h.str hc (by decide)
      (Or.inl ⟨rfl, hstart, rfl⟩) hd hne hhas hrun
    have hitem := hiter m hm be1 p (p + 1) r h (Nat.le_succ p) hnext
    have hle := hitem.le
    obtain ⟨s, hs, hitems, -⟩ := hlist _ r be' (h.move (by omega)) hloop
    have hlen : be1.len - (((p + 1 : Nat) : Int) - p) = be1.len - 1 := by
      push_cast
      omega
    have he : buf[p + 1]? ≠ some 101 := by
      rw [hd]
      exact fun heq => hne (Option.some.inj heq)
    rw [hlen] at hitem
    exact ⟨s, hs, fun hlt => absurd hstart (by omega),
      fun _ _ => .list hc he hitem (hitems (show be1.start < r by omega))⟩
  · by_cases he : c = 101
    · subst he
      cases hrest
      refine ⟨p, h.str, fun _ => .lastItem hc, fun _ hl => ?_⟩
      rw [hc] at hl
      cases hl
    · have hmore : (c != 101) = true := bne_iff_ne.mpr he
      rw [hmore] at hhas
      obtain ⟨m, hm, r, hnext, hloop⟩ :=
        listToEnd_next h.str hc he (Or.inr ⟨hinner, rfl⟩) hc he hhas
        hrun
      have hitem := hiter m hm be1 p p r h le_rfl hnext
      have hle := hitem.le
      rw [sub_self, sub_zero] at hitem
      obtain ⟨s, hs, hitems, -⟩ := hlist _ r be' (h.move hle) hloop
      have hne : buf[p]? ≠ some 101 := by
        rw [hc]
        exact fun heq => he (Option.some.inj heq)
      refine ⟨s, hs, fun hlt => .nextItem hne hitem (hitems (show be1.start < r by omega)), ?_⟩
      intro hstart hl
      rw [hc] at hl
      exact absurd ⟨Option.some.inj hl, hstart.symm⟩ hinner

theorem Reads.stopsAt {start : Nat} {part : Part} {len : Int} {p s : Nat}
    (h : Reads buf part len p s) (hpart : part = .entries start) :
    StopsAt buf (start + len) s := by
  induction h with
  | lastEntry hstop =>
      cases hpart
      exact hstop
  | nextEntry hkey hitem hentries ih ih' => exact ih' hpart
  | int | str | emptyList | list | dict | lastItem | nextItem => cases hpart

/-- The position behind a dictionary, from its stop. -/
theorem behind_spec (hin : Input buf n) {lim : Int} {s : Nat} (h : StopsAt buf lim s) :
    (do
      if (← peek buf s) = 100 then
        if (← peek buf (s + 1)) = 101 then pure (some (s + 2)) else pure (some (s + 1))
      else pure (some (s + 1))) = (Except.ok (some (behind buf s)) : Except Halt (Option Nat)) := by
  obtain ⟨c, hc, -⟩ := h
  rw [peek_of_getElem? hc, ok_bind, behind]
  by_cases hd : c = 100
  · subst hd
    obtain ⟨d, hnext⟩ := hin.exists_next (hin.lt hc (by decide))
    rw [if_pos rfl, peek_of_getElem? hnext, ok_bind]
    by_cases he : d = 101
    · subst he
      rw [if_pos rfl, if_pos ⟨hc, hnext⟩]
      rfl
    · have hne : ¬ (buf[s]? = some 100 ∧ buf[s + 1]? = some 101) := by
        intro hboth
        rw [hnext] at hboth
        exact he (Option.some.inj hboth.2)
      rw [if_neg he, if_neg hne]
      rfl
  · have hne : ¬ (buf[s]? = some 100 ∧ buf[s + 1]? = some 101) := by
      intro hboth
      rw [hc] at hboth
      exact hd (Option.some.inj hboth.1)
    rw [if_neg hd, if_neg hne]
    rfl

theorem iterateReads_succ (hin : Input buf n) {fuel : Nat} (hdict : DictReads buf n fuel)
    (hlist : ListReads buf n fuel) : IterateReads buf n (fuel + 1) := by
  intro be p q r h hpq hrun
  obtain ⟨hlt, c, hc⟩ := iterate_lt hin hrun
  obtain ⟨hcarry, hiter⟩ := h.carryLength_eq hin hpq hlt
  have hpeek := peek_of_getElem? hc
  have hpos : 0 < be.len - ((q : Int) - p) := by
    have hreach := hiter.reaches
    dsimp only [bencodeInit] at hreach
    omega
  rw [iterateToNextStringPos, hcarry, ok_bind] at hrun
  have hisDict : bencodeIsDict buf (bencodeInit q (be.len - ((q : Int) - p))) = .ok (c == 100) :=
    isKind_spec rfl hpeek
  have hisList : bencodeIsList buf (bencodeInit q (be.len - ((q : Int) - p))) = .ok (c == 108) :=
    isKind_spec rfl hpeek
  have hisInt : bencodeIsInt buf (bencodeInit q (be.len - ((q : Int) - p))) = .ok (c == 105) :=
    isKind_spec rfl hpeek
  simp only [hisDict, hisList, hisInt, ok_bind, beq_iff_eq] at hrun
  split at hrun
  · -- a dictionary
    rename_i hd
    subst hd
    obtain ⟨iter, hloop, hend⟩ := bind_eq_ok.mp hrun
    cases iter with
    | none => cases hend
    | some iter =>
        obtain ⟨s, rfl, hentries⟩ := hdict _ q iter hiter hloop
        have hstop := hentries.stopsAt rfl
        have hbehind := behind_spec hin hstop
        dsimp only [deref] at hend
        rw [ok_bind, hbehind] at hend
        cases hend
        exact .dict hc hentries
  · split at hrun
    · -- a list
      rename_i hl
      subst hl
      obtain ⟨iter, hloop, hend⟩ := bind_eq_ok.mp hrun
      cases iter with
      | none => cases hend
      | some iter =>
          obtain ⟨s, hs, -, hitem⟩ := hlist _ q iter hiter hloop
          dsimp only at hend
          rw [hs, deref, ok_bind] at hend
          cases hend
          exact hitem rfl hc
    · obtain ⟨isStr, hisStr, hrest⟩ := bind_eq_ok.mp hrun
      split at hrest
      · -- a string
        obtain ⟨value, hvalue, hend⟩ := bind_eq_ok.mp hrest
        cases value with
        | none => cases hend
        | some value =>
            obtain ⟨str, slen⟩ := value
            obtain ⟨m, rfl, hat, hfits⟩ := stringAt_of_stringValue rfl hvalue
            dsimp only at hend
            rw [Int.toNat_natCast] at hend
            cases hend
            exact .str hat hfits
      · split at hrest
        · -- an integer
          rename_i hi
          subst hi
          obtain ⟨⟨val, fin⟩, hread, hend⟩ := bind_eq_ok.mp hrest
          cases fin with
          | none => cases hend
          | some e =>
              obtain ⟨c', hc', hlast⟩ := bind_eq_ok.mp hend
              split at hlast
              · rename_i he
                subst he
                cases hlast
                exact .int hc (integerAt_of_readStringInt hread hc')
              · cases hlast
        · cases hrest

/-- Each function from those that it calls with less fuel. -/
theorem reads_of_run (hin : Input buf n) (fuel : Nat) :
    IterateReads buf n fuel ∧ NextReads buf n fuel ∧ DictReads buf n fuel ∧
      ListReads buf n fuel := by
  induction fuel using Nat.strong_induction_on with
  | _ fuel ih =>
      cases fuel with
      | zero =>
          refine ⟨?_, ?_, ?_, ?_⟩
          · intro be p q r h hpq hrun
            cases hrun
          · intro be p be' item h hhas hget
            cases hget
          · intro be p be' h hrun
            cases hrun
          · intro be p be' h hrun
            cases hrun
      | succ fuel =>
          obtain ⟨hiter, hnext, hdict, hlist⟩ := ih fuel (Nat.lt_succ_self fuel)
          refine ⟨iterateReads_succ hin hdict hlist, nextReads_succ hin hiter,
            dictReads_succ hin hnext hdict, listReads_succ ?_ hlist⟩
          intro m hm
          exact (ih m (by omega)).1

end Back

/-! ## What is in the language is read -/

section Forward

variable {n : Nat}

theorem StringAt.head {q str len : Nat} (h : StringAt buf q str len) :
    ∃ d, buf[q]? = some d ∧ isDigit d = true := by
  obtain ⟨ds, hds, -, -⟩ := h
  exact hds.head

/-- The first byte of an item. -/
theorem Reads.head {part : Part} {len : Int} {q r : Nat} (h : Reads buf part len q r)
    (hpart : part = .item) : ∃ d, buf[q]? = some d ∧ d ≠ 0 ∧ d ≠ 101 := by
  cases h with
  | int hi hint => exact ⟨105, hi, by decide, by decide⟩
  | str hstr hfits =>
      obtain ⟨d, hd, hdigit⟩ := hstr.head
      exact ⟨d, hd, isDigit_ne hdigit rfl, isDigit_ne hdigit rfl⟩
  | emptyList hl he => exact ⟨108, hl, by decide, by decide⟩
  | list hl he hitem hitems => exact ⟨108, hl, by decide, by decide⟩
  | dict hd hentries => exact ⟨100, hd, by decide, by decide⟩
  | lastItem | nextItem | lastEntry | nextEntry => cases hpart

theorem dictGetNext_of_keyAt (hin : Input buf n) {fuel p q str len r : Nat} {be : BencodeT}
    (h : CursorAt n be p) (hkey : KeyAt buf (be.start + be.len) p q str len)
    (hnext : iterateToNextStringPos buf fuel be (str + len) = .ok (some r)) :
    bencodeDictGetNext buf (fuel + 1) be = .ok ({ be with str := some r },
      some ⟨str, len, bencodeInit (str + len) (be.len - (((str + len : Nat) : Int) - p))⟩) := by
  obtain ⟨c, hc, hmore⟩ := hkey.more
  have he : ¬ c = 101 := fun heq => hmore (Or.inl heq)
  have hpos := hkey.lt
  obtain ⟨hlt, -⟩ := iterate_lt hin hnext
  obtain ⟨hcarry, -⟩ := h.carryLength_eq hin (q := str + len) (by omega) hlt
  obtain ⟨d, hd, hdigit⟩ := hkey.key.head
  have hne : ¬ d = 101 := isDigit_ne hdigit rfl
  have hread := readStringLen_of_stringAt hkey.key
  have hq : (if c = 100 then p + 1 else p) = q := by
    rcases hkey.atKey with rfl | ⟨rfl, hd'⟩
    · rw [hd] at hc
      cases hc
      exact if_neg (isDigit_ne hdigit rfl)
    · rw [hc] at hd'
      exact if_pos (Option.some.inj hd')
  simp only [bencodeDictGetNext, h.str, deref, ok_bind, peek_of_getElem? hc, if_neg he, hq,
    peek_of_getElem? hd, if_neg hne, hread, Int.toNat_natCast, hcarry, hnext, pure_eq_ok]

theorem listHasNext_start {be : BencodeT} {p : Nat} {d : UInt8} (hstr : be.str = some p)
    (hl : buf[p]? = some 108) (hstart : p = be.start) (hd : buf[p + 1]? = some d) (hne : d ≠ 101) :
    bencodeListHasNext buf be = .ok (true, be) := by
  simp only [bencodeListHasNext, hstr, deref, ok_bind, peek_of_getElem? hl, true_and, if_pos hstart,
    peek_of_getElem? hd, if_neg hne, pure_eq_ok]

theorem listHasNext_inner {be : BencodeT} {p : Nat} {c : UInt8} (hstr : be.str = some p)
    (hc : buf[p]? = some c) (hinner : p ≠ be.start) :
    bencodeListHasNext buf be = .ok (c != 101, be) := by
  have hne : ¬ (c = 108 ∧ p = be.start) := fun h => hinner h.2
  simp only [bencodeListHasNext, hstr, deref, ok_bind, peek_of_getElem? hc, if_neg hne, pure_eq_ok]

theorem listToEnd_of_next {be : BencodeT} {p q r fuel : Nat} {c d : UInt8} (hstr : be.str = some p)
    (hc : buf[p]? = some c) (hne : c ≠ 101)
    (hq : (c = 108 ∧ p = be.start ∧ q = p + 1) ∨ (¬ (c = 108 ∧ p = be.start) ∧ q = p))
    (hd : buf[q]? = some d) (hitem : d ≠ 101)
    (hhas : bencodeListHasNext buf be = .ok (true, be))
    (hnext : iterateToNextStringPos buf fuel be q = .ok (some r)) :
    listToEnd buf (fuel + 2) be = listToEnd buf (fuel + 1) { be with str := some r } := by
  rw [listToEnd, hhas, ok_bind]
  dsimp only
  rw [listGetNext_eq hstr hc hne hq hd hitem, hnext, ok_bind]
  rfl

theorem iterate_dict_of_stopsAt (hin : Input buf n) {fuel q s : Nat} {be : BencodeT} {len lim : Int}
    (hcarry : carryLength be q = .ok len) (hd : buf[q]? = some 100) {iter : BencodeT}
    (hstr : iter.str = some s) (hloop : dictToEnd buf fuel (bencodeInit q len) = .ok (some iter))
    (hstop : StopsAt buf lim s) :
    iterateToNextStringPos buf (fuel + 1) be q = .ok (some (behind buf s)) := by
  have hdict : isKind buf 100 (bencodeInit q len) = .ok true :=
    isKind_spec rfl (peek_of_getElem? hd)
  rw [← behind_spec hin hstop, iterateToNextStringPos, hcarry, ok_bind]
  dsimp only
  rw [bencodeIsDict, hdict, ok_bind, if_pos rfl, hloop, ok_bind]
  dsimp only
  rw [hstr, deref, ok_bind]

/-- With enough fuel. -/
def ReadBy (buf : List UInt8) (n : Nat) : Part → Int → Nat → Nat → Prop
  | .item, len, q, r => ∀ be p, CursorAt n be p → p ≤ q → be.len - ((q : Int) - p) = len →
      ∃ N, ∀ fuel ≥ N, iterateToNextStringPos buf fuel be q = .ok (some r)
  | .items, len, p, r => ∀ be, CursorAt n be p → be.start < p → be.len = len →
      ∃ N, ∀ fuel ≥ N, listToEnd buf fuel be = .ok (some { be with str := some r })
  | .entries start, len, p, r => ∀ be, CursorAt n be p → be.start = start → be.len = len →
      ∃ N, ∀ fuel ≥ N, dictToEnd buf fuel be = .ok (some { be with str := some r })

section Item

variable {len : Int} {q : Nat}

theorem readBy_int (hin : Input buf n) {e : Nat} (hi : buf[q]? = some 105)
    (hint : IntegerAt buf (q + 1) e) : ReadBy buf n .item len q (e + 1) := by
  intro be p h hpq hlen
  obtain ⟨hcarry, -⟩ := h.carryLength_eq hin hpq (hin.lt hi (by decide))
  obtain ⟨val, hread, he⟩ := readStringInt_of_integerAt hint
  have hp := peek_of_getElem? hi
  have hdict : isKind buf 100 (bencodeInit q (be.len - ((q : Int) - p))) = .ok false :=
    isKind_spec rfl hp
  have hlist : isKind buf 108 (bencodeInit q (be.len - ((q : Int) - p))) = .ok false :=
    isKind_spec rfl hp
  have hkind : isKind buf 105 (bencodeInit q (be.len - ((q : Int) - p))) = .ok true :=
    isKind_spec rfl hp
  have hstr : bencodeIsString buf (bencodeInit q (be.len - ((q : Int) - p))) = .ok false :=
    isString_other rfl hp rfl
  apply enough_of_add 1
  intro fuel
  simp only [iterateToNextStringPos, hcarry, ok_bind, bencodeIsDict, hdict, bencodeIsList, hlist,
    hstr, bencodeIsInt, hkind, hread, he, Bool.false_eq_true, if_false, if_true, pure_eq_ok]

theorem readBy_str (hin : Input buf n) {str m : Nat} (hstr : StringAt buf q str m)
    (hfits : (str + m : Int) ≤ q + len) : ReadBy buf n .item len q (str + m) := by
  intro be p h hpq hlen
  obtain ⟨d, hd, hdigit⟩ := hstr.head
  obtain ⟨hcarry, hiter⟩ := h.carryLength_eq hin hpq (hin.lt hd (isDigit_ne hdigit rfl))
  rw [hlen] at hcarry hiter
  have hp := peek_of_getElem? hd
  have hpos : 0 < len := by
    have hle : q < str := by
      obtain ⟨ds, -, rfl, -⟩ := hstr
      omega
    omega
  have hvalue : bencodeStringValue buf (bencodeInit q len) = .ok (some (str, (m : Int))) :=
    stringValue_of_stringAt rfl hpos hstr hfits
  obtain ⟨ds, hds, -, -⟩ := hstr
  have hisStr : bencodeIsString buf (bencodeInit q len) = .ok true := isString_of_digitsAt rfl hds
  have hdict : isKind buf 100 (bencodeInit q len) = .ok false := by
    rw [isKind_spec rfl hp, beq_eq_false_iff_ne.mpr (isDigit_ne hdigit rfl)]
  have hlist : isKind buf 108 (bencodeInit q len) = .ok false := by
    rw [isKind_spec rfl hp, beq_eq_false_iff_ne.mpr (isDigit_ne hdigit rfl)]
  apply enough_of_add 1
  intro fuel
  simp only [iterateToNextStringPos, hcarry, ok_bind, bencodeIsDict, hdict, bencodeIsList, hlist,
    hisStr, hvalue, Bool.false_eq_true, if_false, if_true, pure_eq_ok, Int.toNat_natCast]

theorem readBy_emptyList (hin : Input buf n) (hl : buf[q]? = some 108)
    (he : buf[q + 1]? = some 101) : ReadBy buf n .item len q (q + 2) := by
  intro be p h hpq hlen
  obtain ⟨hcarry, -⟩ := h.carryLength_eq hin hpq (hin.lt hl (by decide))
  apply enough_of_add 2
  intro fuel
  have hlast : bencodeListHasNext buf (bencodeInit q (be.len - ((q : Int) - p))) =
      .ok (false, { bencodeInit q (be.len - ((q : Int) - p)) with str := some (q + 1) }) :=
    listHasNext_empty rfl rfl (peek_of_getElem? hl) (peek_of_getElem? he)
  have hloop : listToEnd buf (fuel + 1) (bencodeInit q (be.len - ((q : Int) - p))) =
      .ok (some { bencodeInit q (be.len - ((q : Int) - p)) with str := some (q + 1) }) := by
    simp only [listToEnd, hlast, ok_bind, pure_eq_ok]
  exact iterate_list hcarry (peek_of_getElem? hl) rfl hloop

theorem readBy_list (hin : Input buf n) {r s : Nat} (hl : buf[q]? = some 108)
    (hitem : Reads buf .item (len - 1) (q + 1) r) (ih : ReadBy buf n .item (len - 1) (q + 1) r)
    (ih' : ReadBy buf n .items len r s) :
    ReadBy buf n .item len q (s + 1) := by
  intro be p h hpq hlen
  obtain ⟨hcarry, hiter⟩ := h.carryLength_eq hin hpq (hin.lt hl (by decide))
  rw [hlen] at hcarry hiter
  have hle := hitem.le
  obtain ⟨d, hd, -, hne⟩ := hitem.head rfl
  have hhas : bencodeListHasNext buf (bencodeInit q len) = .ok (true, bencodeInit q len) :=
    listHasNext_start rfl hl rfl hd hne
  have hcarried : (bencodeInit q len).len - (((q + 1 : Nat) : Int) - q) = len - 1 := by
    dsimp only [bencodeInit]
    omega
  have hfirst := ih (bencodeInit q len) q hiter (Nat.le_succ q) hcarried
  have hrest := ih' _ (hiter.move (show q ≤ r by omega)) (show q < r by omega) rfl
  apply enough_add 3 (enough_and hfirst (enough_shift 1 hrest))
  intro fuel h
  obtain ⟨hnext, hloop⟩ := h
  have hrun : listToEnd buf (fuel + 2) (bencodeInit q len) =
      listToEnd buf (fuel + 1) { bencodeInit q len with str := some r } :=
    listToEnd_of_next rfl hl (by decide) (Or.inl ⟨rfl, rfl, rfl⟩) hd hne hhas hnext
  rw [hloop] at hrun
  exact iterate_list hcarry (peek_of_getElem? hl) rfl hrun

theorem readBy_dict (hin : Input buf n) {s : Nat} (hd : buf[q]? = some 100)
    (hentries : Reads buf (.entries q) len q s) (ih : ReadBy buf n (.entries q) len q s) :
    ReadBy buf n .item len q (behind buf s) := by
  intro be p h hpq hlen
  obtain ⟨hcarry, hiter⟩ := h.carryLength_eq hin hpq (hin.lt hd (by decide))
  rw [hlen] at hcarry hiter
  apply enough_add 1 (ih (bencodeInit q len) hiter rfl rfl)
  intro fuel hloop
  exact iterate_dict_of_stopsAt hin hcarry hd rfl hloop (hentries.stopsAt rfl)

end Item

section Loops

variable {len : Int} {p : Nat}

theorem readBy_lastItem (he : buf[p]? = some 101) : ReadBy buf n .items len p p := by
  intro be h hstart hlen
  have hlast := listHasNext_end h.str (peek_of_getElem? he)
  apply enough_of_add 1
  intro fuel
  simp only [listToEnd, hlast, ok_bind, pure_eq_ok, ← h.str]

theorem readBy_nextItem {r s : Nat} (hitem : Reads buf .item len p r)
    (ih : ReadBy buf n .item len p r) (ih' : ReadBy buf n .items len r s) :
    ReadBy buf n .items len p s := by
  intro be h hstart hlen
  have hle := hitem.le
  obtain ⟨d, hd, -, hne⟩ := hitem.head rfl
  have hhas := listHasNext_inner h.str hd (show p ≠ be.start by omega)
  rw [bne_iff_ne.mpr hne] at hhas
  have hinner : ¬ (d = 108 ∧ p = be.start) := fun hboth => absurd hboth.2 (by omega)
  have hfirst := ih be p h le_rfl (by omega)
  have hrest := ih' _ (h.move hle) (show be.start < r by omega) hlen
  apply enough_add 2 (enough_and hfirst (enough_shift 1 hrest))
  intro fuel hrun
  obtain ⟨hnext, hloop⟩ := hrun
  rw [listToEnd_of_next h.str hd hne (Or.inr ⟨hinner, rfl⟩) hd hne hhas hnext]
  exact hloop

theorem readBy_lastEntry (hin : Input buf n) {start : Nat} (hstop : StopsAt buf (start + len) p) :
    ReadBy buf n (.entries start) len p p := by
  intro be h hstart hlen
  have hlast : bencodeDictHasNext buf be = .ok false := by
    rw [dictHasNext_false_iff hin h.str, hstart, hlen]
    exact hstop
  apply enough_of_add 1
  intro fuel
  simp only [dictToEnd, hlast, ok_bind, Bool.false_eq_true, if_false, pure_eq_ok, ← h.str]

theorem readBy_nextEntry (hin : Input buf n) {start q str m r s : Nat}
    (hkey : KeyAt buf (start + len) p q str m)
    (hitem : Reads buf .item (len - (((str + m : Nat) : Int) - p)) (str + m) r)
    (ih : ReadBy buf n .item (len - (((str + m : Nat) : Int) - p)) (str + m) r)
    (ih' : ReadBy buf n (.entries start) len r s) : ReadBy buf n (.entries start) len p s := by
  intro be h hstart hlen
  have hlt := hkey.lt
  have hle := hitem.le
  subst hstart hlen
  have hhas := (dictHasNext_true_iff hin h.str).mpr hkey.more
  have hfirst := ih be p h (by omega) rfl
  have hrest := ih' _ (h.move (show p ≤ r by omega)) rfl rfl
  apply enough_add 2 (enough_and hfirst (enough_shift 1 hrest))
  intro fuel hrun
  obtain ⟨hnext, hloop⟩ := hrun
  have hget := dictGetNext_of_keyAt hin h hkey hnext
  rw [dictToEnd, hhas, ok_bind, if_pos rfl, hget, ok_bind]
  exact hloop

end Loops

theorem readBy_of_reads (hin : Input buf n) {part : Part} {len : Int} {q r : Nat}
    (h : Reads buf part len q r) : ReadBy buf n part len q r := by
  induction h with
  | int hi hint => exact readBy_int hin hi hint
  | str hstr hfits => exact readBy_str hin hstr hfits
  | emptyList hl he => exact readBy_emptyList hin hl he
  | list hl he hitem hitems ih ih' => exact readBy_list hin hl hitem ih ih'
  | dict hd hentries ih => exact readBy_dict hin hd hentries ih
  | lastItem he => exact readBy_lastItem he
  | nextItem he hitem hitems ih ih' => exact readBy_nextItem hitem ih ih'
  | lastEntry hstop => exact readBy_lastEntry hin hstop
  | nextEntry hkey hitem hentries ih ih' => exact readBy_nextEntry hin hkey hitem ih ih'

/-! ## Items by their first byte -/

theorem Reads.string_of_digit {part : Part} {len : Int} {q r : Nat} {c : UInt8}
    (h : Reads buf part len q r) (hpart : part = .item) (hc : buf[q]? = some c)
    (hdigit : isDigit c = true) :
    ∃ str m, StringAt buf q str m ∧ (str + m : Int) ≤ q + len ∧ r = str + m := by
  have hne : ∀ {d : UInt8}, buf[q]? = some d → isDigit d = false → False := by
    intro d hd hother
    rw [hc] at hd
    cases hd
    rw [hdigit] at hother
    cases hother
  cases h with
  | int hi hint => exact absurd (hne hi rfl) id
  | str hstr hfits => exact ⟨_, _, hstr, hfits, rfl⟩
  | emptyList hl he => exact absurd (hne hl rfl) id
  | list hl he hitem hitems => exact absurd (hne hl rfl) id
  | dict hd hentries => exact absurd (hne hd rfl) id
  | lastItem | nextItem | lastEntry | nextEntry => cases hpart

theorem Reads.integer_of_i {part : Part} {len : Int} {q r : Nat} (h : Reads buf part len q r)
    (hpart : part = .item) (hi : buf[q]? = some 105) :
    ∃ e, IntegerAt buf (q + 1) e ∧ r = e + 1 := by
  cases h with
  | int hi' hint => exact ⟨_, hint, rfl⟩
  | str hstr hfits =>
      obtain ⟨d, hd, hdigit⟩ := hstr.head
      rw [hi] at hd
      cases hd
      cases hdigit
  | emptyList hl he =>
      rw [hi] at hl
      cases hl
  | list hl he hitem hitems =>
      rw [hi] at hl
      cases hl
  | dict hd hentries =>
      rw [hi] at hd
      cases hd
  | lastItem | nextItem | lastEntry | nextEntry => cases hpart

/-- The cursor of an entry's value. -/
theorem CursorAt.value (hin : Input buf n) {be : BencodeT} {p q str m r : Nat}
    (h : CursorAt n be p) (hkey : KeyAt buf (be.start + be.len) p q str m)
    (hitem : Reads buf .item (be.len - (((str + m : Nat) : Int) - p)) (str + m) r) :
    CursorAt n (bencodeInit (str + m) (be.len - (((str + m : Nat) : Int) - p))) (str + m) ∧
      str + m < n := by
  have hpos := hkey.lt
  obtain ⟨d, hd, hne, -⟩ := hitem.head rfl
  have hlt := hin.lt hd hne
  exact ⟨(h.carryLength_eq hin (by omega) hlt).2, hlt⟩

end Forward

end BitFS.Bencode
