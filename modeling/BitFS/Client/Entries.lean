import BitFS.Bencode.Walk
import BitFS.Client.Metainfo
import Mathlib.Data.List.TakeWhile

/-! # The branches of the parser on well-formed entries

What `parse_metainfo` does with an entry depends on the key as a C string, which ends
at the first 0 byte of the key.
-/

namespace BitFS.Client

open MachineInt Memory Bencode Decimal

variable {buf : List UInt8} {n : Nat}

/-! ## Keys and strings -/

theorem cstr_append_zeros (s : List UInt8) (m : Nat) :
    cstr (cstr s ++ List.replicate m 0) = cstr s := by
  have hall : ∀ c ∈ s.takeWhile (· ≠ 0), decide (c ≠ 0) = true := fun c hc =>
    List.mem_takeWhile_imp (p := fun c : UInt8 => decide (c ≠ 0)) hc
  unfold cstr
  rw [List.takeWhile_append_of_pos hall]
  cases m with
  | zero => simp
  | succ m => simp [List.replicate_succ]

theorem cstr_append {s : List UInt8} (h : 0 ∉ s) (s' : List UInt8) :
    cstr (s ++ s') = s ++ cstr s' := by
  have hall : ∀ c ∈ s, decide (c ≠ 0) = true := by
    intro c hc
    rw [decide_eq_true_iff]
    rintro rfl
    exact h hc
  exact List.takeWhile_append_of_pos hall

theorem cstr_eq_self {s : List UInt8} (h : 0 ∉ s) : cstr s = s := by
  have happ := cstr_append h []
  rwa [List.append_nil, show cstr [] = [] from rfl, List.append_nil] at happ

/-- What `strncpy` makes of a string in a block of its length: zeros from the first 0 on. -/
def padded (s : List UInt8) : List UInt8 := cstr s ++ List.replicate (s.length - (cstr s).length) 0

theorem padded_eq_self {s : List UInt8} (h : 0 ∉ s) : padded s = s := by
  rw [padded, cstr_eq_self h, Nat.sub_self, List.replicate_zero, List.append_nil]

theorem strncpy_spec {p : Nat} {s : List UInt8} (h : Holds buf p s) :
    strncpy buf p s.length = .ok (padded s) := by
  have hs : slice buf p s.length = s := h
  simp only [strncpy, hs, or_true, if_true, padded]

theorem copyString_spec {value : BencodeT} {p : Nat} (hn : n ≤ 2147483647)
    (h : CursorAt n value p) {s : List UInt8} (hs : Holds buf p (encodeStr s))
    (hend : p + (encodeStr s).length ≤ n) :
    copyString buf value = .ok ((s.length : Int), padded s) := by
  simp only [copyString, stringValue_spec h hn hs hend, ok_bind, Int.toNat_natCast,
    strncpy_spec (Holds.bytes hs), pure_eq_ok]

/-- The library asserts that it is given a string. -/
theorem copyString_other {value : BencodeT} {p : Nat} (hstr : value.str = some p) {c : UInt8}
    (hp : peek buf p = .ok c) (hc : isDigit c = false) :
    copyString buf value = .error .assertion := by
  simp only [copyString, bencodeStringValue, isString_other hstr hp hc, ok_bind,
    Bool.false_eq_true, if_false, error_bind]

theorem nextEntry_spec (hn : n ≤ 2147483647) {be : BencodeT} {p q fuel : Nat}
    (h : CursorAt n be p) (hat : AtKey buf p q) {k : List UInt8} {v : Value}
    (hk : Holds buf q (encodeStr k)) (hv : Holds buf (q + (encodeStr k).length) (encode v))
    (hend : q + (encodeStr k).length + (encode v).length ≤ n)
    (hfuel : 2 * (encode v).length < fuel) :
    ∃ item : Item, CursorAt n item.value (q + (encodeStr k).length) ∧
      item.value.start = q + (encodeStr k).length ∧ slice buf item.key item.klen.toNat = k ∧
      nextEntry buf fuel be =
        .ok (some ({ be with str := some (q + (encodeStr k).length + (encode v).length) }, item,
          cstr k)) := by
  have h2 := two_le_encode v
  have hpq := hat.le
  obtain ⟨fuel, rfl⟩ := Nat.exists_eq_add_of_le' (show 1 ≤ fuel by omega)
  have hnext := iterate_spec hn v (show 2 * (encode v).length ≤ fuel by omega) h (by omega) hv
    (by omega)
  obtain ⟨value, hvalue, hstart, hget⟩ := dictGetNext_spec hn h hat hk (by omega) hnext
  have hbytes := Holds.bytes hk
  have hhas := dictHasNext_true h hat hk (by omega)
  refine ⟨⟨q + (decimal k.length).length + 1, k.length, value⟩, hvalue, hstart, hbytes, ?_⟩
  simp only [nextEntry, hhas, ok_bind, if_true, hget, Int.toNat_natCast, strncpy_spec hbytes,
    padded, cstr_append_zeros, pure_eq_ok]

theorem nextEntry_none {be : BencodeT} {p q fuel : Nat} (hstr : be.str = some p)
    (hat : AtKey buf p q) (hq : peek buf q = .ok 101) : nextEntry buf fuel be = .ok none := by
  simp only [nextEntry, dictHasNext_last hstr hat hq, ok_bind, Bool.false_eq_true, if_false,
    pure_eq_ok]

/-- At an integer or a list the call for the next entry fails its assertion. -/
theorem nextEntry_other {be : BencodeT} {p fuel : Nat} (h : CursorAt n be p) {c : UInt8}
    (hp : peek buf p = .ok c) (hc : c = 105 ∨ c = 108) (hend : p + 2 ≤ n) :
    nextEntry buf (fuel + 1) be = .error .assertion := by
  rw [nextEntry, dictHasNext_other h hp hc hend, ok_bind, if_pos rfl,
    dictGetNext_other h.str hp hc, error_bind]

/-! ## Numbers -/

/-- The values that `bencode_int_value` does not trip over: it reads a number from the second
byte on, and asserts that an `e` follows. -/
def IntReadable : Value → Prop
  | .int _ => True
  | .str s => s.length < 10
  | .list [] => True
  | .list (.str _ :: _) => False
  | .list _ => True
  | .dict es => es = []

/-- The number that it finds: 0 where it returns 0. -/
def intOf : Value → Int
  | .int i => toInt64 i
  | _ => 0

def isInt : Value → Bool
  | .int _ => true
  | _ => false

theorem intValue_none {value : BencodeT} {p : Nat} (hstr : value.str = some p) {c : UInt8}
    (hp : peek buf (p + 1) = .ok c) (hminus : c ≠ 45) (hc : isDigit c = false) :
    bencodeIntValue buf value = .ok (0, false) := by
  simp only [bencodeIntValue, hstr, deref, ok_bind, readStringInt_none hp hminus hc, pure_eq_ok]

/-- Digits up to a colon are no number. -/
theorem intValue_colon {value : BencodeT} {p : Nat} (hstr : value.str = some p) {ds : List Nat}
    (hne : ds ≠ []) (hds : ∀ d ∈ ds, d < 10)
    (h : Holds buf (p + 1) (ds.map (fun d => UInt8.ofNat (48 + d)) ++ [58])) :
    bencodeIntValue buf value = .error .assertion := by
  obtain ⟨val, hread⟩ := readStringInt_digits hne hds not_isDigit_colon h
  have hcolon := peek_head (holds_append_iff.mp h).2
  rw [List.length_map] at hcolon
  have hneq : ¬ (58 : UInt8) = 101 := by decide
  simp only [bencodeIntValue, hstr, deref, ok_bind, hread, hcolon, if_neg hneq]

theorem holds_str_second {p : Nat} {c : UInt8} {s bs : List UInt8}
    (h : Holds buf p (c :: (encodeStr s ++ bs))) :
    Holds buf (p + 1) ((digits s.length).map (fun d => UInt8.ofNat (48 + d)) ++ [58]) := by
  have htail := (holds_append_iff.mp (Memory.Holds.tail h)).1
  have hsplit : Holds buf (p + 1) (decimal s.length ++ [58] ++ s) := by
    rwa [List.append_assoc]
  exact (holds_append_iff.mp hsplit).1

theorem intValue_spec {value : BencodeT} {p : Nat} (hstr : value.str = some p) {v : Value}
    (hv : Holds buf p (encode v)) :
    (IntReadable v ∧ bencodeIntValue buf value = .ok (intOf v, isInt v)) ∨
      (¬ IntReadable v ∧ bencodeIntValue buf value = .error .assertion) := by
  match v with
  | .int i =>
      rw [encode] at hv
      obtain ⟨hread, he⟩ := readStringInt_spec (Memory.Holds.tail hv)
      refine Or.inl ⟨trivial, ?_⟩
      simp only [bencodeIntValue, hstr, deref, ok_bind, hread, he, if_true, pure_eq_ok, intOf,
        isInt]
  | .str s =>
      by_cases hs : s.length < 10
      · refine Or.inl ⟨hs, ?_⟩
        rw [encode, encodeStr, decimal, digits_of_lt hs] at hv
        exact intValue_none hstr (peek_head (Memory.Holds.tail hv)) (by decide) rfl
      · refine Or.inr ⟨hs, ?_⟩
        have hlong := two_le_digits (n := s.length) (by omega)
        obtain ⟨d, ds, hcons⟩ := List.exists_cons_of_ne_nil (digits_ne_nil s.length)
        have hsplit : Holds buf p (decimal s.length ++ [58] ++ s) := by
          rw [List.append_assoc]
          rwa [encode] at hv
        have hdigits := (holds_append_iff.mp hsplit).1
        rw [decimal, hcons, List.map_cons, List.cons_append] at hdigits
        rw [hcons, List.length_cons] at hlong
        have hne : ds ≠ [] := List.ne_nil_of_length_pos (by omega)
        have hds : ∀ d ∈ ds, d < 10 := fun d' hd' =>
          digits_lt (hcons ▸ List.mem_cons_of_mem _ hd')
        exact intValue_colon hstr hne hds (Memory.Holds.tail hdigits)
  | .list [] =>
      rw [encode, encodeList] at hv
      exact Or.inl ⟨trivial, intValue_none hstr (peek_head (Memory.Holds.tail hv)) (by decide) rfl⟩
  | .list (.str s :: vs) =>
      rw [encode, encodeList, encode, List.cons_append, List.append_assoc] at hv
      exact Or.inr ⟨id, intValue_colon hstr (digits_ne_nil _) (fun d hd => digits_lt hd)
        (holds_str_second hv)⟩
  | .list (.int i :: vs) =>
      rw [encode, encodeList, encode] at hv
      exact Or.inl ⟨trivial, intValue_none hstr (peek_head (Memory.Holds.tail hv)) (by decide) rfl⟩
  | .list (.list vs' :: vs) =>
      rw [encode, encodeList, encode] at hv
      exact Or.inl ⟨trivial, intValue_none hstr (peek_head (Memory.Holds.tail hv)) (by decide) rfl⟩
  | .list (.dict es :: vs) =>
      rw [encode, encodeList, encode] at hv
      exact Or.inl ⟨trivial, intValue_none hstr (peek_head (Memory.Holds.tail hv)) (by decide) rfl⟩
  | .dict [] =>
      rw [encode, encodeDict] at hv
      exact Or.inl ⟨rfl, intValue_none hstr (peek_head (Memory.Holds.tail hv)) (by decide) rfl⟩
  | .dict ((k, v) :: es) =>
      rw [encode, encodeDict, List.cons_append, List.append_assoc, List.append_assoc] at hv
      exact Or.inr ⟨List.cons_ne_nil _ _, intValue_colon hstr (digits_ne_nil _)
        (fun d hd => digits_lt hd) (holds_str_second hv)⟩

/-! ## Branches other than info -/

def IsStr : Value → Prop
  | .str _ => True
  | _ => False

/-- The branch for the key gets over the value. -/
def Fits (key : List UInt8) (v : Value) : Prop :=
  (key = announceKey ∨ key = piecesKey ∨ key = nameKey → IsStr v) ∧
    (key = pieceLengthKey ∨ key = lengthKey → IntReadable v)

theorem fits_string_iff {key : List UInt8} {v : Value}
    (hkey : key = announceKey ∨ key = piecesKey ∨ key = nameKey) : Fits key v ↔ IsStr v := by
  have hint : ¬ (key = pieceLengthKey ∨ key = lengthKey) := by
    rcases hkey with rfl | rfl | rfl <;> decide
  exact ⟨fun h => h.1 hkey, fun h => ⟨fun _ => h, fun hi => absurd hi hint⟩⟩

theorem fits_int_iff {key : List UInt8} {v : Value}
    (hkey : key = pieceLengthKey ∨ key = lengthKey) : Fits key v ↔ IntReadable v := by
  have hstr : ¬ (key = announceKey ∨ key = piecesKey ∨ key = nameKey) := by
    rcases hkey with rfl | rfl <;> decide
  exact ⟨fun h => h.2 hkey, fun h => ⟨fun hs => absurd hs hstr, fun _ => h⟩⟩

/-! ## What they store -/

def bytesOf : Value → List UInt8
  | .str s => s
  | _ => []

/-- What the branch for the key stores for a value of its type. -/
def Metainfo.store (m : Metainfo) (key : List UInt8) (v : Value) : Metainfo :=
  if key = announceKey then
    { m with announce := some ⟨(bytesOf v).length, padded (bytesOf v) ++ [0]⟩ }
  else if key = pieceLengthKey then { m with piece_length := some (toInt32 (intOf v)) }
  else if key = piecesKey then
    { m with piece_hashes := some ⟨(bytesOf v).length, padded (bytesOf v)⟩ }
  else if key = nameKey then
    { m with filename := some ⟨(bytesOf v).length, padded (bytesOf v)⟩ }
  else if key = lengthKey then { m with file_length := some (toInt32 (intOf v)) }
  else m

@[simp] theorem Metainfo.store_infohash (m : Metainfo) (key : List UInt8) (v : Value) :
    (m.store key v).infohash = m.infohash := by
  unfold Metainfo.store
  split_ifs <;> rfl

section Parse

variable {sha1 : List UInt8 → List UInt8} {st : ParseState} {value : BencodeT} {p fuel : Nat}

/-- What a branch other than `info` does: it stores the value, if it gets over it, and else
fails an assertion. -/
def Stores (st : ParseState) (key : List UInt8) (v : Value) (result : Except Halt ParseState) :
    Prop :=
  (Fits key v ∧ result = .ok { st with toMetainfo := st.toMetainfo.store key v }) ∨
    (¬ Fits key v ∧ result = .error .assertion)

/-- The branches other than `info`: each stores what one call finds, or does nothing. -/
inductive Branch (buf : List UInt8) (value : BencodeT) (key : List UInt8) (st : ParseState) :
    Except Halt ParseState → Prop where
  | string (hkey : key = announceKey ∨ key = piecesKey ∨ key = nameKey)
      (save : Int × List UInt8 → ParseState)
      (hsave : ∀ v, save (((bytesOf v).length : Nat), padded (bytesOf v)) =
        { st with toMetainfo := st.toMetainfo.store key v }) :
      Branch buf value key st (copyString buf value >>= fun x => pure (save x))
  | int (hkey : key = pieceLengthKey ∨ key = lengthKey) (save : Int × Bool → ParseState)
      (hsave : ∀ v, save (intOf v, isInt v) = { st with toMetainfo := st.toMetainfo.store key v }) :
      Branch buf value key st (bencodeIntValue buf value >>= fun x => pure (save x))
  | skip (hfits : ∀ v, Fits key v) (hstore : ∀ v, st.toMetainfo.store key v = st.toMetainfo) :
      Branch buf value key st (.ok st)

theorem parseMetainfo_branch (sha1 : List UInt8 → List UInt8) (st : ParseState) (value : BencodeT)
    (fuel : Nat) {key : List UInt8} (hkey : key ≠ infoKey) :
    Branch buf value key st (parseMetainfo sha1 buf (fuel + 1) st value key) := by
  rw [parseMetainfo]
  by_cases ha : key = announceKey
  · rw [if_pos ha]
    apply Branch.string (Or.inl ha) (fun x => { st with announce := some ⟨x.1, x.2 ++ [0]⟩ })
    intro v
    simp only [Metainfo.store, if_pos ha]
  rw [if_neg ha, if_neg hkey]
  by_cases hpl : key = pieceLengthKey
  · rw [if_pos hpl]
    apply Branch.int (Or.inl hpl) (fun x => { st with piece_length := some (toInt32 x.1) })
    intro v
    simp only [Metainfo.store, if_neg ha, if_pos hpl]
  rw [if_neg hpl]
  by_cases hpieces : key = piecesKey
  · rw [if_pos hpieces]
    apply Branch.string (Or.inr (Or.inl hpieces))
      (fun x => { st with piece_hashes := some ⟨x.1, x.2⟩ })
    intro v
    simp only [Metainfo.store, if_neg ha, if_neg hpl, if_pos hpieces]
  rw [if_neg hpieces]
  by_cases hname : key = nameKey
  · rw [if_pos hname]
    apply Branch.string (Or.inr (Or.inr hname)) (fun x => { st with filename := some ⟨x.1, x.2⟩ })
    intro v
    simp only [Metainfo.store, if_neg ha, if_neg hpl, if_neg hpieces, if_pos hname]
  rw [if_neg hname]
  by_cases hl : key = lengthKey
  · rw [if_pos hl]
    apply Branch.int (Or.inr hl) (fun x => { st with file_length := some (toInt32 x.1) })
    intro v
    simp only [Metainfo.store, if_neg ha, if_neg hpl, if_neg hpieces, if_neg hname, if_pos hl]
  rw [if_neg hl]
  apply Branch.skip
  · intro v
    unfold Fits
    tauto
  · intro v
    simp only [Metainfo.store, if_neg ha, if_neg hpl, if_neg hpieces, if_neg hname, if_neg hl]

theorem copyString_stores (hn : n ≤ 2147483647) (h : CursorAt n value p) {key : List UInt8}
    {v : Value} (hkey : key = announceKey ∨ key = piecesKey ∨ key = nameKey)
    (hv : Holds buf p (encode v)) (hend : p + (encode v).length ≤ n)
    {save : Int × List UInt8 → ParseState}
    (hsave : save (((bytesOf v).length : Nat), padded (bytesOf v)) =
      { st with toMetainfo := st.toMetainfo.store key v }) :
    Stores st key v (copyString buf value >>= fun x => pure (save x)) := by
  unfold Stores
  rw [fits_string_iff hkey]
  cases v with
  | str s =>
      rw [encode] at hv hend
      left
      rw [copyString_spec hn h hv hend, ok_bind, ← hsave]
      exact ⟨trivial, rfl⟩
  | int | list | dict =>
      rw [encode] at hv
      right
      rw [copyString_other h.str (peek_head hv) rfl, error_bind]
      exact ⟨id, rfl⟩

theorem intValue_stores (h : CursorAt n value p) {key : List UInt8} {v : Value}
    (hkey : key = pieceLengthKey ∨ key = lengthKey) (hv : Holds buf p (encode v))
    {save : Int × Bool → ParseState}
    (hsave : save (intOf v, isInt v) = { st with toMetainfo := st.toMetainfo.store key v }) :
    Stores st key v (bencodeIntValue buf value >>= fun x => pure (save x)) := by
  unfold Stores
  rw [fits_int_iff hkey]
  rcases intValue_spec h.str hv with ⟨hread, heq⟩ | ⟨hread, heq⟩
  · left
    rw [heq, ok_bind, ← hsave]
    exact ⟨hread, rfl⟩
  · right
    rw [heq, error_bind]
    exact ⟨hread, rfl⟩

theorem Branch.stores {result : Except Halt ParseState} {key : List UInt8}
    (hbranch : Branch buf value key st result) (hn : n ≤ 2147483647) (h : CursorAt n value p)
    {v : Value} (hv : Holds buf p (encode v)) (hend : p + (encode v).length ≤ n) :
    Stores st key v result := by
  cases hbranch with
  | string hkey save hsave => exact copyString_stores hn h hkey hv hend (hsave v)
  | int hkey save hsave => exact intValue_stores h hkey hv (hsave v)
  | skip hfits hstore =>
      left
      rw [hstore v]
      exact ⟨hfits v, rfl⟩

theorem parseMetainfo_other (sha1 : List UInt8 → List UInt8) (st : ParseState) (fuel : Nat)
    (hn : n ≤ 2147483647) (h : CursorAt n value p) {v : Value} (hv : Holds buf p (encode v))
    (hend : p + (encode v).length ≤ n) {key : List UInt8} (hkey : key ≠ infoKey) :
    Stores st key v (parseMetainfo sha1 buf (fuel + 1) st value key) :=
  (parseMetainfo_branch sha1 st value fuel hkey).stores hn h hv hend

/-! ## The info branch -/

theorem copyDict_spec {bs : List UInt8} (hbs : Holds buf p bs) (hne : bs ≠ []) :
    copyDict buf p bs.length = .ok bs := by
  have hle := hbs.le hne
  rw [copyDict, if_pos ⟨by omega, by omega⟩, Int.toNat_natCast]
  exact congrArg _ hbs

/-- Where the loop of an `info` branch starts: with the hash of some bytes, and no key. -/
def ParseState.begin (st : ParseState) (hash : List UInt8) : ParseState :=
  { st with infohash := some hash, visited := st.visited ++ [[]] }

/-- And its end. -/
def ParseState.close (st : ParseState) : ParseState :=
  { st with num_pieces := ceilPieces st.file_length st.piece_length }

theorem parseMetainfo_info (sha1 : List UInt8 → List UInt8) (buf : List UInt8) (fuel : Nat)
    (st : ParseState) (value : BencodeT) :
    parseMetainfo sha1 buf (fuel + 1) st value infoKey =
      (bencodeDictGetStartAndLen buf fuel value >>= fun span =>
        copyDict buf span.1 span.2 >>= fun dict_str =>
          parseEntries sha1 buf fuel (some st.visited.length) (st.begin (sha1 dict_str)) value >>=
            fun st1 => pure st1.close) := by
  have hkey : ¬ infoKey = announceKey := by decide
  rw [parseMetainfo, if_neg hkey, if_pos rfl]
  rfl

/-- An `info` branch that comes to an end has hashed some bytes and run its loop. -/
theorem parseMetainfo_info_ok {st' : ParseState}
    (h : parseMetainfo sha1 buf (fuel + 1) st value infoKey = .ok st') :
    ∃ span dict_str st1, bencodeDictGetStartAndLen buf fuel value = .ok span ∧
      copyDict buf span.1 span.2 = .ok dict_str ∧
      parseEntries sha1 buf fuel (some st.visited.length) (st.begin (sha1 dict_str)) value =
        .ok st1 ∧ st' = st1.close := by
  rw [parseMetainfo_info] at h
  obtain ⟨span, hspan, h⟩ := bind_eq_ok.mp h
  obtain ⟨dict_str, hdict, h⟩ := bind_eq_ok.mp h
  obtain ⟨st1, hloop, hst⟩ := bind_eq_ok.mp h
  cases hst
  exact ⟨span, dict_str, st1, hspan, hdict, hloop, rfl⟩

/-! ## The loops -/

theorem parseEntries_end {branch : Option Nat} {be : BencodeT} {q : Nat} (h : CursorAt n be p)
    (hat : AtKey buf p q) (hq : peek buf q = .ok 101) :
    parseEntries sha1 buf (fuel + 1) branch st be = .ok st := by
  rw [parseEntries, nextEntry_none h.str hat hq]
  rfl

end Parse

/-! ## A dictionary as a file -/

/-- A dictionary in the buffer, with the cursor of `parse_metainfo_file`. -/
theorem dictFile_spec (es : List (List UInt8 × Value)) :
    AtKey (encode (.dict es) ++ [0]) 0 1 ∧
    CursorAt (encode (.dict es)).length (bencodeInit 0 (encode (.dict es)).length) 0 ∧
    Holds (encode (.dict es) ++ [0]) 1 (encodeDict es ++ [101]) ∧
    (encode (.dict es)).length = (encodeDict es).length + 2 := by
  have hsplit : encode (.dict es) = 100 :: (encodeDict es ++ [101]) := by
    rw [encode, List.cons_append]
  have h := holds_middle [] (encode (.dict es)) [0]
  rw [List.nil_append, List.length_nil] at h
  refine ⟨Or.inr ⟨rfl, ?_⟩, cursorAt_init _, ?_, ?_⟩
  · rw [hsplit]
    rfl
  · have hholds := h
    rw [hsplit] at hholds
    rw [hsplit]
    exact hholds.tail
  · rw [hsplit]
    simp only [List.length_cons, List.length_append, List.length_nil]

theorem parseMetainfoFile_eq {sha1 : List UInt8 → List UInt8} {reads : List (List UInt8)}
    {file : List UInt8} (hfile : reads.flatten = file)
    (h : file.length ≤ 2147483646) (fuel : Nat) :
    parseMetainfoFile sha1 fuel file.length reads =
      parseEntries sha1 (file ++ [0]) fuel none .init (bencodeInit 0 file.length) := by
  simp only [parseMetainfoFile, loadFile_spec hfile h, ok_bind]

end BitFS.Client
