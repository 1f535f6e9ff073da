import BitFS.Bencode.Language
import BitFS.Client.Reading

/-! # Torrent files with defects

No loop of the parser looks at what a call returned. A run is guarded where it would make no
difference: every entry and every value that it goes on with comes from a call that
returned 1, on an item of the right type.
-/

namespace BitFS.Client

open MachineInt Memory Bencode Decimal Fuel

/-! ## Guarded runs -/

/-- What a branch other than `info` goes on with. -/
structure ValueGuarded (buf : List UInt8) (value : BencodeT) (key : List UInt8) : Prop where
  string : key = announceKey ∨ key = piecesKey ∨ key = nameKey →
    bencodeIsString buf value = .ok true ∧ ∃ str, bencodeStringValue buf value = .ok (some str)
  int : key = pieceLengthKey ∨ key = lengthKey →
    bencodeIsInt buf value = .ok true ∧ ∃ i, bencodeIntValue buf value = .ok (i, true)

mutual

def BranchGuarded (buf : List UInt8) (fuel : Nat) (value : BencodeT) (key : List UInt8) : Prop :=
  match fuel with
  | 0 => False
  | fuel + 1 =>
    if key = infoKey then
      (∃ span, bencodeDictGetStartAndLen buf fuel value = .ok span) ∧ LoopGuarded buf fuel value
    else ValueGuarded buf value key

/-- The loops of `parse_metainfo` and `parse_metainfo_file`: the next entry comes from a call
that returned 1, what its branch does is guarded, and so is the rest of the loop. -/
def LoopGuarded (buf : List UInt8) (fuel : Nat) (be : BencodeT) : Prop :=
  match fuel with
  | 0 => False
  | fuel + 1 =>
    bencodeDictHasNext buf be = .ok false ∨
      (bencodeDictHasNext buf be = .ok true ∧ ∃ be' item,
        bencodeDictGetNext buf fuel be = .ok (be', some item) ∧
          (∃ keybuf, strncpy buf item.key item.klen.toNat = .ok keybuf ∧
            BranchGuarded buf fuel item.value (cstr keybuf)) ∧
          LoopGuarded buf fuel be')

end

/-- The file is loaded, and with enough fuel the run over it is guarded. -/
def FileGuarded (st_size : Nat) (reads : List (List UInt8)) : Prop :=
  ∃ N, ∀ fuel ≥ N, ∃ buf len, loadFile st_size reads = .ok (buf, len) ∧
    LoopGuarded buf fuel (bencodeInit 0 len)

/-! ## Contents without defects -/

/-- The type of an item, by its first byte. -/
structure TypeAt (buf : List UInt8) (key : List UInt8) (v : Nat) : Prop where
  string : key = announceKey ∨ key = piecesKey ∨ key = nameKey →
    ∃ c, buf[v]? = some c ∧ isDigit c = true
  int : key = pieceLengthKey ∨ key = lengthKey → buf[v]? = some 105

/-- The bytes from `p` on, in a dictionary or file that starts at `start` and is taken to have
`len` bytes: up to where the loop stops, every key is followed by an item of its type, and
under `info` the same holds from the first byte of the item on. -/
inductive LoopReads (buf : List UInt8) : Nat → Int → Nat → Prop where
  | stop {start p : Nat} {len : Int} (hstop : StopsAt buf (start + len) p) :
      LoopReads buf start len p
  | other {start p q str m r : Nat} {len : Int} (hkey : KeyAt buf (start + len) p q str m)
      (hitem : Reads buf .item (len - (((str + m : Nat) : Int) - p)) (str + m) r)
      (hname : cstr (slice buf str m) ≠ infoKey)
      (htype : TypeAt buf (cstr (slice buf str m)) (str + m))
      (hrest : LoopReads buf start len r) : LoopReads buf start len p
  | info {start p q str m r : Nat} {len : Int} (hkey : KeyAt buf (start + len) p q str m)
      (hitem : Reads buf .item (len - (((str + m : Nat) : Int) - p)) (str + m) r)
      (hname : cstr (slice buf str m) = infoKey)
      (hinner : LoopReads buf (str + m) (len - (((str + m : Nat) : Int) - p)) (str + m))
      (hrest : LoopReads buf start len r) : LoopReads buf start len p

section Run

variable {buf : List UInt8} {n : Nat}

/-! ## From a guarded run to the contents -/

theorem strncpy_slice {p m : Nat} (h : p + m ≤ buf.length) :
    strncpy buf p m = .ok (padded (slice buf p m)) := by
  have hlen := slice_length_of_le h
  have hholds : Holds buf p (slice buf p m) := by
    unfold Holds
    rw [hlen]
  have hcopy := strncpy_spec hholds
  rwa [hlen] at hcopy

theorem typeAt_of_guarded {value : BencodeT} {v : Nat} {key : List UInt8}
    (hstr : value.str = some v) (h : ValueGuarded buf value key) : TypeAt buf key v := by
  constructor
  · intro hkey
    obtain ⟨ds, hds⟩ := digitsAt_of_isString hstr (h.string hkey).1
    exact hds.head
  · intro hkey
    have hint := (h.int hkey).1
    simp only [bencodeIsInt, isKind, hstr] at hint
    obtain ⟨c, hc, hkind⟩ := bind_eq_ok.mp hint
    have heq : c = 105 := by simpa using hkind
    rw [← heq]
    exact peek_ok_iff.mp hc

theorem loopReads_of_guarded (hin : Input buf n) (fuel : Nat) :
    ∀ be p, CursorAt n be p → LoopGuarded buf fuel be → LoopReads buf be.start be.len p := by
  induction fuel using Nat.strong_induction_on with
  | _ fuel ih =>
      intro be p h hguard
      cases fuel with
      | zero =>
          rw [LoopGuarded] at hguard
          cases hguard
      | succ fuel =>
          rw [LoopGuarded] at hguard
          rcases hguard with hlast | ⟨hhas, be', item, hget, ⟨keybuf, hkeybuf, hbranch⟩, hloop⟩
          · exact .stop ((dictHasNext_false_iff hin h.str).mp hlast)
          · obtain ⟨q, str, m, r, hkey, hitem, rfl, rfl⟩ :=
              (reads_of_run hin fuel).2.1 be p be' item h hhas hget
            obtain ⟨hvalue, hlt⟩ := h.value hin hkey hitem
            have hpos := hkey.lt
            have hle := hitem.le
            have hrest := ih fuel (Nat.lt_succ_self fuel) _ r (h.move (by omega)) hloop
            dsimp only at hkeybuf hbranch
            rw [Int.toNat_natCast, strncpy_slice (by rw [hin.length]; omega)] at hkeybuf
            cases hkeybuf
            rw [padded, cstr_append_zeros] at hbranch
            cases fuel with
            | zero =>
                rw [BranchGuarded] at hbranch
                cases hbranch
            | succ fuel =>
                rw [BranchGuarded] at hbranch
                split at hbranch
                · rename_i hname
                  have hinner := ih fuel (by omega) _ (str + m) hvalue hbranch.2
                  exact .info hkey hitem hname hinner hrest
                · rename_i hname
                  exact .other hkey hitem hname (typeAt_of_guarded rfl hbranch) hrest

/-! ## Guarded runs come to an end -/

/-- The walk to the end of a dictionary makes the steps of the loop over it. -/
theorem walkDict_of_guarded (hin : Input buf n) (fuel : Nat) :
    ∀ be p, CursorAt n be p → LoopGuarded buf fuel be →
      ∃ s, p ≤ s ∧ s ≤ n ∧ walkDict buf fuel be = .ok { be with str := some s } := by
  induction fuel with
  | zero =>
      intro be p h hguard
      rw [LoopGuarded] at hguard
      cases hguard
  | succ fuel ih =>
      intro be p h hguard
      rw [LoopGuarded] at hguard
      rw [walkDict]
      rcases hguard with hlast | ⟨hhas, be', item, hget, -, hloop⟩
      · obtain ⟨c, hc, -⟩ := (dictHasNext_false_iff hin h.str).mp hlast
        have hlt := (List.getElem?_eq_some_iff.mp hc).1
        rw [hin.length] at hlt
        have hsame : be = { be with str := some p } := by
          rw [← h.str]
        refine ⟨p, le_rfl, by omega, ?_⟩
        rw [hlast, ok_bind, if_neg (by decide), pure_eq_ok, ← hsame]
      · obtain ⟨q, str, m, r, hkey, hitem, rfl, rfl⟩ :=
          (reads_of_run hin fuel).2.1 be p be' item h hhas hget
        have hpos := hkey.lt
        have hle := hitem.le
        obtain ⟨s, hrs, hsn, hwalk⟩ := ih _ r (h.move (by omega)) hloop
        refine ⟨s, by omega, hsn, ?_⟩
        rw [hhas, ok_bind, if_pos rfl, hget, ok_bind]
        exact hwalk

/-- A copy stops at the 0 behind the input. -/
theorem strncpy_inside (hin : Input buf n) {p : Nat} (hp : p ≤ n) (m : Nat) :
    ∃ bytes, strncpy buf p m = .ok bytes := by
  by_cases hfits : p + m ≤ buf.length
  · exact ⟨_, strncpy_slice hfits⟩
  · have hlen := hin.length
    have hall : slice buf p m = buf.drop p := by
      unfold slice
      apply List.take_of_length_le
      rw [List.length_drop]
      omega
    have hzero : (0 : UInt8) ∈ buf.drop p := by
      apply List.mem_of_getElem? (i := n - p)
      rw [List.getElem?_drop, Nat.add_sub_cancel' hp]
      exact hin.last
    have hshort : (cstr (slice buf p m)).length < (slice buf p m).length := by
      apply lt_of_le_of_ne (List.takeWhile_prefix _).length_le
      intro heq
      have hsame := (List.takeWhile_prefix fun c : UInt8 => decide (c ≠ 0)).eq_of_length heq
      rw [hall] at hsame
      rw [← hsame] at hzero
      have hne := List.mem_takeWhile_imp (p := fun c : UInt8 => decide (c ≠ 0)) hzero
      exact absurd rfl (of_decide_eq_true hne)
    exact ⟨_, if_pos (Or.inl hshort)⟩

theorem copyString_of_stringValue (hin : Input buf n) {value : BencodeT} {v : Nat}
    (hv : value.str = some v) {str : Nat × Int}
    (h : bencodeStringValue buf value = .ok (some str)) :
    ∃ copy, copyString buf value = .ok copy := by
  obtain ⟨p, len⟩ := str
  obtain ⟨m, rfl, ⟨ds, hds, hp, -⟩, -⟩ := stringAt_of_stringValue hv h
  have hcolon := hin.lt hds.last (by decide)
  obtain ⟨bytes, hcopy⟩ := strncpy_inside hin (show p ≤ n by omega) m
  refine ⟨(m, bytes), ?_⟩
  simp only [copyString, h, ok_bind, Int.toNat_natCast, hcopy, pure_eq_ok]

theorem Branch.ends (hin : Input buf n) {st : ParseState} {result : Except Halt ParseState}
    {value : BencodeT} {v : Nat} {key : List UInt8} (hbranch : Branch buf value key st result)
    (hv : value.str = some v) (h : ValueGuarded buf value key) : ∃ st', result = .ok st' := by
  cases hbranch with
  | string hkey save hsave =>
      obtain ⟨-, str, hvalue⟩ := h.string hkey
      obtain ⟨copy, hcopy⟩ := copyString_of_stringValue hin hv hvalue
      rw [hcopy]
      exact ⟨_, rfl⟩
  | int hkey save hsave =>
      obtain ⟨-, i, hvalue⟩ := h.int hkey
      rw [hvalue]
      exact ⟨_, rfl⟩
  | skip hfits hstore => exact ⟨st, rfl⟩

theorem parseMetainfo_of_branchGuarded (hin : Input buf n) (sha1 : List UInt8 → List UInt8)
    {fuel : Nat} (hloop : ∀ branch st be p, CursorAt n be p → LoopGuarded buf fuel be →
      ∃ st', parseEntries sha1 buf fuel branch st be = .ok st')
    {value : BencodeT} {v : Nat} (hvalue : CursorAt n value v) (hpos : 0 < v) {key : List UInt8}
    (h : BranchGuarded buf (fuel + 1) value key) (st : ParseState) :
    ∃ st', parseMetainfo sha1 buf (fuel + 1) st value key = .ok st' := by
  rw [BranchGuarded] at h
  split at h
  · rename_i hinfo
    obtain ⟨-, hinner⟩ := h
    obtain ⟨s, hvs, hsn, hwalk⟩ := walkDict_of_guarded hin fuel value v hvalue hinner
    have hsize := hin.length
    have hmax := hin.fits
    have hlen : toInt32 ((s : Int) - v + 1) = (s : Int) - v + 1 :=
      toInt32_of_fits ⟨by omega, by omega⟩
    have hspan : bencodeDictGetStartAndLen buf fuel value = .ok (v, (s : Int) - v + 1) := by
      simp only [bencodeDictGetStartAndLen, hwalk, ok_bind, hvalue.str, deref, hlen, pure_eq_ok]
    have hcopy : copyDict buf v ((s : Int) - v + 1) =
        .ok (slice buf v ((s : Int) - v + 1).toNat) := if_pos ⟨by omega, by omega⟩
    obtain ⟨st1, hrun⟩ := hloop (some st.visited.length)
      (st.begin (sha1 (slice buf v ((s : Int) - v + 1).toNat))) value v hvalue hinner
    rw [hinfo, parseMetainfo_info, hspan, ok_bind]
    dsimp only
    rw [hcopy, ok_bind, hrun]
    exact ⟨_, rfl⟩
  · rename_i hname
    exact (parseMetainfo_branch sha1 st value fuel hname).ends hin hvalue.str h

/-- The loops come to an end in a guarded run. -/
theorem parseEntries_of_guarded (hin : Input buf n) (sha1 : List UInt8 → List UInt8) (fuel : Nat) :
    ∀ branch st be p, CursorAt n be p → LoopGuarded buf fuel be →
      ∃ st', parseEntries sha1 buf fuel branch st be = .ok st' := by
  induction fuel using Nat.strong_induction_on with
  | _ fuel ih =>
      intro branch st be p h hguard
      cases fuel with
      | zero =>
          rw [LoopGuarded] at hguard
          cases hguard
      | succ fuel =>
          rw [LoopGuarded] at hguard
          rcases hguard with hlast | ⟨hhas, be', item, hget, ⟨keybuf, hkeybuf, hbranch⟩, hloop⟩
          · rw [parseEntries, nextEntry, hlast]
            exact ⟨st, rfl⟩
          · have hentry : nextEntry buf fuel be = .ok (some (be', item, cstr keybuf)) := by
              rw [nextEntry, hhas, ok_bind, if_pos rfl, hget, ok_bind]
              dsimp only
              rw [hkeybuf, ok_bind, pure_eq_ok]
            obtain ⟨q, str, m, r, hkey, hitem, rfl, rfl⟩ :=
              (reads_of_run hin fuel).2.1 be p be' item h hhas hget
            obtain ⟨hvalue, -⟩ := h.value hin hkey hitem
            have hpos := hkey.lt
            have hle := hitem.le
            rw [parseEntries_next hentry]
            cases fuel with
            | zero =>
                rw [BranchGuarded] at hbranch
                cases hbranch
            | succ fuel =>
                obtain ⟨st1, hone⟩ := parseMetainfo_of_branchGuarded hin sha1
                  (ih fuel (by omega)) hvalue (by omega) hbranch
                  (st.visit branch (slice buf str (m : Int).toNat))
                rw [hone, ok_bind]
                exact ih (fuel + 1) (Nat.lt_succ_self _) branch st1 _ r (h.move (by omega)) hloop

/-! ## From the contents to a guarded run -/

theorem valueGuarded_of_typeAt (hin : Input buf n) {v r : Nat} {len : Int} {key : List UInt8}
    (h : CursorAt n (bencodeInit v len) v) (hitem : Reads buf .item len v r)
    (htype : TypeAt buf key v) : ValueGuarded buf (bencodeInit v len) key := by
  constructor
  · intro hkey
    obtain ⟨c, hc, hdigit⟩ := htype.string hkey
    obtain ⟨str, m, hat, hfits, -⟩ := hitem.string_of_digit rfl hc hdigit
    have hpos : 0 < len := by
      have hreach := h.reaches
      have hlt := hin.lt hc (isDigit_ne hdigit rfl)
      dsimp only [bencodeInit] at hreach
      omega
    have hvalue : bencodeStringValue buf (bencodeInit v len) = .ok (some (str, (m : Int))) :=
      stringValue_of_stringAt rfl hpos hat hfits
    obtain ⟨ds, hds, -, -⟩ := hat
    exact ⟨isString_of_digitsAt rfl hds, _, hvalue⟩
  · intro hkey
    have hi := htype.int hkey
    obtain ⟨e, hat, -⟩ := hitem.integer_of_i rfl hi
    obtain ⟨val, hread, he⟩ := readStringInt_of_integerAt hat
    have hkind : isKind buf 105 (bencodeInit v len) = .ok true :=
      isKind_spec rfl (peek_of_getElem? hi)
    have hstr : (bencodeInit v len).str = some v := rfl
    refine ⟨hkind, val, ?_⟩
    simp only [bencodeIntValue, hstr, deref, ok_bind, hread, he, if_true, pure_eq_ok]

/-- A loop is guarded from an entry on, if the branch for it and the rest of the loop are. -/
theorem loopGuarded_next (hin : Input buf n) {be : BencodeT} {p q str m r : Nat}
    (h : CursorAt n be p) (hkey : KeyAt buf (be.start + be.len) p q str m)
    (hitem : Reads buf .item (be.len - (((str + m : Nat) : Int) - p)) (str + m) r)
    (hbranch : ∃ N, ∀ fuel ≥ N, BranchGuarded buf fuel
      (bencodeInit (str + m) (be.len - (((str + m : Nat) : Int) - p))) (cstr (slice buf str m)))
    (hrest : ∃ N, ∀ fuel ≥ N, LoopGuarded buf fuel { be with str := some r }) :
    ∃ N, ∀ fuel ≥ N, LoopGuarded buf fuel be := by
  obtain ⟨-, hlt⟩ := h.value hin hkey hitem
  have hpos := hkey.lt
  have hnext := readBy_of_reads hin hitem be p h (by omega) rfl
  have hhas := (dictHasNext_true_iff hin h.str).mpr hkey.more
  have hcopy : strncpy buf str m = .ok (padded (slice buf str m)) :=
    strncpy_slice (by rw [hin.length]; omega)
  apply enough_add 2 (enough_and hnext (enough_shift 1 (enough_and hbranch hrest)))
  intro fuel hrun
  obtain ⟨hnext, hbranch, hrest⟩ := hrun
  have hget := dictGetNext_of_keyAt hin h hkey hnext
  rw [← cstr_append_zeros, ← padded] at hbranch
  rw [LoopGuarded]
  exact Or.inr ⟨hhas, _, _, hget, ⟨_, hcopy, hbranch⟩, hrest⟩

theorem guarded_of_loopReads (hin : Input buf n) {start p : Nat} {len : Int}
    (hreads : LoopReads buf start len p) :
    ∀ be, CursorAt n be p → be.start = start → be.len = len →
      ∃ N, ∀ fuel ≥ N, LoopGuarded buf fuel be := by
  induction hreads with
  | stop hstop =>
      intro be h hstart hlen
      subst hstart hlen
      apply enough_of_add 1
      intro fuel
      rw [LoopGuarded]
      exact Or.inl ((dictHasNext_false_iff hin h.str).mpr hstop)
  | other hkey hitem hname htype hrest ih =>
      intro be h hstart hlen
      subst hstart hlen
      obtain ⟨hvalue, -⟩ := h.value hin hkey hitem
      have hpos := hkey.lt
      have hle := hitem.le
      apply loopGuarded_next hin h hkey hitem
      · apply enough_of_add 1
        intro fuel
        rw [BranchGuarded, if_neg hname]
        exact valueGuarded_of_typeAt hin hvalue hitem htype
      · exact ih _ (h.move (by omega)) rfl rfl
  | info hkey hitem hname hinner hrest ihinner ih =>
      intro be h hstart hlen
      subst hstart hlen
      obtain ⟨hvalue, -⟩ := h.value hin hkey hitem
      have hpos := hkey.lt
      have hle := hitem.le
      apply loopGuarded_next hin h hkey hitem
      · apply enough_add 1 (ihinner _ hvalue rfl rfl)
        intro fuel hloop
        obtain ⟨s, -, -, hwalk⟩ := walkDict_of_guarded hin fuel _ _ hvalue hloop
        rw [BranchGuarded, if_pos hname, bencodeDictGetStartAndLen, hwalk]
        exact ⟨⟨_, rfl⟩, hloop⟩
      · exact ih _ (h.move (by omega)) rfl rfl

end Run

/-! ## Files -/

section File

variable {file : List UInt8} {reads : List (List UInt8)}

theorem input_of_file (h : file.length ≤ 2147483646) : Input (file ++ [0]) file.length := by
  constructor
  · rw [List.length_append, List.length_singleton]
  · exact List.getElem?_concat_length
  · omega

/-- What is loaded, if the run over it is guarded. -/
theorem FileGuarded.loads (hfile : reads.flatten = file) (h : FileGuarded file.length reads) :
    file.length ≤ 2147483646 ∧
      ∃ N, ∀ fuel ≥ N, LoopGuarded (file ++ [0]) fuel (bencodeInit 0 file.length) := by
  obtain ⟨N, hN⟩ := h
  obtain ⟨buf, len, hload, -⟩ := hN N le_rfl
  have hlen := loadFile_le hfile hload
  refine ⟨hlen, N, ?_⟩
  intro fuel hfuel
  obtain ⟨buf', len', hload', hguard⟩ := hN fuel hfuel
  rw [loadFile_spec hfile hlen] at hload'
  cases hload'
  exact hguard

/-- The parser comes to an end on a file with a guarded run. -/
theorem parseMetainfoFile_of_guarded (sha1 : List UInt8 → List UInt8)
    (hfile : reads.flatten = file) (h : FileGuarded file.length reads) :
    ∃ N, ∀ fuel ≥ N, ∃ st, parseMetainfoFile sha1 fuel file.length reads = .ok st := by
  obtain ⟨hlen, N, hN⟩ := h.loads hfile
  refine ⟨N, ?_⟩
  intro fuel hfuel
  rw [parseMetainfoFile_eq hfile hlen]
  exact parseEntries_of_guarded (input_of_file hlen) sha1 fuel none .init _ 0 (cursorAt_init _)
    (hN fuel hfuel)

theorem loopReads_of_fileGuarded (hfile : reads.flatten = file)
    (h : FileGuarded file.length reads) :
    file.length ≤ 2147483646 ∧ LoopReads (file ++ [0]) 0 file.length 0 := by
  obtain ⟨hlen, N, hN⟩ := h.loads hfile
  exact ⟨hlen, loopReads_of_guarded (input_of_file hlen) N _ 0 (cursorAt_init _) (hN N le_rfl)⟩

theorem fileGuarded_of_loopReads (hfile : reads.flatten = file) (hlen : file.length ≤ 2147483646)
    (h : LoopReads (file ++ [0]) 0 file.length 0) : FileGuarded file.length reads := by
  obtain ⟨N, hN⟩ := guarded_of_loopReads (input_of_file hlen) h _ (cursorAt_init _) rfl rfl
  refine ⟨N, ?_⟩
  intro fuel hfuel
  exact ⟨_, _, loadFile_spec hfile hlen, hN fuel hfuel⟩

theorem fileGuarded_iff (hfile : reads.flatten = file) :
    FileGuarded file.length reads ↔
      file.length ≤ 2147483646 ∧ LoopReads (file ++ [0]) 0 file.length 0 := by
  constructor
  · intro h
    exact loopReads_of_fileGuarded hfile h
  · intro ⟨hlen, h⟩
    exact fileGuarded_of_loopReads hfile hlen h

end File

/-- A dictionary with one entry, and no `e` for its end. -/
def unfinished : List UInt8 := [100, 49, 58, 97, 105, 55, 101]

theorem fileGuarded_iff_unfinished : FileGuarded 7 [unfinished] := by
  apply (@fileGuarded_iff unfinished _ rfl).mpr
  have hmore : ¬ Stop (unfinished ++ [0]) ((0 : Nat) + (7 : Nat)) 0 100 := by
    unfold Stop
    decide
  have hkey : KeyAt (unfinished ++ [0]) ((0 : Nat) + (7 : Nat)) 0 1 3 1 :=
    ⟨⟨100, rfl, hmore⟩, Or.inr ⟨rfl, rfl⟩, [1], ⟨by decide, by decide, rfl, rfl⟩, rfl, rfl⟩
  have hseven : IntegerAt (unfinished ++ [0]) 5 6 :=
    ⟨5, [7], Or.inl rfl, ⟨by decide, by decide, rfl, rfl⟩, rfl⟩
  have hdone : StopsAt (unfinished ++ [0]) ((0 : Nat) + (7 : Nat)) 7 :=
    ⟨0, rfl, Or.inr (Or.inl rfl)⟩
  refine ⟨by decide, .other hkey (.int rfl hseven) (by decide) ⟨?_, ?_⟩ (.stop hdone)⟩
  · intro h
    exact absurd h (by decide)
  · intro h
    exact absurd h (by decide)

/-- The address of the tracker is a number. -/
theorem fileGuarded_not :
    ¬ FileGuarded (encode (.dict [(announceKey, .int 1)])).length
      [encode (.dict [(announceKey, .int 1)])] := by
  intro h
  have hfile : [encode (.dict [(announceKey, .int 1)])].flatten =
      encode (.dict [(announceKey, .int 1)]) := by simp
  obtain ⟨hlen, -⟩ := h.loads hfile
  obtain ⟨N, hN⟩ := parseMetainfoFile_of_guarded id hfile h
  obtain ⟨st, hrun⟩ := hN (max N _) (le_max_left _ _)
  have hsteps : entrySteps [(announceKey, .int 1)] = none := by
    have hinfo : ¬ cstr announceKey = infoKey := by decide
    have hfits : ¬ Fits (cstr announceKey) (.int 1) := by decide
    rw [entrySteps, if_neg hinfo, otherSteps, if_neg hfits]
    rfl
  have hfollows := parseMetainfoFile_follows id _ hfile hlen (le_max_right N _)
  rw [hsteps] at hfollows
  exact hfollows st hrun

end BitFS.Client
