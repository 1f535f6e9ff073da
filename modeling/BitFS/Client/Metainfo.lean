import BitFS.Bencode.Reader
import BitFS.Client.PieceSize

/-! # Parsing a torrent file

`parse_metainfo_file` and `parse_metainfo`. Fields that were never written, and
numbers that C leaves open, are `none`. `SHA1` is any function.
-/

namespace BitFS.Client

open MachineInt Memory Bencode

/-- A block from `malloc`, and what was written from its start on: also where this is more
than it has room for, as the blocks of the parser are not next to each other. -/
structure Block where
  size : Int
  cells : List UInt8

/-- The fields of `metainfo_t` and `metainfo_info_t` that the parser writes. -/
structure Metainfo where
  announce : Option Block
  infohash : Option (List UInt8)
  piece_length : Option Int
  piece_hashes : Option Block
  filename : Option Block
  file_length : Option Int
  num_pieces : Option Int

/-- The metainfo, and the keys that every `info` branch has gone over itself. The branches stand in
the order in which they begin, so that the hash is the one of the last. -/
structure ParseState extends Metainfo where
  visited : List (List (List UInt8))

/-- As `malloc` left it. -/
def ParseState.init : ParseState := ⟨⟨none, none, none, none, none, none, none⟩, []⟩

/-- The loop of an `info` branch notes the keys it goes over, that of the top level does not. -/
def ParseState.visit (st : ParseState) (branch : Option Nat) (key : List UInt8) : ParseState :=
  match branch with
  | none => st
  | some i => { st with visited := st.visited.modify i (· ++ [key]) }

/-! ## Keys -/

def announceKey : List UInt8 := [97, 110, 110, 111, 117, 110, 99, 101]

def infoKey : List UInt8 := [105, 110, 102, 111]

def pieceLengthKey : List UInt8 := [112, 105, 101, 99, 101, 32, 108, 101, 110, 103, 116, 104]

def piecesKey : List UInt8 := [112, 105, 101, 99, 101, 115]

def nameKey : List UInt8 := [110, 97, 109, 101]

def lengthKey : List UInt8 := [108, 101, 110, 103, 116, 104]

/-- What `strcmp` sees of a buffer. -/
def cstr (s : List UInt8) : List UInt8 := s.takeWhile (· ≠ 0)

section Parser

variable (sha1 : List UInt8 → List UInt8) (buf : List UInt8)

/-- The `n` bytes that `strncpy(_, src, n)` writes. -/
def strncpy (src n : Nat) : Except Halt (List UInt8) :=
  let s := slice buf src n
  if (cstr s).length < s.length ∨ s.length = n then
    .ok (cstr s ++ List.replicate (n - (cstr s).length) 0)
  else .error .memory

/-- The string value that the branches for `announce`, `pieces` and `name` copy to a block of
its length. After a 0 of `bencode_string_value` they copy from `NULL`. -/
def copyString (value : BencodeT) : Except Halt (Int × List UInt8) := do
  match ← bencodeStringValue buf value with
  | none => .error .memory
  | some (str, len) => do
    let bytes ← strncpy buf str len.toNat
    pure (len, bytes)

/-- `memcpy(dict_str, start, info_dict_len)` -/
def copyDict (start : Nat) (len : Int) : Except Halt (List UInt8) :=
  if 0 ≤ len ∧ start + len ≤ buf.length then .ok (slice buf start len.toNat) else .error .memory

/-- `(int) ceil((double) file_length / (double) piece_length)`, where this is an `int`. -/
def ceilPieces (file_length piece_length : Option Int) : Option Int := do
  let fl ← file_length
  let pl ← piece_length
  if pl ≠ 0 ∧ Fits32 (numPieces fl pl) then some (numPieces fl pl) else none

/-- The head of the loops of `parse_metainfo` and `parse_metainfo_file`: the next entry with
its key as a C string. They do not look at the result of `bencode_dict_get_next`. -/
def nextEntry (fuel : Nat) (be : BencodeT) :
    Except Halt (Option (BencodeT × Item × List UInt8)) := do
  if ← bencodeDictHasNext buf be then
    match ← bencodeDictGetNext buf fuel be with
    | (_, none) => .error .memory
    | (be, some item) => do
      let keybuf ← strncpy buf item.key item.klen.toNat
      pure (some (be, item, cstr keybuf))
  else pure none

mutual

def parseMetainfo (fuel : Nat) (st : ParseState) (value : BencodeT) (key : List UInt8) :
    Except Halt ParseState :=
  match fuel with
  | 0 => .error .fuel
  | fuel + 1 =>
    if key = announceKey then do
      let (len, url) ← copyString buf value
      pure { st with announce := some ⟨len, url ++ [0]⟩ }
    else if key = infoKey then do
      let (start, info_dict_len) ← bencodeDictGetStartAndLen buf fuel value
      let dict_str ← copyDict buf start info_dict_len
      let st ← parseEntries fuel (some st.visited.length)
        { st with infohash := some (sha1 dict_str), visited := st.visited ++ [[]] } value
      pure { st with num_pieces := ceilPieces st.file_length st.piece_length }
    else if key = pieceLengthKey then do
      let (plen, _) ← bencodeIntValue buf value
      pure { st with piece_length := some (toInt32 plen) }
    else if key = piecesKey then do
      let (len, piece_hashes) ← copyString buf value
      pure { st with piece_hashes := some ⟨len, piece_hashes⟩ }
    else if key = nameKey then do
      let (len, name) ← copyString buf value
      pure { st with filename := some ⟨len, name⟩ }
    else if key = lengthKey then do
      let (plen, _) ← bencodeIntValue buf value
      pure { st with file_length := some (toInt32 plen) }
    else .ok st

/-- The loop over the entries of a dictionary, in an `info` branch or at the top level. -/
def parseEntries (fuel : Nat) (branch : Option Nat) (st : ParseState) (be : BencodeT) :
    Except Halt ParseState :=
  match fuel with
  | 0 => .error .fuel
  | fuel + 1 => do
    match ← nextEntry buf fuel be with
    | none => pure st
    | some (be, item, keybuf) =>
      let st := st.visit branch (slice buf item.key item.klen.toNat)
      let st ← parseMetainfo fuel st item.value keybuf
      parseEntries fuel branch st be

end

end Parser

/-! ## The file -/

/-- The loop that reads the file in pieces of at most 1024 bytes. -/
def readFile : List (List UInt8) → List (Option UInt8) → Int →
    Except Halt (List (Option UInt8) × Int)
  | [], metainfo_buffer, metainfo_len => .ok (metainfo_buffer, metainfo_len)
  | read_buf :: reads, metainfo_buffer, metainfo_len =>
    match memcpy metainfo_buffer metainfo_len (read_buf.map some) 0 read_buf.length,
      checked32 (metainfo_len + read_buf.length) with
    | some buf, some len => readFile reads buf len
    | _, _ => .error .memory

/-- The buffer of a file of `st_size` bytes. A negative size for `malloc` gives `NULL`. -/
def loadFile (st_size : Nat) (reads : List (List UInt8)) : Except Halt (List UInt8 × Int) := do
  let size := toInt32 (st_size + 1)
  let (buf, len) ← readFile reads (List.replicate size.toNat none) 0
  match memcpy buf len [some 0] 0 1 with
  | none => .error .memory
  | some buf =>
    -- the file has the size that `stat` told, so every cell is written
    match buf.mapM id with
    | none => .error .memory
    | some bytes => pure (bytes, len)

def parseMetainfoFile (sha1 : List UInt8 → List UInt8) (fuel st_size : Nat)
    (reads : List (List UInt8)) : Except Halt ParseState := do
  let (buf, len) ← loadFile st_size reads
  parseEntries sha1 buf fuel none .init (bencodeInit 0 len)

/-! ## What is loaded -/

theorem readFile_ok {reads : List (List UInt8)} {buf buf' : List (Option UInt8)} {len len' : Int}
    (h : readFile reads buf len = .ok (buf', len')) :
    buf'.length = buf.length ∧ len' = len + reads.flatten.length := by
  induction reads generalizing buf len with
  | nil =>
      cases h
      simp
  | cons r reads ih =>
      rw [readFile] at h
      split at h
      · rename_i buf1 len1 hcopy hlen
        obtain ⟨hsize, hpos⟩ := ih h
        obtain ⟨-, rfl⟩ := checked32_eq_some.mp hlen
        refine ⟨hsize.trans (memcpy_length hcopy), ?_⟩
        rw [hpos, List.flatten_cons, List.length_append]
        omega
      · cases h

theorem readFile_spec (reads : List (List UInt8)) (got : List UInt8) {m : Nat}
    (hm : reads.flatten.length ≤ m) (hfits : got.length + m ≤ 2147483647) :
    readFile reads (got.map some ++ List.replicate m none) got.length =
      .ok ((got ++ reads.flatten).map some ++ List.replicate (m - reads.flatten.length) none,
        ((got ++ reads.flatten).length : Nat)) := by
  induction reads generalizing got m with
  | nil => simp [readFile]
  | cons r reads ih =>
      rw [List.flatten_cons, List.length_append] at hm
      have hlen : (got.map (some (α := UInt8))).length = got.length := List.length_map _
      have hcopy : memcpy (got.map some ++ List.replicate m none) got.length (r.map some) (0 : Nat)
          r.length = some ((got ++ r).map some ++ List.replicate (m - r.length) none) := by
        rw [memcpy_of_bounds (by simp; omega) (by simp), List.take_left' hlen,
          ← List.drop_drop, List.drop_left' hlen, List.drop_replicate, List.map_append]
        congr 2
        rw [slice, List.drop_zero, List.take_of_length_le (by simp)]
      have hstep : checked32 ((got.length : Int) + r.length) =
          some (((got ++ r).length : Nat) : Int) := by
        rw [List.length_append, checked32_of_fits ⟨by omega, by omega⟩]
        push_cast
        rfl
      rw [Nat.cast_zero] at hcopy
      simp only [readFile, hcopy, hstep]
      have hsum : (r ++ reads.flatten).length = r.length + reads.flatten.length :=
        List.length_append
      rw [ih (got ++ r) (by omega) (by rw [List.length_append]; omega), List.flatten_cons,
        List.append_assoc, hsum, Nat.sub_sub]

theorem mapM_some (l : List UInt8) : (l.map some).mapM id = some l := by
  induction l with
  | nil => rfl
  | cons c l ih =>
      rw [List.map_cons, List.mapM_cons, ih]
      rfl

/-- A file of up to `2 ^ 31 - 2` bytes is loaded with a 0 behind it. -/
theorem loadFile_spec {reads : List (List UInt8)} {file : List UInt8} (hfile : reads.flatten = file)
    (h : file.length ≤ 2147483646) :
    loadFile file.length reads = .ok (file ++ [0], (file.length : Nat)) := by
  have hsize : toInt32 ((file.length : Int) + 1) = (file.length + 1 : Nat) := by
    rw [toInt32_of_fits ⟨by omega, by omega⟩]
    omega
  have hread := readFile_spec reads [] (m := file.length + 1) (by rw [hfile]; omega)
    (by rw [List.length_nil]; omega)
  have hlen : (file.map (some (α := UInt8))).length = file.length := List.length_map _
  have hcopy : memcpy (file.map some ++ [none]) file.length [some 0] (0 : Nat) (1 : Nat) =
      some ((file ++ [0]).map some) := by
    rw [memcpy_of_bounds (by simp) (by simp), List.take_left' hlen, List.map_append]
    simp [slice]
  rw [List.map_nil, List.nil_append, List.length_nil, Nat.cast_zero, List.nil_append, hfile,
    Nat.add_sub_cancel_left, List.replicate_one] at hread
  rw [Nat.cast_zero, Nat.cast_one] at hcopy
  rw [loadFile, hsize, Int.toNat_natCast, hread, ok_bind]
  simp only [hcopy, mapM_some, pure_eq_ok]

/-- A longer one is not: the conversion of its size to `int` leaves too small a block. -/
theorem loadFile_le {reads : List (List UInt8)} {file : List UInt8} (hfile : reads.flatten = file)
    {buf : List UInt8} {len : Int} (h : loadFile file.length reads = .ok (buf, len)) :
    file.length ≤ 2147483646 := by
  obtain ⟨⟨buf1, len1⟩, hread, hrest⟩ := bind_eq_ok.mp h
  obtain ⟨hsize, hpos⟩ := readFile_ok hread
  dsimp only at hrest
  split at hrest
  · cases hrest
  · rename_i buf2 hcopy
    obtain ⟨-, -, -, hroom, -⟩ := memcpy_bounds hcopy
    have hfits := (toInt32_fits ((file.length : Int) + 1)).2
    have hle := toInt32_le (x := (file.length : Int) + 1) (by omega)
    rw [hsize, List.length_replicate, hpos, hfile] at hroom
    omega

end BitFS.Client
