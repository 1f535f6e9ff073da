import BitFS.Library.MachineInt
import BitFS.Library.Separated
import BitFS.Library.Slice
import Mathlib.Data.Char

/-! # What libtorrent tells FS.cpp about a torrent

`orig_files()` is a list of files whose paths are `/`-joined components and
whose contents lie end to end. The calls that are answered inside libtorrent
are kept as functions together with the documented behaviour the code relies
on, so nothing about them is known outside their domain.
-/

namespace BitFS

open MachineInt Memory Separated

/-- A `char` of a C string. libtorrent and FUSE never pass a path with a NUL. -/
abbrev PathChar := { c : Char // c.toNat ≠ 0 }

/-- A path as a C or C++ string. -/
abbrev Str := List PathChar

def slash : PathChar := ⟨'/', by decide⟩

/-- The path spelled by a list of characters. -/
def str (s : List Char) : Str :=
  s.filterMap fun c => if h : c.toNat ≠ 0 then some ⟨c, h⟩ else none

/-- One path component: non-empty and free of the separator. -/
structure Component where
  name : Str
  nonempty : name ≠ []
  noSlash : slash ∉ name
  deriving DecidableEq

/-- A component of one character. -/
def Component.letter (c : PathChar) (h : slash ≠ c) : Component := ⟨[c], by simp, by simpa using h⟩

def Component.a : Component := .letter ⟨'a', by decide⟩ (by decide)

def Component.b : Component := .letter ⟨'b', by decide⟩ (by decide)

/-- One file of `orig_files()`. Its length is a non-negative 64-bit integer. -/
structure FileEntry where
  components : List Component
  components_ne : components ≠ []
  bytes : List UInt8
  length_fits : bytes.length < 2 ^ 63

namespace FileEntry

/-- A file `a` with the given content. -/
def a (bytes : List UInt8) (h : bytes.length < 2 ^ 63) : FileEntry where
  components := [.a]
  components_ne := List.cons_ne_nil _ _
  bytes := bytes
  length_fits := h

theorem nil_fits : ([] : List UInt8).length < 2 ^ 63 := by decide

def names (f : FileEntry) : List Str := f.components.map Component.name

/-- `file_path(i)`. -/
def path (f : FileEntry) : Str := [slash].intercalate f.names

theorem names_ne (f : FileEntry) : f.names ≠ [] := by
  simpa [names] using f.components_ne

theorem slash_not_mem_names (f : FileEntry) : ∀ p ∈ f.names, slash ∉ p := by
  intro p hp
  obtain ⟨c, -, rfl⟩ := List.mem_map.mp hp
  exact c.noSlash

theorem nonempty_of_mem_names (f : FileEntry) : ∀ p ∈ f.names, p ≠ [] := by
  intro p hp
  obtain ⟨c, -, rfl⟩ := List.mem_map.mp hp
  exact c.nonempty

theorem splitOn_path (f : FileEntry) : f.path.splitOn slash = f.names :=
  List.splitOn_intercalate slash f.slash_not_mem_names f.names_ne

end FileEntry

/-- The answers of `lt::file_storage`. Outside `0 .. num_files - 1` they are unspecified. -/
structure FileStorage (files : List FileEntry) where
  file_size : Int → Int
  file_size_eq : ∀ (i : Nat) (h : i < files.length), file_size i = files[i].bytes.length

/-- A torrent: files end to end, cut into pieces. `piece_length()` and
`num_pieces()` are `int`s. -/
structure Torrent where
  files : List FileEntry
  pieceLength : Nat
  pieceLength_pos : 1 ≤ pieceLength
  pieceLength_fits : pieceLength ≤ 2147483647
  numPieces_fits : ((files.flatMap FileEntry.bytes).length + pieceLength - 1) / pieceLength
    ≤ 2147483647

namespace Torrent

variable (t : Torrent)

/-- All files end to end. -/
def content : List UInt8 := t.files.flatMap FileEntry.bytes

def numPieces : Nat := (t.content.length + t.pieceLength - 1) / t.pieceLength

/-- Where file `i` starts inside the torrent. -/
def fileStart (i : Nat) : Nat := ((t.files.take i).flatMap FileEntry.bytes).length

/-- The bytes of piece `p`; the last piece may be short. -/
def pieceBytes (p : Nat) : List UInt8 := slice t.content (p * t.pieceLength) t.pieceLength

theorem numPieces_le : t.numPieces ≤ 2147483647 := t.numPieces_fits

/-- A file is the window of the torrent that starts at its `fileStart`. -/
theorem slice_content_file {i : Nat} (h : i < t.files.length) :
    slice t.content (t.fileStart i) t.files[i].bytes.length = t.files[i].bytes := by
  have hsplit : t.content = (t.files.take i).flatMap FileEntry.bytes ++
      (t.files[i].bytes ++ (t.files.drop (i + 1)).flatMap FileEntry.bytes) := by
    conv_lhs => rw [content, ← List.take_append_drop i t.files, List.drop_eq_getElem_cons h]
    rw [List.flatMap_append, List.flatMap_cons]
  unfold slice
  rw [hsplit, fileStart, List.drop_left, List.take_left]

theorem fileStart_add_length_le {i : Nat} (h : i < t.files.length) :
    t.fileStart i + t.files[i].bytes.length ≤ t.content.length := by
  have hs := congrArg List.length (t.slice_content_file h)
  rw [slice_length] at hs
  by_cases h0 : t.files[i].bytes.length = 0
  · rw [h0, Nat.add_zero]
    have hpre : (t.files.take i).flatMap FileEntry.bytes <+: t.content := by
      conv_rhs => rw [content, ← List.take_append_drop i t.files, List.flatMap_append]
      exact List.prefix_append _ _
    exact hpre.length_le
  · omega

/-- A byte position of the torrent lies in the piece of its quotient. -/
theorem div_lt_numPieces {x : Nat} (h : x < t.content.length) :
    x / t.pieceLength < t.numPieces := by
  have hp := t.pieceLength_pos
  unfold numPieces
  rw [Nat.div_lt_iff_lt_mul hp]
  have hd := Nat.div_add_mod (t.content.length + t.pieceLength - 1) t.pieceLength
  have hm := Nat.mod_lt (t.content.length + t.pieceLength - 1) hp
  rw [Nat.mul_comm] at hd
  omega

theorem pieceBytes_length (p : Nat) :
    (t.pieceBytes p).length = min t.pieceLength (t.content.length - p * t.pieceLength) :=
  slice_length _ _ _

theorem pieceBytes_length_le (p : Nat) : (t.pieceBytes p).length ≤ t.pieceLength := by
  rw [pieceBytes_length]
  exact Nat.min_le_left _ _

/-- The piece of a byte position reaches past it. -/
theorem mod_lt_pieceBytes_length {x : Nat} (h : x < t.content.length) :
    x % t.pieceLength < (t.pieceBytes (x / t.pieceLength)).length := by
  have hm := Nat.mod_lt x t.pieceLength_pos
  have hd := Nat.div_add_mod x t.pieceLength
  rw [Nat.mul_comm] at hd
  rw [pieceBytes_length]
  omega

/-- Inside one piece, a window of the piece is a window of the torrent. -/
theorem slice_pieceBytes {x n : Nat}
    (h : x % t.pieceLength + n ≤ (t.pieceBytes (x / t.pieceLength)).length) :
    slice (t.pieceBytes (x / t.pieceLength)) (x % t.pieceLength) n = slice t.content x n := by
  have hle := t.pieceBytes_length_le (x / t.pieceLength)
  have hd := Nat.div_add_mod x t.pieceLength
  rw [Nat.mul_comm] at hd
  rw [pieceBytes, slice_slice _ (by omega), hd]

end Torrent

/-- `lt::peer_request`. -/
structure PeerRequest where
  piece : Int
  start : Int
  length : Int
  deriving DecidableEq

/-- The answers of `lt::torrent_info` that depend on the piece layout. -/
structure TorrentInfo (t : Torrent) extends FileStorage t.files where
  map_file : Int → Int → Int → PeerRequest
  piece_size : Int → Int
  map_file_eq : ∀ (i o : Nat) (n : Int) (h : i < t.files.length), o < t.files[i].bytes.length →
    (map_file i o n).piece = ((t.fileStart i + o) / t.pieceLength : Nat) ∧
    (map_file i o n).start = ((t.fileStart i + o) % t.pieceLength : Nat)
  piece_size_eq : ∀ p : Nat, p < t.numPieces → piece_size p = (t.pieceBytes p).length

/-- File sizes read off the list itself. -/
def FileStorage.reference (files : List FileEntry) : FileStorage files where
  file_size i := (files[i.toNat]?.map fun f => (f.bytes.length : Int)).getD 0
  file_size_eq i h := by simp [h]

/-- Answers computed from the layout, extended to every argument. -/
def TorrentInfo.reference (t : Torrent) : TorrentInfo t where
  toFileStorage := FileStorage.reference t.files
  map_file i o n :=
    ⟨(t.fileStart i.toNat + o.toNat) / t.pieceLength,
      (t.fileStart i.toNat + o.toNat) % t.pieceLength, n⟩
  piece_size p := (t.pieceBytes p.toNat).length
  map_file_eq i o n h ho := by simp
  piece_size_eq p h := by simp

end BitFS
