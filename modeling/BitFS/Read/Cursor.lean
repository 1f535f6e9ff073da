import BitFS.Read.Session
import BitFS.Tree.Kinds

/-! # The cursors of `FS::read`

`curr_offset`, `remaining_size` and `read_ptr` are one number, the count of
bytes already passed, seen from three sides. The lemmas place that number
inside the file and the piece, show that no `int` operation overflows, and say
what one round of a loop does to it.
-/

namespace BitFS.Read

open MachineInt Memory BitFS.Tree Separated

variable {t : Torrent} (lt : TorrentInfo t)

/-- A path that `open` accepts is the own path of a file. -/
theorem openFile_ok_iff {files : List FileEntry} (path : Str) :
    openFile (initBitfs files) path = .ok () ↔ ∃ f ∈ files, path = slash :: f.path := by
  unfold openFile
  constructor
  · intro h
    split at h
    · rename_i hf
      obtain ⟨ds, ⟨f, hf, rfl⟩, hkey⟩ := (hasFile_iff _).mp hf
      rw [dirKey_eq f.names_ne] at hkey
      exact ⟨f, hf, List.append_cancel_right hkey⟩
    · cases h
  · rintro ⟨f, hf, rfl⟩
    have hkey : slash :: f.path ++ [slash] = dirKey f.names := (dirKey_eq f.names_ne).symm
    rw [hkey, if_pos ((hasFile_dirKey f.slash_not_mem_names).mpr ⟨f, hf, rfl⟩)]

/-- The `int` value of the length of file `i`, as `get_file_size` returns it. -/
def fileEnd (t : Torrent) (i : Nat) : Int :=
  toInt32 ((t.files[i]?.map fun f => f.bytes.length).getD 0 : Nat)

/-- The bytes of file `i`. -/
def fileBytes (t : Torrent) (i : Nat) : List UInt8 :=
  (t.files[i]?.map FileEntry.bytes).getD []

theorem fileBytes_eq {i : Nat} (h : i < t.files.length) : fileBytes t i = t.files[i].bytes := by
  simp [fileBytes, h]

theorem fileEnd_eq (t : Torrent) (i : Nat) : fileEnd t i = toInt32 (fileBytes t i).length := by
  unfold fileEnd fileBytes
  cases t.files[i]? <;> rfl

theorem getFileSize_eq {i : Nat} (h : i < t.files.length) :
    getFileSize lt.toFileStorage i = fileEnd t i := by
  rw [getFileSize_natCast lt.toFileStorage h, fileEnd_eq, fileBytes_eq h]

/-- The truncated length never points past the file. -/
theorem fileEnd_le (t : Torrent) (i : Nat) : fileEnd t i ≤ (fileBytes t i).length := by
  rw [fileEnd_eq]
  exact toInt32_le (by omega)

theorem fileEnd_fits (t : Torrent) (i : Nat) : Fits32 (fileEnd t i) := by
  rw [fileEnd_eq]
  exact toInt32_fits _

/-! ## Positions -/

/-- A reader of file `i` that is past the end-of-file test. -/
structure Reading (t : Torrent) (fr : Frame) (i : Nat) : Prop where
  index_lt : i < t.files.length
  index : getFileIndex t.files fr.filepath = i
  file_index : fr.file_index = i
  total : fr.file_total_size = fileEnd t i
  before_end : (fr.offset : Int) < fileEnd t i

/-- Past the end-of-file test. -/
theorem Frame.start_reading {fr : Frame} {i : Nat} (hi : i < t.files.length)
    (hindex : getFileIndex t.files fr.filepath = i)
    (hlt : (fr.offset : Int) < (fr.start lt).file_total_size) : Reading t (fr.start lt) i := by
  have htotal : (fr.start lt).file_total_size = fileEnd t i := by
    change getFileSize lt.toFileStorage (getFileIndex t.files fr.filepath) = _
    rw [hindex, getFileSize_eq lt hi]
  exact ⟨hi, hindex, hindex, htotal, htotal ▸ hlt⟩

/-- What both loops work off: `std::min(size, file_total_size - offset)`. -/
def Frame.wanted (fr : Frame) : Int :=
  min (toInt32 fr.size) (fr.file_total_size - fr.offset)

/-- The position in the torrent of byte `j` of the request. -/
def pos (t : Torrent) (fr : Frame) (i j : Nat) : Nat := t.fileStart i + (fr.offset + j)

/-- Its piece. -/
def pieceAt (t : Torrent) (fr : Frame) (i j : Nat) : Nat := pos t fr i j / t.pieceLength

/-- `fr` with its loop counters at `k` bytes passed. -/
def Frame.passed (fr : Frame) (k : Nat) : Frame :=
  { fr with curr_offset := fr.offset + k, remaining_size := fr.wanted - k }

/-- `fr` after a round of copies that ends at byte `k`. -/
def Frame.copied (fr : Frame) (temp out : List UInt8) (k : Nat) : Frame :=
  { fr.passed k with temp_buf := temp, buf := out, read_ptr := k }

/-- `k` bytes are passed. -/
structure At (fr : Frame) (k : Nat) : Prop where
  curr : fr.curr_offset = fr.offset + k
  rem : fr.remaining_size = fr.wanted - k
  le : k ≤ fr.wanted.toNat

/-- `k` bytes are passed, more are wanted, and `pr` and `piece_size` describe the
piece of the next byte. -/
structure Located (t : Torrent) (fr : Frame) (i k : Nat) : Prop extends At fr k where
  more : k < fr.wanted.toNat
  piece : fr.pr.piece = pieceAt t fr i k
  start : fr.pr.start = (pos t fr i k % t.pieceLength : Nat)
  piece_size : fr.piece_size = (t.pieceBytes (pieceAt t fr i k)).length

section Bounds

variable {fr : Frame} {i k : Nat}

theorem Reading.offset_lt (h : Reading t fr i) : fr.offset < 2147483647 := by
  have := h.before_end
  have := (fileEnd_fits t i).2
  omega

theorem Reading.toInt32_offset (h : Reading t fr i) : toInt32 fr.offset = fr.offset :=
  toInt32_of_fits ⟨by omega, by have := h.offset_lt; omega⟩

/-- `file_total_size - offset` does not overflow. -/
theorem Reading.amount (h : Reading t fr i) : fr.amount = some fr.wanted := by
  have hend := h.before_end
  have hfit := fileEnd_fits t i
  unfold Frame.amount Frame.wanted
  rw [h.toInt32_offset, h.total, checked32_of_fits ⟨by omega, by have := hfit.2; omega⟩]
  rfl

theorem Reading.wanted_le (h : Reading t fr i) :
    fr.offset + fr.wanted ≤ fileEnd t i ∧ fr.wanted ≤ 2147483647 := by
  have hr := min_le_right (toInt32 fr.size) (fr.file_total_size - fr.offset)
  have htot := h.total
  have hfit := (fileEnd_fits t i).2
  unfold Frame.wanted
  omega

/-- A wanted byte lies inside the file. -/
theorem Reading.lt_length (h : Reading t fr i) (hk : k < fr.wanted.toNat) :
    fr.offset + k < (fileBytes t i).length := by
  have hw := h.wanted_le.1
  have he := fileEnd_le t i
  omega

/-- A wanted byte lies inside the torrent. -/
theorem Reading.pos_lt (h : Reading t fr i) (hk : k < fr.wanted.toNat) :
    pos t fr i k < t.content.length := by
  have hl := h.lt_length hk
  rw [fileBytes_eq h.index_lt] at hl
  have hs := t.fileStart_add_length_le h.index_lt
  unfold pos
  omega

theorem Reading.pieceAt_lt (h : Reading t fr i) (hk : k < fr.wanted.toNat) :
    pieceAt t fr i k < t.numPieces := t.div_lt_numPieces (h.pos_lt hk)

end Bounds

/-! ## One round -/

section Round

variable {fr : Frame} {i k : Nat}

/-- Both loops start with nothing passed. -/
theorem Reading.restart (h : Reading t fr i) : fr.restart = some (fr.passed 0) := by
  simp [Frame.restart, Frame.passed, h.amount, h.toInt32_offset]

theorem at_passed (hk : k ≤ fr.wanted.toNat) : At (fr.passed k) k := ⟨rfl, rfl, hk⟩

theorem Reading.passed (h : Reading t fr i) (k : Nat) : Reading t (fr.passed k) i := { h with }

/-- `map_file` finds the piece of the next byte. -/
theorem At.mapFile (hat : At fr k) (h : Reading t fr i) (hmore : 0 < fr.remaining_size) :
    Located t (fr.mapFile lt) i k := by
  have hk : k < fr.wanted.toNat := by have := hat.rem; omega
  have hlen := h.lt_length hk
  rw [fileBytes_eq h.index_lt] at hlen
  have hmap := lt.map_file_eq i (fr.offset + k) fr.remaining_size h.index_lt hlen
  have hcurr : fr.curr_offset = ((fr.offset + k : Nat) : Int) := by rw [hat.curr]; push_cast; rfl
  have hpiece : (lt.map_file fr.file_index fr.curr_offset fr.remaining_size).piece =
      pieceAt t fr i k := by
    rw [hcurr, h.file_index]
    exact hmap.1
  refine ⟨⟨hat.curr, hat.rem, hat.le⟩, hk, hpiece, ?_, ?_⟩
  · change (lt.map_file fr.file_index fr.curr_offset fr.remaining_size).start = _
    rw [hcurr, h.file_index]
    exact hmap.2
  · change lt.piece_size (lt.map_file fr.file_index fr.curr_offset fr.remaining_size).piece = _
    rw [hpiece]
    exact lt.piece_size_eq _ (h.pieceAt_lt hk)

/-- The bytes one round passes: to the end of the piece or of the request. -/
def roundSize (t : Torrent) (fr : Frame) (i k : Nat) : Nat :=
  min ((t.pieceBytes (pieceAt t fr i k)).length - pos t fr i k % t.pieceLength)
    (fr.wanted.toNat - k)

/-- A round makes progress and stays inside the piece and the request. -/
theorem Located.roundSize_bounds (hloc : Located t fr i k) (h : Reading t fr i) :
    1 ≤ roundSize t fr i k ∧ k + roundSize t fr i k ≤ fr.wanted.toNat ∧
      pos t fr i k % t.pieceLength + roundSize t fr i k ≤
        (t.pieceBytes (pieceAt t fr i k)).length := by
  have hmod := t.mod_lt_pieceBytes_length (h.pos_lt hloc.more)
  have hmore := hloc.more
  unfold roundSize pieceAt
  omega

/-- `read_size` is computed without overflow. -/
theorem Located.readSize (hloc : Located t fr i k) (h : Reading t fr i) :
    fr.readSize = some (roundSize t fr i k : Int) := by
  have hmod := t.mod_lt_pieceBytes_length (h.pos_lt hloc.more)
  have hle := t.pieceBytes_length_le (pieceAt t fr i k)
  have hpl := t.pieceLength_fits
  have hsize : fr.piece_size - fr.pr.start =
      ((t.pieceBytes (pieceAt t fr i k)).length - pos t fr i k % t.pieceLength : Nat) := by
    rw [hloc.piece_size, hloc.start]
    unfold pieceAt
    omega
  have hfit : Fits32 (fr.piece_size - fr.pr.start) := by
    rw [hsize]
    exact ⟨by omega, by omega⟩
  have hrem : fr.remaining_size = ((fr.wanted.toNat - k : Nat) : Int) := by
    have := hloc.rem
    have := hloc.more
    omega
  unfold Frame.readSize roundSize
  rw [checked32_of_fits hfit, hsize, hrem, Option.map_some, ← Nat.cast_min]

/-- The bytes of one round lie in one piece. -/
theorem Located.pieceAt_eq (hloc : Located t fr i k) (h : Reading t fr i) {j : Nat}
    (hj : j < roundSize t fr i k) : pieceAt t fr i (k + j) = pieceAt t fr i k := by
  have hb := (hloc.roundSize_bounds h).2.2
  have hle := t.pieceBytes_length_le (pieceAt t fr i k)
  have hd := Nat.div_add_mod (pos t fr i k) t.pieceLength
  have hpos : pos t fr i (k + j) = pos t fr i k + j := by unfold pos; omega
  unfold pieceAt
  rw [hpos, Nat.div_eq_iff t.pieceLength_pos]
  have hc := Nat.mul_comm t.pieceLength (pos t fr i k / t.pieceLength)
  constructor <;> omega

/-- `curr_offset` and `remaining_size` move without overflow. -/
theorem Located.advance (hloc : Located t fr i k) (h : Reading t fr i) :
    fr.advance (roundSize t fr i k) = some (fr.passed (k + roundSize t fr i k)) := by
  have hb := hloc.roundSize_bounds h
  have hw := h.wanted_le
  have ho := h.offset_lt
  have hfit := (fileEnd_fits t i).2
  have hcurr := hloc.curr
  have hrem := hloc.rem
  unfold Frame.advance Frame.passed
  rw [checked32_of_fits ⟨by omega, by omega⟩, checked32_of_fits ⟨by omega, by omega⟩, hcurr, hrem]
  simp only [Option.bind_eq_bind, Option.bind_some, Option.pure_def, Option.some.injEq]
  congr 1 <;> push_cast <;> ring

/-- The end of a round of the first loop. -/
theorem Located.skipPiece (hloc : Located t fr i k) (h : Reading t fr i) :
    fr.skipPiece = some (fr.passed (k + roundSize t fr i k)) := by
  unfold Frame.skipPiece
  rw [hloc.readSize h]
  exact hloc.advance h

end Round

/-! ## The copies -/

section Copy

variable {fr : Frame} {i k : Nat}

/-- A round of the second loop copies the next bytes of the piece behind the
bytes already there. -/
theorem Located.copyPiece_eq (hloc : Located t fr i k) (h : Reading t fr i)
    (hptr : fr.read_ptr = k) {src : List UInt8} :
    fr.copyPiece src =
      (memcpy fr.temp_buf 0 src 0 fr.piece_size).bind fun temp =>
        (memcpy fr.buf k temp fr.pr.start (roundSize t fr i k)).map fun out =>
          fr.copied temp out (k + roundSize t fr i k) := by
  have hfit : Fits32 ((k : Int) + (roundSize t fr i k : Nat)) := by
    have hb := hloc.roundSize_bounds h
    have hw := h.wanted_le
    exact ⟨by omega, by omega⟩
  unfold Frame.copyPiece Frame.copied
  rw [hloc.readSize h, hptr]
  simp only [Option.bind_eq_bind, Option.bind_some, hloc.advance h, checked32_of_fits hfit,
    Option.pure_def, Nat.cast_add, Option.map_eq_bind, Function.comp_def]

/-- With the real bytes of the piece both copies stay in bounds. -/
theorem Located.copies_isSome (hloc : Located t fr i k) (h : Reading t fr i)
    (htemp : fr.temp_buf.length = t.pieceLength) (hbuf : fr.wanted.toNat ≤ fr.buf.length) :
    ∃ temp out,
      memcpy fr.temp_buf 0 (t.pieceBytes (pieceAt t fr i k)) 0 fr.piece_size = some temp ∧
      memcpy fr.buf k temp fr.pr.start (roundSize t fr i k) = some out := by
  have hb := hloc.roundSize_bounds h
  have hle := t.pieceBytes_length_le (pieceAt t fr i k)
  obtain ⟨temp, ht⟩ : ∃ temp, memcpy fr.temp_buf (0 : Nat) (t.pieceBytes (pieceAt t fr i k))
      (0 : Nat) (t.pieceBytes (pieceAt t fr i k)).length = some temp :=
    ⟨_, memcpy_of_bounds (by omega) (by omega)⟩
  have htl := memcpy_length ht
  rw [hloc.piece_size, hloc.start]
  exact ⟨temp, _, ht, memcpy_of_bounds (by omega) (by omega)⟩

/-- The bytes a round copies are the next bytes of the file. -/
theorem Located.copied_bytes (hloc : Located t fr i k) (h : Reading t fr i)
    {temp out : List UInt8}
    (htemp : memcpy fr.temp_buf 0 (t.pieceBytes (pieceAt t fr i k)) 0 fr.piece_size = some temp)
    (hout : memcpy fr.buf k temp fr.pr.start (roundSize t fr i k) = some out) :
    out.take (k + roundSize t fr i k) =
        fr.buf.take k ++ slice (fileBytes t i) (fr.offset + k) (roundSize t fr i k) ∧
      out.drop (k + roundSize t fr i k) = fr.buf.drop (k + roundSize t fr i k) := by
  have hb := hloc.roundSize_bounds h
  have hw := h.wanted_le.1
  have he := fileEnd_le t i
  rw [hloc.start] at hout
  have hcopy : memcpy fr.temp_buf (0 : Nat) (t.pieceBytes (pieceAt t fr i k)) (0 : Nat)
      (t.pieceBytes (pieceAt t fr i k)).length = some temp := by
    simpa only [Nat.cast_zero, ← hloc.piece_size] using htemp
  have htake := memcpy_take hcopy
  rw [Nat.zero_add, List.take_zero, List.nil_append, slice_all] at htake
  have hwin : slice temp (pos t fr i k % t.pieceLength) (roundSize t fr i k) =
      slice (t.pieceBytes (pieceAt t fr i k)) (pos t fr i k % t.pieceLength)
        (roundSize t fr i k) := by
    have hs := slice_slice temp (p := 0) (m := (t.pieceBytes (pieceAt t fr i k)).length) hb.2.2
    have hz : slice temp 0 (t.pieceBytes (pieceAt t fr i k)).length =
        t.pieceBytes (pieceAt t fr i k) := htake
    rw [Nat.zero_add, hz] at hs
    exact hs.symm
  have hfile := t.slice_content_file h.index_lt
  refine ⟨?_, memcpy_drop hout⟩
  rw [memcpy_take hout, hwin, pieceAt, t.slice_pieceBytes hb.2.2, fileBytes_eq h.index_lt, pos,
    ← hfile, slice_slice _ (by rw [fileBytes_eq h.index_lt] at he; omega)]

end Copy

end BitFS.Read
