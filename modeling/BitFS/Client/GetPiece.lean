import BitFS.Client.PieceSize
import BitFS.Client.Socket
import BitFS.Library.BigEndian
import BitFS.Library.Tiling

/-! # Downloading a piece

`get_piece` asks for a piece in blocks of 16 KiB and takes the bytes behind 13
header bytes of whatever arrives next as the answer.
-/

namespace BitFS.Client

open MachineInt Memory BigEndian Tiling

variable {β : Type}

/-- The 17 bytes of a request message. `htonl` keeps the low 32 bits. -/
def requestBytes (index begin length : Int) : List UInt8 :=
  be32 13 ++ [6] ++ be32 (index % 4294967296).toNat ++ be32 (begin % 4294967296).toNat ++
    be32 (length % 4294967296).toNat

/-- The variables of the loop of `get_piece`. -/
structure PieceState (β : Type) where
  sock : Socket β
  piece_buf : List (Option β)
  remaining : Int
  offset : Int

/-- One round of the loop. -/
def PieceState.block (piece : Int) (st : PieceState β) : Except Stop (PieceState β) :=
  let read_size := Client.min st.remaining 16384
  let (_, sock) := tcpSend st.sock (requestBytes piece st.offset read_size)
  match checked32 (read_size + 13) with
  | none => .error .undefined
  | some size => do
      let (blk, sock') ← getBlock sock size
      match memcpy st.piece_buf st.offset blk 13 read_size,
        checked32 (st.remaining - read_size), checkedU32 (st.offset + read_size) with
      | some buf, some remaining, some offset => pure ⟨sock', buf, remaining, offset⟩
      | _, _, _ => .error .undefined

/-- The loop. Every round takes at least one byte off `remaining`. -/
def getPieceLoop (piece : Int) : Nat → PieceState β → Except Stop (PieceState β)
  | fuel, st =>
    if st.remaining > 0 then
      match fuel with
      | 0 => .error .pending
      | fuel + 1 => do
          let st' ← st.block piece
          getPieceLoop piece fuel st'
    else .ok st

def getPiece (sock : Socket β) (piece : Int) (m : MetainfoInfo) :
    Except Stop (List (Option β) × Socket β) :=
  match pieceSize piece m with
  | none => .error .undefined
  | some remaining => do
      let st ← getPieceLoop piece remaining.toNat
        ⟨sock, List.replicate m.piece_length.toNat none, remaining, 0⟩
      pure (st.piece_buf, st.sock)

/-- `get_piece` for the pieces `0 .. n - 1` in turn. -/
def getPieces (m : MetainfoInfo) : Nat → Socket β → Except Stop (Socket β)
  | 0, sock => .ok sock
  | n + 1, sock => do
      let sock' ← getPieces m n sock
      let (_, sock'') ← getPiece sock' n m
      pure sock''

/-! ## The blocks of a piece -/

/-- The blocks, as begin and length, in which `remaining` bytes from `offset` on are fetched. -/
def blocksFrom (offset remaining : Nat) : List (Nat × Nat) :=
  if 0 < remaining then
    (offset, min remaining 16384) ::
      blocksFrom (offset + min remaining 16384) (remaining - min remaining 16384)
  else []
termination_by remaining

theorem blocksFrom_zero (offset : Nat) : blocksFrom offset 0 = [] := by
  rw [blocksFrom, if_neg (Nat.lt_irrefl 0)]

theorem blocksFrom_pos {offset remaining n : Nat} (h : 0 < remaining)
    (hn : n = min remaining 16384) :
    blocksFrom offset remaining = (offset, n) :: blocksFrom (offset + n) (remaining - n) := by
  rw [blocksFrom, if_pos h, hn]

theorem blocksFrom_tiles (offset remaining : Nat) :
    Tiles offset (blocksFrom offset remaining) (offset + remaining) := by
  induction offset, remaining using blocksFrom.induct with
  | case1 offset remaining hpos ih =>
      rw [blocksFrom, if_pos hpos]
      refine ⟨rfl, ?_⟩
      rwa [show offset + min remaining 16384 + (remaining - min remaining 16384) =
        offset + remaining by omega] at ih
  | case2 offset remaining hzero =>
      rw [blocksFrom, if_neg hzero]
      show offset = offset + remaining
      omega

theorem blocksFrom_bounds {offset remaining : Nat} {r : Nat × Nat}
    (hr : r ∈ blocksFrom offset remaining) :
    1 ≤ r.2 ∧ r.2 ≤ 16384 ∧ r.1 + r.2 ≤ offset + remaining := by
  induction offset, remaining using blocksFrom.induct with
  | case1 offset remaining hpos ih =>
      rw [blocksFrom, if_pos hpos] at hr
      rcases List.mem_cons.mp hr with rfl | hmem
      · dsimp only
        omega
      · have := ih hmem
        omega
  | case2 offset remaining hzero =>
      rw [blocksFrom, if_neg hzero] at hr
      cases hr

/-- The bytes that the answers to `blocks` take on the wire. -/
def wireLength (blocks : List (Nat × Nat)) : Nat := (blocks.map fun r => r.2 + 13).sum

@[simp] theorem wireLength_cons (r : Nat × Nat) (blocks : List (Nat × Nat)) :
    wireLength (r :: blocks) = r.2 + 13 + wireLength blocks := rfl

/-- What `get_piece` takes for the payloads: of every answer the bytes behind the header. -/
def payloads : List β → List (Nat × Nat) → List β
  | _, [] => []
  | stream, r :: blocks => slice stream 13 r.2 ++ payloads (stream.drop (r.2 + 13)) blocks

/-! ## One round -/

section Round

variable {st : PieceState β}

theorem PieceState.block_eq (piece : Int) (st : PieceState β)
    {read_size size remaining offset : Int}
    {blk buf : List (Option β)} {sock' : Socket β}
    (hmin : Client.min st.remaining 16384 = read_size)
    (hsize : checked32 (read_size + 13) = some size)
    (hblk : getBlock (tcpSend st.sock (requestBytes piece st.offset read_size)).2 size =
      .ok (blk, sock'))
    (hbuf : memcpy st.piece_buf st.offset blk 13 read_size = some buf)
    (hrem : checked32 (st.remaining - read_size) = some remaining)
    (hoff : checkedU32 (st.offset + read_size) = some offset) :
    st.block piece = .ok ⟨sock', buf, remaining, offset⟩ := by
  simp only [PieceState.block, hmin, hsize, hblk, bind, Except.bind, hbuf, hrem, hoff]
  rfl

theorem PieceState.block_error (piece : Int) (st : PieceState β) {read_size size : Int} {e : Stop}
    (hmin : Client.min st.remaining 16384 = read_size)
    (hsize : checked32 (read_size + 13) = some size)
    (hblk : getBlock (tcpSend st.sock (requestBytes piece st.offset read_size)).2 size = .error e) :
    st.block piece = .error e := by
  simp only [PieceState.block, hmin, hsize, hblk, bind, Except.bind]

/-- A round does what its `get_block` does, and nothing of its own goes out of range. -/
theorem PieceState.block_spec (piece : Int) (st : PieceState β) {o r n : Nat} (hr : 1 ≤ r)
    (hn : n = min r 16384) (hoffset : st.offset = o) (hrem : st.remaining = r)
    (hbuf : o + r ≤ st.piece_buf.length) (hfits : o + r ≤ 2147483647) :
    (∃ blk sock', getBlock (tcpSend st.sock (requestBytes piece o n)).2 (n + 13 : Nat) =
        .ok (blk, sock') ∧
      st.block piece = .ok ⟨sock', st.piece_buf.take o ++ slice blk 13 n ++
        st.piece_buf.drop (o + n), (r - n : Nat), (o + n : Nat)⟩) ∨
    ∃ e, getBlock (tcpSend st.sock (requestBytes piece o n)).2 (n + 13 : Nat) = .error e ∧
      st.block piece = .error e := by
  have hmin : Client.min st.remaining 16384 = (n : Int) := by
    rw [min_eq, hrem]
    omega
  have hsize : checked32 ((n : Int) + 13) = some ((n + 13 : Nat) : Int) := by
    rw [checked32_of_fits ⟨by omega, by omega⟩]
    push_cast
    rfl
  cases hblk : getBlock (tcpSend st.sock (requestBytes piece o n)).2 (n + 13 : Nat) with
  | ok res =>
      obtain ⟨blk, sock'⟩ := res
      have hlen := (getBlock_keeps (by omega) hblk).1
      have hcopy : memcpy st.piece_buf o blk (13 : Nat) n = some _ :=
        memcpy_of_bounds (by omega) (by omega)
      have hrem' : checked32 (st.remaining - n) = some ((r - n : Nat) : Int) := by
        rw [hrem, checked32_of_fits ⟨by omega, by omega⟩, Option.some.injEq]
        omega
      have hoff' : checkedU32 (st.offset + n) = some ((o + n : Nat) : Int) := by
        rw [hoffset, checkedU32_of_fits ⟨by omega, by omega⟩]
        push_cast
        rfl
      rw [← hoffset] at hblk hcopy
      exact Or.inl ⟨blk, sock', rfl, st.block_eq piece hmin hsize hblk hcopy hrem' hoff'⟩
  | error e =>
      rw [← hoffset] at hblk
      exact Or.inr ⟨e, rfl, st.block_error piece hmin hsize hblk⟩

/-- One round on flowing data. -/
theorem PieceState.block_flowing (piece : Int) (h : st.sock.Flowing) {o r n : Nat} (hr : 1 ≤ r)
    (hn : n = min r 16384) (hoffset : st.offset = o) (hrem : st.remaining = r)
    (hbuf : o + r ≤ st.piece_buf.length) (hfits : o + r ≤ 2147483647) :
    (n + 13 ≤ st.sock.stream.length ∧ ∃ sock',
      st.block piece = .ok ⟨sock', st.piece_buf.take o ++ (slice st.sock.stream 13 n).map some ++
          st.piece_buf.drop (o + n), (r - n : Nat), (o + n : Nat)⟩ ∧
      sock'.stream = st.sock.stream.drop (n + 13) ∧
      sock'.sent = st.sock.sent ++ [requestBytes piece o n] ∧ sock'.Flowing) ∨
    (st.sock.stream.length < n + 13 ∧ st.block piece = .error .pending) := by
  have hflow : (tcpSend st.sock (requestBytes piece o n)).2.Flowing := h
  have hstream0 : (tcpSend st.sock (requestBytes piece o n)).2.stream = st.sock.stream := rfl
  have hround := st.block_spec piece hr hn hoffset hrem hbuf hfits
  rcases getBlock_flowing hflow (n := n + 13) (by omega) with
    ⟨hle, sock', hblk, hstream, hsent, hflow'⟩ | ⟨hlt, hblk⟩
  · rw [hstream0] at hle hblk hstream
    have hlen : ((st.sock.stream.take (n + 13)).map (some (α := β))).length = n + 13 := by
      rw [List.length_map, List.length_take_of_le hle]
    have hwin : slice ((st.sock.stream.take (n + 13)).map some ++ List.replicate 128 none) 13 n =
        (slice st.sock.stream 13 n).map some := by
      unfold slice
      rw [List.drop_append_of_le_length (by omega), List.take_append_of_le_length
        (by rw [List.length_drop, hlen]; omega), ← List.map_drop, ← List.map_take,
        List.drop_take, List.take_take, show min n (n + 13 - 13) = n by omega]
    rcases hround with ⟨blk, sock1, hblk', hround⟩ | ⟨e, hblk', -⟩
    · rw [hblk, Except.ok.injEq, Prod.mk.injEq] at hblk'
      obtain ⟨rfl, rfl⟩ := hblk'
      rw [hwin] at hround
      exact Or.inl ⟨hle, sock', hround, hstream, hsent, hflow'⟩
    · rw [hblk] at hblk'
      cases hblk'
  · rw [hstream0] at hlt
    rcases hround with ⟨blk, sock1, hblk', -⟩ | ⟨e, hblk', hround⟩
    · rw [hblk] at hblk'
      cases hblk'
    · rw [hblk, Except.error.injEq] at hblk'
      rw [← hblk'] at hround
      exact Or.inr ⟨hlt, hround⟩

end Round

/-! ## All rounds -/

section Rounds

/-- The request for a block. -/
def blockRequest (piece : Int) (r : Nat × Nat) : List UInt8 := requestBytes piece r.1 r.2

theorem getPieceLoop_done (piece : Int) (fuel : Nat) {st : PieceState β}
    (h : st.remaining = (0 : Nat)) : getPieceLoop piece fuel st = .ok st := by
  have hstop : ¬ st.remaining > 0 := by omega
  cases fuel with
  | zero => rw [getPieceLoop, if_neg hstop]
  | succ fuel => rw [getPieceLoop, if_neg hstop]

/-- Whatever arrives, a loop that returns has sent the requests of its blocks, and unless a
`read` fails nothing goes out of range. -/
theorem getPieceLoop_spec (piece : Int) (fuel : Nat) (st : PieceState β) {o r : Nat}
    (hfuel : r ≤ fuel) (hoffset : st.offset = o) (hrem : st.remaining = r)
    (hbuf : o + r ≤ st.piece_buf.length) (hfits : o + r ≤ 2147483647) :
    (∃ st', getPieceLoop piece fuel st = .ok st' ∧
      st.sock.Wrote ((blocksFrom o r).map (blockRequest piece)) st'.sock ∧
      (st.sock.Unbroken → st'.sock.Unbroken)) ∨
    ∃ e, getPieceLoop piece fuel st = .error e ∧ (st.sock.Unbroken → e = .pending) := by
  induction fuel generalizing st o r with
  | zero =>
      obtain rfl : r = 0 := by omega
      rw [blocksFrom_zero, getPieceLoop_done piece _ hrem]
      exact Or.inl ⟨st, rfl, .refl st.sock, id⟩
  | succ fuel ih =>
      by_cases h0 : r = 0
      · subst h0
        rw [blocksFrom_zero, getPieceLoop_done piece _ hrem]
        exact Or.inl ⟨st, rfl, .refl st.sock, id⟩
      · obtain ⟨n, hn⟩ : ∃ n, n = min r 16384 := ⟨_, rfl⟩
        have hblocks : blocksFrom o r = (o, n) :: blocksFrom (o + n) (r - n) :=
          blocksFrom_pos (by omega) hn
        have hunbroken (h : st.sock.Unbroken) := getBlock_unbroken (n := n + 13)
          (show (tcpSend st.sock (requestBytes piece o n)).2.Unbroken from h) (by omega)
        rw [getPieceLoop, if_pos (by omega), hblocks]
        rcases st.block_spec piece (by omega) hn hoffset hrem hbuf hfits with
          ⟨blk, sock', hblk, hround⟩ | ⟨e, hblk, hround⟩
        · obtain ⟨hlen, hkeep⟩ := getBlock_keeps (by omega) hblk
          have hwrote := (tcpSend_wrote st.sock (requestBytes piece o n)).trans hkeep
          have hun : st.sock.Unbroken → sock'.Unbroken := by
            intro h
            rcases hunbroken h with ⟨blk1, sock1, hblk1, h1⟩ | hblk1
            · rw [hblk, Except.ok.injEq, Prod.mk.injEq] at hblk1
              exact hblk1.2 ▸ h1
            · rw [hblk] at hblk1
              cases hblk1
          have hbuf' : o + n + (r - n) ≤ (st.piece_buf.take o ++ slice blk 13 n ++
              st.piece_buf.drop (o + n)).length := by
            rw [List.length_append, List.length_append, List.length_take_of_le (by omega),
              slice_length_of_le (by omega), List.length_drop]
            omega
          rw [hround]
          simp only [bind, Except.bind]
          rcases ih ⟨sock', st.piece_buf.take o ++ slice blk 13 n ++ st.piece_buf.drop (o + n),
            (r - n : Nat), (o + n : Nat)⟩ (by omega) rfl rfl hbuf' (by omega) with
            ⟨st', hrun, hwrote', hun'⟩ | ⟨e, hrun, hstop⟩
          · exact Or.inl ⟨st', hrun, hwrote.trans hwrote', hun' ∘ hun⟩
          · exact Or.inr ⟨e, hrun, hstop ∘ hun⟩
        · refine Or.inr ⟨e, by rw [hround]; rfl, ?_⟩
          intro h
          rcases hunbroken h with ⟨blk1, sock1, hblk1, -⟩ | hblk1
          · rw [hblk] at hblk1
            cases hblk1
          · rw [hblk, Except.error.injEq] at hblk1
            exact hblk1

theorem PieceState.done (st : PieceState β) {o : Nat} (hoffset : st.offset = o)
    (hrem : st.remaining = (0 : Nat)) :
    st = ⟨st.sock, st.piece_buf.take o ++ (payloads st.sock.stream []).map some ++
      st.piece_buf.drop (o + 0), (0 : Nat), (o + 0 : Nat)⟩ := by
  rw [payloads, List.map_nil, List.append_nil, Nat.add_zero, List.take_append_drop, ← hoffset,
    ← hrem]

/-- All rounds: the loop sends the requests of its blocks and puts what it takes for the
payloads behind what is already there. -/
theorem getPieceLoop_flowing (piece : Int) (fuel : Nat) {st : PieceState β}
    (h : st.sock.Flowing) {o r : Nat} (hfuel : r ≤ fuel) (hoffset : st.offset = o)
    (hrem : st.remaining = r) (hbuf : o + r ≤ st.piece_buf.length) (hfits : o + r ≤ 2147483647) :
    (wireLength (blocksFrom o r) ≤ st.sock.stream.length ∧ ∃ sock',
      getPieceLoop piece fuel st = .ok ⟨sock', st.piece_buf.take o ++
        (payloads st.sock.stream (blocksFrom o r)).map some ++ st.piece_buf.drop (o + r),
        (0 : Nat), (o + r : Nat)⟩ ∧
      sock'.stream = st.sock.stream.drop (wireLength (blocksFrom o r)) ∧
      sock'.sent = st.sock.sent ++ (blocksFrom o r).map (blockRequest piece) ∧
      sock'.Flowing) ∨
    (st.sock.stream.length < wireLength (blocksFrom o r) ∧
      getPieceLoop piece fuel st = .error .pending) := by
  induction fuel generalizing st o r with
  | zero =>
      obtain rfl : r = 0 := by omega
      rw [blocksFrom_zero, getPieceLoop_done piece _ hrem]
      exact Or.inl ⟨Nat.zero_le _, st.sock, congrArg _ (st.done hoffset hrem), rfl,
        (List.append_nil _).symm, h⟩
  | succ fuel ih =>
      by_cases h0 : r = 0
      · subst h0
        rw [blocksFrom_zero, getPieceLoop_done piece _ hrem]
        exact Or.inl ⟨Nat.zero_le _, st.sock, congrArg _ (st.done hoffset hrem), rfl,
          (List.append_nil _).symm, h⟩
      · obtain ⟨n, hn⟩ : ∃ n, n = min r 16384 := ⟨_, rfl⟩
        have hblocks : blocksFrom o r = (o, n) :: blocksFrom (o + n) (r - n) :=
          blocksFrom_pos (by omega) hn
        rw [getPieceLoop, if_pos (by omega), hblocks, wireLength_cons]
        rcases st.block_flowing piece h (by omega) hn hoffset hrem hbuf hfits with
          ⟨hle, sock', hround, hstream, hsent, hflow⟩ | ⟨hlt, hround⟩
        · have hpay : (slice st.sock.stream 13 n).length = n := slice_length_of_le (by omega)
          have hhead : (st.piece_buf.take o ++ (slice st.sock.stream 13 n).map some).length =
              o + n := by
            rw [List.length_append, List.length_take_of_le (by omega), List.length_map, hpay]
          have hbuf' : o + n + (r - n) ≤ (st.piece_buf.take o ++
              (slice st.sock.stream 13 n).map some ++ st.piece_buf.drop (o + n)).length := by
            rw [List.length_append, hhead, List.length_drop]
            omega
          have hdrop : (st.piece_buf.take o ++ (slice st.sock.stream 13 n).map some ++
              st.piece_buf.drop (o + n)).drop (o + n + (r - n)) = st.piece_buf.drop (o + r) := by
            rw [← List.drop_drop, List.drop_left' hhead, List.drop_drop]
            congr 1
            omega
          rw [hround]
          simp only [bind, Except.bind]
          have hnext : (PieceState.mk sock' (st.piece_buf.take o ++
              (slice st.sock.stream 13 n).map some ++ st.piece_buf.drop (o + n)) (r - n : Nat)
              (o + n : Nat)).sock.Flowing := hflow
          rcases ih hnext (by omega) rfl rfl hbuf' (by omega) with
            ⟨hle', sock'', hrun, hstream', hsent', hflow'⟩ | ⟨hlt, hrun⟩
          · dsimp only at hle' hrun hstream' hsent'
            rw [hstream, List.length_drop] at hle'
            refine Or.inl ⟨by omega, sock'', ?_, ?_, ?_, hflow'⟩
            · rw [hrun, hdrop, hstream, List.take_left' hhead,
                show o + n + (r - n) = o + r by omega,
                payloads, List.map_append, List.append_assoc (st.piece_buf.take o)]
            · rw [hstream', hstream, List.drop_drop]
            · rw [hsent', hsent, List.append_assoc]
              rfl
          · dsimp only at hlt
            rw [hstream, List.length_drop] at hlt
            exact Or.inr ⟨by omega, hrun⟩
        · refine Or.inr ⟨by dsimp only; omega, ?_⟩
          rw [hround]
          rfl

variable {sock : Socket β} {m : MetainfoInfo} {fl pl p : Nat}

/-- The blocks of piece `p`. -/
def pieceBlocks (fl pl p : Nat) : List (Nat × Nat) := blocksFrom 0 (sizeOf fl pl p)

theorem pieceBlocks_tiles (fl pl p : Nat) : Tiles 0 (pieceBlocks fl pl p) (sizeOf fl pl p) := by
  have h := blocksFrom_tiles 0 (sizeOf fl pl p)
  rwa [Nat.zero_add] at h

theorem getPiece_eq (sock : Socket β) {piece remaining : Int} {m : MetainfoInfo}
    (h : pieceSize piece m = some remaining) :
    getPiece sock piece m = (getPieceLoop piece remaining.toNat
      ⟨sock, List.replicate m.piece_length.toNat none, remaining, (0 : Nat)⟩).map
        fun st => (st.piece_buf, st.sock) := by
  simp only [getPiece, h, Nat.cast_zero]
  rfl

theorem pieceBlocks_behind (hp : fl ≤ pl * p) : pieceBlocks fl pl p = [] := by
  rw [pieceBlocks, sizeOf_behind hp, blocksFrom_zero]

/-- For a piece that the torrent does not have `piece_size` is negative, and nothing is asked
for. -/
theorem getPiece_behind (sock : Socket β) (hm : m.Sized fl pl) (hp : m.num_pieces ≤ p) :
    getPiece sock p m = .ok (List.replicate pl none, sock) := by
  have hpl : m.piece_length.toNat = pl := by rw [hm.piece_length, Int.toNat_natCast]
  have hsize : pieceSize p m = some (-1) := if_pos hp
  rw [getPiece_eq sock hsize, hpl]
  rfl

/-- `get_piece` whatever arrives. -/
theorem getPiece_spec (sock : Socket β) (hm : m.Sized fl pl) (p : Nat) :
    (∃ buf sock', getPiece sock p m = .ok (buf, sock') ∧
      sock.Wrote ((pieceBlocks fl pl p).map (blockRequest p)) sock' ∧
      (sock.Unbroken → sock'.Unbroken)) ∨
    ∃ e, getPiece sock p m = .error e ∧ (sock.Unbroken → e = .pending) := by
  rcases lt_or_ge (p : Int) m.num_pieces with hp | hp
  · have hsize := sizeOf_bounds hm.pieceLength_pos (hm.lt_iff.mp hp)
    have hfits := hm.pieceLength_fits
    have hpl : m.piece_length.toNat = pl := by rw [hm.piece_length, Int.toNat_natCast]
    have hbuf : 0 + sizeOf fl pl p ≤ (List.replicate pl (none : Option β)).length := by
      rw [List.length_replicate]
      omega
    rw [getPiece_eq sock (hm.pieceSize_eq hp), Int.toNat_natCast, hpl]
    rcases getPieceLoop_spec p (sizeOf fl pl p) ⟨sock, List.replicate pl none, sizeOf fl pl p,
      (0 : Nat)⟩ le_rfl rfl rfl hbuf (by omega) with
      ⟨st', hrun, hkeep⟩ | ⟨e, hrun, hstop⟩
    · refine Or.inl ⟨st'.piece_buf, st'.sock, ?_, hkeep⟩
      rw [hrun]
      rfl
    · refine Or.inr ⟨e, ?_, hstop⟩
      rw [hrun]
      rfl
  · rw [pieceBlocks_behind (hm.le_iff.mp hp)]
    exact Or.inl ⟨_, sock, getPiece_behind sock hm hp, .refl sock, id⟩

/-- `get_piece` on flowing data. -/
theorem getPiece_flowing (h : sock.Flowing) (hm : m.Sized fl pl) (p : Nat) :
    (wireLength (pieceBlocks fl pl p) ≤ sock.stream.length ∧ ∃ sock',
      getPiece sock p m = .ok ((payloads sock.stream (pieceBlocks fl pl p)).map some ++
        List.replicate (pl - sizeOf fl pl p) none, sock') ∧
      sock'.stream = sock.stream.drop (wireLength (pieceBlocks fl pl p)) ∧
      sock'.sent = sock.sent ++ (pieceBlocks fl pl p).map (blockRequest p) ∧ sock'.Flowing) ∨
    (sock.stream.length < wireLength (pieceBlocks fl pl p) ∧
      getPiece sock p m = .error .pending) := by
  rcases lt_or_ge (p : Int) m.num_pieces with hp | hp
  · have hlt := hm.lt_iff.mp hp
    have hsize := sizeOf_bounds hm.pieceLength_pos hlt
    have hfits := hm.pieceLength_fits
    have hpl : m.piece_length.toNat = pl := by rw [hm.piece_length, Int.toNat_natCast]
    rw [getPiece_eq sock (hm.pieceSize_eq hp), Int.toNat_natCast, hpl]
    have hstart :
        (PieceState.mk sock (List.replicate pl none) (sizeOf fl pl p) (0 : Nat)).sock.Flowing :=
      h
    have hbuf : 0 + sizeOf fl pl p ≤ (List.replicate pl (none : Option β)).length := by
      rw [List.length_replicate]
      omega
    rcases getPieceLoop_flowing p (sizeOf fl pl p) hstart le_rfl rfl rfl hbuf (by omega) with
      ⟨hle, sock', hrun, hstream, hsent, hflow⟩ | ⟨hlt, hrun⟩
    · refine Or.inl ⟨hle, sock', ?_, hstream, hsent, hflow⟩
      rw [hrun, Nat.zero_add, List.take_zero, List.nil_append, List.drop_replicate]
      rfl
    · refine Or.inr ⟨hlt, ?_⟩
      rw [hrun]
      rfl
  · have hbehind := hm.le_iff.mp hp
    rw [pieceBlocks_behind hbehind, sizeOf_behind hbehind]
    exact Or.inl ⟨Nat.zero_le _, sock, getPiece_behind sock hm hp, rfl,
      (List.append_nil _).symm, h⟩

end Rounds

end BitFS.Client
