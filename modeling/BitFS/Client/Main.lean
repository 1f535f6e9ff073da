import BitFS.Client.Handshake
import BitFS.Client.Peer
import BitFS.Client.Reassembly
import BitFS.Client.Requests

/-! # The program of the client

`main` from the connection on: the handshake, the messages of the client, and the
loop that gets the pieces and writes them to `/tmp/file.txt`, which is opened
without `O_TRUNC`.
-/

namespace BitFS.Client

open MachineInt Memory BigEndian Tiling Framing

variable {β : Type}

/-- A file and the position of its descriptor. -/
structure OpenFile (β : Type) where
  bytes : List (Option β)
  position : Nat

/-- `write(fd, data, n)` that takes `k` of the `n` bytes at `data`. -/
def OpenFile.write (file : OpenFile β) (data : List (Option β)) (k : Nat) : OpenFile β where
  bytes := file.bytes.take file.position ++ data.take k ++ file.bytes.drop (file.position + k)
  position := file.position + k

/-- The `write` of round `i`, of which the system takes as many bytes as `taken` says. It fails
without a file, and with a negative size, which as a `size_t` is too large for it. -/
def writePiece (i : Int) (m : MetainfoInfo) (data : List (Option β)) (taken : Nat)
    (file : Option (OpenFile β)) : Except Stop (Option (OpenFile β)) :=
  match file, pieceSize i m with
  | _, none => .error .undefined
  | none, some _ => .ok none
  | some file, some size =>
    if size < 0 then .ok (some file)
    else if size ≤ data.length then .ok (some (file.write data (min taken size.toNat)))
    else .error .undefined

/-- The first `n` rounds of the loop of `main`. -/
def mainLoop (m : MetainfoInfo) (taken : Nat → Nat) :
    Nat → Socket β → Option (OpenFile β) → Except Stop (Socket β × Option (OpenFile β))
  | 0, sock, file => .ok (sock, file)
  | i + 1, sock, file => do
      let (sock, file) ← mainLoop m taken i sock file
      let (data, sock) ← getPiece sock i m
      let file ← writePiece i m data (taken i) file
      pure (sock, file)

/-- `main` from the connection on. `file` is what `/tmp/file.txt` holds when it is opened, nothing
if that fails; the loop goes round once. -/
def mainDownload (sock : Socket UInt8) (m : MetainfoInfo) (file : Option (List (Option UInt8)))
    (taken : Nat → Nat) : Except Stop (Socket UInt8 × Option (List (Option UInt8))) := do
  let (_, _, sock) ← mainHandshake sock m
  let (sock, file) ← mainLoop m taken 1 sock (file.map fun bytes => ⟨bytes, 0⟩)
  pure (sock, file.map OpenFile.bytes)

/-! ## The two reads -/

section Reads

variable {sock sock' : Socket UInt8} {m : MetainfoInfo} {request : List UInt8}
  {hresponse mbuf : List (Option UInt8)}

theorem Socket.Flowing.read_keeps {sock sock' : Socket β} (h : sock.Flowing) {n : Nat} {nread : Int}
    {bytes : List β} (hread : sock.read n = some (nread, bytes, sock')) : sock'.Flowing := by
  by_cases hnil : sock.stream = []
  · cases hin : sock.incoming with
    | nil =>
        simp only [Socket.read, hin] at hread
        cases hread
    | cons a rest =>
        obtain ⟨b, bs, rfl⟩ := h a (by simp [hin])
        simp [stream, hin, Arrival.bytes] at hnil
  · have hready := (h.read_ready hnil n).1
    rw [hread, Option.some.injEq, Prod.mk.injEq, Prod.mk.injEq] at hready
    rw [hready.2.2]
    exact h.skip n

theorem tcpRecv_flowing {sock sock' : Socket β} (h : sock.Flowing)
    {buf buf' : List (Option β)} {pos n nrecv : Int}
    (hrecv : tcpRecv sock buf pos n = .ok (nrecv, buf', sock')) : sock'.Flowing := by
  unfold tcpRecv at hrecv
  split at hrecv
  · cases hrecv
  · rename_i hread
    split at hrecv
    · cases hrecv
    · simp only [Except.ok.injEq, Prod.mk.injEq] at hrecv
      rw [← hrecv.2.2]
      exact h.read_keeps hread

/-- A handshake that returns has sent the own one. -/
theorem btHandshake_keeps (hreq : handshakeRequest m = some request)
    (h : btHandshake sock m = .ok (hresponse, sock')) :
    sock.Wrote [request] sock' ∧ (sock.Flowing → sock'.Flowing) := by
  simp only [btHandshake, hreq] at h
  cases hrecv : tcpRecv (tcpSend sock request).2 (request.map some ++ List.replicate 60 (some 0))
      0 68 with
  | error e =>
      rw [hrecv] at h
      cases h
  | ok res =>
      obtain ⟨nrecv, buf, sock1⟩ := res
      rw [hrecv] at h
      cases h
      have hflow (hf : sock.Flowing) : (tcpSend sock request).2.Flowing := hf
      exact ⟨(tcpSend_wrote sock request).trans (tcpRecv_keeps hrecv).2,
        fun hf => tcpRecv_flowing (hflow hf) hrecv⟩

/-- What `main` has sent when it comes to its loop. -/
theorem mainHandshake_keeps (hreq : handshakeRequest m = some request)
    (h : mainHandshake sock m = .ok (hresponse, mbuf, sock')) :
    sock.Wrote [request, Message.unchoke.encode, Message.interested.encode] sock' ∧
      (sock.Flowing → sock'.Flowing) := by
  unfold mainHandshake at h
  cases hshake : btHandshake sock m with
  | error e =>
      rw [hshake] at h
      cases h
  | ok res =>
      obtain ⟨response, sock1⟩ := res
      obtain ⟨hwrote, hflow⟩ := btHandshake_keeps hreq hshake
      rw [hshake] at h
      simp only [bind, Except.bind, btSendMessage, Prod.map, btUnchoke, btInterested, btMessage]
        at h
      split at h
      · cases h
      · rename_i hrecv
        cases h
        have hflow' (hf : sock.Flowing) :
            (tcpSend (tcpSend sock1 (be32 1 ++ [1])).2 (be32 1 ++ [2])).2.Flowing := hflow hf
        have hsends := (tcpSend_wrote sock1 (be32 1 ++ [1])).trans (tcpSend_wrote _ (be32 1 ++ [2]))
        exact ⟨hwrote.trans (hsends.trans (tcpRecv_keeps hrecv).2),
          fun hf => tcpRecv_flowing (hflow' hf) hrecv⟩

end Reads

/-! ## What is sent -/

section Sends

variable {m : MetainfoInfo} {fl pl : Nat} {taken : Nat → Nat}

/-- A loop that returns has sent the requests of its pieces. -/
theorem mainLoop_sends (hm : m.Sized fl pl) (n : Nat)
    {sock sock' : Socket β} {file file' : Option (OpenFile β)}
    (h : mainLoop m taken n sock file = .ok (sock', file')) :
    sock.Wrote ((requests fl pl n).map request) sock' := by
  induction n generalizing sock' file' with
  | zero =>
      cases h
      exact .refl sock
  | succ n ih =>
      simp only [mainLoop, bind, Except.bind] at h
      split at h
      · cases h
      · rename_i res hloop
        obtain ⟨sock1, file1⟩ := res
        have hwrote := ih hloop
        rcases getPiece_spec sock1 hm n with ⟨buf, sock2, hpiece, hwrote', -⟩ | ⟨e, hpiece, -⟩
        · simp only [hpiece] at h
          split at h
          · cases h
          · cases h
            rw [requests_succ, List.map_append, List.map_map]
            exact hwrote.trans hwrote'
        · simp only [hpiece] at h
          cases h

/-- The message that asks for a block. -/
def requestMessage (r : Nat × Nat × Nat) : Message :=
  .request (.ofNat r.1) (.ofNat r.2.1) (.ofNat r.2.2)

theorem request_eq_encode (r : Nat × Nat × Nat) : request r = (requestMessage r).encode := by
  have hmod (k : Nat) : ((k : Int) % 4294967296).toNat = (UInt32.ofNat k).toNat := by
    rw [UInt32.toNat_ofNat']
    omega
  simp only [request, blockRequest, requestBytes, requestMessage, Message.encode, hmod]

/-- The message of `bt_handshake`. -/
def ownHandshake (infohash : List UInt8) : List UInt8 :=
  [0x13] ++ protocolName ++ List.replicate 8 0 ++ infohash ++ clientId

theorem ownHandshake_length {infohash : List UInt8} (h : infohash.length = 20) :
    (ownHandshake infohash).length = 68 := by
  simp [ownHandshake, protocolName, clientId, h]

theorem handshakeRequest_eq (h : m.infohash.length = 20) :
    handshakeRequest m = some (ownHandshake m.infohash) := by
  have hhash : m.infohash.take 20 = m.infohash := List.take_of_length_le h.le
  simp [handshakeRequest, ownHandshake, memcpy, slice, protocolName, clientId, h, hhash,
    List.drop_append]

/-- The messages of the client behind the handshake, with the requests for these blocks of the
first piece. -/
def ownMessages (blocks : List (Nat × Nat)) : List Message :=
  .unchoke :: .interested :: blocks.map fun r => requestMessage (0, r)

theorem ownMessages_encode_length {blocks : List (Nat × Nat)} :
    ∀ msg ∈ ownMessages blocks, msg.encode.length ≤ 17 := by
  intro msg hmsg
  simp only [ownMessages, List.mem_cons, List.mem_map] at hmsg
  rcases hmsg with rfl | rfl | ⟨r, -, rfl⟩
  · decide
  · decide
  · exact Nat.le_refl 17

theorem ownMessages_fit {blocks : List (Nat × Nat)} :
    ∀ msg ∈ ownMessages blocks, msg.body.length < 4294967296 := by
  intro msg hmsg
  have hlen := ownMessages_encode_length msg hmsg
  rw [Message.body, List.length_drop]
  omega

/-- What is handed to `write` from the connection on. -/
theorem mainDownload_sends (hm : m.Sized fl pl) (hhash : m.infohash.length = 20)
    {sock sock' : Socket UInt8} {file file' : Option (List (Option UInt8))}
    (h : mainDownload sock m file taken = .ok (sock', file')) :
    sock.Wrote (ownHandshake m.infohash :: (ownMessages (pieceBlocks fl pl 0)).map Message.encode)
      sock' := by
  unfold mainDownload at h
  cases hshake : mainHandshake sock m with
  | error e =>
      rw [hshake] at h
      cases h
  | ok res =>
      obtain ⟨hresponse, mbuf, sock1⟩ := res
      have hwrote := (mainHandshake_keeps (handshakeRequest_eq hhash) hshake).1
      rw [hshake] at h
      simp only [bind, Except.bind] at h
      split at h
      · cases h
      · rename_i res hloop
        obtain ⟨sock2, file2⟩ := res
        cases h
        have hrequests : (requests fl pl 1).map request =
            ((pieceBlocks fl pl 0).map fun r => requestMessage (0, r)).map Message.encode := by
          simp [requests, request_eq_encode, Function.comp_def]
        have hsends := mainLoop_sends hm 1 hloop
        rw [hrequests] at hsends
        exact hwrote.trans hsends

/-- What a peer reads of it on a new connection. -/
theorem peerReads_delivered {infohash : List UInt8} (hhash : infohash.length = 20)
    {blocks : List (Nat × Nat)} {sock : Socket β}
    (hsent : sock.sent = ownHandshake infohash :: (ownMessages blocks).map Message.encode) :
    peerReads sock.delivered = ⟨ownHandshake infohash, (ownMessages blocks).map some, []⟩ ↔
      sock.Complete := by
  rw [peerReads_iff (ownHandshake_length hhash) ownMessages_fit, ← sock.delivered_eq_iff, hsent,
    List.flatten_cons, List.flatMap_def]

end Sends

/-! ## What is written -/

section Writes

variable {m : MetainfoInfo} {fl pl : Nat}

/-- The bytes that the first `n` rounds put into the file. -/
def written (taken : Nat → Nat) (fl pl : Nat) (stream : List β) (n : Nat) : List β :=
  (List.range n).flatMap fun i =>
    (payloads (stream.drop (answersLength fl pl i)) (pieceBlocks fl pl i)).take (taken i)

theorem written_succ (taken : Nat → Nat) (fl pl : Nat) (stream : List β) (n : Nat) :
    written taken fl pl stream (n + 1) = written taken fl pl stream n ++
      (payloads (stream.drop (answersLength fl pl n)) (pieceBlocks fl pl n)).take (taken n) := by
  simp [written, List.range_succ]

/-- The payloads are as many bytes as the blocks ask for. -/
theorem payloads_length {stream : List β} {blocks : List (Nat × Nat)} {a e : Nat}
    (htiles : Tiles a blocks e) (h : wireLength blocks ≤ stream.length) :
    a + (payloads stream blocks).length = e := by
  induction blocks generalizing stream a with
  | nil => exact htiles
  | cons r blocks ih =>
      obtain ⟨rfl, htail⟩ := htiles
      rw [wireLength_cons] at h
      have hlen : (slice stream 13 r.2).length = r.2 := slice_length_of_le (by omega)
      have hshort : wireLength blocks ≤ (stream.drop (r.2 + 13)).length := by
        rw [List.length_drop]
        omega
      have hrest := ih htail hshort
      rw [payloads, List.length_append, hlen]
      omega

theorem answersLength_succ (fl pl n : Nat) :
    answersLength fl pl (n + 1) = answersLength fl pl n + wireLength (pieceBlocks fl pl n) := by
  simp [answersLength, List.range_succ]

/-- A file of which the first bytes have been written. -/
def OpenFile.overwrite (front old : List (Option β)) : OpenFile β where
  bytes := front ++ old.drop front.length
  position := front.length

theorem OpenFile.write_overwrite (front old data : List (Option β)) {k : Nat}
    (hk : k ≤ data.length) :
    (overwrite front old).write data k = overwrite (front ++ data.take k) old := by
  have hlen : (front ++ data.take k).length = front.length + k := by
    rw [List.length_append, List.length_take_of_le hk]
  unfold overwrite write
  dsimp only
  rw [List.take_left, ← List.drop_drop, List.drop_left, List.drop_drop, hlen]

/-- The `write` of a piece behind what is already there. -/
theorem writePiece_overwrite (hm : m.Sized fl pl) (taken : Nat) {p : Nat} {stream : List β}
    (hstream : wireLength (pieceBlocks fl pl p) ≤ stream.length) {front old : List (Option β)} :
    writePiece p m ((payloads stream (pieceBlocks fl pl p)).map some ++
        List.replicate (pl - sizeOf fl pl p) none) taken (some (.overwrite front old)) =
      .ok (some (.overwrite (front ++
        ((payloads stream (pieceBlocks fl pl p)).take taken).map some) old)) := by
  have hsize : (payloads stream (pieceBlocks fl pl p)).length = sizeOf fl pl p := by
    have htiled := payloads_length (pieceBlocks_tiles fl pl p) hstream
    rwa [Nat.zero_add] at htiled
  rcases lt_or_ge (p : Int) m.num_pieces with hp | hp
  · obtain ⟨piece, hpay⟩ : ∃ piece, piece = payloads stream (pieceBlocks fl pl p) := ⟨_, rfl⟩
    rw [← hpay] at hsize ⊢
    have hmap : (piece.map (some (α := β))).length = sizeOf fl pl p := by
      rw [List.length_map, hsize]
    have hroom : sizeOf fl pl p ≤
        (piece.map some ++ List.replicate (pl - sizeOf fl pl p) (none : Option β)).length := by
      rw [List.length_append, hmap]
      omega
    have htake : (piece.map some ++ List.replicate (pl - sizeOf fl pl p) none).take
        (min taken (sizeOf fl pl p)) = (piece.take taken).map some := by
      rw [List.take_append_of_le_length (by omega), ← List.map_take, ← hsize,
        ← List.take_eq_take_min]
    simp only [writePiece, hm.pieceSize_eq hp, Int.toNat_natCast]
    rw [if_neg (by omega), if_pos (by omega), OpenFile.write_overwrite _ _ _ (by omega), htake]
  · have hsize : pieceSize p m = some (-1) := if_pos hp
    rw [pieceBlocks_behind (hm.le_iff.mp hp)]
    simp only [writePiece, hsize, payloads, List.take_nil, List.map_nil, List.append_nil]
    rfl

/-- The loop on flowing data. -/
theorem mainLoop_writes (hm : m.Sized fl pl) (taken : Nat → Nat) (n : Nat)
    {sock : Socket β} (hflow : sock.Flowing)
    (hlen : answersLength fl pl n ≤ sock.stream.length) (old : List (Option β)) :
    ∃ sock', mainLoop m taken n sock (some (.overwrite [] old)) =
        .ok (sock', some (.overwrite ((written taken fl pl sock.stream n).map some) old)) ∧
      sock'.stream = sock.stream.drop (answersLength fl pl n) ∧ sock'.Flowing := by
  induction n with
  | zero => exact ⟨sock, rfl, rfl, hflow⟩
  | succ n ih =>
      rw [answersLength_succ] at hlen ⊢
      obtain ⟨sock1, hloop, hstream1, hflow1⟩ := ih (by omega)
      have hrest : wireLength (pieceBlocks fl pl n) ≤ sock1.stream.length := by
        rw [hstream1, List.length_drop]
        omega
      rcases getPiece_flowing hflow1 hm n with
        ⟨-, sock2, hpiece, hstream2, -, hflow2⟩ | ⟨hshort, -⟩
      · rw [hstream1] at hpiece hrest
        refine ⟨sock2, ?_, ?_, hflow2⟩
        · simp only [mainLoop, hloop, bind, Except.bind, hpiece,
            writePiece_overwrite hm (taken n) hrest]
          rw [written_succ, List.map_append]
          rfl
        · rw [hstream2, hstream1, List.drop_drop]
      · omega

section FirstPiece

variable {torrent : List β} (hlen : torrent.length = fl) (header : Nat × Nat → PieceHeader β)
include hlen

theorem firstPiece_length : (torrent.take pl).length = sizeOf fl pl 0 := by
  rw [sizeOf, List.length_take, hlen, Nat.mul_zero, Nat.sub_zero, Nat.min_comm]

theorem firstPiece_blocks : ∀ r ∈ pieceBlocks fl pl 0, r.1 + r.2 ≤ (torrent.take pl).length := by
  intro r hr
  have hbound := (blocksFrom_bounds hr).2.2
  rw [firstPiece_length hlen]
  omega

/-- The answers to the requests of the first piece. -/
theorem firstPiece_answers :
    (answers header (torrent.take pl) (pieceBlocks fl pl 0)).length = answersLength fl pl 1 := by
  rw [answers_length header (firstPiece_blocks hlen), answersLength_succ]
  exact (Nat.zero_add _).symm

theorem written_one (taken : Nat → Nat) (rest : List β) :
    written taken fl pl (answers header (torrent.take pl) (pieceBlocks fl pl 0) ++ rest) 1 =
      torrent.take (min (taken 0) (min fl pl)) := by
  have hzero : written taken fl pl (answers header (torrent.take pl) (pieceBlocks fl pl 0) ++ rest)
      0 = [] := rfl
  have hstart : answersLength fl pl 0 = 0 := rfl
  rw [written_succ, hzero, hstart, List.nil_append, List.drop_zero,
    payloads_answers header (firstPiece_blocks hlen), (pieceBlocks_tiles fl pl 0).flatMap_slice,
    Nat.sub_zero, ← firstPiece_length hlen, slice_all, List.take_take, List.take_eq_take_iff, hlen]
  omega

end FirstPiece

/-- `main` from the connection on when the download starts at a message boundary and the requests
are answered. -/
theorem mainDownload_answered (hm : m.Sized fl pl) (hhash : m.infohash.length = 20)
    {torrent : List UInt8} (hlen : torrent.length = fl) {sock : Socket UInt8}
    (hflow : sock.Flowing) {hs bits rest : List UInt8} (hstart : StartsAtBoundary sock m hs bits)
    (header : Nat × Nat → PieceHeader UInt8)
    (hstream : sock.stream = hs ++ (Message.bitfield bits).encode ++
      (answers header (torrent.take pl) (pieceBlocks fl pl 0) ++ rest))
    (old : List (Option UInt8)) (taken : Nat → Nat) {k : Nat}
    (hk : k = min (taken 0) (min fl pl)) :
    ∃ sock', mainDownload sock m (some old) taken =
        .ok (sock', some ((torrent.take k).map some ++ old.drop k)) ∧ sock'.stream = rest := by
  have hreq := handshakeRequest_eq hhash
  obtain ⟨hresponse, mbuf, sock1, hshake, -, hcut⟩ := hstart
  have hflow1 := (mainHandshake_keeps hreq hshake).2 hflow
  have hstream1 := List.append_cancel_left (hcut.symm.trans hstream)
  have hwire : (answers header (torrent.take pl) (pieceBlocks fl pl 0)).length =
      answersLength fl pl 1 := firstPiece_answers hlen header
  obtain ⟨sock2, hloop, hstream2, -⟩ := mainLoop_writes hm taken 1 hflow1
    (by rw [hstream1, List.length_append, hwire]; omega) old
  have hfront : written taken fl pl (answers header (torrent.take pl) (pieceBlocks fl pl 0) ++
      rest) 1 = torrent.take (min (taken 0) (min fl pl)) := written_one hlen header taken rest
  have htake : (torrent.take k).length = k := List.length_take_of_le (by omega)
  have hopen : some (OpenFile.mk old 0) = some (OpenFile.overwrite [] old) := rfl
  refine ⟨sock2, ?_, ?_⟩
  · simp only [mainDownload, hshake, bind, Except.bind, Option.map_some, hopen, hloop]
    rw [hstream1, hfront, ← hk, OpenFile.overwrite, List.length_map, htake]
    rfl
  · rw [hstream2, hstream1, List.drop_left' hwire]

end Writes

end BitFS.Client
