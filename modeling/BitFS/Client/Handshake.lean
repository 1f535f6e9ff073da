import BitFS.Client.Messages

/-! # From the handshake to the first piece

`bt_handshake` and the bitfield of `main` are each received by a single `read`,
which returns what has arrived of one segment.
-/

namespace BitFS.Client

open MachineInt Memory BigEndian

/-! ## Messages of the client -/

/-- `"BitTorrent protocol"` -/
def protocolName : List UInt8 :=
  [66, 105, 116, 84, 111, 114, 114, 101, 110, 116, 32, 112, 114, 111, 116, 111, 99, 111, 108]

/-- `"-LT112-1234567898765"` -/
def clientId : List UInt8 :=
  [45, 76, 84, 49, 49, 50, 45, 49, 50, 51, 52, 53, 54, 55, 56, 57, 56, 55, 54, 53]

/-- The 68 bytes of `request`: every copy of `bt_handshake` into the zeroed structure. -/
def handshakeRequest (m : MetainfoInfo) : Option (List UInt8) := do
  let request ← memcpy (List.replicate 68 0) 0 [0x13] 0 1
  let request ← memcpy request 1 protocolName 0 19
  let request ← memcpy request 28 m.infohash 0 20
  memcpy request 48 clientId 0 20

/-- The answer is received over the own message in `mbuf`. -/
def btHandshake (sock : Socket UInt8) (m : MetainfoInfo) :
    Except Stop (List (Option UInt8) × Socket UInt8) :=
  match handshakeRequest m with
  | none => .error .undefined
  | some request => do
      let mbuf := request.map some ++ List.replicate 60 (some 0)
      let (_, sock) := tcpSend sock request
      let (_, mbuf, sock) ← tcpRecv sock mbuf 0 68
      pure (mbuf, sock)

inductive MessageType where
  | keepAlive
  | choke
  | unchoke
  | interested
  | notInterested
  | have
  | bitfield
  | request

/-- `bt_choke`, `bt_unchoke` and `bt_interested` differ in the type byte only. -/
def btMessage (bt_type : UInt8) (sock : Socket UInt8) : List UInt8 × Socket UInt8 :=
  let message := be32 1 ++ [bt_type]
  (message ++ List.replicate 11 0, (tcpSend sock message).2)

def btChoke (sock : Socket UInt8) : List UInt8 × Socket UInt8 := btMessage 0 sock

def btUnchoke (sock : Socket UInt8) : List UInt8 × Socket UInt8 := btMessage 1 sock

def btInterested (sock : Socket UInt8) : List UInt8 × Socket UInt8 := btMessage 2 sock

def btSendMessage (sock : Socket UInt8) : MessageType → Option (List UInt8) × Socket UInt8
  | .choke => (btChoke sock).map some id
  | .unchoke => (btUnchoke sock).map some id
  | .interested => (btInterested sock).map some id
  | _ => (none, sock)

/-- `main` between the connection and the first `get_piece`: the handshake of the peer, the
buffer with the bitfield, and the socket. -/
def mainHandshake (sock : Socket UInt8) (m : MetainfoInfo) :
    Except Stop (List (Option UInt8) × List (Option UInt8) × Socket UInt8) := do
  let (hresponse, sock) ← btHandshake sock m
  let (_, sock) := btSendMessage sock .unchoke
  let (_, sock) := btSendMessage sock .interested
  let (_, mbuf, sock) ← tcpRecv sock (List.replicate 1024 none) 0 (m.num_pieces.tdiv 8 + 1 + 5)
  pure (hresponse, mbuf, sock)

/-! ## What the two reads take -/

section Reads

variable {sock : Socket UInt8} {m : MetainfoInfo}

/-- `tcp_recv` to the start of a buffer. -/
theorem tcpRecv_start (h : sock.Flowing) (hne : sock.stream ≠ []) (buf : List (Option UInt8))
    (n : Nat) :
    tcpRecv sock buf 0 n =
      if min n sock.ready ≤ buf.length then
        .ok ((min n sock.ready : Nat), (sock.stream.take (min n sock.ready)).map some ++
          buf.drop (min n sock.ready), sock.skip n)
      else .error .undefined := by
  obtain ⟨hread, -, -, hle⟩ := h.read_ready hne n
  obtain ⟨k, hk⟩ : ∃ k, k = min n sock.ready := ⟨_, rfl⟩
  rw [← hk] at hread ⊢
  have hlen : (sock.stream.take k).length = k := List.length_take_of_le (by omega)
  have hmap : ((sock.stream.take k).map some).length = k := by rw [List.length_map, hlen]
  split
  · have hcopy : memcpy buf (0 : Nat) ((sock.stream.take k).map some) (0 : Nat) k = some _ :=
      memcpy_of_bounds (by omega) (by omega)
    rw [List.take_zero, List.nil_append, Nat.zero_add, slice, List.drop_zero,
      List.take_of_length_le hmap.le, Nat.cast_zero] at hcopy
    simp only [tcpRecv, Int.toNat_natCast, hread, hlen, hcopy]
  · rename_i hlt
    have hcopy : memcpy buf 0 ((sock.stream.take k).map some) 0 k = none := by
      rw [memcpy, if_neg (by omega)]
    simp only [tcpRecv, Int.toNat_natCast, hread, hlen, hcopy]

/-- The own message: 68 bytes, the last one of the client id. -/
theorem handshakeRequest_spec (hm : m.infohash.length = 20) :
    ∃ request, handshakeRequest m = some request ∧ request.length = 68 ∧
      request[67]? = some 53 := by
  refine ⟨[0x13] ++ protocolName ++ List.replicate 8 0 ++ m.infohash ++ clientId, ?_, ?_, ?_⟩
  · have hhash : m.infohash.take 20 = m.infohash := List.take_of_length_le hm.le
    simp [handshakeRequest, memcpy, slice, protocolName, clientId, hm, hhash, List.drop_append]
  · simp [protocolName, clientId, hm]
  · rw [List.getElem?_append_right (by simp [protocolName, hm])]
    simp [protocolName, clientId, hm]

theorem tcpSend_skip (sock : Socket UInt8) (msg : List UInt8) (n : Nat) :
    (tcpSend sock msg).2.skip n = (tcpSend (sock.skip n) msg).2 := by
  unfold Socket.skip tcpSend Socket.write
  dsimp only
  split <;> rfl

/-- The handshake of the peer over the own one. -/
theorem btHandshake_eq {request : List UInt8} (hreq : handshakeRequest m = some request)
    (hlen : request.length = 68) (h : sock.Flowing) (hne : sock.stream ≠ []) :
    btHandshake sock m =
      .ok ((sock.stream.take (min 68 sock.ready) ++ request.drop (min 68 sock.ready)).map some ++
        List.replicate 60 (some 0), (tcpSend (sock.skip 68) request).2) := by
  have hflow : (tcpSend sock request).2.Flowing := h
  have hready : (tcpSend sock request).2.ready = sock.ready := rfl
  have hrecv := tcpRecv_start hflow hne (request.map some ++ List.replicate 60 (some 0)) 68
  have hbuf : (request.map (some (α := UInt8))).length = 68 := by rw [List.length_map, hlen]
  have hroom : min 68 sock.ready ≤
      (request.map some ++ List.replicate 60 (some (0 : UInt8))).length := by
    rw [List.length_append, hbuf]
    omega
  rw [hready, if_pos hroom, tcpSend_skip, List.drop_append_of_le_length (by omega),
    ← List.map_drop, ← List.append_assoc, ← List.map_append] at hrecv
  simp only [btHandshake, hreq, bind, Except.bind]
  rw [show (68 : Int) = (68 : Nat) from rfl, hrecv]
  rfl

/-- The socket between the two reads. -/
def askForPieces (sock : Socket UInt8) (request : List UInt8) : Socket UInt8 :=
  (tcpSend (tcpSend (tcpSend (sock.skip 68) request).2 (be32 1 ++ [1])).2 (be32 1 ++ [2])).2

theorem askForPieces_skip (sock : Socket UInt8) (request : List UInt8) (n : Nat) :
    ((askForPieces sock request).skip n).stream = ((sock.skip 68).skip n).stream := by
  simp only [askForPieces, tcpSend_skip]
  rfl

/-- The bitfield, as far as it comes with one `read`. -/
theorem mainHandshake_eq {request : List UInt8} {response : List (Option UInt8)} {n : Nat}
    (hshake : btHandshake sock m = .ok (response, (tcpSend (sock.skip 68) request).2))
    (hn : m.num_pieces = n) (h : sock.Flowing) (hne : (sock.skip 68).stream ≠ []) :
    mainHandshake sock m =
      if min (n / 8 + 6) (sock.skip 68).ready ≤ 1024 then
        .ok (response,
          ((sock.skip 68).stream.take (min (n / 8 + 6) (sock.skip 68).ready)).map some ++
          List.replicate (1024 - min (n / 8 + 6) (sock.skip 68).ready) none,
          (askForPieces sock request).skip (n / 8 + 6))
      else .error .undefined := by
  have hcount : m.num_pieces.tdiv 8 + 1 + 5 = ((n / 8 + 6 : Nat) : Int) := by
    rw [hn, Int.tdiv_eq_ediv_of_nonneg (by omega)]
    omega
  have hflow : (askForPieces sock request).Flowing := h.skip 68
  have hready : (askForPieces sock request).ready = (sock.skip 68).ready := rfl
  have hstream : (askForPieces sock request).stream = (sock.skip 68).stream := rfl
  have hrecv := tcpRecv_start hflow hne (List.replicate 1024 none) (n / 8 + 6)
  rw [hready, hstream, List.length_replicate, List.drop_replicate] at hrecv
  have hrun : mainHandshake sock m = (tcpRecv (askForPieces sock request)
      (List.replicate 1024 none) 0 (m.num_pieces.tdiv 8 + 1 + 5)).map
        fun r => (response, r.2.1, r.2.2) := by
    simp only [mainHandshake, hshake]
    rfl
  rw [hrun, hcount, hrecv]
  split <;> rfl

end Reads

/-! ## When the download starts at a message boundary -/

section Boundary

variable {sock : Socket UInt8} {m : MetainfoInfo} {n : Nat} {hs bits rest : List UInt8}

/-- `main` comes to its first `get_piece` with the handshake of the peer, and with the
handshake and the bitfield message consumed and nothing else. -/
def StartsAtBoundary (sock : Socket UInt8) (m : MetainfoInfo) (hs bits : List UInt8) : Prop :=
  ∃ hresponse mbuf sock', mainHandshake sock m = .ok (hresponse, mbuf, sock') ∧
    hresponse.take 68 = hs.map some ∧
    sock.stream = hs ++ (Message.bitfield bits).encode ++ sock'.stream

/-- The two reads happen to be served with just these bytes: the first one with the whole
handshake, or with all of it but a last byte that is the own one as well. -/
def ReadsFit (sock : Socket UInt8) (hs : List UInt8) (n : Nat) : Prop :=
  (68 ≤ sock.ready ∧ (n + 7) / 8 + 5 ≤ 1024 ∧
    if 8 ∣ n then (sock.skip 68).ready = n / 8 + 5 else n / 8 + 6 ≤ (sock.skip 68).ready) ∨
  (8 ∣ n ∧ sock.ready = 67 ∧ hs[67]? = some 53 ∧ n / 8 + 6 ≤ (sock.skip 68).ready ∧
    n / 8 + 6 ≤ 1024)

theorem bitfield_encode_length (bits : List UInt8) :
    (Message.bitfield bits).encode.length = bits.length + 5 := by
  simp [Message.encode]
  omega

/-- What is left of the own message can pass for the end of the answer only if the answer
lacks but its last byte. -/
theorem response_iff {request : List UInt8} (hlen : request.length = 68)
    (hlast : request[67]? = some 53) (hhs : hs.length = 68) {k : Nat} (hk : 67 ≤ k)
    (hk68 : k ≤ 68) :
    hs.take k ++ request.drop k = hs ↔ k = 68 ∨ hs[67]? = some 53 := by
  obtain rfl | rfl : k = 68 ∨ k = 67 := by omega
  · rw [List.take_of_length_le hhs.le, List.drop_eq_nil_of_le hlen.le, List.append_nil]
    simp
  · have hreq : request.drop 67 = [53] := by
      obtain ⟨hlt, hval⟩ := List.getElem?_eq_some_iff.mp hlast
      rw [List.drop_eq_getElem_cons hlt, hval, List.drop_eq_nil_of_le hlen.le]
    have h67 : 67 < hs.length := by omega
    have hsplit : hs.take 67 ++ [hs.get ⟨67, h67⟩] = hs := by
      rw [List.get_eq_getElem, List.take_append_getElem h67, List.take_of_length_le hhs.le]
    rw [hreq, List.getElem?_eq_getElem h67, Option.some.injEq]
    constructor
    · intro heq
      have := List.append_cancel_left (heq.trans hsplit.symm)
      rw [List.cons.injEq] at this
      exact Or.inr this.1.symm
    · intro heq
      rcases heq with hne | hval
      · omega
      · rw [← hval]
        exact hsplit

theorem append_drop_iff {A T S : List UInt8} {j : Nat} (hS : S = A ++ T) (hj : j ≤ S.length) :
    S = A ++ S.drop j ↔ j = A.length := by
  constructor
  · intro h
    have hlen := congrArg List.length h
    rw [List.length_append, List.length_drop] at hlen
    omega
  · intro h
    rw [h, hS, List.drop_left]

/-- The boundary is met exactly when the two reads take the right number of bytes, all of
them within `mbuf`, and the first one completes the handshake. -/
theorem startsAtBoundary_iff_reads {request : List UInt8} (hreq : handshakeRequest m = some request)
    (hrlen : request.length = 68) (hn : m.num_pieces = n) (h : sock.Flowing)
    (hhs : hs.length = 68) (hstream : sock.stream = hs ++ (Message.bitfield bits).encode ++ rest)
    {k1 k2 : Nat} (hk1 : k1 = min 68 sock.ready)
    (hk2 : k2 = min (n / 8 + 6) (sock.skip 68).ready) :
    StartsAtBoundary sock m hs bits ↔
      k2 ≤ 1024 ∧ hs.take k1 ++ request.drop k1 = hs ∧ k1 + k2 = 68 + (bits.length + 5) := by
  have hlen : sock.stream.length = 68 + (bits.length + 5) + rest.length := by
    rw [hstream, List.length_append, List.length_append, hhs, bitfield_encode_length]
  have hne : sock.stream ≠ [] := List.ne_nil_of_length_pos (by omega)
  obtain ⟨-, hstream1, hready, hle⟩ := h.read_ready hne 68
  have hlen1 : (sock.skip 68).stream.length = sock.stream.length - k1 := by
    rw [hstream1, List.length_drop, hk1]
  have hne1 : (sock.skip 68).stream ≠ [] := List.ne_nil_of_length_pos (by omega)
  obtain ⟨-, hstream2, hready2, hle2⟩ := (h.skip 68).read_ready hne1 (n / 8 + 6)
  have hrun := mainHandshake_eq (btHandshake_eq hreq hrlen h hne) hn h hne1
  have htake : sock.stream.take k1 = hs.take k1 := by
    rw [hstream, List.append_assoc, List.take_append_of_le_length (by omega)]
  have hresp : (((hs.take k1 ++ request.drop k1).map some ++
      List.replicate 60 (some 0)).take 68 = hs.map some) ↔ hs.take k1 ++ request.drop k1 = hs := by
    rw [List.take_left' (by simp; omega)]
    exact (List.map_injective_iff.mpr (Option.some_injective _)).eq_iff
  have hrest :
      ((askForPieces sock request).skip (n / 8 + 6)).stream = sock.stream.drop (k1 + k2) := by
    rw [askForPieces_skip, hstream2, hstream1, List.drop_drop, ← hk1, ← hk2]
  have hcut := append_drop_iff (j := k1 + k2) hstream (by omega)
  rw [List.length_append, hhs, bitfield_encode_length] at hcut
  rw [← hk1, ← hk2, htake] at hrun
  unfold StartsAtBoundary
  rw [hrun]
  by_cases hfits : k2 ≤ 1024
  · rw [if_pos hfits]
    constructor
    · intro ⟨hresponse, mbuf, sock', heq, hhead, hrem⟩
      simp only [Except.ok.injEq, Prod.mk.injEq] at heq
      obtain ⟨rfl, rfl, rfl⟩ := heq
      rw [hrest] at hrem
      exact ⟨hfits, hresp.mp hhead, hcut.mp hrem⟩
    · intro ⟨_, hhead, hsum⟩
      exact ⟨_, _, _, rfl, hresp.mpr hhead, by rw [hrest]; exact hcut.mpr hsum⟩
  · rw [if_neg hfits]
    constructor
    · intro ⟨_, _, _, heq, _⟩
      cases heq
    · intro ⟨hle, _⟩
      exact absurd hle hfits

theorem startsAtBoundary_iff (hm : m.infohash.length = 20) (hn : m.num_pieces = n) (hpos : 1 ≤ n)
    (h : sock.Flowing) (hhs : hs.length = 68) (hbits : bits.length = (n + 7) / 8)
    (hstream : sock.stream = hs ++ (Message.bitfield bits).encode ++ rest) :
    StartsAtBoundary sock m hs bits ↔ ReadsFit sock hs n := by
  obtain ⟨request, hreq, hrlen, hlast⟩ := handshakeRequest_spec hm
  obtain ⟨k1, hk1⟩ : ∃ k1, k1 = min 68 sock.ready := ⟨_, rfl⟩
  obtain ⟨k2, hk2⟩ : ∃ k2, k2 = min (n / 8 + 6) (sock.skip 68).ready := ⟨_, rfl⟩
  rw [startsAtBoundary_iff_reads hreq hrlen hn h hhs hstream hk1 hk2]
  unfold ReadsFit
  constructor
  · intro ⟨hfits, hhead, hsum⟩
    have hk67 : 67 ≤ k1 := by omega
    rcases (response_iff hrlen hlast hhs hk67 (by omega)).mp hhead with hall | hval
    · left
      split <;> omega
    · by_cases hall : k1 = 68
      · left
        split <;> omega
      · right
        exact ⟨by omega, by omega, hval, by omega, by omega⟩
  · intro hfit
    rcases hfit with ⟨hall, hfits, hsecond⟩ | ⟨hdvd, h67, hval, hsecond, hfits⟩
    · have hk : k1 = 68 := by omega
      have hsum : k2 = bits.length + 5 := by
        split at hsecond <;> omega
      exact ⟨by omega, (response_iff hrlen hlast hhs (by omega) (by omega)).mpr (Or.inl hk),
        by omega⟩
    · exact ⟨by omega, (response_iff hrlen hlast hhs (by omega) (by omega)).mpr (Or.inr hval),
        by omega⟩

theorem startsAtBoundary_iff_onePiece :
    StartsAtBoundary (.single (List.replicate 68 1 ++ (Message.bitfield [128]).encode))
        ⟨List.replicate 20 0, 1, 1, 1⟩ (List.replicate 68 1) [128] ↔
      ReadsFit (.single (List.replicate 68 1 ++ (Message.bitfield [128]).encode))
        (List.replicate 68 1) 1 :=
  startsAtBoundary_iff rfl rfl le_rfl (Socket.single_flowing _) rfl rfl
    (by rw [Socket.single_stream, List.append_nil])

/-- Eight pieces: the read of the bitfield takes the first byte of the message behind it. -/
theorem startsAtBoundary_eightPieces :
    ¬ StartsAtBoundary
      (.single (List.replicate 68 1 ++ (Message.bitfield [255]).encode ++ Message.unchoke.encode))
      ⟨List.replicate 20 0, 1, 8, 8⟩ (List.replicate 68 1) [255] := by
  obtain ⟨request, hreq, hrlen, -⟩ :=
    handshakeRequest_spec (m := ⟨List.replicate 20 0, 1, 8, 8⟩) rfl
  rw [startsAtBoundary_iff_reads (n := 8) hreq hrlen rfl (Socket.single_flowing _) rfl
    (Socket.single_stream _) rfl rfl]
  intro ⟨_, _, hsum⟩
  exact absurd hsum (by decide)

end Boundary

end BitFS.Client
