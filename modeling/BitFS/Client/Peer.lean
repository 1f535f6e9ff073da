import BitFS.Client.Messages
import BitFS.Library.Framing

/-! # What a peer reads

The messages of the protocol are frames behind a handshake of 68 bytes. A peer that
cuts the bytes of the other side apart again gets back every message it was sent.
-/

namespace BitFS.Client

open BigEndian Framing

/-- The number at the start of the bytes. -/
def number (s : List UInt8) : UInt32 := UInt32.ofNat (ofBe32 (s.take 4))

theorem number_be32 (x : UInt32) (s : List UInt8) : number (be32 x.toNat ++ s) = x := by
  unfold number
  rw [List.take_left' (be32_length _), ofBe32_be32 x.toNat_lt]
  exact UInt32.ofNat_toNat

/-- The message with this body: the type and the payload. -/
def Message.decode : List UInt8 → Option Message
  | [] => some keepAlive
  | bt_type :: payload =>
    if bt_type = 0 then if payload = [] then some choke else none
    else if bt_type = 1 then if payload = [] then some unchoke else none
    else if bt_type = 2 then if payload = [] then some interested else none
    else if bt_type = 3 then if payload = [] then some notInterested else none
    else if bt_type = 4 then
      if payload.length = 4 then some (.have (number payload)) else none
    else if bt_type = 5 then some (bitfield payload)
    else if bt_type = 6 then
      if payload.length = 12 then
        some (request (number payload) (number (payload.drop 4)) (number (payload.drop 8)))
      else none
    else if bt_type = 7 then
      if 8 ≤ payload.length then
        some (piece (number payload) (number (payload.drop 4)) (payload.drop 8))
      else none
    else none

namespace Message

/-- What stands behind the length. -/
def body (msg : Message) : List UInt8 := msg.encode.drop 4

theorem encode_eq_frame (msg : Message) : msg.encode = frame msg.body := by
  cases msg with
  | keepAlive | choke | unchoke | interested | notInterested | «have» | request => rfl
  | bitfield bits =>
      have hlen : (bitfield bits).body.length = 1 + bits.length := Nat.add_comm _ _
      rw [frame, hlen]
      rfl
  | piece index begin block =>
      have hlen : (piece index begin block).body.length = 9 + block.length := by
        show block.length + 9 = 9 + block.length
        exact Nat.add_comm _ _
      rw [frame, hlen]
      rfl

theorem decode_body (msg : Message) : decode msg.body = some msg := by
  cases msg with
  | keepAlive | choke | unchoke | interested | notInterested => rfl
  | «have» index =>
      have hindex := number_be32 index []
      rw [List.append_nil] at hindex
      show some (Message.have (number (be32 index.toNat))) = _
      rw [hindex]
  | bitfield bits => rfl
  | request index begin length =>
      have hlength := number_be32 length []
      rw [List.append_nil] at hlength
      show some (request (number (be32 index.toNat ++ (be32 begin.toNat ++ be32 length.toNat)))
        (number (be32 begin.toNat ++ be32 length.toNat)) (number (be32 length.toNat))) = _
      rw [number_be32, number_be32, hlength]
  | piece index begin block =>
      show some (piece (number (be32 index.toNat ++ (be32 begin.toNat ++ block)))
        (number (be32 begin.toNat ++ block)) block) = _
      rw [number_be32, number_be32]

theorem be32_number {s : List UInt8} (h : s.length = 4) : be32 (number s).toNat = s := by
  have htake : s.take 4 = s := List.take_of_length_le h.le
  rw [number, htake, UInt32.toNat_ofNat_of_lt' (ofBe32_lt s), be32_ofBe32 h]

theorem be32_number_append {s : List UInt8} (h : 4 ≤ s.length) :
    be32 (number s).toNat ++ s.drop 4 = s := by
  have hnumber : number s = number (s.take 4) := by
    rw [number, number, List.take_take, Nat.min_self]
  rw [hnumber, be32_number (List.length_take_of_le h), List.take_append_drop]

/-- A body that a message has is the body of that message. -/
theorem body_of_decode {b : List UInt8} {msg : Message} (h : decode b = some msg) :
    msg.body = b := by
  unfold decode at h
  split at h
  · cases h
    rfl
  · rename_i bt_type payload
    split_ifs at h with h0 hnil h1 hnil h2 hnil h3 hnil h4 hlen h5 h6 hlen h7 hlen <;>
      simp only [Option.some.injEq] at h <;> subst h
    · rw [h0, hnil]
      rfl
    · rw [h1, hnil]
      rfl
    · rw [h2, hnil]
      rfl
    · rw [h3, hnil]
      rfl
    · show 4 :: be32 (number payload).toNat = bt_type :: payload
      rw [be32_number hlen, h4]
    · rw [h5]
      rfl
    · show 6 :: (be32 (number payload).toNat ++ (be32 (number (payload.drop 4)).toNat ++
        be32 (number (payload.drop 8)).toNat)) = bt_type :: payload
      have hlast : (payload.drop 8).length = 4 := by rw [List.length_drop, hlen]
      have hmid := be32_number_append (s := payload.drop 4) (by rw [List.length_drop]; omega)
      rw [List.drop_drop] at hmid
      rw [be32_number hlast, hmid, be32_number_append (by omega), h6]
    · show 7 :: (be32 (number payload).toNat ++ (be32 (number (payload.drop 4)).toNat ++
        payload.drop 8)) = bt_type :: payload
      have hmid := be32_number_append (s := payload.drop 4) (by rw [List.length_drop]; omega)
      rw [List.drop_drop] at hmid
      rw [hmid, be32_number_append (by omega), h7]

/-- Bodies that decode to messages are theirs. -/
theorem bodies_of_decode {bodies : List (List UInt8)} {msgs : List Message}
    (h : bodies.map decode = msgs.map some) : bodies.flatMap frame = msgs.flatMap encode := by
  induction bodies generalizing msgs with
  | nil =>
      cases msgs with
      | nil => rfl
      | cons msg msgs => cases h
  | cons b bodies ih =>
      cases msgs with
      | nil => cases h
      | cons msg msgs =>
          rw [List.map_cons, List.map_cons, List.cons.injEq] at h
          rw [List.flatMap_cons, List.flatMap_cons, ih h.2, encode_eq_frame, body_of_decode h.1]

end Message

/-- What a peer has read: the handshake, the messages behind it, where `none` is a body that
no message has, and the bytes of a message that is not complete. -/
structure PeerReading where
  handshake : List UInt8
  messages : List (Option Message)
  rest : List UInt8

/-- What a peer makes of the bytes it is sent. -/
def peerReads (s : List UInt8) : PeerReading where
  handshake := s.take 68
  messages := (unframeAll (s.drop 68)).1.map Message.decode
  rest := (unframeAll (s.drop 68)).2

/-- A peer reads what it was sent. -/
theorem peerReads_messages {handshake : List UInt8} (h : handshake.length = 68)
    {msgs : List Message} (hfits : ∀ msg ∈ msgs, msg.body.length < 4294967296) :
    peerReads (handshake ++ msgs.flatMap Message.encode) = ⟨handshake, msgs.map some, []⟩ := by
  have hframes : msgs.flatMap Message.encode = (msgs.map Message.body).flatMap frame := by
    rw [List.flatMap_map]
    exact List.flatMap_congr fun msg _ => msg.encode_eq_frame
  have hbodies : ∀ b ∈ msgs.map Message.body, b.length < 4294967296 := by
    intro b hb
    rw [List.mem_map] at hb
    obtain ⟨msg, hmsg, rfl⟩ := hb
    exact hfits msg hmsg
  have hcut := unframeAll_frames hbodies unframe_nil
  rw [List.append_nil] at hcut
  have hdecode : (msgs.map Message.body).map Message.decode = msgs.map some := by
    rw [List.map_map]
    exact List.map_congr_left fun msg _ => msg.decode_body
  simp only [peerReads, List.take_left' h, List.drop_left' h, hframes, hcut, hdecode]

/-- And only that: bytes that read as these messages are their bytes. -/
theorem peerReads_iff {handshake : List UInt8} (h : handshake.length = 68) {msgs : List Message}
    (hfits : ∀ msg ∈ msgs, msg.body.length < 4294967296) {s : List UInt8} :
    peerReads s = ⟨handshake, msgs.map some, []⟩ ↔
      s = handshake ++ msgs.flatMap Message.encode := by
  constructor
  · intro hreads
    simp only [peerReads, PeerReading.mk.injEq] at hreads
    obtain ⟨hhead, hmessages, hrest⟩ := hreads
    have hframes := frames_unframeAll (s.drop 68)
    rw [hrest, List.append_nil, Message.bodies_of_decode hmessages] at hframes
    rw [← hhead, hframes, List.take_append_drop]
  · rintro rfl
    exact peerReads_messages h hfits

end BitFS.Client
