import BitFS.Client.GetPiece

/-! # The messages of the peer

A stream of peer messages is followed byte by byte through `get_piece`: every byte
carries the message it belongs to and its position there.
-/

namespace BitFS.Client

open Memory BigEndian Tiling

inductive Message where
  | keepAlive
  | choke
  | unchoke
  | interested
  | notInterested
  | have (index : UInt32)
  | bitfield (bits : List UInt8)
  | request (index begin length : UInt32)
  | piece (index begin : UInt32) (block : List UInt8)

/-- A message on the wire: the length of what follows, the type, the payload. -/
def Message.encode : Message → List UInt8
  | keepAlive => be32 0
  | choke => be32 1 ++ [0]
  | unchoke => be32 1 ++ [1]
  | interested => be32 1 ++ [2]
  | notInterested => be32 1 ++ [3]
  | .have index => be32 5 ++ [4] ++ be32 index.toNat
  | bitfield bits => be32 (1 + bits.length) ++ [5] ++ bits
  | request index begin length =>
      be32 13 ++ [6] ++ be32 index.toNat ++ be32 begin.toNat ++ be32 length.toNat
  | piece index begin block =>
      be32 (9 + block.length) ++ [7] ++ be32 index.toNat ++ be32 begin.toNat ++ block

theorem Message.encode_pos (msg : Message) : 1 ≤ msg.encode.length := by
  cases msg <;> simp only [encode, be32_length, List.length_append] <;> omega

theorem Message.encode_piece_length (index begin : UInt32) (block : List UInt8) :
    (piece index begin block).encode.length = block.length + 13 := by
  simp [encode]
  omega

structure WireByte where
  value : UInt8
  message : Message
  position : Nat

def Message.tagged (msg : Message) : List WireByte := msg.encode.mapIdx fun i b => ⟨b, msg, i⟩

/-- The messages one after the other. -/
def wire (msgs : List Message) : List WireByte := msgs.flatMap Message.tagged

@[simp] theorem wire_cons (msg : Message) (msgs : List Message) :
    wire (msg :: msgs) = msg.tagged ++ wire msgs := rfl

@[simp] theorem Message.tagged_length (msg : Message) : msg.tagged.length = msg.encode.length :=
  List.length_mapIdx

theorem Message.tagged_spec {msg : Message} {k : Nat} {b : WireByte} (h : msg.tagged[k]? = some b) :
    b.message = msg ∧ b.position = k := by
  rw [tagged, List.getElem?_mapIdx, Option.map_eq_some_iff] at h
  obtain ⟨v, -, rfl⟩ := h
  exact ⟨rfl, rfl⟩

/-- A byte whose position in its message is its position in the stream is one of the
first message. -/
theorem wire_spec {msgs : List Message} {k : Nat} {b : WireByte} (h : (wire msgs)[k]? = some b) :
    b.position ≤ k ∧ (b.position = k → ∃ rest, msgs = b.message :: rest) := by
  induction msgs generalizing k with
  | nil => cases h
  | cons msg msgs ih =>
      rw [wire_cons] at h
      by_cases hk : k < msg.tagged.length
      · rw [List.getElem?_append_left hk] at h
        obtain ⟨hmsg, hpos⟩ := Message.tagged_spec h
        exact ⟨hpos.le, fun _ => ⟨msgs, by rw [hmsg]⟩⟩
      · rw [List.getElem?_append_right (Nat.le_of_not_lt hk)] at h
        have hle := (ih h).1
        have hlen := msg.encode_pos
        rw [Message.tagged_length] at hk hle
        exact ⟨by omega, fun heq => by omega⟩

/-! ## Answers -/

/-- The message is the answer to the request for the block `r` of piece `p`. -/
def Message.Answers (p : Nat) (r : Nat × Nat) : Message → Prop
  | piece index begin block => index.toNat = p ∧ begin.toNat = r.1 ∧ block.length = r.2
  | _ => False

theorem Message.Answers.encode_length {p : Nat} {r : Nat × Nat} {msg : Message}
    (h : msg.Answers p r) : msg.encode.length = r.2 + 13 := by
  cases msg with
  | piece index begin block =>
      rw [encode_piece_length]
      exact congrArg (· + 13) h.2.2
  | keepAlive | choke | unchoke | interested | notInterested | «have» | bitfield | request =>
      exact h.elim

/-- The byte is the one at `x` of piece `p` in the answer to the request for that block. -/
def WireByte.Answers (p : Nat) (blocks : List (Nat × Nat)) (x : Nat) (b : WireByte) : Prop :=
  ∃ r ∈ blocks, (r.1 ≤ x ∧ x < r.1 + r.2) ∧ b.message.Answers p r ∧ b.position = 13 + (x - r.1)

/-- The first messages are the answers to the requests for `blocks`, in their order. -/
def Answered (p : Nat) : List Message → List (Nat × Nat) → Prop
  | _, [] => True
  | [], _ :: _ => False
  | msg :: msgs, r :: blocks => msg.Answers p r ∧ Answered p msgs blocks

section Payloads

variable {p o n e : Nat} {msg : Message} {msgs : List Message} {blocks : List (Nat × Nat)}

/-- What is taken when the first message is the answer to the first request. -/
theorem payloads_answer (h : msg.Answers p (o, n)) :
    payloads (wire (msg :: msgs)) ((o, n) :: blocks) =
      slice msg.tagged 13 n ++ payloads (wire msgs) blocks := by
  have hlen : msg.tagged.length = n + 13 := by rw [Message.tagged_length, h.encode_length]
  rw [payloads, wire_cons]
  dsimp only
  rw [List.drop_left' hlen, slice, List.drop_append_of_le_length (by omega),
    List.take_append_of_le_length (by rw [List.length_drop]; omega), ← slice]

theorem slice_tagged_length (h : msg.Answers p (o, n)) : (slice msg.tagged 13 n).length = n := by
  apply slice_length_of_le
  rw [Message.tagged_length, h.encode_length]
  dsimp only
  omega

/-- A byte at the start of the first block can only be the first payload byte of the
first message. -/
theorem first_answers (hn : 1 ≤ n) (htiles : Tiles o ((o, n) :: blocks) e)
    (hlen : n + 13 ≤ (wire msgs).length)
    (h : ∀ b, (payloads (wire msgs) ((o, n) :: blocks))[0]? = some b →
      b.Answers p ((o, n) :: blocks) o) :
    ∃ msg rest, msgs = msg :: rest ∧ msg.Answers p (o, n) := by
  have h13 : 13 < (wire msgs).length := by omega
  obtain ⟨b, hb⟩ : ∃ b, (wire msgs)[13]? = some b := ⟨_, List.getElem?_eq_getElem h13⟩
  have hfirst : (payloads (wire msgs) ((o, n) :: blocks))[0]? = some b := by
    rw [payloads,
      List.getElem?_append_left (by rw [slice_length_of_le (by dsimp only; omega)]; exact hn),
      getElem?_slice _ hn]
    exact hb
  obtain ⟨r, hr, hcover, hans, hpos⟩ := h b hfirst
  have hrfirst : r = (o, n) := by
    rcases List.mem_cons.mp hr with heq | hmem
    · exact heq
    · have := (htiles.2.mem_iff o).mp ⟨r, hmem, hcover⟩
      omega
  subst hrfirst
  obtain ⟨rest, hmsgs⟩ := (wire_spec hb).2 (by rw [hpos]; dsimp only; omega)
  exact ⟨b.message, rest, hmsgs, hans⟩

/-- The bytes taken for the payloads are those of the answers exactly when the answers
are all there is. -/
theorem payloads_answers_iff (htiles : Tiles o blocks e) (hpos : ∀ r ∈ blocks, 1 ≤ r.2)
    (hlen : wireLength blocks ≤ (wire msgs).length) :
    (∀ (k : Nat) (b : WireByte), (payloads (wire msgs) blocks)[k]? = some b →
      b.Answers p blocks (o + k)) ↔
      Answered p msgs blocks := by
  induction blocks generalizing o msgs with
  | nil => simp [payloads, Answered]
  | cons r blocks ih =>
      obtain ⟨s, n⟩ := r
      obtain ⟨rfl, htail⟩ : s = o ∧ Tiles (o + n) blocks e := htiles
      have hn : 1 ≤ n := hpos (s, n) List.mem_cons_self
      rw [wireLength_cons] at hlen
      dsimp only at hlen
      -- Both sides make the first message the answer to the first request.
      have hstep : ∀ {msg msgs'}, msg.Answers p (s, n) → msgs = msg :: msgs' →
          ((∀ (k : Nat) (b : WireByte), (payloads (wire msgs) ((s, n) :: blocks))[k]? = some b →
            b.Answers p ((s, n) :: blocks) (s + k)) ↔ Answered p msgs' blocks) := by
        rintro msg msgs' hans rfl
        have hsize := slice_tagged_length hans
        have hlen' : wireLength blocks ≤ (wire msgs').length := by
          rw [wire_cons, List.length_append, Message.tagged_length, hans.encode_length] at hlen
          dsimp only at hlen
          omega
        rw [← ih htail (fun r hr => hpos r (List.mem_cons_of_mem _ hr)) hlen', payloads_answer hans]
        constructor
        · intro h k b hb
          have hb' : (slice msg.tagged 13 n ++ payloads (wire msgs') blocks)[n + k]? = some b := by
            rw [List.getElem?_append_right (by omega), hsize, Nat.add_sub_cancel_left]
            exact hb
          obtain ⟨r, hr, hcover, hrest⟩ := h (n + k) b hb'
          rw [← Nat.add_assoc] at hcover hrest
          rcases List.mem_cons.mp hr with rfl | hmem
          · dsimp only at hcover
            omega
          · exact ⟨r, hmem, hcover, hrest⟩
        · intro h k b hb
          by_cases hk : k < n
          · rw [List.getElem?_append_left (by omega), getElem?_slice _ hk] at hb
            obtain ⟨hmsg, hposition⟩ := Message.tagged_spec hb
            refine ⟨(s, n), List.mem_cons_self, ⟨Nat.le_add_right _ _, Nat.add_lt_add_left hk s⟩,
              hmsg ▸ hans, ?_⟩
            rw [hposition, Nat.add_sub_cancel_left]
          · rw [List.getElem?_append_right (by omega), hsize] at hb
            obtain ⟨r, hmem, hrest⟩ := h (k - n) b hb
            rw [show s + n + (k - n) = s + k by omega] at hrest
            exact ⟨r, List.mem_cons_of_mem _ hmem, hrest⟩
      constructor
      · intro h
        obtain ⟨msg, msgs', rfl, hans⟩ := first_answers hn ⟨rfl, htail⟩ (by omega)
          (fun b hb => h 0 b hb)
        exact ⟨hans, (hstep hans rfl).mp h⟩
      · intro h
        cases msgs with
        | nil => exact h.elim
        | cons msg msgs' => exact (hstep h.1 rfl).mpr h.2

end Payloads

/-! ## What get_piece accepts -/

/-- Every byte in the buffer is the one asked for. -/
def OnlyAnswers (p : Nat) (blocks : List (Nat × Nat)) (buf : List (Option WireByte)) : Prop :=
  ∀ (x : Nat) (b : WireByte), buf[x]? = some (some b) → b.Answers p blocks x

/-- `get_piece` accepts only what answers its requests exactly when it never returns, or
nothing but the answers arrives before it does. -/
theorem getPiece_accepts_iff {m : MetainfoInfo} {fl pl p : Nat} (hm : m.Sized fl pl)
    {sock : Socket WireByte} (h : sock.Flowing) {msgs : List Message}
    (hstream : sock.stream = wire msgs) :
    (∀ buf sock', getPiece sock p m = .ok (buf, sock') →
      OnlyAnswers p (pieceBlocks fl pl p) buf) ↔
      (wire msgs).length < wireLength (pieceBlocks fl pl p) ∨
        Answered p msgs (pieceBlocks fl pl p) := by
  rcases getPiece_flowing h hm p with ⟨hle, sock', hrun, -⟩ | ⟨hlt, hrun⟩
  · rw [hstream] at hle hrun
    have hiff := payloads_answers_iff (p := p) (pieceBlocks_tiles fl pl p)
      (fun r hr => (blocksFrom_bounds hr).1) hle
    rw [or_iff_right (Nat.not_lt_of_le hle), ← hiff]
    constructor
    · intro hacc k b hb
      rw [Nat.zero_add]
      apply hacc _ _ hrun k b
      rw [List.getElem?_append_left]
      · rw [List.getElem?_map, hb]
        rfl
      · rw [List.length_map]
        exact (List.getElem?_eq_some_iff.mp hb).1
    · intro hpay buf sock'' hrun' x b hb
      rw [hrun, Except.ok.injEq, Prod.mk.injEq] at hrun'
      rw [← hrun'.1] at hb
      rcases Nat.lt_or_ge x ((payloads (wire msgs) (pieceBlocks fl pl p)).map
          (some (α := WireByte))).length with hx | hx
      · rw [List.getElem?_append_left hx, List.getElem?_map, Option.map_eq_some_iff] at hb
        obtain ⟨b', hb', heq⟩ := hb
        have hans := hpay x b' hb'
        rw [Nat.zero_add] at hans
        exact Option.some.inj heq ▸ hans
      · -- Behind the payloads the buffer is as `malloc` left it.
        rw [List.getElem?_append_right hx] at hb
        have hnone := List.mem_of_getElem? hb
        rw [List.mem_replicate] at hnone
        cases hnone.2
  · rw [hstream] at hlt
    refine iff_of_true (fun buf sock' hrun' => ?_) (Or.inl hlt)
    rw [hrun] at hrun'
    cases hrun'

theorem sized_oneByte : (MetainfoInfo.mk [] 1 1 (numPieces 1 1)).Sized 1 1 :=
  ⟨rfl, rfl, rfl, by omega, le_rfl, by omega⟩

theorem pieceBlocks_oneByte : pieceBlocks 1 1 0 = [(0, 1)] := by
  simp [pieceBlocks, sizeOf, blocksFrom]

theorem getPiece_accepts_iff_oneByte :
    (∀ buf sock', getPiece (.single (wire [.piece 0 0 [65]])) (0 : Nat) ⟨[], 1, 1, numPieces 1 1⟩ =
      .ok (buf, sock') → OnlyAnswers 0 (pieceBlocks 1 1 0) buf) ↔
      (wire [.piece 0 0 [65]]).length < wireLength (pieceBlocks 1 1 0) ∨
        Answered 0 [.piece 0 0 [65]] (pieceBlocks 1 1 0) :=
  getPiece_accepts_iff sized_oneByte (Socket.single_flowing _) (Socket.single_stream _)

/-- An unchoke message before the answer is taken for its first bytes. -/
theorem getPiece_accepts_unchoke :
    ¬ ∀ buf sock', getPiece (.single (wire [.unchoke, .piece 0 0 [65]])) (0 : Nat)
      ⟨[], 1, 1, numPieces 1 1⟩ = .ok (buf, sock') → OnlyAnswers 0 (pieceBlocks 1 1 0) buf := by
  intro h
  rcases getPiece_flowing (Socket.single_flowing (wire [.unchoke, .piece 0 0 [65]]))
    sized_oneByte 0 with ⟨-, sock', hrun, -⟩ | ⟨hlt, -⟩
  · rw [Socket.single_stream, pieceBlocks_oneByte] at hrun
    obtain ⟨r, -, -, -, hpos⟩ := h _ _ hrun 0 ⟨0, .piece 0 0 [65], 8⟩ rfl
    dsimp only at hpos
    omega
  · rw [Socket.single_stream, pieceBlocks_oneByte] at hlt
    exact absurd hlt (by decide)

end BitFS.Client
