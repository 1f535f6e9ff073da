import BitFS.Client.Messages

/-! # Answered requests

A peer that answers every request of `get_piece` in turn with one Piece message.
However the messages are split into reads, `get_piece` returns the piece and
leaves the socket at the end of the last message.
-/

namespace BitFS.Client

open MachineInt Memory Tiling

variable {β : Type}

/-- The 13 bytes in front of a block. -/
abbrev PieceHeader (β : Type) := { h : List β // h.length = 13 }

/-- One Piece message for every block: a header and the bytes of the piece at the block. -/
def answers (header : Nat × Nat → PieceHeader β) (content : List β) (blocks : List (Nat × Nat)) :
    List β :=
  blocks.flatMap fun r => (header r).1 ++ slice content r.1 r.2

section Answers

variable (header : Nat × Nat → PieceHeader β) {content : List β} {blocks : List (Nat × Nat)}

theorem answers_cons (r : Nat × Nat) :
    answers header content (r :: blocks) =
      (header r).1 ++ slice content r.1 r.2 ++ answers header content blocks := rfl

/-- One answer is as long as `get_piece` expects. -/
theorem answer_length {r : Nat × Nat} (hr : r.1 + r.2 ≤ content.length) :
    ((header r).1 ++ slice content r.1 r.2).length = r.2 + 13 := by
  rw [List.length_append, slice_length_of_le hr, (header r).2, Nat.add_comm]

theorem answers_length (hblocks : ∀ r ∈ blocks, r.1 + r.2 ≤ content.length) :
    (answers header content blocks).length = wireLength blocks := by
  induction blocks with
  | nil => rfl
  | cons r blocks ih =>
      rw [answers_cons, List.length_append, answer_length header (hblocks r List.mem_cons_self),
        ih fun r' hr' => hblocks r' (List.mem_cons_of_mem r hr'), wireLength_cons]

/-- What `get_piece` takes for the payloads are the payloads. -/
theorem payloads_answers (hblocks : ∀ r ∈ blocks, r.1 + r.2 ≤ content.length) (rest : List β) :
    payloads (answers header content blocks ++ rest) blocks =
      blocks.flatMap fun r => slice content r.1 r.2 := by
  induction blocks with
  | nil => rfl
  | cons r blocks ih =>
      have hr := hblocks r List.mem_cons_self
      have hlen := answer_length header hr
      have hpay : slice (answers header content (r :: blocks) ++ rest) 13 r.2 =
          slice content r.1 r.2 := by
        rw [answers_cons, List.append_assoc, List.append_assoc, slice, List.drop_left' (header r).2]
        exact List.take_left' (slice_length_of_le hr)
      have hdrop : (answers header content (r :: blocks) ++ rest).drop (r.2 + 13) =
          answers header content blocks ++ rest := by
        rw [answers_cons, List.append_assoc, List.drop_left' hlen]
      rw [payloads, hpay, hdrop, ih fun r' hr' => hblocks r' (List.mem_cons_of_mem r hr')]
      rfl

end Answers

/-- On answered requests `get_piece` returns the content of the piece, at the start of a block of
`piece_length` bytes, and has taken exactly the answers off the stream. -/
theorem getPiece_reassembles {m : MetainfoInfo} {fl pl p : Nat} (hm : m.Sized fl pl)
    (hp : (p : Int) < m.num_pieces) {content : List β} (hcontent : content.length = sizeOf fl pl p)
    (header : Nat × Nat → PieceHeader β) {rest : List β} {sock : Socket β} (hflow : sock.Flowing)
    (hstream : sock.stream = answers header content (pieceBlocks fl pl p) ++ rest) :
    pieceSize p m = some (content.length : Int) ∧
    ∃ sock', getPiece sock p m =
        .ok (content.map some ++ List.replicate (pl - content.length) none, sock') ∧
      sock'.stream = rest ∧ sock'.Flowing ∧
      sock'.sent = sock.sent ++ (pieceBlocks fl pl p).map (blockRequest p) := by
  have hblocks : ∀ r ∈ pieceBlocks fl pl p, r.1 + r.2 ≤ content.length := by
    intro r hr
    have hbound := (blocksFrom_bounds hr).2.2
    omega
  have hwire := answers_length header hblocks
  have hjoin : payloads sock.stream (pieceBlocks fl pl p) = content := by
    rw [hstream, payloads_answers header hblocks, (pieceBlocks_tiles fl pl p).flatMap_slice content,
      Nat.sub_zero, ← hcontent, slice_all]
  rw [hcontent]
  constructor
  · exact hm.pieceSize_eq hp
  · rcases getPiece_flowing hflow hm p with ⟨-, sock', hrun, hrest, hsent, hflow'⟩ | ⟨hshort, -⟩
    · rw [hjoin] at hrun
      refine ⟨sock', hrun, ?_, hflow', hsent⟩
      rw [hrest, hstream, List.drop_left' hwire]
    · rw [hstream, List.length_append, hwire] at hshort
      omega

theorem zeroHeader_length : (List.replicate 13 (0 : UInt8)).length = 13 := List.length_replicate

def zeroHeader (_ : Nat × Nat) : PieceHeader UInt8 := ⟨List.replicate 13 0, zeroHeader_length⟩

/-- The answers to the requests for a piece of 20000 sevens, which come in two blocks. -/
def twoAnswers : List UInt8 :=
  answers zeroHeader (List.replicate 20000 7) (pieceBlocks 50000 20000 0)

/-- In three segments, the first of which ends in a header. -/
theorem getPiece_reassembles_twoAnswers :
    ∃ sock', getPiece (.segments [twoAnswers.take 5, (twoAnswers.drop 5).take 17000,
        (twoAnswers.drop 5).drop 17000]) (0 : Nat) threePieces =
      .ok ((List.replicate 20000 (7 : UInt8)).map some, sock') ∧ sock'.stream = [] := by
  have hzero : ((0 : Nat) : Int) < threePieces.num_pieces := by
    rw [threePieces_count]
    decide
  have hcontent : (List.replicate 20000 (7 : UInt8)).length = sizeOf 50000 20000 0 := by
    rw [List.length_replicate]
    rfl
  have hjoin : [twoAnswers.take 5, (twoAnswers.drop 5).take 17000,
      (twoAnswers.drop 5).drop 17000].flatten = twoAnswers ++ [] := by
    rw [List.flatten_cons, List.flatten_cons, List.flatten_singleton, List.take_append_drop,
      List.take_append_drop, List.append_nil]
  obtain ⟨-, sock', hrun, hrest, -⟩ := getPiece_reassembles threePieces_sized hzero hcontent
    zeroHeader (Socket.segments_flowing _) ((Socket.segments_stream _).trans hjoin)
  rw [List.length_replicate, Nat.sub_self, List.replicate_zero, List.append_nil] at hrun
  exact ⟨sock', hrun, hrest⟩

end BitFS.Client
