import BitFS.Client.GetPiece

/-! # The requests of a download

`get_piece` for one piece after the other asks for consecutive blocks that make up
the file.
-/

namespace BitFS.Client

open MachineInt BigEndian Tiling

section Requests

variable {β : Type} {m : MetainfoInfo} {fl pl : Nat}

/-- The pieces and blocks asked for, in order. -/
def requests (fl pl n : Nat) : List (Nat × Nat × Nat) :=
  (List.range n).flatMap fun p => (pieceBlocks fl pl p).map fun r => (p, r)

/-- The bytes on the wire that answer all requests for pieces `0 .. n - 1`. -/
def answersLength (fl pl n : Nat) : Nat :=
  ((List.range n).map fun p => wireLength (pieceBlocks fl pl p)).sum

theorem requests_succ (fl pl n : Nat) :
    requests fl pl (n + 1) = requests fl pl n ++ (pieceBlocks fl pl n).map fun r => (n, r) := by
  simp [requests, List.range_succ]

/-- Every request is answered with 13 bytes more than it asks for. -/
theorem answersLength_eq (fl pl n : Nat) :
    answersLength fl pl n = wireLength ((requests fl pl n).map Prod.snd) := by
  simp [answersLength, requests, wireLength, List.flatMap_def, List.map_flatten, List.sum_flatten,
    Function.comp_def]

/-- The message for a request. -/
def request (r : Nat × Nat × Nat) : List UInt8 := blockRequest r.1 r.2

theorem getPieces_succ_ok {n : Nat} {sock sock' sock'' : Socket β} {buf : List (Option β)}
    (h : getPieces m n sock = .ok sock') (h' : getPiece sock' n m = .ok (buf, sock'')) :
    getPieces m (n + 1) sock = .ok sock'' := by
  simp only [getPieces, h, bind, Except.bind, h']
  rfl

/-- Whatever arrives, `get_piece` for all pieces sends the requests when it returns, and
unless a `read` fails nothing goes out of range. -/
theorem getPieces_spec (sock : Socket β) (hm : m.Sized fl pl) (n : Nat) :
    (∃ sock', getPieces m n sock = .ok sock' ∧
      sock.Wrote ((requests fl pl n).map request) sock' ∧
      (sock.Unbroken → sock'.Unbroken)) ∨
    ∃ e, getPieces m n sock = .error e ∧ (sock.Unbroken → e = .pending) := by
  induction n with
  | zero => exact Or.inl ⟨sock, rfl, .refl sock, id⟩
  | succ n ih =>
      rcases ih with ⟨sock', hrun, hwrote, hun⟩ | ⟨e, hrun, hstop⟩
      · rcases getPiece_spec sock' hm n with
          ⟨buf, sock'', hpiece, hwrote', hun'⟩ | ⟨e, hpiece, hstop⟩
        · refine Or.inl ⟨sock'', getPieces_succ_ok hrun hpiece, ?_, hun' ∘ hun⟩
          rw [requests_succ, List.map_append, List.map_map]
          exact hwrote.trans hwrote'
        · refine Or.inr ⟨e, ?_, hstop ∘ hun⟩
          simp only [getPieces, hrun, bind, Except.bind, hpiece]
      · refine Or.inr ⟨e, ?_, hstop⟩
        simp only [getPieces, hrun, bind, Except.bind]

/-- `get_piece` for all pieces in turn on flowing data. -/
theorem getPieces_flowing {sock : Socket β} (h : sock.Flowing) (hm : m.Sized fl pl) (n : Nat) :
    (answersLength fl pl n ≤ sock.stream.length ∧ ∃ sock', getPieces m n sock = .ok sock' ∧
      sock'.stream = sock.stream.drop (answersLength fl pl n) ∧
      sock'.sent = sock.sent ++ (requests fl pl n).map request ∧
      sock'.Flowing) ∨
    (sock.stream.length < answersLength fl pl n ∧ getPieces m n sock = .error .pending) := by
  induction n with
  | zero => exact Or.inl ⟨Nat.zero_le _, sock, rfl, rfl, by simp [requests], h⟩
  | succ n ih =>
      have hlen : answersLength fl pl (n + 1) =
          answersLength fl pl n + wireLength (pieceBlocks fl pl n) := by
        simp [answersLength, List.range_succ]
      rcases ih with ⟨hle, sock', hrun, hstream, hsent, hflow⟩ | ⟨hlt, hrun⟩
      · rcases getPiece_flowing hflow hm n with
          ⟨hle', sock'', hpiece, hstream', hsent', hflow'⟩ | ⟨hlt', hpiece⟩
        · rw [hstream, List.length_drop] at hle'
          refine Or.inl ⟨by omega, sock'', getPieces_succ_ok hrun hpiece, ?_, ?_, hflow'⟩
          · rw [hstream', hstream, List.drop_drop, hlen]
          · rw [hsent', hsent, requests_succ, List.map_append, List.map_map, List.append_assoc]
            rfl
        · rw [hstream, List.length_drop] at hlt'
          refine Or.inr ⟨by omega, ?_⟩
          simp only [getPieces, hrun, bind, Except.bind, hpiece]
      · refine Or.inr ⟨by omega, ?_⟩
        simp only [getPieces, hrun, bind, Except.bind]

end Requests

/-! ## The requests tile the file -/

section Tiling

variable {m : MetainfoInfo} {fl pl : Nat}

/-- A request as the stretch of the file that it asks for. -/
def place (pl : Nat) (r : Nat × Nat × Nat) : Nat × Nat := (pl * r.1 + r.2.1, r.2.2)

theorem requests_tiles (hm : m.Sized fl pl) :
    Tiles 0 ((requests fl pl m.num_pieces.toNat).map (place pl)) fl := by
  have hpieces : (requests fl pl m.num_pieces.toNat).map (place pl) =
      (List.range m.num_pieces.toNat).flatMap fun p =>
        (pieceBlocks fl pl p).map fun x => (pl * p + x.1, x.2) := by
    simp only [requests, List.map_flatMap, List.map_map]
    rfl
  have hnum : 0 ≤ m.num_pieces := hm.num_pieces ▸ numPieces_nonneg hm.pieceLength_pos
  have htile : ∀ p < m.num_pieces.toNat, Tiles (min fl (pl * p))
      ((pieceBlocks fl pl p).map fun x => (pl * p + x.1, x.2)) (min fl (pl * (p + 1))) := by
    intro p hp
    have hlt : pl * p < fl := hm.lt_iff.mp (by omega)
    have hshift := (pieceBlocks_tiles fl pl p).shift (pl * p)
    rw [Nat.add_zero, add_sizeOf hlt] at hshift
    rwa [Nat.min_eq_right hlt.le]
  have hend : fl ≤ pl * m.num_pieces.toNat := by
    by_contra hlt
    have hnext : ((m.num_pieces.toNat : Nat) : Int) < m.num_pieces := hm.lt_iff.mpr (by omega)
    omega
  have htiles := tiles_flatMap m.num_pieces.toNat htile
  rw [hpieces]
  rwa [Nat.mul_zero, Nat.min_zero, Nat.min_eq_left hend] at htiles

/-- What the requests of a whole download are, and that `get_piece` sends them. -/
structure RequestsTileFile (m : MetainfoInfo) (fl pl : Nat) : Prop where
  count : 0 ≤ m.num_pieces ∧ m.num_pieces ≤ fl
  piece : ∀ p : Nat, p < m.num_pieces →
    ∃ size : Int, pieceSize p m = some size ∧ 1 ≤ size ∧ size ≤ pl
  /-- they are consecutive, from the first byte of the file to its last -/
  tiles : Tiles 0 ((requests fl pl m.num_pieces.toNat).map (place pl)) fl
  covers : ∀ x, (∃ r ∈ (requests fl pl m.num_pieces.toNat).map (place pl),
    r.1 ≤ x ∧ x < r.1 + r.2) ↔ x < fl
  disjoint : ((requests fl pl m.num_pieces.toNat).map (place pl)).Pairwise
    fun r r' => r.1 + r.2 ≤ r'.1
  inside : ∀ r ∈ requests fl pl m.num_pieces.toNat, 1 ≤ r.2.2 ∧ r.2.2 ≤ 16384 ∧
    ∃ size : Int, pieceSize r.1 m = some size ∧ r.2.1 + r.2.2 ≤ size ∧ size ≤ m.piece_length
  /-- where the answers to all of them arrive, in whatever segments, `get_piece` for one piece after
  the other returns, has sent just them and has taken just the answers -/
  sends : ∀ {β : Type} {sock : Socket β}, sock.Flowing →
    answersLength fl pl m.num_pieces.toNat ≤ sock.stream.length →
    ∃ sock', getPieces m m.num_pieces.toNat sock = .ok sock' ∧
      sock'.sent = sock.sent ++ (requests fl pl m.num_pieces.toNat).map request ∧
      sock'.stream = sock.stream.drop (answersLength fl pl m.num_pieces.toNat)
  /-- where fewer bytes arrive, it waits for the rest -/
  waits : ∀ {β : Type} {sock : Socket β}, sock.Flowing →
    sock.stream.length < answersLength fl pl m.num_pieces.toNat →
    getPieces m m.num_pieces.toNat sock = .error .pending
  /-- whatever arrives, it does not return with anything else sent -/
  sent : ∀ {β : Type} {sock sock' : Socket β}, getPieces m m.num_pieces.toNat sock = .ok sock' →
    sock'.sent = sock.sent ++ (requests fl pl m.num_pieces.toNat).map request
  /-- and nothing goes out of range in it, unless a `read` fails -/
  inRange : ∀ {β : Type} {sock : Socket β},
    getPieces m m.num_pieces.toNat sock = .error .undefined → Arrival.error ∈ sock.incoming

theorem mem_requests {n : Nat} {r : Nat × Nat × Nat} (h : r ∈ requests fl pl n) :
    r.1 < n ∧ r.2 ∈ pieceBlocks fl pl r.1 := by
  simp only [requests, List.mem_flatMap, List.mem_range, List.mem_map] at h
  obtain ⟨p, hp, x, hx, rfl⟩ := h
  exact ⟨hp, hx⟩

theorem requests_tile_file (hm : m.Sized fl pl) : RequestsTileFile m fl pl := by
  have hpl := hm.pieceLength_pos
  have hcount : 0 ≤ m.num_pieces ∧ m.num_pieces ≤ fl := by
    rw [hm.num_pieces]
    exact ⟨numPieces_nonneg hpl, numPieces_le hpl⟩
  have htiles := requests_tiles hm
  constructor
  case count => exact hcount
  case piece =>
    intro p hp
    have hsize := sizeOf_bounds hpl (hm.lt_iff.mp hp)
    exact ⟨sizeOf fl pl p, hm.pieceSize_eq hp, by omega, by omega⟩
  case tiles => exact htiles
  case covers =>
    intro x
    rw [htiles.mem_iff]
    exact and_iff_right (Nat.zero_le x)
  case disjoint => exact htiles.pairwise
  case inside =>
    intro r hr
    obtain ⟨hp, hblock⟩ := mem_requests hr
    have hp' : ((r.1 : Nat) : Int) < m.num_pieces := by omega
    have hbounds := blocksFrom_bounds hblock
    have hsize := sizeOf_bounds hpl (hm.lt_iff.mp hp')
    rw [hm.piece_length]
    exact ⟨hbounds.1, hbounds.2.1, sizeOf fl pl r.1, hm.pieceSize_eq hp', by omega, by omega⟩
  case sent =>
    intro β sock sock' hrun
    rcases getPieces_spec sock hm m.num_pieces.toNat with ⟨sock'', hrun', hwrote, -⟩ | ⟨e, hrun', -⟩
    · rw [hrun, Except.ok.injEq] at hrun'
      rw [hrun', hwrote.sent]
    · rw [hrun] at hrun'
      cases hrun'
  case inRange =>
    intro β sock hrun
    rcases getPieces_spec sock hm m.num_pieces.toNat with ⟨sock'', hrun', -⟩ | ⟨e, hrun', hstop⟩
    · rw [hrun] at hrun'
      cases hrun'
    · rw [hrun, Except.error.injEq] at hrun'
      by_contra hun
      rw [hstop hun] at hrun'
      cases hrun'
  case sends =>
    intro β sock hflow hle
    rcases getPieces_flowing hflow hm m.num_pieces.toNat with
      ⟨-, sock', hrun, hstream, hsent, -⟩ | ⟨hlt, -⟩
    · exact ⟨sock', hrun, hsent, hstream⟩
    · exact absurd hle (by omega)
  case waits =>
    intro β sock hflow hlt
    rcases getPieces_flowing hflow hm m.num_pieces.toNat with ⟨hle, -⟩ | ⟨-, hrun⟩
    · exact absurd hle (by omega)
    · exact hrun

theorem threePieces_requests : requests 50000 20000 3 =
    [(0, 0, 16384), (0, 16384, 3616), (1, 0, 16384), (1, 16384, 3616), (2, 0, 10000)] := by
  have hwhole : blocksFrom 0 20000 = [(0, 16384), (16384, 3616)] := by
    rw [blocksFrom_pos (n := 16384) (by omega) rfl, blocksFrom_pos (n := 3616) (by omega) rfl,
      blocksFrom_zero]
  have hlast : blocksFrom 0 10000 = [(0, 10000)] := by
    rw [blocksFrom_pos (n := 10000) (by omega) rfl, blocksFrom_zero]
  simp [requests, List.range_succ, pieceBlocks, sizeOf, hwhole, hlast]

theorem requests_tile_file_threePieces :
    RequestsTileFile threePieces 50000 20000 ∧
      ∃ sock', getPieces threePieces 3 (.single (List.replicate 50065 ())) = .ok sock' ∧
        sock'.stream = [] ∧
        sock'.sent = [requestBytes 0 0 16384, requestBytes 0 16384 3616, requestBytes 1 0 16384,
          requestBytes 1 16384 3616, requestBytes 2 0 10000] := by
  have htiles : RequestsTileFile threePieces 50000 20000 := requests_tile_file threePieces_sized
  have hnum : threePieces.num_pieces.toNat = 3 := by rw [threePieces_count]; rfl
  have hlen : answersLength 50000 20000 3 = 50065 := by
    rw [answersLength_eq, threePieces_requests]
    rfl
  have hsends := htiles.sends (Socket.single_flowing (List.replicate 50065 ()))
  rw [hnum, hlen, Socket.single_stream, threePieces_requests] at hsends
  obtain ⟨sock', hrun, hsent, hstream⟩ := hsends (List.length_replicate).ge
  refine ⟨htiles, sock', hrun, ?_, hsent⟩
  rw [hstream, List.drop_eq_nil_of_le (List.length_replicate).le]

end Tiling

end BitFS.Client
