import BitFS.Library.MachineInt
import BitFS.Library.Slice

/-! # The socket of the client

What the peer sends arrives in segments: one `read` returns bytes of one segment
only, the rest of it waits for the next `read`. A `read` with nothing left to
arrive blocks. Bytes are of any type, so that a test or a proof can follow them
through the code.
-/

namespace BitFS.Client

open MachineInt Memory

variable {β : Type}

/-- What a `read` finds. A segment has at least one byte. -/
inductive Arrival (β : Type) where
  | data (b : β) (bs : List β)
  /-- the peer has closed the connection: 0, now and for ever -/
  | closed
  /-- `read` fails once -/
  | error

def Arrival.bytes : Arrival β → List β
  | data b bs => b :: bs
  | closed | error => []

/-- A connected socket: what is to arrive, the buffers handed to `write` so far, and how many
bytes the system takes at each of these calls, `none` where the call fails. -/
structure Socket (β : Type) where
  incoming : List (Arrival β)
  sent : List (List UInt8)
  takes : Nat → Option Nat

/-- Why a function of the client does not return: it waits for ever, or what it
does is undefined. -/
inductive Stop where
  | pending
  | undefined
  deriving DecidableEq

/-- What is left of a segment. -/
def leftover (l : List β) (rest : List (Arrival β)) : List (Arrival β) :=
  match l with
  | [] => rest
  | b :: bs => .data b bs :: rest

namespace Socket

variable (sock : Socket β)

/-- `read(sockfd, buf, n)`: its result, the bytes it stores, and the socket after it. -/
def read (n : Nat) : Option (Int × List β × Socket β) :=
  match sock.incoming with
  | [] => none
  | .data b bs :: rest =>
      some (min n (b :: bs).length, (b :: bs).take n,
        { sock with incoming := leftover ((b :: bs).drop n) rest })
  | .closed :: _ => some (0, [], sock)
  | .error :: rest => some (-1, [], { sock with incoming := rest })

/-- `write(sockfd, buf, n)` with all of `buf`: its result, and the socket after it. -/
def write (buf : List UInt8) : Int × Socket β :=
  (match sock.takes sock.sent.length with
    | some k => (min k buf.length : Nat)
    | none => -1, { sock with sent := sock.sent ++ [buf] })

/-- The bytes that went out: of every buffer those that its `write` took. -/
def delivered : List UInt8 :=
  sock.sent.zipIdx.flatMap fun x => x.1.take ((sock.takes x.2).getD 0)

/-- No `write` was short. -/
def Complete : Prop := ∀ x ∈ sock.sent.zipIdx, x.1.length ≤ (sock.takes x.2).getD 0

/-- All bytes still to arrive. -/
def stream : List β := sock.incoming.flatMap Arrival.bytes

/-- Nothing but data arrives. -/
def Flowing : Prop := ∀ a ∈ sock.incoming, ∃ b bs, a = .data b bs

end Socket

/-- `tcp_recv(sockfd, buf + pos, n)`. -/
def tcpRecv (sock : Socket β) (buf : List (Option β)) (pos n : Int) :
    Except Stop (Int × List (Option β) × Socket β) :=
  match sock.read n.toNat with
  | none => .error .pending
  | some (nrecv, bytes, sock') =>
      match memcpy buf pos (bytes.map some) 0 bytes.length with
      | none => .error .undefined
      | some buf' => .ok (nrecv, buf', sock')

/-- `tcp_send`: -1 or how much of `buf` went out, and the socket after it. All callers ignore the
result, so that the rest of a short `write` is never sent. -/
def tcpSend (sock : Socket β) (buf : List UInt8) : Int × Socket β :=
  (if (sock.write buf).1 < 0 then -1 else (sock.write buf).1, (sock.write buf).2)

/-- The loop of `get_block`. With no more arrivals than `fuel` the fuel suffices, but a
closed connection makes the loop endless. -/
def getBlockLoop : Nat → Socket β → List (Option β) → Int → Int →
    Except Stop (List (Option β) × Socket β)
  | fuel, sock, blk, offset, remaining =>
    if remaining > 0 then
      match fuel with
      | 0 => .error .pending
      | fuel + 1 => do
          let (nread, blk', sock') ← tcpRecv sock blk offset remaining
          match checked32 (remaining - nread), checked32 (offset + nread) with
          | some remaining', some offset' => getBlockLoop fuel sock' blk' offset' remaining'
          | _, _ => .error .undefined
    else .ok (blk, sock)

/-- `get_block`: a fresh buffer of `size + 128` bytes, of which `size` are received. -/
def getBlock (sock : Socket β) (size : Int) : Except Stop (List (Option β) × Socket β) :=
  match checked32 (size + 128) with
  | none => .error .undefined
  | some n => getBlockLoop sock.incoming.length sock (List.replicate n.toNat none) 0 size

/-! ## Whatever arrives -/

/-- `sock'` is a later state of `sock`, with `bufs` written in between. -/
structure Socket.Wrote (sock : Socket β) (bufs : List (List UInt8)) (sock' : Socket β) : Prop where
  sent : sock'.sent = sock.sent ++ bufs
  takes : sock'.takes = sock.takes

theorem Socket.Wrote.refl (sock : Socket β) : sock.Wrote [] sock := ⟨(List.append_nil _).symm, rfl⟩

theorem Socket.Wrote.trans {sock sock' sock'' : Socket β} {bufs bufs' : List (List UInt8)}
    (h : sock.Wrote bufs sock') (h' : sock'.Wrote bufs' sock'') :
    sock.Wrote (bufs ++ bufs') sock'' := by
  constructor
  · rw [h'.sent, h.sent, List.append_assoc]
  · rw [h'.takes, h.takes]

theorem tcpSend_wrote (sock : Socket β) (buf : List UInt8) :
    sock.Wrote [buf] (tcpSend sock buf).2 := ⟨rfl, rfl⟩

theorem Socket.read_wrote {sock sock' : Socket β} {n : Nat} {nread : Int} {bytes : List β}
    (h : sock.read n = some (nread, bytes, sock')) : sock.Wrote [] sock' := by
  unfold Socket.read at h
  split at h
  · cases h
  all_goals
    simp only [Option.some.injEq, Prod.mk.injEq] at h
    rw [← h.2.2]
    exact ⟨(List.append_nil _).symm, rfl⟩

theorem tcpRecv_keeps {sock sock' : Socket β} {buf buf' : List (Option β)} {pos n nrecv : Int}
    (h : tcpRecv sock buf pos n = .ok (nrecv, buf', sock')) :
    buf'.length = buf.length ∧ sock.Wrote [] sock' := by
  unfold tcpRecv at h
  split at h
  · cases h
  · rename_i hread
    split at h
    · cases h
    · rename_i hcopy
      simp only [Except.ok.injEq, Prod.mk.injEq] at h
      obtain ⟨-, rfl, rfl⟩ := h
      exact ⟨memcpy_length hcopy, Socket.read_wrote hread⟩

theorem getBlockLoop_keeps (fuel : Nat) {sock sock' : Socket β} {blk blk' : List (Option β)}
    {offset remaining : Int} (h : getBlockLoop fuel sock blk offset remaining = .ok (blk', sock')) :
    blk'.length = blk.length ∧ sock.Wrote [] sock' := by
  induction fuel generalizing sock blk offset remaining with
  | zero =>
      unfold getBlockLoop at h
      split at h
      · cases h
      · simp only [Except.ok.injEq, Prod.mk.injEq] at h
        rw [h.1, h.2]
        exact ⟨rfl, .refl sock'⟩
  | succ fuel ih =>
      unfold getBlockLoop at h
      split at h
      · cases hrecv : tcpRecv sock blk offset remaining with
        | error e =>
            simp only [hrecv, bind, Except.bind] at h
            cases h
        | ok res =>
            obtain ⟨nread, blk1, sock1⟩ := res
            have hkeep := tcpRecv_keeps hrecv
            simp only [hrecv, bind, Except.bind] at h
            split at h
            · have hrest := ih h
              exact ⟨hrest.1.trans hkeep.1, hkeep.2.trans hrest.2⟩
            · cases h
      · simp only [Except.ok.injEq, Prod.mk.injEq] at h
        rw [h.1, h.2]
        exact ⟨rfl, .refl sock'⟩

theorem getBlock_eq (sock : Socket β) {size cells : Int} (h : checked32 (size + 128) = some cells) :
    getBlock sock size =
      getBlockLoop sock.incoming.length sock (List.replicate cells.toNat none) 0 size := by
  simp only [getBlock, h]

theorem getBlock_keeps {sock sock' : Socket β} {blk : List (Option β)} {n : Nat}
    (hn : n + 128 ≤ 2147483647) (h : getBlock sock n = .ok (blk, sock')) :
    blk.length = n + 128 ∧ sock.Wrote [] sock' := by
  obtain ⟨cells, hcells⟩ : ∃ cells : Nat, cells = n + 128 := ⟨_, rfl⟩
  have hmalloc : checked32 ((n : Int) + 128) = some (cells : Int) := by
    rw [checked32_of_fits ⟨by omega, by omega⟩, Option.some.injEq]
    omega
  rw [getBlock_eq sock hmalloc, Int.toNat_natCast] at h
  have hkeep := getBlockLoop_keeps _ h
  rw [List.length_replicate] at hkeep
  exact ⟨hkeep.1.trans hcells, hkeep.2⟩

/-! ## What goes out -/

section Delivered

variable {α : Type}

theorem flatMap_take_length_le (l : List (List α × Nat)) (taken : Nat → Nat) :
    (l.flatMap fun x => x.1.take (taken x.2)).length ≤ (l.map Prod.fst).flatten.length := by
  induction l with
  | nil => exact le_rfl
  | cons x l ih =>
      rw [List.flatMap_cons, List.map_cons, List.flatten_cons, List.length_append,
        List.length_append, List.length_take]
      omega

/-- The pieces add up to the whole only if none of them is short. -/
theorem flatMap_take_eq_iff (l : List (List α × Nat)) (taken : Nat → Nat) :
    (l.flatMap fun x => x.1.take (taken x.2)) = (l.map Prod.fst).flatten ↔
      ∀ x ∈ l, x.1.length ≤ taken x.2 := by
  induction l with
  | nil => simp
  | cons x l ih =>
      rw [List.flatMap_cons, List.map_cons, List.flatten_cons, List.forall_mem_cons, ← ih]
      constructor
      · intro hall
        have hlen := congrArg List.length hall
        have hrest := flatMap_take_length_le l taken
        rw [List.length_append, List.length_append, List.length_take] at hlen
        have hfirst : x.1.length ≤ taken x.2 := by omega
        rw [List.take_of_length_le hfirst] at hall
        exact ⟨hfirst, List.append_cancel_left hall⟩
      · intro ⟨hfirst, hrest⟩
        rw [List.take_of_length_le hfirst, hrest]

end Delivered

/-- All that was handed to `write` went out only if no `write` was short. -/
theorem Socket.delivered_eq_iff (sock : Socket β) :
    sock.delivered = sock.sent.flatten ↔ sock.Complete := by
  have hiff := flatMap_take_eq_iff sock.sent.zipIdx fun i => (sock.takes i).getD 0
  rwa [List.zipIdx_map_fst] at hiff

theorem Socket.complete_of_le {sock : Socket β} {n : Nat} (htakes : ∀ i, sock.takes i = some n)
    (h : ∀ buf ∈ sock.sent, buf.length ≤ n) : sock.Complete := by
  intro x hx
  rw [htakes, Option.getD_some]
  exact h x.1 (List.fst_mem_of_mem_zipIdx hx)

/-! ## Reads that do not fail -/

/-- No `read` fails. -/
def Socket.Unbroken (sock : Socket β) : Prop := Arrival.error ∉ sock.incoming

theorem Socket.Unbroken.read {sock sock' : Socket β} (h : sock.Unbroken) {n : Nat} {nread : Int}
    {bytes : List β} (hread : sock.read n = some (nread, bytes, sock')) :
    nread = bytes.length ∧ bytes.length ≤ n ∧ sock'.Unbroken := by
  unfold Socket.read at hread
  cases hin : sock.incoming with
  | nil =>
      rw [hin] at hread
      cases hread
  | cons a rest =>
      rw [hin] at hread
      cases a with
      | data b bs =>
          simp only [Option.some.injEq, Prod.mk.injEq] at hread
          obtain ⟨rfl, rfl, rfl⟩ := hread
          refine ⟨by rw [List.length_take, Nat.cast_min], by rw [List.length_take]; omega, ?_⟩
          intro hmem
          cases hl : (b :: bs).drop n with
          | nil =>
              rw [hl, leftover] at hmem
              exact h (hin ▸ List.mem_cons_of_mem _ hmem)
          | cons c cs =>
              rw [hl, leftover] at hmem
              rcases List.mem_cons.mp hmem with hmem | hmem
              · cases hmem
              · exact h (hin ▸ List.mem_cons_of_mem _ hmem)
      | closed =>
          simp only [Option.some.injEq, Prod.mk.injEq] at hread
          obtain ⟨rfl, rfl, rfl⟩ := hread
          exact ⟨rfl, Nat.zero_le n, h⟩
      | error => exact absurd (hin ▸ List.mem_cons_self) h

theorem getBlockLoop_unbroken (fuel : Nat) {sock : Socket β} (h : sock.Unbroken)
    (blk : List (Option β)) {o r : Nat} (hblk : o + r ≤ blk.length) (hfits : o + r ≤ 2147483647) :
    (∃ blk' sock', getBlockLoop fuel sock blk o r = .ok (blk', sock') ∧ sock'.Unbroken) ∨
      getBlockLoop fuel sock blk o r = .error .pending := by
  induction fuel generalizing sock blk o r with
  | zero =>
      unfold getBlockLoop
      split
      · exact Or.inr rfl
      · exact Or.inl ⟨blk, sock, rfl, h⟩
  | succ fuel ih =>
      unfold getBlockLoop
      split
      · cases hread : sock.read r with
        | none =>
            have hrecv : tcpRecv sock blk o r = .error .pending := by
              simp only [tcpRecv, Int.toNat_natCast, hread]
            rw [hrecv]
            exact Or.inr rfl
        | some res =>
            obtain ⟨nread, bytes, sock1⟩ := res
            obtain ⟨rfl, hle, hun⟩ := h.read hread
            have hlen : (bytes.map (some (α := β))).length = bytes.length := List.length_map _
            have hcopy : memcpy blk o (bytes.map some) (0 : Nat) bytes.length = some _ :=
              memcpy_of_bounds (by omega) (by omega)
            have hsize := memcpy_length hcopy
            rw [Nat.cast_zero] at hcopy
            have hrecv : tcpRecv sock blk o r = .ok (bytes.length, blk.take o ++
                slice (bytes.map some) 0 bytes.length ++ blk.drop (o + bytes.length), sock1) := by
              simp only [tcpRecv, Int.toNat_natCast, hread, hcopy]
            have hrem : checked32 ((r : Int) - bytes.length) =
                some ((r - bytes.length : Nat) : Int) := by
              rw [checked32_of_fits ⟨by omega, by omega⟩, Option.some.injEq]
              omega
            have hoff : checked32 ((o : Int) + bytes.length) =
                some ((o + bytes.length : Nat) : Int) := by
              rw [checked32_of_fits ⟨by omega, by omega⟩]
              push_cast
              rfl
            rw [hrecv]
            simp only [bind, Except.bind, hrem, hoff]
            exact ih hun _ (by omega) (by omega)
      · exact Or.inl ⟨blk, sock, rfl, h⟩

theorem getBlock_unbroken {sock : Socket β} (h : sock.Unbroken) {n : Nat}
    (hn : n + 128 ≤ 2147483647) :
    (∃ blk sock', getBlock sock n = .ok (blk, sock') ∧ sock'.Unbroken) ∨
      getBlock sock n = .error .pending := by
  obtain ⟨cells, hcells⟩ : ∃ cells : Nat, cells = n + 128 := ⟨_, rfl⟩
  have hmalloc : checked32 ((n : Int) + 128) = some (cells : Int) := by
    rw [checked32_of_fits ⟨by omega, by omega⟩, Option.some.injEq]
    omega
  have hblk : 0 + n ≤ (List.replicate cells (none : Option β)).length := by
    rw [List.length_replicate]
    omega
  rw [getBlock_eq sock hmalloc, Int.toNat_natCast, ← Nat.cast_zero]
  exact getBlockLoop_unbroken _ h _ hblk (by omega)

/-! ## Data arriving in segments -/

section Flowing

variable {sock sock' : Socket β}

theorem leftover_flatMap (l : List β) (rest : List (Arrival β)) :
    (leftover l rest).flatMap Arrival.bytes = l ++ rest.flatMap Arrival.bytes := by
  cases l <;> simp [leftover, Arrival.bytes]

/-- The bytes of the segment the next `read` is served from. -/
def Socket.ready (sock : Socket β) : Nat :=
  match sock.incoming with
  | .data b bs :: _ => (b :: bs).length
  | _ => 0

/-- The socket after `n` bytes of that segment. -/
def Socket.skip (sock : Socket β) (n : Nat) : Socket β :=
  match sock.incoming with
  | .data b bs :: rest => { sock with incoming := leftover ((b :: bs).drop n) rest }
  | _ => sock

theorem Socket.Flowing.skip (h : sock.Flowing) (n : Nat) : (sock.skip n).Flowing := by
  intro a ha
  unfold Socket.skip at ha
  split at ha
  · rename_i b bs rest hin
    dsimp only at ha
    cases hl : (b :: bs).drop n with
    | nil =>
        rw [hl, leftover] at ha
        exact h a (hin ▸ List.mem_cons_of_mem _ ha)
    | cons c cs =>
        rw [hl, leftover] at ha
        rcases List.mem_cons.mp ha with rfl | hrest
        · exact ⟨c, cs, rfl⟩
        · exact h a (hin ▸ List.mem_cons_of_mem _ hrest)
  · exact h a ha

/-- A `read` on flowing data returns as much of the next segment as fits. -/
theorem Socket.Flowing.read_ready (h : sock.Flowing) (hne : sock.stream ≠ []) (n : Nat) :
    sock.read n =
        some (((min n sock.ready : Nat) : Int), sock.stream.take (min n sock.ready), sock.skip n) ∧
      (sock.skip n).stream = sock.stream.drop (min n sock.ready) ∧ 1 ≤ sock.ready ∧
      sock.ready ≤ sock.stream.length := by
  cases hin : sock.incoming with
  | nil => exact absurd (by simp [stream, hin]) hne
  | cons a rest =>
      obtain ⟨b, bs, rfl⟩ := h a (by simp [hin])
      have hstream : sock.stream = (b :: bs) ++ rest.flatMap Arrival.bytes := by
        simp [stream, hin, Arrival.bytes]
      have hready : sock.ready = (b :: bs).length := by simp only [ready, hin]
      have hskip : sock.skip n = { sock with incoming := leftover ((b :: bs).drop n) rest } := by
        simp only [Socket.skip, hin]
      have hk : min n (b :: bs).length ≤ (b :: bs).length := Nat.min_le_right _ _
      have hdrop : (b :: bs).drop n = (b :: bs).drop (min n (b :: bs).length) := by
        rw [List.drop_eq_drop_iff]
        omega
      have htake : (b :: bs).take n = (b :: bs).take (min n (b :: bs).length) := by
        rw [List.take_eq_take_iff]
        omega
      rw [hready, hskip]
      refine ⟨?_, ?_, Nat.succ_le_succ (Nat.zero_le _), ?_⟩
      · rw [hstream, List.take_append_of_le_length hk, ← htake]
        simp only [Socket.read, hin, Nat.cast_min]
      · rw [hstream, List.drop_append_of_le_length hk, ← hdrop]
        exact leftover_flatMap _ _
      · rw [hstream, List.length_append]
        exact Nat.le_add_right _ _

/-- A `read` that takes a whole segment leaves one less. -/
theorem Socket.skip_incoming_lt {n : Nat} (h1 : 1 ≤ sock.ready) (hn : sock.ready ≤ n) :
    (sock.skip n).incoming.length < sock.incoming.length := by
  unfold Socket.ready at h1 hn
  unfold Socket.skip
  split at h1
  · rename_i b bs rest hin
    simp only [hin] at hn ⊢
    rw [List.drop_eq_nil_of_le hn, leftover]
    exact Nat.lt_succ_self _
  · omega

/-- A `read` on flowing data returns a non-empty prefix of the stream, and ends the
segment unless it got all it asked for. -/
theorem Socket.Flowing.read (h : sock.Flowing) {n : Nat} (hn : 1 ≤ n) :
    (sock.stream = [] ∧ sock.read n = none) ∨
      ∃ (k : Nat) (sock' : Socket β), sock.read n = some ((k : Int), sock.stream.take k, sock') ∧
        1 ≤ k ∧ k ≤ n ∧ k ≤ sock.stream.length ∧ sock'.stream = sock.stream.drop k ∧
        sock'.sent = sock.sent ∧ sock'.Flowing ∧
        (k = n ∨ sock'.incoming.length < sock.incoming.length) := by
  by_cases hnil : sock.stream = []
  · refine Or.inl ⟨hnil, ?_⟩
    cases hin : sock.incoming with
    | nil => simp only [Socket.read, hin]
    | cons a rest =>
        obtain ⟨b, bs, rfl⟩ := h a (by simp [hin])
        simp [stream, hin, Arrival.bytes] at hnil
  · obtain ⟨hread, hstream, h1, hle⟩ := h.read_ready hnil n
    refine Or.inr ⟨min n sock.ready, sock.skip n, hread, by omega, by omega, by omega, hstream,
      (Socket.read_wrote hread).sent.trans (List.append_nil _), h.skip n, ?_⟩
    by_cases hlt : n ≤ sock.ready
    · exact Or.inl (by omega)
    · exact Or.inr (Socket.skip_incoming_lt h1 (by omega))

/-- `tcp_recv` into the free part of a buffer. -/
theorem Socket.Flowing.tcpRecv (h : sock.Flowing) {n m : Nat} (hn : 1 ≤ n) (hm : n ≤ m)
    (got : List β) :
    (sock.stream = [] ∧
        tcpRecv sock (got.map some ++ List.replicate m none) got.length n = .error .pending) ∨
      ∃ (k : Nat) (sock' : Socket β),
        tcpRecv sock (got.map some ++ List.replicate m none) got.length n =
          .ok (k, (got ++ sock.stream.take k).map some ++ List.replicate (m - k) none, sock') ∧
        1 ≤ k ∧ k ≤ n ∧ k ≤ sock.stream.length ∧ sock'.stream = sock.stream.drop k ∧
        sock'.sent = sock.sent ∧ sock'.Flowing ∧
        (k = n ∨ sock'.incoming.length < sock.incoming.length) := by
  unfold Client.tcpRecv
  rw [Int.toNat_natCast]
  rcases h.read hn with ⟨hnil, hread⟩ | ⟨k, sock', hread, h1, hkn, hks, hrest⟩
  · exact Or.inl ⟨hnil, by rw [hread]⟩
  · refine Or.inr ⟨k, sock', ?_, h1, hkn, hks, hrest⟩
    have htake : (sock.stream.take k).length = k := List.length_take_of_le hks
    have hcopy : memcpy (got.map some ++ List.replicate m none) got.length
        ((sock.stream.take k).map some) (0 : Nat) (k : Nat) =
        some ((got ++ sock.stream.take k).map some ++ List.replicate (m - k) none) := by
      have hlen : (got.map (some (α := β))).length = got.length := List.length_map _
      rw [memcpy_of_bounds (by simp; omega) (by rw [List.length_map, htake, Nat.zero_add])]
      rw [← hlen, List.take_left, ← List.drop_drop, List.drop_left, List.drop_replicate,
        List.map_append]
      congr 2
      rw [slice, List.drop_zero, List.take_of_length_le (by rw [List.length_map, htake])]
    rw [hread]
    simp only [htake]
    rw [Nat.cast_zero] at hcopy
    rw [hcopy]

theorem getBlockLoop_flowing (fuel : Nat) {sock : Socket β} (h : sock.Flowing) (got : List β)
    {r m : Nat} (hm : r ≤ m) (hr : got.length + r ≤ 2147483647)
    (hfuel : r = 0 ∨ sock.incoming.length ≤ fuel) :
    (r ≤ sock.stream.length ∧ ∃ sock',
      getBlockLoop fuel sock (got.map some ++ List.replicate m none) got.length r =
        .ok ((got ++ sock.stream.take r).map some ++ List.replicate (m - r) none, sock') ∧
      sock'.stream = sock.stream.drop r ∧ sock'.sent = sock.sent ∧ sock'.Flowing) ∨
    (sock.stream.length < r ∧
      getBlockLoop fuel sock (got.map some ++ List.replicate m none) got.length r =
        .error .pending) := by
  induction fuel generalizing sock got r m with
  | zero =>
      by_cases h0 : r = 0
      · subst h0
        exact Or.inl ⟨Nat.zero_le _, sock, by simp [getBlockLoop], rfl, rfl, h⟩
      · have hnil : sock.incoming = [] := by
          rcases hfuel with hf | hf
          · exact (h0 hf).elim
          · exact List.eq_nil_of_length_eq_zero (Nat.le_zero.mp hf)
        refine Or.inr ⟨?_, ?_⟩
        · simp [Socket.stream, hnil]
          omega
        · rw [getBlockLoop, if_pos (by omega)]
  | succ fuel ih =>
      by_cases h0 : r = 0
      · subst h0
        exact Or.inl ⟨Nat.zero_le _, sock, by simp [getBlockLoop], rfl, rfl, h⟩
      · have hlen : sock.incoming.length ≤ fuel + 1 := hfuel.resolve_left h0
        rw [getBlockLoop, if_pos (by omega)]
        rcases h.tcpRecv (n := r) (m := m) (by omega) hm got with
          ⟨hnil, hrecv⟩ | ⟨k, sock', hrecv, h1, hkr, hks, hstream, hsent, hflow, hless⟩
        · refine Or.inr ⟨by rw [hnil]; simpa using Nat.pos_of_ne_zero h0, ?_⟩
          rw [hrecv]
          rfl
        · have hrem : checked32 ((r : Int) - k) = some ((r - k : Nat) : Int) := by
            rw [checked32_of_fits ⟨by omega, by omega⟩]
            congr 1
            omega
          have hlen' : (got ++ sock.stream.take k).length = got.length + k := by
            rw [List.length_append, List.length_take_of_le hks]
          have hoff : checked32 ((got.length : Int) + k) =
              some (((got ++ sock.stream.take k).length : Nat) : Int) := by
            rw [checked32_of_fits ⟨by omega, by omega⟩, hlen']
            push_cast
            rfl
          rw [hrecv]
          simp only [bind, Except.bind, hrem, hoff]
          rcases ih hflow (got ++ sock.stream.take k) (r := r - k) (m := m - k) (by omega)
              (by omega) (by omega) with
            ⟨hle, sock'', hrun, hstream', hsent', hflow'⟩ | ⟨hlt, hrun⟩
          · rw [hstream, List.length_drop] at hle
            refine Or.inl ⟨by omega, sock'', ?_, ?_, hsent'.trans hsent, hflow'⟩
            · rw [hrun, hstream, List.append_assoc, ← List.take_add, Nat.add_sub_cancel' hkr,
                Nat.sub_sub, Nat.add_sub_cancel' hkr]
            · rw [hstream', hstream, List.drop_drop, Nat.add_sub_cancel' hkr]
          · rw [hstream, List.length_drop] at hlt
            exact Or.inr ⟨by omega, hrun⟩

/-- `get_block` on flowing data: it takes exactly `n` bytes off the stream, however they
are split into segments, and waits if they never arrive. -/
theorem getBlock_flowing (h : sock.Flowing) {n : Nat} (hn : n + 128 ≤ 2147483647) :
    (n ≤ sock.stream.length ∧ ∃ sock',
      getBlock sock n =
        .ok ((sock.stream.take n).map some ++ List.replicate 128 none, sock') ∧
      sock'.stream = sock.stream.drop n ∧ sock'.sent = sock.sent ∧ sock'.Flowing) ∨
    (sock.stream.length < n ∧ getBlock sock n = .error .pending) := by
  have hlen : ([] : List β).length + n ≤ 2147483647 := by
    rw [List.length_nil]
    omega
  obtain ⟨cells, hcells⟩ : ∃ cells : Nat, cells = n + 128 := ⟨_, rfl⟩
  have hmalloc : checked32 ((n : Int) + 128) = some (cells : Int) := by
    rw [checked32_of_fits ⟨by omega, by omega⟩]
    congr 1
    omega
  have hloop := getBlockLoop_flowing sock.incoming.length h [] (m := cells) (by omega) hlen
    (Or.inr le_rfl)
  rw [show cells - n = 128 by omega] at hloop
  rw [getBlock_eq sock hmalloc]
  simpa only [Int.toNat_natCast, List.map_nil, List.nil_append, List.length_nil, Nat.cast_zero]
    using hloop

/-- A socket at which data arrives in these segments, and which takes all that is written. -/
def Socket.segments (data : List (List β)) : Socket β :=
  ⟨data.foldr leftover [], [], fun _ => some 2147483647⟩

theorem Socket.segments_stream (data : List (List β)) : (segments data).stream = data.flatten := by
  rw [stream, segments]
  induction data with
  | nil => rfl
  | cons l data ih => rw [List.foldr_cons, leftover_flatMap, ih, List.flatten_cons]

theorem Socket.segments_flowing (data : List (List β)) : (segments data).Flowing := by
  rw [segments, Flowing]
  induction data with
  | nil =>
      intro a ha
      cases ha
  | cons l data ih =>
      cases l with
      | nil => exact ih
      | cons b bs =>
          intro a ha
          rcases List.mem_cons.mp ha with rfl | hrest
          · exact ⟨b, bs, rfl⟩
          · exact ih a hrest

/-- A socket at which `bytes` arrive in one segment. -/
def Socket.single (bytes : List β) : Socket β := segments [bytes]

theorem Socket.single_stream (bytes : List β) : (single bytes).stream = bytes := by
  rw [single, segments_stream, List.flatten_singleton]

theorem Socket.single_flowing (bytes : List β) : (single bytes).Flowing := segments_flowing _

end Flowing

end BitFS.Client
