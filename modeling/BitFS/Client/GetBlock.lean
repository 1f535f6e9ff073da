import BitFS.Client.Socket
import Mathlib.Algebra.BigOperators.Group.List.Basic

/-! # The loop of `get_block`, whatever `read` returns

`get_block` adds the result of every `read` to its counters without looking at
it: a closed connection keeps the loop going for ever, and an error moves the
place for the next bytes one back.
-/

namespace BitFS.Client

open MachineInt Memory

variable {β : Type}

/-- The variables of the loop before an iteration. -/
structure BlockState (β : Type) where
  sock : Socket β
  blk : List (Option β)
  offset : Int
  remaining : Int

/-- An iteration. -/
def BlockState.receive (st : BlockState β) : Except Stop (BlockState β) := do
  let (nread, blk', sock') ← tcpRecv st.sock st.blk st.offset st.remaining
  match checked32 (st.remaining - nread), checked32 (st.offset + nread) with
  | some remaining', some offset' => pure ⟨sock', blk', offset', remaining'⟩
  | _, _ => .error .undefined

theorem getBlockLoop_zero (st : BlockState β) (h : 0 < st.remaining) :
    getBlockLoop 0 st.sock st.blk st.offset st.remaining = .error .pending := by
  rw [getBlockLoop, if_pos h]

theorem getBlockLoop_done (fuel : Nat) (st : BlockState β) (h : ¬ 0 < st.remaining) :
    getBlockLoop fuel st.sock st.blk st.offset st.remaining = .ok (st.blk, st.sock) := by
  unfold getBlockLoop
  rw [if_neg h]

theorem getBlockLoop_succ (fuel : Nat) (st : BlockState β) (h : 0 < st.remaining) :
    getBlockLoop (fuel + 1) st.sock st.blk st.offset st.remaining =
      st.receive >>= fun st' => getBlockLoop fuel st'.sock st'.blk st'.offset st'.remaining := by
  rw [getBlockLoop, if_pos h, BlockState.receive]
  cases tcpRecv st.sock st.blk st.offset st.remaining with
  | error e => rfl
  | ok res =>
      obtain ⟨nread, blk', sock'⟩ := res
      simp only [bind, Except.bind]
      cases checked32 (st.remaining - nread) with
      | none => rfl
      | some remaining' =>
          cases checked32 (st.offset + nread) with
          | none => rfl
          | some offset' => rfl

/-- The states before the iterations of a call. -/
inductive Iteration (sock : Socket β) (size : Int) : BlockState β → Prop where
  | first {cells : Int} (h : checked32 (size + 128) = some cells) :
      Iteration sock size ⟨sock, List.replicate cells.toNat none, 0, size⟩
  | next {st st' : BlockState β} (h : Iteration sock size st) (hmore : 0 < st.remaining)
      (hrecv : st.receive = .ok st') : Iteration sock size st'

/-- The first `N` of an infinite sequence of arrivals. -/
def Socket.arriving (arrivals : Nat → Arrival β) (N : Nat) : Socket β :=
  ⟨(List.range N).map arrivals, [], fun _ => none⟩

/-- The loop ends after finitely many arrivals, and in every iteration the counters add up to the
size and what a `read` may store lies in the buffer. -/
def EndsSafely (n : Nat) (arrivals : Nat → Arrival β) : Prop :=
  (∃ N blk sock', getBlock (.arriving arrivals N) n = .ok (blk, sock')) ∧
  ∀ N st, Iteration (.arriving arrivals N) n st →
    0 ≤ st.offset ∧ 0 ≤ st.remaining ∧ st.offset + st.remaining = n ∧
      st.offset + st.remaining ≤ st.blk.length

/-- What an arrival adds to `offset`, when all of it is asked for. -/
def Arrival.count : Arrival β → Int
  | data b bs => (b :: bs).length
  | closed => 0
  | error => -1

/-- The bytes of the first `i` arrivals, less one for every error. -/
def received (arrivals : Nat → Arrival β) (i : Nat) : Int :=
  ((List.range i).map fun j => (arrivals j).count).sum

/-- The bytes less the errors reach `n` before the connection is closed, and never get below 0. -/
def Delivers (n : Nat) (arrivals : Nat → Arrival β) : Prop :=
  ∃ N, (n : Int) ≤ received arrivals N ∧ (∀ i < N, arrivals i ≠ .closed) ∧
    ∀ i ≤ N, 0 ≤ received arrivals i

section Run

variable {arrivals : Nat → Arrival β} {n N i : Nat} {st : BlockState β}

theorem received_succ (arrivals : Nat → Arrival β) (i : Nat) :
    received arrivals (i + 1) = received arrivals i + (arrivals i).count := by
  rw [received, List.range_succ, List.map_append, List.sum_append, List.map_singleton,
    List.sum_singleton]
  rfl

theorem nonneg_succ (h : ∀ j ≤ i, 0 ≤ received arrivals j) (hi : 0 ≤ received arrivals (i + 1)) :
    ∀ j ≤ i + 1, 0 ≤ received arrivals j := by
  intro j hj
  rcases Nat.lt_or_eq_of_le hj with hlt | rfl
  · exact h j (Nat.le_of_lt_succ hlt)
  · exact hi

/-- Before iteration `i`, with every arrival before it taken whole. -/
structure BlockAt (n : Nat) (arrivals : Nat → Arrival β) (N i : Nat) (st : BlockState β) :
    Prop where
  incoming : st.sock.incoming = ((List.range N).map arrivals).drop i
  offset : st.offset = received arrivals i
  remaining : st.remaining = n - received arrivals i
  cells : st.blk.length = n + 128

/-- All is received. -/
structure BlockDone (n : Nat) (st : BlockState β) : Prop where
  offset : st.offset = n
  remaining : st.remaining = 0
  cells : st.blk.length = n + 128

/-- An iteration whose `read` returns. -/
theorem BlockState.receive_ok {nread : Int} {bytes : List β} {sock' : Socket β}
    (hread : st.sock.read st.remaining.toNat = some (nread, bytes, sock')) (hoff : 0 ≤ st.offset)
    (hroom : st.offset + bytes.length ≤ st.blk.length) (hrem : Fits32 (st.remaining - nread))
    (hnext : Fits32 (st.offset + nread)) :
    ∃ st', st.receive = .ok st' ∧ st'.sock = sock' ∧ st'.offset = st.offset + nread ∧
      st'.remaining = st.remaining - nread ∧ st'.blk.length = st.blk.length := by
  obtain ⟨o, ho⟩ := Int.eq_ofNat_of_zero_le hoff
  have hcopy : memcpy st.blk o (bytes.map some) (0 : Nat) bytes.length = some _ :=
    memcpy_of_bounds (by omega) (by rw [List.length_map, Nat.zero_add])
  have hsize := memcpy_length hcopy
  rw [← ho, Nat.cast_zero] at hcopy
  refine ⟨⟨sock', _, st.offset + nread, st.remaining - nread⟩, ?_, rfl, rfl, rfl, hsize⟩
  simp only [BlockState.receive, tcpRecv, hread, hcopy, bind, Except.bind,
    checked32_of_fits hrem, checked32_of_fits hnext]
  rfl

theorem drop_arriving (hi : i < N) :
    ((List.range N).map arrivals).drop i =
      arrivals i :: ((List.range N).map arrivals).drop (i + 1) := by
  have hlen : i < ((List.range N).map arrivals).length := by simpa using hi
  rw [List.drop_eq_getElem_cons hlen]
  simp

/-- What an iteration comes to: the arrivals have all been taken, the connection is closed, the
arrival is taken whole, or it completes the block. -/
theorem BlockAt.receive (h : BlockAt n arrivals N i st) (hn : n + 128 ≤ 2147483647)
    (hoff : 0 ≤ st.offset) (hmore : 0 < st.remaining) :
    N ≤ i ∧ st.receive = .error .pending ∨
      ∃ st', st.receive = .ok st' ∧
        (arrivals i = .closed ∧ BlockAt n arrivals N i st' ∨
          arrivals i ≠ .closed ∧
            (received arrivals (i + 1) < n ∧ BlockAt n arrivals N (i + 1) st' ∨
              n ≤ received arrivals (i + 1) ∧ BlockDone n st')) := by
  have hoffset := h.offset
  have hremaining := h.remaining
  have hcells := h.cells
  by_cases hi : i < N
  · right
    have hin := h.incoming
    rw [drop_arriving hi] at hin
    have hsucc := received_succ arrivals i
    cases ha : arrivals i with
    | closed =>
        rw [ha] at hin
        have hread : st.sock.read st.remaining.toNat = some (0, [], st.sock) := by
          simp only [Socket.read, hin]
        obtain ⟨st', hrecv, hsock, ho, hr, hlen⟩ := st.receive_ok hread hoff
          (by rw [List.length_nil]; omega) ⟨by omega, by omega⟩ ⟨by omega, by omega⟩
        refine ⟨st', hrecv, Or.inl ⟨rfl, ?_, by omega, by omega, by omega⟩⟩
        rw [hsock]
        exact h.incoming
    | error =>
        rw [ha] at hin hsucc
        have hopen : (Arrival.error : Arrival β) ≠ .closed := by
          intro hclosed
          cases hclosed
        have hread : st.sock.read st.remaining.toNat = some (-1, [],
            { st.sock with incoming := ((List.range N).map arrivals).drop (i + 1) }) := by
          simp only [Socket.read, hin]
        dsimp only [Arrival.count] at hsucc
        obtain ⟨st', hrecv, hsock, ho, hr, hlen⟩ := st.receive_ok hread hoff
          (by rw [List.length_nil]; omega) ⟨by omega, by omega⟩ ⟨by omega, by omega⟩
        refine ⟨st', hrecv, Or.inr ⟨hopen, Or.inl ⟨by omega, ?_, by omega, by omega, by omega⟩⟩⟩
        rw [hsock]
    | data b bs =>
        rw [ha] at hin hsucc
        dsimp only [Arrival.count] at hsucc
        have hopen : Arrival.data b bs ≠ .closed := by
          intro hclosed
          cases hclosed
        have hread : st.sock.read st.remaining.toNat =
            some (((min st.remaining.toNat (b :: bs).length : Nat) : Int),
              (b :: bs).take st.remaining.toNat,
              ⟨leftover ((b :: bs).drop st.remaining.toNat)
                (((List.range N).map arrivals).drop (i + 1)), st.sock.sent, st.sock.takes⟩) := by
          simp only [Socket.read, hin, Nat.cast_min]
        have htake : ((b :: bs).take st.remaining.toNat).length =
            min st.remaining.toNat (b :: bs).length := List.length_take
        obtain ⟨st', hrecv, hsock, ho, hr, hlen⟩ := st.receive_ok hread hoff
          (by rw [htake]; omega) ⟨by omega, by omega⟩ ⟨by omega, by omega⟩
        refine ⟨st', hrecv, Or.inr ⟨hopen, ?_⟩⟩
        by_cases hall : (b :: bs).length < st.remaining.toNat
        · refine Or.inl ⟨by omega, ?_, by omega, by omega, by omega⟩
          rw [hsock, List.drop_eq_nil_of_le (by omega)]
          rfl
        · exact Or.inr ⟨by omega, by omega, by omega, by omega⟩
  · have hin := h.incoming
    rw [List.drop_eq_nil_of_le (by simp; omega)] at hin
    have hread : st.sock.read st.remaining.toNat = none := by
      simp only [Socket.read, hin]
    refine Or.inl ⟨by omega, ?_⟩
    simp only [BlockState.receive, tcpRecv, hread]
    rfl

end Run

/-! ## When it ends -/

section Ends

variable {arrivals : Nat → Arrival β} {n N : Nat} {st : BlockState β}

theorem mallocSize (hn : n + 128 ≤ 2147483647) :
    checked32 ((n : Int) + 128) = some ((n + 128 : Nat) : Int) := by
  rw [checked32_of_fits ⟨by omega, by omega⟩]
  push_cast
  rfl

/-- The state in which `get_block` enters its loop. -/
def BlockState.start (sock : Socket β) (n : Nat) : BlockState β :=
  ⟨sock, List.replicate (n + 128) none, 0, n⟩

theorem getBlock_start (hn : n + 128 ≤ 2147483647) (sock : Socket β) :
    getBlock sock n = getBlockLoop sock.incoming.length (BlockState.start sock n).sock
      (BlockState.start sock n).blk (BlockState.start sock n).offset
      (BlockState.start sock n).remaining := by
  rw [getBlock_eq sock (mallocSize hn), Int.toNat_natCast]
  rfl

theorem blockAt_start (N : Nat) : BlockAt n arrivals N 0 (.start (.arriving arrivals N) n) where
  incoming := rfl
  offset := rfl
  remaining := (sub_zero _).symm
  cells := List.length_replicate

theorem iteration_start (hn : n + 128 ≤ 2147483647) (sock : Socket β) :
    Iteration sock n (.start sock n) := by
  have h : Iteration sock n ⟨sock, _, 0, n⟩ := .first (mallocSize hn)
  rwa [Int.toNat_natCast] at h

/-- The state before an iteration where the bytes never fall behind the errors. -/
def BlockReady (n : Nat) (arrivals : Nat → Arrival β) (N last : Nat) (st : BlockState β) : Prop :=
  (∃ i ≤ last, received arrivals i ≤ n ∧ BlockAt n arrivals N i st) ∨ BlockDone n st

/-- `last` is the arrival that completes the block. -/
structure Completes (n : Nat) (arrivals : Nat → Arrival β) (last : Nat) : Prop where
  enough : (n : Int) ≤ received arrivals last
  before : ∀ i < last, received arrivals i < n
  opened : ∀ i < last, arrivals i ≠ .closed
  nonneg : ∀ i ≤ last, 0 ≤ received arrivals i

theorem Delivers.completes (h : Delivers n arrivals) : ∃ last, Completes n arrivals last := by
  obtain ⟨N, henough, hopened, hnonneg⟩ := h
  have hex : ∃ N, (n : Int) ≤ received arrivals N := ⟨N, henough⟩
  classical
  have hmin : Nat.find hex ≤ N := Nat.find_min' hex henough
  exact ⟨Nat.find hex,
    { enough := Nat.find_spec hex
      before := fun i hi => not_le.mp (Nat.find_min hex hi)
      opened := fun i hi => hopened i (by omega)
      nonneg := fun i hi => hnonneg i (by omega) }⟩

theorem Completes.safe {last : Nat} (hc : Completes n arrivals last)
    (h : BlockReady n arrivals N last st) :
    0 ≤ st.offset ∧ 0 ≤ st.remaining ∧ st.offset + st.remaining = n ∧
      st.offset + st.remaining ≤ st.blk.length := by
  rcases h with ⟨i, hi, hle, hat⟩ | hdone
  · have hpos := hc.nonneg i hi
    have hoffset := hat.offset
    have hremaining := hat.remaining
    have hcells := hat.cells
    omega
  · have hoffset := hdone.offset
    have hremaining := hdone.remaining
    have hcells := hdone.cells
    omega

theorem Completes.step {last i : Nat} (hc : Completes n arrivals last) (hn : n + 128 ≤ 2147483647)
    (hi : i ≤ last) (h : BlockAt n arrivals N i st) (hmore : 0 < st.remaining) :
    i < last ∧ (N ≤ i ∧ st.receive = .error .pending ∨
      ∃ st', st.receive = .ok st' ∧
        (BlockDone n st' ∨ received arrivals (i + 1) ≤ n ∧ BlockAt n arrivals N (i + 1) st')) := by
  have hremaining := h.remaining
  have hlt : i < last := by
    rcases Nat.lt_or_eq_of_le hi with hlt | rfl
    · exact hlt
    · have henough := hc.enough
      omega
  have hoff : 0 ≤ st.offset := by
    rw [h.offset]
    exact hc.nonneg i hi
  refine ⟨hlt, ?_⟩
  rcases h.receive hn hoff hmore with
    hend | ⟨st', hrecv, ⟨hclosed, -⟩ | ⟨-, ⟨hle, hat⟩ | ⟨-, hdone⟩⟩⟩
  · exact Or.inl hend
  · exact absurd hclosed (hc.opened i hlt)
  · exact Or.inr ⟨st', hrecv, Or.inr ⟨hle.le, hat⟩⟩
  · exact Or.inr ⟨st', hrecv, Or.inl hdone⟩

theorem Completes.iterations {last : Nat} (hc : Completes n arrivals last)
    (hn : n + 128 ≤ 2147483647) (h : Iteration (.arriving arrivals N) n st) :
    BlockReady n arrivals N last st := by
  induction h with
  | first hcells =>
      rw [mallocSize hn] at hcells
      cases hcells
      rw [Int.toNat_natCast]
      exact Or.inl ⟨0, Nat.zero_le _, Int.natCast_nonneg n, blockAt_start N⟩
  | next _ hmore hrecv ih =>
      rcases ih with ⟨i, hi, -, hat⟩ | hdone
      · obtain ⟨hlt, ⟨-, hend⟩ | ⟨st', hrecv', hst'⟩⟩ := hc.step hn hi hat hmore
        · rw [hrecv] at hend
          cases hend
        · rw [hrecv] at hrecv'
          cases hrecv'
          rcases hst' with hdone | ⟨hle, hat'⟩
          · exact Or.inr hdone
          · exact Or.inl ⟨i + 1, hlt, hle, hat'⟩
      · have hzero := hdone.remaining
        omega

/-- The arrivals up to the last one are enough. -/
theorem Completes.loop_ends {last : Nat} (hc : Completes n arrivals last)
    (hn : n + 128 ≤ 2147483647) (fuel : Nat) {i : Nat} (hi : i ≤ last) (hfuel : last ≤ i + fuel)
    (h : BlockAt n arrivals last i st) :
    ∃ blk sock', getBlockLoop fuel st.sock st.blk st.offset st.remaining = .ok (blk, sock') := by
  induction fuel generalizing i st with
  | zero =>
      have henough := hc.enough
      obtain rfl : i = last := by omega
      have hdone : ¬ 0 < st.remaining := by
        rw [h.remaining]
        omega
      exact ⟨_, _, getBlockLoop_done 0 st hdone⟩
  | succ fuel ih =>
      by_cases hmore : 0 < st.remaining
      · obtain ⟨hlt, ⟨hend, -⟩ | ⟨st', hrecv, hst'⟩⟩ := hc.step hn hi h hmore
        · omega
        · rw [getBlockLoop_succ fuel st hmore, hrecv]
          rcases hst' with hdone | ⟨-, hat⟩
          · exact ⟨_, _, getBlockLoop_done fuel st' (by rw [hdone.remaining]; exact lt_irrefl _)⟩
          · exact ih hlt (by omega) hat
      · exact ⟨_, _, getBlockLoop_done (fuel + 1) st hmore⟩

theorem endsSafely_of_delivers (hn : n + 128 ≤ 2147483647) (h : Delivers n arrivals) :
    EndsSafely n arrivals := by
  obtain ⟨last, hc⟩ := h.completes
  constructor
  · obtain ⟨blk, sock', hrun⟩ := hc.loop_ends hn last (Nat.zero_le _) (by omega)
      (blockAt_start last)
    refine ⟨last, blk, sock', ?_⟩
    have hlen : (Socket.arriving arrivals last).incoming.length = last := by
      simp [Socket.arriving]
    rw [getBlock_start hn, hlen]
    exact hrun
  · intro N st hst
    exact hc.safe (hc.iterations hn hst)

/-- A loop that ends, and keeps its counters in range, has had what it needs. -/
theorem delivers_of_loop (hn : n + 128 ≤ 2147483647) (fuel : Nat) {i : Nat}
    (hsafe : ∀ st', Iteration (.arriving arrivals N) n st' → 0 ≤ st'.offset)
    (hst : Iteration (.arriving arrivals N) n st) (h : BlockAt n arrivals N i st)
    (hopened : ∀ j < i, arrivals j ≠ .closed) (hnonneg : ∀ j ≤ i, 0 ≤ received arrivals j)
    {blk : List (Option β)} {sock' : Socket β}
    (hrun : getBlockLoop fuel st.sock st.blk st.offset st.remaining = .ok (blk, sock')) :
    Delivers n arrivals := by
  induction fuel generalizing i st with
  | zero =>
      have hdone : ¬ 0 < st.remaining := by
        intro hmore
        rw [getBlockLoop_zero st hmore] at hrun
        cases hrun
      rw [h.remaining] at hdone
      exact ⟨i, by omega, hopened, hnonneg⟩
  | succ fuel ih =>
      by_cases hmore : 0 < st.remaining
      · rw [getBlockLoop_succ fuel st hmore] at hrun
        rcases h.receive hn (hsafe st hst) hmore with
          ⟨-, hend⟩ | ⟨st', hrecv, ⟨-, hat⟩ | ⟨hopen, hnext⟩⟩
        · rw [hend] at hrun
          cases hrun
        · rw [hrecv] at hrun
          exact ih (.next hst hmore hrecv) hat hopened hnonneg hrun
        · have hopened' : ∀ j < i + 1, arrivals j ≠ .closed := by
            intro j hj
            rcases Nat.lt_or_eq_of_le (Nat.le_of_lt_succ hj) with hlt | rfl
            · exact hopened j hlt
            · exact hopen
          rw [hrecv] at hrun
          rcases hnext with ⟨-, hat⟩ | ⟨hle, -⟩
          · have hpos := hsafe st' (.next hst hmore hrecv)
            rw [hat.offset] at hpos
            exact ih (.next hst hmore hrecv) hat hopened' (nonneg_succ hnonneg hpos) hrun
          · exact ⟨i + 1, hle, hopened', nonneg_succ hnonneg (by omega)⟩
      · rw [h.remaining] at hmore
        exact ⟨i, by omega, hopened, hnonneg⟩

theorem delivers_of_endsSafely (h : EndsSafely n arrivals) :
    n + 128 ≤ 2147483647 ∧ Delivers n arrivals := by
  obtain ⟨⟨N, blk, sock', hrun⟩, hsafe⟩ := h
  have hn : n + 128 ≤ 2147483647 := by
    by_contra hn
    have hsize : checked32 ((n : Int) + 128) = none :=
      if_neg fun hfits => hn (by have := hfits.2; omega)
    rw [getBlock, hsize] at hrun
    cases hrun
  rw [getBlock_start hn] at hrun
  refine ⟨hn, delivers_of_loop hn _ (fun st hst => (hsafe N st hst).1) (iteration_start hn _)
    (blockAt_start N) (fun j hj => absurd hj (Nat.not_lt_zero j)) ?_ hrun⟩
  intro j hj
  obtain rfl : j = 0 := by omega
  exact le_rfl

/-- The loop of `get_block` ends safely exactly for a size whose buffer has an `int` size, and
where the bytes less the errors never get below 0 and reach the size before the connection is
closed. -/
theorem getBlock_endsSafely_iff (n : Nat) (arrivals : Nat → Arrival β) :
    EndsSafely n arrivals ↔ n + 128 ≤ 2147483647 ∧ Delivers n arrivals :=
  ⟨delivers_of_endsSafely, fun h => endsSafely_of_delivers h.1 h.2⟩

/-- On a closed connection the loop never ends. -/
theorem getBlock_closed : ¬ EndsSafely 1 (fun _ => (Arrival.closed : Arrival UInt8)) := by
  intro h
  obtain ⟨-, N, henough, hopened, -⟩ := delivers_of_endsSafely h
  cases N with
  | zero => exact absurd henough (by decide)
  | succ N => exact hopened 0 (Nat.succ_pos N) rfl

end Ends

end BitFS.Client
