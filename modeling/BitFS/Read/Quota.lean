import BitFS.Read.Demand
import BitFS.Read.Progress
import Mathlib.Algebra.BigOperators.Group.Finset.Piecewise
import Mathlib.SetTheory.Cardinal.Finite

/-! # How often a buffer is requested

The sweep takes every piece at most once, and so does the second loop, whose
rounds go from piece to piece: a call requests the buffer of a piece twice if
the piece arrives between its two loops, else once, and never again. What a
thread may still request is counted in advance and goes down with each request.
-/

namespace BitFS.Read

open MachineInt Memory BitFS.Tree Transition

variable {t : Torrent} (lt : TorrentInfo t) {ι : Type}

/-- How often the buffer of piece `p` has been requested. -/
def Session.readCount (sh : Session ι) (p : Nat) : Nat := sh.calls.count (.read_piece p)

section ReadCount

variable {sh : Session ι} {p : Nat} {q : Int}

@[simp] theorem Session.readCount_havePiece :
    (sh.havePiece q).readCount p = sh.readCount p := by
  simp [readCount, havePiece]

@[simp] theorem Session.readCount_piecePriority {prio : Int} :
    (sh.piecePriority q prio).readCount p = sh.readCount p := by
  simp [readCount, piecePriority]

theorem Session.readCount_readPiece :
    (sh.readPiece q).readCount p = sh.readCount p + if q = p then 1 else 0 := by
  simp [readCount, readPiece, List.count_cons]

end ReadCount

/-! ## What a thread may still request -/

instance (fr : Frame) (i n p : Nat) : Decidable (Overlaps t fr i n p) :=
  inferInstanceAs (Decidable (∃ j < n, pieceAt t fr i j = p))

/-- The requests for piece `p` that a thread on a call for file `i` may still make. -/
def Reader.quota (t : Torrent) (i p : Nat) (rd : Reader) : Nat :=
  match rd.pc with
  | .sweep todo => todo.count (p : Int) + 1
  | .sweepRead q todo => (q :: todo).count (p : Int) + 1
  | .copyHead | .waitTest | .waitHave | .waitPop | .bufTest | .bufRequest =>
      if Overlaps t rd.frame i rd.frame.read_ptr.toNat p then 0 else 1
  | .bufPop | .bufFind | .copy =>
      if Overlaps t rd.frame i (rd.frame.read_ptr.toNat + 1) p then 0 else 1
  | .unlock | .done _ | .crashed => 0
  | _ => 2

/-- A round of the second loop begins with a new piece. -/
def Onward (t : Torrent) (fr : Frame) (i : Nat) : Pc → Prop
  | .copyHead | .waitTest | .waitHave | .waitPop | .bufTest | .bufRequest | .bufPop | .bufFind
  | .copy =>
      ∀ k : Nat, fr.read_ptr = k → k < fr.wanted.toNat →
        ∀ j < k, pieceAt t fr i j < pieceAt t fr i k
  | _ => True

section Step

variable {fr0 fr : Frame} {sh : Session ι} {me : ι} {genuine : Prop} {i k p : Nat}

theorem overlaps_succ :
    Overlaps t fr i (k + 1) p ↔ Overlaps t fr i k p ∨ pieceAt t fr i k = p := by
  unfold Overlaps
  rw [Nat.exists_lt_succ_right]

theorem overlaps_congr {fr' : Frame} (h : fr'.offset = fr.offset) :
    Overlaps t fr' i k p ↔ Overlaps t fr i k p := by
  simp only [Overlaps, pieceAt_congr h]

/-- After a round of copies. -/
theorem Located.copied_ptr {src : List UInt8} {fr' : Frame} (hloc : Located t fr i k)
    (h : Reading t fr i) (hptr : fr.read_ptr = k) (hcopy : fr.copyPiece src = some fr') :
    fr'.offset = fr.offset ∧ fr'.wanted = fr.wanted ∧
      fr'.read_ptr = ((k + roundSize t fr i k : Nat) : Int) := by
  rw [hloc.copyPiece_eq h hptr] at hcopy
  obtain ⟨temp, -, hcopy⟩ := Option.bind_eq_some_iff.mp hcopy
  obtain ⟨out, -, rfl⟩ := Option.map_eq_some_iff.mp hcopy
  exact ⟨rfl, rfl, rfl⟩

theorem orCrash_onward {next : Option Frame} {pc : Pc}
    (h : ∀ fr', next = some fr' → Onward t fr' i pc) :
    Onward t (Reader.orCrash fr next pc).frame i (Reader.orCrash fr next pc).pc := by
  cases next with
  | none => trivial
  | some fr' => exact h fr' rfl

/-- The pieces of the second loop come one after the other. -/
theorem Reader.step_onward {rd : Reader} (h : Reader.Holds t genuine fr0 i sh me rd)
    (hon : Onward t rd.frame i rd.pc) :
    Onward t (rd.step lt me sh).2.frame i (rd.step lt me sh).2.pc := by
  obtain ⟨fr, pc⟩ := rd
  cases pc with
  | entry =>
      rw [Reader.step]
      split
      · trivial
      · exact orCrash_onward fun _ _ => trivial
  | prioHead =>
      rw [Reader.step]
      split
      · dsimp only
        split <;> trivial
      · trivial
  | prioSelf | prioPrev | prioNext => trivial
  | prioAdvance => exact orCrash_onward fun _ _ => trivial
  | lock =>
      rw [Reader.step]
      split <;> trivial
  | sweep todo =>
      cases todo with
      | nil =>
          obtain ⟨hm, -⟩ := h.facts
          have hm' : Marking t fr0 sh fr i fr.wanted.toNat := hm
          rw [Reader.step]
          refine orCrash_onward fun fr' hfr k hk _ j hj => ?_
          rw [hm'.reading.restart] at hfr
          cases hfr
          have hptr : (fr.passed 0).read_ptr = 0 := hm'.read_ptr
          omega
      | cons q todo =>
          rw [Reader.step]
          split <;> trivial
  | sweepRead q todo => trivial
  | copyHead | waitTest | waitHave | bufTest | bufFind =>
      rw [Reader.step]
      split <;> first | exact hon | trivial
  | waitPop | bufRequest | bufPop => exact hon
  | copy =>
      obtain ⟨k, (hc : Copying t genuine fr0 sh fr i k), (hloc : Located t fr i k), -⟩ := h.facts
      have hptr := hc.read_ptr
      have hpast : ∀ j < k, pieceAt t fr i j < pieceAt t fr i k := hon k hptr hloc.more
      rw [Reader.step]
      refine orCrash_onward fun fr' hfr k' hk' hmore j hj => ?_
      obtain ⟨src, -, hcopy⟩ := Option.bind_eq_some_iff.mp hfr
      obtain ⟨hoff, hwanted, hend⟩ := hloc.copied_ptr hc.reading hptr hcopy
      obtain rfl : k' = k + roundSize t fr i k := by omega
      rw [hwanted] at hmore
      rw [pieceAt_congr hoff, pieceAt_congr hoff]
      exact hloc.onward hc.reading hpast hmore hj
  | unlock | done | crashed => trivial

theorem orCrash_quota {next : Option Frame} {pc : Pc} {n : Nat}
    (h : ∀ fr', next = some fr' → Reader.quota t i p ⟨fr', pc⟩ ≤ n) :
    (Reader.orCrash fr next pc).quota t i p ≤ n := by
  cases next with
  | none => exact Nat.zero_le n
  | some fr' => exact h fr' rfl

/-- A request is taken off the quota, and nothing raises it. -/
theorem Reader.step_quota {rd : Reader} (h : Reader.Holds t genuine fr0 i sh me rd)
    (hon : Onward t rd.frame i rd.pc) (p : Nat) :
    (rd.step lt me sh).1.readCount p + (rd.step lt me sh).2.quota t i p ≤
      sh.readCount p + rd.quota t i p := by
  obtain ⟨fr, pc⟩ := rd
  cases pc with
  | entry =>
      rw [Reader.step]
      split
      · exact Nat.le_add_right _ _
      · exact Nat.add_le_add_left (orCrash_quota fun _ _ => le_rfl) _
  | prioHead =>
      rw [Reader.step]
      split
      · dsimp only
        split <;> simp [quota]
      · exact le_rfl
  | prioSelf => simp [Reader.step, quota]
  | prioPrev | prioNext =>
      rw [Reader.step]
      dsimp only
      split <;> simp [quota]
  | prioAdvance => exact Nat.add_le_add_left (orCrash_quota fun _ _ => le_rfl) _
  | lock =>
      rw [Reader.step]
      split
      · have honce : fr.required_pieces.sort.count (p : Int) ≤ 1 :=
          List.nodup_iff_count_le_one.mp (Finset.sort_nodup _ _) _
        simpa [quota, Session.readCount] using honce
      · exact le_rfl
  | sweep todo =>
      cases todo with
      | nil =>
          refine Nat.add_le_add_left (orCrash_quota fun fr' _ => ?_) _
          simp only [quota]
          split <;> simp
      | cons q todo =>
          rw [Reader.step]
          split <;> simp [quota, List.count_cons]
  | sweepRead q todo =>
      simp only [Reader.step, quota, Session.readCount_readPiece, List.count_cons, beq_iff_eq]
      omega
  | copyHead =>
      rw [Reader.step]
      split
      · exact le_rfl
      · exact Nat.add_le_add_left (Nat.zero_le _) _
  | waitTest | waitHave =>
      rw [Reader.step]
      split <;> simp [quota]
  | waitPop => exact le_rfl
  | bufTest =>
      rw [Reader.step]
      split
      · refine Nat.add_le_add_left ?_ _
        simp only [quota, overlaps_succ]
        split
        · exact Nat.zero_le _
        · rename_i hnot
          rw [not_or] at hnot
          rw [if_neg hnot.1]
      · exact le_rfl
  | bufRequest =>
      obtain ⟨k, (hc : Copying t genuine fr0 sh fr i k), (hloc : Located t fr i k)⟩ := h.facts
      have hptr := hc.read_ptr
      have hpast : ∀ j < k, pieceAt t fr i j < pieceAt t fr i k := hon k hptr hloc.more
      have hk : fr.read_ptr.toNat = k := by omega
      have hpiece := hloc.piece
      simp only [Reader.step, quota, Session.readCount_readPiece, overlaps_succ, hk, hpiece,
        Nat.cast_inj]
      by_cases hp : pieceAt t fr i k = p
      · -- its first request in this loop
        have hnew : ¬ Overlaps t fr i k p := by
          rintro ⟨j, hj, hjp⟩
          have hlt := hpast j hj
          omega
        simp [hp, hnew]
      · simp [hp]
  | bufPop => exact le_rfl
  | bufFind =>
      rw [Reader.step]
      split <;> exact le_rfl
  | copy =>
      obtain ⟨k, (hc : Copying t genuine fr0 sh fr i k), (hloc : Located t fr i k), -⟩ := h.facts
      have hptr := hc.read_ptr
      have hk : fr.read_ptr.toNat = k := by omega
      refine Nat.add_le_add_left (orCrash_quota fun fr' hfr => ?_) _
      obtain ⟨src, -, hcopy⟩ := Option.bind_eq_some_iff.mp hfr
      obtain ⟨hoff, -, hend⟩ := hloc.copied_ptr hc.reading hptr hcopy
      have hone := (hloc.roundSize_bounds hc.reading).1
      have hk' : fr'.read_ptr.toNat = k + roundSize t fr i k := by omega
      simp only [quota, hk, hk', overlaps_congr hoff]
      split
      · exact Nat.zero_le _
      · rename_i hnot
        rw [if_neg]
        rintro ⟨j, hj, hjp⟩
        exact hnot ⟨j, by omega, hjp⟩
  | unlock | done | crashed => exact le_rfl

/-- For other calls nothing is requested. -/
theorem Session.Serves.readCount {needs : Int → Prop} {sh sh' : Session ι}
    (h : sh.Serves needs sh') (hp : ¬ needs p) : sh'.readCount p = sh.readCount p := by
  cases h with
  | keep | mutex => rfl
  | havePiece => exact Session.readCount_havePiece
  | piecePriority => exact Session.readCount_piecePriority
  | @readPiece q hq hhave =>
      have hne : q ≠ p := by
        rintro rfl
        exact hp hq
      rw [Session.readCount_readPiece, if_neg hne]
      rfl
  | getPieceBuffers => rfl

end Step

/-! ## Every run -/

section Run

variable [DecidableEq ι] [Fintype ι] {calls : ι → Frame} {sh0 : Session ι} {s : Sys ι} {p : Nat}

open Classical in
/-- The requests for piece `p` that all threads together may still make. -/
noncomputable def Sys.quota (t : Torrent) (calls : ι → Frame) (p : Nat) (s : Sys ι) : Nat :=
  ∑ r, if (calls r).Needs t p then (s.readers r).quota t ((calls r).index t) p else 0

theorem Sys.step_quota (h : s.OnDemand t calls sh0)
    (hon : ∀ r, Onward t (s.readers r).frame ((calls r).index t) (s.readers r).pc)
    (a : Action ι) (p : Nat) :
    (s.step lt a).session.readCount p + (s.step lt a).quota t calls p ≤
      s.session.readCount p + s.quota t calls p := by
  cases a with
  | reader r =>
      have hstep := Reader.step_quota lt (h.inv.readers r) (hon r) p
      have hother := (Reader.step_serves lt (h.inv.readers r) (h.noted r)).1.readCount (p := p)
      have hrest : ∀ r' ∈ Finset.univ.erase r,
          ((s.step lt (.reader r)).readers r') = s.readers r' := by
        intro r' hr'
        exact Function.update_of_ne (Finset.ne_of_mem_erase hr') _ _
      have hself : (s.step lt (.reader r)).readers r = ((s.readers r).step lt r s.session).2 :=
        Function.update_self _ _ _
      have hsession : (s.step lt (.reader r)).session = ((s.readers r).step lt r s.session).1 := rfl
      unfold Sys.quota
      rw [← Finset.add_sum_erase _ _ (Finset.mem_univ r),
        ← Finset.add_sum_erase Finset.univ _ (Finset.mem_univ r),
        Finset.sum_congr rfl fun r' hr' => by rw [hrest r' hr'], hself, hsession]
      split
      · omega
      · rename_i hneed
        rw [hother hneed]
  | complete q =>
      rw [Sys.step]
      split <;> exact le_rfl
  | answer k failed =>
      rw [Sys.step]
      split <;> exact le_rfl
  | post => exact le_rfl

/-- The invariant of a system that has `n` requests for piece `p` in all. -/
structure Sys.Metered (t : Torrent) (calls : ι → Frame) (sh0 : Session ι) (p n : Nat) (s : Sys ι) :
    Prop where
  demand : s.OnDemand t calls sh0
  onward : ∀ r, Onward t (s.readers r).frame ((calls r).index t) (s.readers r).pc
  spent : s.session.readCount p + s.quota t calls p ≤ n

theorem Sys.Metered.step {n : Nat} (h : s.Metered t calls sh0 p n) (a : Action ι) :
    (s.step lt a).Metered t calls sh0 p n where
  demand := h.demand.step lt a
  onward r := by
    by_cases hr : a = .reader r
    · subst hr
      have hnext := Reader.step_onward lt (h.demand.inv.readers r) (h.onward r)
      simpa [Sys.step] using hnext
    · rw [s.step_readers lt hr]
      exact h.onward r
  spent := (s.step_quota lt h.demand h.onward a p).trans h.spent

omit [DecidableEq ι] [Fintype ι] in
theorem Session.initPriorities_readCount (sh : Session ι) (n p : Nat) :
    (sh.initPriorities n).readCount p = sh.readCount p := by
  unfold Session.initPriorities
  induction List.range' 10 (n - 10) generalizing sh with
  | nil => rfl
  | cons i l ih =>
      rw [List.foldl_cons, ih]
      exact Session.readCount_piecePriority

omit [DecidableEq ι] in
/-- Before the first step every call may request each of its pieces twice. -/
theorem Sys.Initial.quota_eq {s0 : Sys ι} (h0 : s0.Initial t) (p : Nat) :
    s0.quota t (fun r => (s0.readers r).frame) p =
      2 * Nat.card {r // (s0.readers r).frame.Needs t p} := by
  classical
  have htwo : ∀ r, (s0.readers r).quota t ((s0.readers r).frame.index t) p = 2 := by
    intro r
    rw [Reader.quota, h0.entry r]
  unfold Sys.quota
  rw [Finset.sum_congr rfl fun r _ => by rw [htwo r], Finset.sum_ite, Finset.sum_const,
    Finset.sum_const_zero, Nat.card_eq_fintype_card, Fintype.card_subtype, Nat.add_zero]
  exact Nat.mul_comm _ 2

/-- However the threads are scheduled, the buffer of a piece is requested at most twice for
each call that goes over the piece. -/
theorem requested_twice {s0 s : Sys ι} (h0 : s0.Initial t)
    (hs : Reaches (Sys.step lt) (fun _ => True) (s0.initBitfs t) s) (p : Nat) :
    s.session.calls.count (.read_piece p) ≤ s0.session.calls.count (.read_piece p) +
      2 * Nat.card {r // (s0.readers r).frame.Needs t p} := by
  have hstart : (s0.initBitfs t).Metered t (fun r => ((s0.initBitfs t).readers r).frame)
      (s0.initBitfs t).session p (s0.session.readCount p +
        2 * Nat.card {r // (s0.readers r).frame.Needs t p}) := by
    refine ⟨h0.initBitfs.onDemand, fun r => ?_, ?_⟩
    · rw [h0.initBitfs.entry r]
      trivial
    · have hquota := h0.initBitfs.quota_eq p
      have hcount := s0.session.initPriorities_readCount t.numPieces p
      exact (congrArg₂ (· + ·) hcount hquota).le
  have hend := hs.invariant (I := fun x => Sys.Metered t _ _ p _ x) _
    (fun _ a h _ => h.step lt a) hstart
  have hspent := hend.spent
  unfold Session.readCount at hspent
  omega

end Run

/-- The piece arrives between the two loops. -/
def arrivesBetween : List (Action Unit) :=
  List.replicate 7 (.reader ()) ++ .complete 0 :: List.replicate 8 (.reader ())

example : (run (Sys.step (.reference oneByte)) (oneByteStart.initBitfs oneByte)
    arrivesBetween).session.calls.count (.read_piece 0) = 2 := by decide +kernel

theorem requested_twice_oneByte :
    (run (Sys.step (.reference oneByte)) (oneByteStart.initBitfs oneByte)
      arrivesBetween).session.calls.count (.read_piece 0) ≤
      0 + 2 * Nat.card {r // (oneByteStart.readers r).frame.Needs oneByte 0} :=
  requested_twice (.reference oneByte) oneByteStart_initial ⟨_, by simp, rfl⟩ 0

end BitFS.Read
