import BitFS.Library.Mutex
import BitFS.Read.Invariant

/-! # The invariant of all readers

`Reader.Holds` says what is true of a thread at each control point. A step of a
thread establishes it at the next point and changes the session only in the
ways of `Session.Change`, so the facts of the other threads survive it.
-/

namespace BitFS.Read

open MachineInt Memory BitFS.Tree Mutex

variable {t : Torrent} (lt : TorrentInfo t) {ι : Type} {genuine : Prop}

/-- Where a thread stands with respect to `fsmtx`. -/
def Pc.place : Pc → Place
  | .sweep _ | .sweepRead _ _ | .copyHead | .waitTest | .waitHave | .waitPop | .bufTest
  | .bufRequest | .bufPop | .bufFind | .copy | .unlock => .inside
  | .crashed => .lost
  | _ => .outside

/-- `fsmtx` is held by `me` exactly inside the critical section. Nothing is said
of a thread whose behaviour is undefined. -/
def Pc.Mutex (me : ι) (fsmtx : Option ι) (pc : Pc) : Prop := pc.place.Agrees me fsmtx

/-- A call of `read`: the path has been opened, it is the path of file `i` that
`get_file_index` picks, `buf` has `size` bytes and `temp_buf` `piece_length` bytes. -/
structure Frame.Opened (t : Torrent) (fr : Frame) (i : Nat) : Prop where
  index_lt : i < t.files.length
  index : getFileIndex t.files fr.filepath = i
  buf : fr.buf.length = fr.size
  temp : fr.temp_buf.length = t.pieceLength

/-- The frame still belongs to the call that began with `fr0`. -/
structure Frame.SameCall (fr0 fr : Frame) : Prop where
  filepath : fr.filepath = fr0.filepath
  size : fr.size = fr0.size
  offset : fr.offset = fr0.offset
  buf : fr.buf.length = fr0.buf.length
  temp : fr.temp_buf.length = fr0.temp_buf.length

/-- In the first loop: the pieces of the first `k` bytes are asked for. -/
structure Marking (t : Torrent) (fr0 : Frame) (sh : Session ι) (fr : Frame) (i k : Nat) : Prop where
  reading : Reading t fr i
  asked : ∀ j < k, sh.Asked (pieceAt t fr i j)
  required : ∀ p ∈ fr.required_pieces, Valid t p
  buf : fr.buf = fr0.buf
  read_ptr : fr.read_ptr = 0

/-- In the second loop: the first `k` bytes are in `buf`. -/
structure Copying (t : Torrent) (genuine : Prop) (fr0 : Frame) (sh : Session ι) (fr : Frame)
    (i k : Nat) : Prop where
  reading : Reading t fr i
  asked : ∀ j < fr.wanted.toNat, sh.Asked (pieceAt t fr i j)
  read_ptr : fr.read_ptr = k
  data : genuine → fr.buf.take k = slice (fileBytes t i) fr.offset k ∧
    fr.buf.drop k = fr0.buf.drop k

/-- The result of a finished call: 0 at or behind the end of the file, else the
wanted count of bytes of the file, with the rest of `buf` untouched. -/
def Finished (t : Torrent) (fr0 : Frame) (i : Nat) (fr : Frame) (ret : Int) : Prop :=
  (fileEnd t i ≤ fr0.offset → ret = 0 ∧ fr.buf = fr0.buf) ∧
  ((fr0.offset : Int) < fileEnd t i →
    ∃ n : Nat, n = (min (toInt32 fr0.size) (fileEnd t i - fr0.offset)).toNat ∧ ret = n ∧
      fr.buf.take n = slice (fileBytes t i) fr0.offset n ∧ fr.buf.drop n = fr0.buf.drop n)

/-- What holds of a thread at each control point. -/
def Facts (t : Torrent) (genuine : Prop) (fr0 : Frame) (i : Nat) (sh : Session ι) (fr : Frame) :
    Pc → Prop
  | .entry => fr.buf = fr0.buf
  | .prioHead => ∃ k, Marking t fr0 sh fr i k ∧ At fr k
  | .prioSelf => ∃ k, Marking t fr0 sh fr i k ∧ Located t fr i k
  | .prioPrev | .prioNext | .prioAdvance =>
      ∃ k, Marking t fr0 sh fr i k ∧ Located t fr i k ∧ sh.Asked fr.pr.piece
  | .lock => Marking t fr0 sh fr i fr.wanted.toNat
  | .sweep todo => Marking t fr0 sh fr i fr.wanted.toNat ∧ ∀ p ∈ todo, Valid t p
  | .sweepRead p todo => Marking t fr0 sh fr i fr.wanted.toNat ∧ ∀ q ∈ p :: todo, Valid t q
  | .copyHead => ∃ k, Copying t genuine fr0 sh fr i k ∧ At fr k
  | .waitTest | .waitHave | .waitPop | .bufTest | .bufRequest =>
      ∃ k, Copying t genuine fr0 sh fr i k ∧ Located t fr i k
  | .bufPop | .bufFind =>
      ∃ k, Copying t genuine fr0 sh fr i k ∧ Located t fr i k ∧ sh.InFlight fr.pr.piece
  | .copy =>
      ∃ k, Copying t genuine fr0 sh fr i k ∧ Located t fr i k ∧
        (sh.piece_buffer_map fr.pr.piece).isSome
  | .unlock => Copying t genuine fr0 sh fr i fr.wanted.toNat
  | .done ret => genuine → Finished t fr0 i fr ret
  | .crashed => ¬ genuine

/-- The invariant of thread `me`. -/
structure Reader.Holds (t : Torrent) (genuine : Prop) (fr0 : Frame) (i : Nat) (sh : Session ι)
    (me : ι) (rd : Reader) : Prop where
  call : fr0.SameCall rd.frame
  mutex : rd.pc.Mutex me sh.fsmtx
  facts : Facts t genuine fr0 i sh rd.frame rd.pc

/-! ## Steps of the other threads -/

section Frame

variable {fr0 fr : Frame} {i k : Nat} {sh sh' : Session ι}

theorem Marking.grow (h : Marking t fr0 sh fr i k) (hg : sh.Grows sh') :
    Marking t fr0 sh' fr i k :=
  { h with asked := fun j hj => hg.asked _ (h.asked j hj) }

theorem Copying.grow (h : Copying t genuine fr0 sh fr i k) (hg : sh.Grows sh') :
    Copying t genuine fr0 sh' fr i k :=
  { h with asked := fun j hj => hg.asked _ (h.asked j hj) }

theorem Facts.grow (hg : sh.Grows sh') {pc : Pc} (h : Facts t genuine fr0 i sh fr pc) :
    Facts t genuine fr0 i sh' fr pc := by
  cases pc with
  | entry | done | crashed => exact h
  | prioHead | prioSelf =>
      obtain ⟨k, hm, hat⟩ := h
      exact ⟨k, hm.grow hg, hat⟩
  | prioPrev | prioNext | prioAdvance =>
      obtain ⟨k, hm, hloc, hp⟩ := h
      exact ⟨k, hm.grow hg, hloc, hg.asked _ hp⟩
  | lock => exact Marking.grow h hg
  | sweep | sweepRead => exact ⟨h.1.grow hg, h.2⟩
  | copyHead | waitTest | waitHave | waitPop | bufTest | bufRequest =>
      obtain ⟨k, hc, hat⟩ := h
      exact ⟨k, hc.grow hg, hat⟩
  | bufPop | bufFind =>
      obtain ⟨k, hc, hloc, hp⟩ := h
      exact ⟨k, hc.grow hg, hloc, hg.inFlight _ hp⟩
  | copy =>
      obtain ⟨k, hc, hloc, hp⟩ := h
      exact ⟨k, hc.grow hg, hloc, hg.cached _ hp⟩
  | unlock => exact Copying.grow h hg

/-- A change by anyone else keeps the invariant of a thread. -/
theorem Reader.Holds.change {me : ι} {rd : Reader} {who : Option ι}
    (h : Reader.Holds t genuine fr0 i sh me rd) (hc : Session.Change t genuine sh who sh')
    (hne : who ≠ some me) : Reader.Holds t genuine fr0 i sh' me rd :=
  ⟨h.call, Place.Agrees.change h.mutex (hc.fsmtx hne), h.facts.grow hc.grows⟩

end Frame

/-! ## The steps of a thread -/

section Step

variable {fr0 fr : Frame} {i k : Nat} {sh : Session ι}

theorem Frame.Opened.reading (ho : fr0.Opened t i) (hcall : fr0.SameCall fr)
    (hlt : (fr.offset : Int) < (fr.start lt).file_total_size) : Reading t (fr.start lt) i :=
  Frame.start_reading lt ho.index_lt (hcall.filepath ▸ ho.index) hlt

theorem Located.valid (hloc : Located t fr i k) (h : Reading t fr i) : Valid t fr.pr.piece := by
  rw [hloc.piece]
  exact ⟨by omega, by exact_mod_cast h.pieceAt_lt hloc.more⟩

/-- A round of the first loop leaves the pieces of the bytes it passes asked for. -/
theorem Marking.passed (hm : Marking t fr0 sh fr i k) (hloc : Located t fr i k)
    (hp : sh.Asked fr.pr.piece) :
    Marking t fr0 sh (fr.passed (k + roundSize t fr i k)) i (k + roundSize t fr i k) := by
  refine { hm with reading := hm.reading.passed _, asked := ?_ }
  intro j hj
  change sh.Asked (pieceAt t fr i j)
  by_cases hjk : j < k
  · exact hm.asked j hjk
  · have hin := hloc.pieceAt_eq hm.reading (j := j - k) (by omega)
    rw [show k + (j - k) = j by omega] at hin
    rwa [hin, ← hloc.piece]

/-- The loop ends with everything passed. -/
theorem At.wanted_eq (hat : At fr k) (hend : ¬ fr.remaining_size > 0) : fr.wanted.toNat = k := by
  have := hat.rem
  have := hat.le
  omega

theorem Copying.finished (hcall : fr0.SameCall fr)
    (hc : Copying t genuine fr0 sh fr i fr.wanted.toNat) (hg : genuine) :
    Finished t fr0 i fr fr.read_ptr := by
  have hw : fr.wanted = min (toInt32 fr0.size) (fileEnd t i - fr0.offset) := by
    unfold Frame.wanted
    rw [hcall.size, hcall.offset, hc.reading.total]
  have hbefore := hc.reading.before_end
  rw [hcall.offset] at hbefore
  refine ⟨fun hle => absurd hbefore (by omega), fun _ => ⟨fr.wanted.toNat, by rw [hw], ?_⟩⟩
  rw [← hcall.offset]
  exact ⟨hc.read_ptr, (hc.data hg).1, (hc.data hg).2⟩

/-- A round of the second loop puts the next bytes of the file into `buf`. -/
theorem Copying.copied (hc : Copying t genuine fr0 sh fr i k) (hloc : Located t fr i k)
    {src : List UInt8} (hsrc : genuine → src = t.pieceBytes (pieceAt t fr i k)) {fr' : Frame}
    (hcopy : fr.copyPiece src = some fr') :
    Copying t genuine fr0 sh fr' i (k + roundSize t fr i k) ∧
      At fr' (k + roundSize t fr i k) ∧ fr.SameCall fr' := by
  have hle := (hloc.roundSize_bounds hc.reading).2.1
  rw [hloc.copyPiece_eq hc.reading hc.read_ptr] at hcopy
  obtain ⟨temp, htemp, hcopy⟩ := Option.bind_eq_some_iff.mp hcopy
  obtain ⟨out, hout, rfl⟩ := Option.map_eq_some_iff.mp hcopy
  refine ⟨{ hc with reading := { hc.reading with }, read_ptr := rfl, data := ?_ }, ⟨rfl, rfl, hle⟩,
    ⟨rfl, rfl, rfl, memcpy_length hout, memcpy_length htemp⟩⟩
  intro hg
  rw [hsrc hg] at htemp
  obtain ⟨hbytes, hrest⟩ := hloc.copied_bytes hc.reading htemp hout
  obtain ⟨hb, hd⟩ := hc.data hg
  refine ⟨?_, ?_⟩
  · change out.take _ = _
    rw [hbytes, hb, slice_append]
    rfl
  · change out.drop _ = _
    rw [hrest, ← List.drop_drop, hd, List.drop_drop]

/-- With real buffers the copies of a round are in bounds. -/
theorem Copying.copies (ho : fr0.Opened t i) (hcall : fr0.SameCall fr)
    (hc : Copying t genuine fr0 sh fr i k) (hloc : Located t fr i k) :
    (fr.copyPiece (t.pieceBytes (pieceAt t fr i k))).isSome := by
  have hbuf : fr.wanted.toNat ≤ fr.buf.length := by
    have hle : toInt32 fr.size ≤ fr.size := toInt32_le (by omega)
    have hmin := min_le_left (toInt32 fr.size) (fr.file_total_size - fr.offset)
    have hlen := ho.buf
    have hsize := hcall.size
    rw [hcall.buf]
    unfold Frame.wanted
    omega
  obtain ⟨temp, out, htemp, hout⟩ :=
    hloc.copies_isSome hc.reading (hcall.temp.trans ho.temp) hbuf
  rw [hloc.copyPiece_eq hc.reading hc.read_ptr, htemp, Option.bind_some, hout]
  rfl

/-- `out` is a lawful outcome of a step of thread `me`. -/
def Reader.Keeps (t : Torrent) (genuine : Prop) (fr0 : Frame) (i : Nat) (me : ι) (sh : Session ι)
    (out : Session ι × Reader) : Prop :=
  Session.Change t genuine sh (some me) out.1 ∧ Reader.Holds t genuine fr0 i out.1 me out.2

/-- A step whose next facts already hold in the session before it. -/
theorem Reader.Holds.next {me : ι} {sh' : Session ι} {rd' : Reader}
    (hc : Session.Change t genuine sh (some me) sh') (hcall : fr0.SameCall rd'.frame)
    (hlock : rd'.pc.Mutex me sh'.fsmtx)
    (hfacts : Facts t genuine fr0 i sh rd'.frame rd'.pc) :
    Reader.Keeps t genuine fr0 i me sh (sh', rd') :=
  ⟨hc, hcall, hlock, hfacts.grow hc.grows⟩

variable {me : ι}

/-- The step out of `entry`: the end-of-file test and the counters. -/
theorem Reader.step_entry (ho : fr0.Opened t i)
    (h : Reader.Holds t genuine fr0 i sh me ⟨fr, .entry⟩) :
    Reader.Keeps t genuine fr0 i me sh (step lt me sh ⟨fr, .entry⟩) := by
  have hcall := h.call
  have hbuf : fr.buf = fr0.buf := h.facts
  have htotal : (fr.start lt).file_total_size = fileEnd t i := by
    change getFileSize lt.toFileStorage (getFileIndex t.files fr.filepath) = _
    rw [hcall.filepath, ho.index, getFileSize_eq lt ho.index_lt]
  rw [Reader.step]
  split
  · rename_i hend
    refine Holds.next (.keep _) { hcall with } h.mutex fun _ => ⟨fun _ => ⟨rfl, hbuf⟩, ?_⟩
    intro hlt
    have hoff := hcall.offset
    rw [htotal] at hend
    dsimp only at hoff
    omega
  · rename_i hend
    have hread := ho.reading lt hcall (lt_of_not_ge hend)
    rw [hread.restart, Reader.orCrash]
    exact Holds.next (.keep _) { hcall with } h.mutex
      ⟨0, { reading := hread.passed 0
            asked := fun _ hj => absurd hj (Nat.not_lt_zero _)
            required := fun _ hp => absurd hp (Finset.notMem_empty _)
            buf := hbuf
            read_ptr := rfl }, at_passed (Nat.zero_le _)⟩

/-- The steps of the first loop. -/
theorem Reader.step_mark {pc : Pc} (hpc : pc ∈ [Pc.prioHead, .prioSelf, .prioPrev, .prioNext,
      .prioAdvance])
    (h : Reader.Holds t genuine fr0 i sh me ⟨fr, pc⟩) :
    Reader.Keeps t genuine fr0 i me sh (step lt me sh ⟨fr, pc⟩) := by
  have hcall := h.call
  cases pc with
  | prioHead =>
      obtain ⟨k, hm, hat⟩ := h.facts
      rw [Reader.step]
      split
      · rename_i hmore
        have hloc := hat.mapFile lt hm.reading hmore
        have hread : Reading t (fr.mapFile lt) i := { hm.reading with }
        have hv := hloc.valid hread
        have hm' : Marking t fr0 sh (fr.mapFile lt) i k := { hm with reading := hread }
        dsimp only
        split
        · rename_i hhave
          exact Holds.next (.havePiece me hv) { hcall with } h.mutex ⟨k, hm', hloc, Or.inl hhave⟩
        · refine Holds.next (.havePiece me hv) { hcall with } h.mutex ⟨k, ?_, { hloc with }⟩
          exact { hm' with
            reading := { hread with }
            required := fun p hp => (Finset.mem_insert.mp hp).elim (fun he => he ▸ hv)
              (hm.required p) }
      · rename_i hend
        refine Holds.next (.keep _) hcall h.mutex ?_
        change Marking t fr0 sh fr i fr.wanted.toNat
        rwa [hat.wanted_eq hend]
  | prioSelf =>
      obtain ⟨k, hm, hloc⟩ := h.facts
      have hc : Session.Change t genuine sh (some me) (sh.piecePriority fr.pr.piece 7) :=
        .piecePriority me (hloc.valid hm.reading) (by decide)
      exact ⟨hc, hcall, h.mutex,
        ⟨k, hm.grow hc.grows, hloc, Session.asked_piecePriority_self (by decide)⟩⟩
  | prioPrev =>
      obtain ⟨k, hm, hloc, hp⟩ := h.facts
      obtain ⟨hlow, hhigh⟩ : Valid t fr.pr.piece := hloc.valid hm.reading
      rw [Reader.step]
      split
      · rename_i hprev
        exact Holds.next (.piecePriority me ⟨by omega, by omega⟩ (by decide))
          hcall h.mutex ⟨k, hm, hloc, hp⟩
      · exact Holds.next (.keep _) hcall h.mutex ⟨k, hm, hloc, hp⟩
  | prioNext =>
      obtain ⟨k, hm, hloc, hp⟩ := h.facts
      obtain ⟨hlow, hhigh⟩ : Valid t fr.pr.piece := hloc.valid hm.reading
      rw [Reader.step]
      split
      · rename_i hnext
        exact Holds.next (.piecePriority me ⟨by omega, by omega⟩ (by decide))
          hcall h.mutex ⟨k, hm, hloc, hp⟩
      · exact Holds.next (.keep _) hcall h.mutex ⟨k, hm, hloc, hp⟩
  | prioAdvance =>
      obtain ⟨k, hm, hloc, hp⟩ := h.facts
      rw [Reader.step, hloc.skipPiece hm.reading, Reader.orCrash]
      exact Holds.next (.keep _) { hcall with } h.mutex
        ⟨_, hm.passed hloc hp, at_passed (hloc.roundSize_bounds hm.reading).2.1⟩
  | _ => simp at hpc

/-- Taking `fsmtx` and the loop over `required_pieces`. -/
theorem Reader.step_sweep {pc : Pc}
    (hpc : pc = .lock ∨ (∃ todo, pc = .sweep todo) ∨ ∃ p todo, pc = .sweepRead p todo)
    (h : Reader.Holds t genuine fr0 i sh me ⟨fr, pc⟩) :
    Reader.Keeps t genuine fr0 i me sh (step lt me sh ⟨fr, pc⟩) := by
  have hcall := h.call
  rcases hpc with rfl | ⟨todo, rfl⟩ | ⟨p, todo, rfl⟩
  · have hm : Marking t fr0 sh fr i fr.wanted.toNat := h.facts
    rw [Reader.step]
    split
    · rename_i hfree
      refine Holds.next (.lock me hfree) hcall rfl ⟨hm, fun p hp => ?_⟩
      exact hm.required p ((Finset.mem_sort _).mp hp)
    · exact Holds.next (.keep _) hcall h.mutex hm
  · obtain ⟨hm, htodo⟩ := h.facts
    cases todo with
    | nil =>
        rw [Reader.step, hm.reading.restart, Reader.orCrash]
        refine Holds.next (.keep _) { hcall with } h.mutex ⟨0, ?_, at_passed (Nat.zero_le _)⟩
        exact { reading := hm.reading.passed 0
                asked := hm.asked
                read_ptr := hm.read_ptr
                data := fun _ => ⟨by simp, congrArg _ hm.buf⟩ }
    | cons p todo =>
        have hv := htodo p List.mem_cons_self
        rw [Reader.step]
        split
        · exact Holds.next (.havePiece me hv) hcall h.mutex ⟨hm, htodo⟩
        · exact Holds.next (.havePiece me hv) hcall h.mutex
            ⟨hm, fun q hq => htodo q (List.mem_cons_of_mem _ hq)⟩
  · obtain ⟨hm, htodo⟩ := h.facts
    rw [Reader.step]
    exact Holds.next (.readPiece me (htodo p List.mem_cons_self)) hcall h.mutex
      ⟨hm, fun q hq => htodo q (List.mem_cons_of_mem _ hq)⟩

/-- The test of the second loop and the wait for the piece. -/
theorem Reader.step_wait {pc : Pc} (hpc : pc ∈ [Pc.copyHead, .waitTest, .waitHave, .waitPop])
    (h : Reader.Holds t genuine fr0 i sh me ⟨fr, pc⟩) :
    Reader.Keeps t genuine fr0 i me sh (step lt me sh ⟨fr, pc⟩) := by
  have hcall := h.call
  cases pc with
  | copyHead =>
      obtain ⟨k, hc, hat⟩ := h.facts
      rw [Reader.step]
      split
      · rename_i hmore
        exact Holds.next (.keep _) { hcall with } h.mutex
          ⟨k, { hc with reading := { hc.reading with } }, hat.mapFile lt hc.reading hmore⟩
      · rename_i hend
        refine Holds.next (.keep _) hcall h.mutex ?_
        change Copying t genuine fr0 sh fr i fr.wanted.toNat
        rwa [hat.wanted_eq hend]
  | waitTest | waitHave =>
      obtain ⟨k, hc, hloc⟩ := h.facts
      rw [Reader.step]
      split
      all_goals exact Holds.next (.havePiece me (hloc.valid hc.reading)) hcall h.mutex ⟨k, hc, hloc⟩
  | waitPop => exact Holds.next (.getPieceBuffers me) hcall h.mutex h.facts
  | _ => simp at hpc

/-- The search for the buffer, the copies and the end of the call. -/
theorem Reader.step_copy {pc : Pc}
    (hpc : pc ∈ [Pc.bufTest, .bufRequest, .bufPop, .bufFind, .copy, .unlock])
    (ho : fr0.Opened t i) (hs : sh.Sound t genuine)
    (h : Reader.Holds t genuine fr0 i sh me ⟨fr, pc⟩) :
    Reader.Keeps t genuine fr0 i me sh (step lt me sh ⟨fr, pc⟩) := by
  have hcall := h.call
  cases pc with
  | bufTest =>
      obtain ⟨k, hc, hloc⟩ := h.facts
      rw [Reader.step]
      split
      · rename_i hfound
        exact Holds.next (.keep _) hcall h.mutex ⟨k, hc, hloc, hfound⟩
      · exact Holds.next (.keep _) hcall h.mutex ⟨k, hc, hloc⟩
  | bufRequest =>
      obtain ⟨k, hc, hloc⟩ := h.facts
      have hread : Session.Change t genuine sh (some me) (sh.readPiece fr.pr.piece) :=
        .readPiece me (hloc.valid hc.reading)
      exact ⟨hread, hcall, h.mutex,
        ⟨k, hc.grow hread.grows, hloc, Session.inFlight_readPiece_self _⟩⟩
  | bufPop => exact Holds.next (.getPieceBuffers me) hcall h.mutex h.facts
  | bufFind =>
      obtain ⟨k, hc, hloc, hfly⟩ := h.facts
      rw [Reader.step]
      split
      · rename_i hfound
        exact Holds.next (.keep _) hcall h.mutex ⟨k, hc, hloc, hfound⟩
      · exact Holds.next (.keep _) hcall h.mutex ⟨k, hc, hloc, hfly⟩
  | copy =>
      obtain ⟨k, hc, hloc, hfound⟩ := h.facts
      obtain ⟨src, hsrc⟩ := Option.isSome_iff_exists.mp hfound
      have hreal : genuine → src = t.pieceBytes (pieceAt t fr i k) := by
        intro hg
        have hp : fr.pr.piece = pieceAt t fr i k := hloc.piece
        rw [(hs.cache _ _ hsrc).2 hg, hp, Int.toNat_natCast]
      rw [Reader.step]
      dsimp only at hsrc
      rw [hsrc, Option.bind_some]
      cases hcopy : fr.copyPiece src with
      | some fr' =>
          obtain ⟨hc', hat, hsame⟩ := hc.copied hloc hreal hcopy
          refine Holds.next (.keep _) ?_ h.mutex ⟨_, hc', hat⟩
          exact ⟨hsame.filepath.trans hcall.filepath, hsame.size.trans hcall.size,
            hsame.offset.trans hcall.offset, hsame.buf.trans hcall.buf,
            hsame.temp.trans hcall.temp⟩
      | none =>
          refine Holds.next (.keep _) hcall trivial ?_
          intro hg
          have hin := hc.copies ho hcall hloc
          rw [← hreal hg, hcopy] at hin
          cases hin
  | unlock =>
      have hc : Copying t genuine fr0 sh fr i fr.wanted.toNat := h.facts
      refine Holds.next (.unlock me h.mutex) hcall (by simp [Pc.Mutex, Pc.place, Place.Agrees]) ?_
      exact fun hg => hc.finished hcall hg
  | _ => simp at hpc

/-- Every step of a thread keeps its invariant. -/
theorem Reader.step_holds (ho : fr0.Opened t i) (hs : sh.Sound t genuine) {rd : Reader}
    (h : Reader.Holds t genuine fr0 i sh me rd) :
    Reader.Keeps t genuine fr0 i me sh (rd.step lt me sh) := by
  obtain ⟨fr, pc⟩ := rd
  cases pc with
  | entry => exact step_entry lt ho h
  | prioHead | prioSelf | prioPrev | prioNext | prioAdvance => exact step_mark lt (by simp) h
  | lock => exact step_sweep lt (by simp) h
  | sweep todo => exact step_sweep lt (by simp) h
  | sweepRead p todo => exact step_sweep lt (by simp) h
  | copyHead | waitTest | waitHave | waitPop => exact step_wait lt (by simp) h
  | bufTest | bufRequest | bufPop | bufFind | copy | unlock => exact step_copy lt (by simp) ho hs h
  | done ret => exact Holds.next (.keep _) h.call h.mutex h.facts
  | crashed => exact Holds.next (.keep _) h.call h.mutex h.facts

end Step

end BitFS.Read
