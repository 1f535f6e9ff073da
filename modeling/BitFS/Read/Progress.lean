import BitFS.Read.Reachable
import BitFS.Read.Service

/-! # Every call returns

Each step of a thread lowers a rank, or the thread polls: for `fsmtx`, for a
piece, or for a buffer. The ranks of all threads, the outstanding requests and
the undelivered buffers together never grow, so from some point on every thread
that is not done polls forever; a fair schedule and a libtorrent that downloads
what it is asked for leave no such thread.
-/

namespace BitFS.Read

open MachineInt Memory BitFS.Tree Transition Threads

variable {t : Torrent} (lt : TorrentInfo t) {ι : Type}

/-! ## The rank of a thread -/

/-- How far a thread is from its end: eight for each byte a loop has still to pass,
two for each piece it has still to sweep. -/
def Reader.rank (rd : Reader) : Nat :=
  let left := 8 * rd.frame.remaining_size.toNat
  let second := 8 * rd.frame.wanted.toNat + 2
  let first := left + 2 * rd.frame.required_pieces.card + second
  match rd.pc with
  | .entry => 16 * rd.frame.size + 8
  | .prioHead => first + 5
  | .prioSelf => first + 2
  | .prioPrev => first + 1
  | .prioNext => first
  | .prioAdvance => first - 1
  | .lock => 2 * rd.frame.required_pieces.card + second + 4
  | .sweep todo => 2 * todo.length + second + 3
  | .sweepRead _ todo => 2 * todo.length + second + 4
  | .copyHead => left + 2
  | .waitTest => left + 1
  | .waitHave | .waitPop => left
  | .bufTest => left - 1
  | .bufRequest => left - 2
  | .bufPop | .bufFind => left - 3
  | .copy => left - 4
  | .unlock => 1
  | .done _ | .crashed => 0

/-- The thread polls: its next step may leave everything as it is. -/
def Reader.Polls (sh : Session ι) (rd : Reader) : Prop :=
  match rd.pc with
  | .lock => sh.fsmtx ≠ none
  | .waitHave => rd.frame.pr.piece ∉ sh.downloaded
  | .waitPop | .bufPop | .done _ => True
  | .bufFind => sh.piece_buffer_map rd.frame.pr.piece = none
  | _ => False

section Rank

variable {fr0 fr : Frame} {i k : Nat} {sh : Session ι} {me : ι}

@[simp] theorem Session.pending_havePiece (p : Int) : (sh.havePiece p).pending = sh.pending := rfl

@[simp] theorem Session.pending_piecePriority (p prio : Int) :
    (sh.piecePriority p prio).pending = sh.pending := rfl

theorem Session.pending_readPiece (p : Int) : (sh.readPiece p).pending = sh.pending + 2 := by
  simp only [pending, readPiece, List.length_append, List.length_singleton]
  omega

theorem Session.pending_getPieceBuffers_le : sh.getPieceBuffers.pending ≤ sh.pending := by
  simp [pending, getPieceBuffers]

theorem At.rem_pos (hat : At fr k) (hk : k < fr.wanted.toNat) : 1 ≤ fr.remaining_size.toNat := by
  have := hat.rem
  omega

theorem At.rem_toNat (hat : At fr k) : fr.remaining_size.toNat = fr.wanted.toNat - k := by
  have := hat.rem
  omega

theorem wanted_le_size (h : Reading t fr i) : fr.wanted.toNat ≤ fr.size := by
  have hle : toInt32 fr.size ≤ fr.size := toInt32_le (by omega)
  have hmin := min_le_left (toInt32 fr.size) (fr.file_total_size - fr.offset)
  have hread := h.before_end
  unfold Frame.wanted
  omega

/-- What one step of a thread does to the ranks. -/
def Reader.Descends (sh : Session ι) (rd : Reader) (out : Session ι × Reader) : Prop :=
  Threads.Descends 3 rank Session.pending (fun sh rd => rd.Polls sh) sh rd out

theorem Reader.entry_descends (ho : fr0.Opened t i)
    (h : Reader.Holds t True fr0 i sh me ⟨fr, .entry⟩) :
    Reader.Descends sh ⟨fr, .entry⟩ (step lt me sh ⟨fr, .entry⟩) := by
  rw [Reader.step]
  split
  · left
    simp only [rank]
    omega
  · rename_i hend
    have hread := ho.reading lt h.call (lt_of_not_ge hend)
    have hle : (fr.start lt).wanted.toNat ≤ fr.size := wanted_le_size hread
    have hrem : ((fr.start lt).passed 0).remaining_size.toNat = (fr.start lt).wanted.toNat :=
      (at_passed (Nat.zero_le _)).rem_toNat
    rw [hread.restart, orCrash]
    left
    change 3 * (8 * ((fr.start lt).passed 0).remaining_size.toNat + 2 * 0 +
      (8 * (fr.start lt).wanted.toNat + 2) + 5) + sh.pending < 3 * (16 * fr.size + 8) + sh.pending
    omega

theorem Reader.mark_descends {pc : Pc} (hpc : pc ∈ [Pc.prioHead, .prioSelf, .prioPrev, .prioNext,
      .prioAdvance])
    (h : Reader.Holds t True fr0 i sh me ⟨fr, pc⟩) :
    Reader.Descends sh ⟨fr, pc⟩ (step lt me sh ⟨fr, pc⟩) := by
  left
  cases pc with
  | prioHead =>
      rw [Reader.step]
      split
      · have hwanted : (fr.mapFile lt).wanted = fr.wanted := rfl
        have hrem : (fr.mapFile lt).remaining_size = fr.remaining_size := rfl
        have hreq : (fr.mapFile lt).required_pieces = fr.required_pieces := rfl
        dsimp only
        split
        · simp only [rank, Session.pending_havePiece, hwanted, hrem, hreq]
          omega
        · have hcard := Finset.card_insert_le (fr.mapFile lt).pr.piece fr.required_pieces
          have hwanted' : (fr.mapFile lt).requirePiece.wanted = fr.wanted := rfl
          have hrem' : (fr.mapFile lt).requirePiece.remaining_size = fr.remaining_size := rfl
          have hreq' : (fr.mapFile lt).requirePiece.required_pieces =
            insert (fr.mapFile lt).pr.piece fr.required_pieces := rfl
          simp only [rank, Session.pending_havePiece, hrem', hreq', hwanted']
          omega
      · simp only [rank]
        omega
  | prioSelf =>
      simp only [Reader.step, rank, Session.pending_piecePriority]
      omega
  | prioPrev =>
      rw [Reader.step]
      split
      all_goals
        simp only [rank, Session.pending_piecePriority]
        omega
  | prioNext =>
      obtain ⟨k, hm, hloc, -⟩ := h.facts
      have hrem : 1 ≤ fr.remaining_size.toNat := hloc.toAt.rem_pos hloc.more
      rw [Reader.step]
      split
      all_goals
        simp only [rank, Session.pending_piecePriority]
        omega
  | prioAdvance =>
      obtain ⟨k, hm, hloc, -⟩ := h.facts
      have hb := hloc.roundSize_bounds hm.reading
      have hrem : fr.remaining_size.toNat = fr.wanted.toNat - k := hloc.toAt.rem_toNat
      have hrem' := (at_passed hb.2.1).rem_toNat
      have hwanted : (fr.passed (k + roundSize t fr i k)).wanted = fr.wanted := rfl
      have hreq : (fr.passed (k + roundSize t fr i k)).required_pieces = fr.required_pieces := rfl
      rw [Reader.step, hloc.skipPiece hm.reading, orCrash]
      dsimp only at hrem' hb
      simp only [rank, hwanted, hreq, hrem', hrem]
      omega
  | _ => simp at hpc

theorem Reader.sweep_descends {pc : Pc}
    (hpc : pc = .lock ∨ (∃ todo, pc = .sweep todo) ∨ ∃ p todo, pc = .sweepRead p todo)
    (h : Reader.Holds t True fr0 i sh me ⟨fr, pc⟩) :
    Reader.Descends sh ⟨fr, pc⟩ (step lt me sh ⟨fr, pc⟩) := by
  rcases hpc with rfl | ⟨todo, rfl⟩ | ⟨p, todo, rfl⟩
  · rw [Reader.step]
    split
    · left
      simp only [rank, Session.pending, Finset.length_sort]
      omega
    · rename_i holder hheld
      exact Or.inr ⟨by simp [Polls, hheld], le_rfl⟩
  · obtain ⟨hm, -⟩ := h.facts
    left
    cases todo with
    | nil =>
        have hrem : (fr.passed 0).remaining_size.toNat = fr.wanted.toNat :=
          (at_passed (Nat.zero_le _)).rem_toNat
        rw [Reader.step, hm.reading.restart, orCrash]
        simp only [rank, hrem, List.length_nil]
        omega
    | cons p todo =>
        rw [Reader.step]
        split
        all_goals
          simp only [rank, Session.pending_havePiece, List.length_cons]
          omega
  · left
    simp only [Reader.step, rank, Session.pending_readPiece]
    omega

theorem Reader.wait_descends {pc : Pc} (hpc : pc ∈ [Pc.copyHead, .waitTest, .waitHave, .waitPop])
    (h : Reader.Holds t True fr0 i sh me ⟨fr, pc⟩) :
    Reader.Descends sh ⟨fr, pc⟩ (step lt me sh ⟨fr, pc⟩) := by
  cases pc with
  | copyHead =>
      have hrem : (fr.mapFile lt).remaining_size = fr.remaining_size := rfl
      left
      rw [Reader.step]
      split
      all_goals
        simp only [rank, hrem]
        omega
  | waitTest =>
      left
      rw [Reader.step]
      split
      all_goals
        simp only [rank, Session.pending_havePiece]
        omega
  | waitHave =>
      obtain ⟨k, hc, hloc⟩ := h.facts
      have hrem : 1 ≤ fr.remaining_size.toNat := hloc.toAt.rem_pos hloc.more
      rw [Reader.step]
      split
      · left
        simp only [rank, Session.pending_havePiece]
        omega
      · rename_i hmissing
        exact Or.inr ⟨hmissing, le_rfl⟩
  | waitPop =>
      have hpop : sh.getPieceBuffers.pending ≤ sh.pending := Session.pending_getPieceBuffers_le
      exact Or.inr ⟨trivial, by simp only [Reader.step, rank]; omega⟩
  | _ => simp at hpc

theorem Reader.copy_descends {pc : Pc}
    (hpc : pc ∈ [Pc.bufTest, .bufRequest, .bufPop, .bufFind, .copy, .unlock])
    (h : Reader.Holds t True fr0 i sh me ⟨fr, pc⟩) :
    Reader.Descends sh ⟨fr, pc⟩ (step lt me sh ⟨fr, pc⟩) := by
  cases pc with
  | bufTest =>
      obtain ⟨k, hc, hloc⟩ := h.facts
      have hrem : 1 ≤ fr.remaining_size.toNat := hloc.toAt.rem_pos hloc.more
      left
      rw [Reader.step]
      split
      all_goals
        simp only [rank]
        omega
  | bufRequest =>
      obtain ⟨k, hc, hloc⟩ := h.facts
      have hrem : 1 ≤ fr.remaining_size.toNat := hloc.toAt.rem_pos hloc.more
      left
      simp only [Reader.step, rank, Session.pending_readPiece]
      omega
  | bufPop =>
      have hpop : sh.getPieceBuffers.pending ≤ sh.pending := Session.pending_getPieceBuffers_le
      exact Or.inr ⟨trivial, by simp only [Reader.step, rank]; omega⟩
  | bufFind =>
      obtain ⟨k, hc, hloc, -⟩ := h.facts
      have hrem : 1 ≤ fr.remaining_size.toNat := hloc.toAt.rem_pos hloc.more
      rw [Reader.step]
      split
      · left
        simp only [rank]
        omega
      · rename_i hnone
        exact Or.inr ⟨Option.not_isSome_iff_eq_none.mp hnone, le_rfl⟩
  | copy =>
      obtain ⟨k, hc, hloc, hfound⟩ := h.facts
      have hrem : fr.remaining_size.toNat = fr.wanted.toNat - k := hloc.toAt.rem_toNat
      have hmore : k < fr.wanted.toNat := hloc.more
      obtain ⟨src, hsrc⟩ := Option.isSome_iff_exists.mp hfound
      dsimp only at hsrc
      left
      rw [Reader.step, hsrc, Option.bind_some]
      cases hcopy : fr.copyPiece src with
      | none =>
          simp only [orCrash, rank]
          omega
      | some fr' =>
          have hb : 1 ≤ roundSize t fr i k ∧ k + roundSize t fr i k ≤ fr.wanted.toNat ∧ _ :=
            hloc.roundSize_bounds hc.reading
          have hptr : fr.read_ptr = k := hc.read_ptr
          rw [hloc.copyPiece_eq hc.reading hptr] at hcopy
          obtain ⟨temp, -, hcopy⟩ := Option.bind_eq_some_iff.mp hcopy
          obtain ⟨out, -, rfl⟩ := Option.map_eq_some_iff.mp hcopy
          have hrem' : (fr.copied temp out (k + roundSize t fr i k)).remaining_size.toNat =
            fr.wanted.toNat - (k + roundSize t fr i k) := (at_passed hb.2.1).rem_toNat
          simp only [orCrash, rank, hrem', hrem]
          omega
  | unlock =>
      left
      simp only [Reader.step, rank, Session.pending]
      omega
  | _ => simp at hpc

/-- A step of a thread lowers its rank by more than it adds to the session, or the
thread polls and nothing grows. -/
theorem Reader.step_descends (ho : fr0.Opened t i) {rd : Reader}
    (h : Reader.Holds t True fr0 i sh me rd) : rd.Descends sh (rd.step lt me sh) := by
  obtain ⟨fr, pc⟩ := rd
  cases pc with
  | entry => exact entry_descends lt ho h
  | prioHead | prioSelf | prioPrev | prioNext | prioAdvance => exact mark_descends lt (by simp) h
  | lock => exact sweep_descends lt (by simp) h
  | sweep todo => exact sweep_descends lt (by simp) h
  | sweepRead p todo => exact sweep_descends lt (by simp) h
  | copyHead | waitTest | waitHave | waitPop => exact wait_descends lt (by simp) h
  | bufTest | bufRequest | bufPop | bufFind | copy | unlock => exact copy_descends lt (by simp) h
  | done ret => exact Or.inr ⟨trivial, le_rfl⟩
  | crashed => exact (h.facts trivial).elim

end Rank

/-! ## Fair runs -/

/-- Every thread gets its turn again and again; libtorrent downloads the pieces it is
asked for and answers requests, with success. -/
structure Fair [DecidableEq ι] (s0 : Sys ι) (acts : Nat → Action ι) : Prop extends
    Serving (Sys.step lt) Sys.session s0 acts where
  downloads : ∀ p n, Valid t p → 1 ≤ (stateAt (Sys.step lt) s0 acts n).session.priority p →
    ∃ m, n ≤ m ∧ p ∈ (stateAt (Sys.step lt) s0 acts m).session.downloaded

section Quiet

variable [Fintype ι] [DecidableEq ι] {calls : ι → Frame} {s0 : Sys ι} {acts : Nat → Action ι}
  {N n : Nat}

omit [Fintype ι] in
theorem Fair.inv (h0 : Sys.Inv t True calls s0) (hf : Fair lt s0 acts) (n : Nat) :
    Sys.Inv t True calls (stateAt (Sys.step lt) s0 acts n) :=
  h0.reaches lt (reaches_stateAt _ s0 (fun n _ => hf.succeeds n) n)

omit [Fintype ι] in
theorem Fair.change (h0 : Sys.Inv t True calls s0) (hf : Fair lt s0 acts) (n : Nat) :
    ∃ who, Session.Change t True (stateAt (Sys.step lt) s0 acts n).session who
      (stateAt (Sys.step lt) s0 acts (n + 1)).session := by
  obtain ⟨who, hc, -⟩ := (hf.inv lt h0 n).change lt (fun _ => hf.succeeds n)
  exact ⟨who, hc⟩

/-- From `N` on no step lowers the rank, and whoever has a turn polls. -/
abbrev QuietAt (s0 : Sys ι) (acts : Nat → Action ι) (N : Nat) : Prop :=
  QuietFrom Reader.rank id Sys.session Sys.readers (fun sh rd => rd.Polls sh) (Sys.step lt) s0
    acts N

theorem Fair.exists_quiet (h0 : Sys.Inv t True calls s0) (hf : Fair lt s0 acts) :
    ∃ N, QuietAt lt s0 acts N :=
  exists_quietFrom (Sys.threaded lt) (Sys.hosted lt) fun n r =>
    Reader.step_descends lt ((hf.inv lt h0 n).called r).opened_index ((hf.inv lt h0 n).readers r)

/-- In the quiet part nobody polls for a buffer: one pop brings it into the map. -/
theorem Fair.not_polling (hq : QuietAt lt s0 acts N) (h0 : Sys.Inv t True calls s0)
    (hf : Fair lt s0 acts) (hn : N ≤ n) (r : ι) :
    ¬ ((stateAt (Sys.step lt) s0 acts n).readers r).pc.Polling := by
  have hneither (fr : Frame) : (stateAt (Sys.step lt) s0 acts n).readers r ≠ ⟨fr, .bufPop⟩ ∧
      (stateAt (Sys.step lt) s0 acts n).readers r ≠ ⟨fr, .bufFind⟩ := by
    apply hq.not_polling (Sys.threaded lt) (Sys.hosted lt) hf.toServing (hf.change lt h0)
      (p := fr.pr.piece) _ _ _ hn
    · exact fun _ => ⟨rfl, rfl⟩
    · intro sh hnone
      have hnone' : sh.piece_buffer_map fr.pr.piece = none := hnone
      exact ⟨hnone', by simp [Reader.step, hnone']⟩
    · intro n hrd
      have hfly := ((hf.inv lt h0 n).readers r).polling (by rw [hrd]; trivial)
      rwa [hrd] at hfly
  intro hpc
  cases hrd : (stateAt (Sys.step lt) s0 acts n).readers r with
  | mk fr pc =>
      rw [hrd] at hpc
      cases pc with
      | bufPop => exact (hneither fr).1 hrd
      | bufFind => exact (hneither fr).2 hrd
      | _ => exact hpc

/-- In the quiet part nobody goes round in `wait_for_piece_download`: what was asked for
arrives. -/
theorem Fair.not_waiting (hq : QuietAt lt s0 acts N) (h0 : Sys.Inv t True calls s0)
    (hf : Fair lt s0 acts) (hn : N ≤ n) (r : ι) (fr : Frame) :
    ¬ ((stateAt (Sys.step lt) s0 acts n).readers r = ⟨fr, .waitHave⟩ ∨
      (stateAt (Sys.step lt) s0 acts n).readers r = ⟨fr, .waitPop⟩) := by
  intro hwait
  have hasked : Valid t fr.pr.piece ∧
      (stateAt (Sys.step lt) s0 acts n).session.Asked fr.pr.piece := by
    have hreader := (hf.inv lt h0 n).readers r
    rcases hwait with hrd | hrd
    all_goals
      rw [hrd] at hreader
      exact hreader.waiting trivial
  have harrives : ∃ m, fr.pr.piece ∈ (stateAt (Sys.step lt) s0 acts m).session.downloaded := by
    rcases hasked.2 with h | h
    · exact ⟨n, h⟩
    · obtain ⟨m, -, hm⟩ := hf.downloads _ n hasked.1 h
      exact ⟨m, hm⟩
  apply hq.not_waiting (Sys.threaded lt) hf.toServing (hf.change lt h0)
    (x := ⟨fr, .waitHave⟩) (y := ⟨fr, .waitPop⟩) (p := fr.pr.piece) _ _ harrives hn hwait
  · intro sh hmissing
    have hmissing' : fr.pr.piece ∉ sh.downloaded := hmissing
    simp only [Reader.step, if_neg hmissing', true_and]
    exact hmissing'
  · exact fun _ => rfl

/-- In the quiet part a thread has returned, or waits for `fsmtx`. -/
theorem Fair.cases (hq : QuietAt lt s0 acts N) (h0 : Sys.Inv t True calls s0)
    (hf : Fair lt s0 acts) (hn : N ≤ n) (r : ι) :
    (∃ ret, ((stateAt (Sys.step lt) s0 acts n).readers r).pc = .done ret) ∨
      (((stateAt (Sys.step lt) s0 acts n).readers r).pc = .lock ∧
        ∃ m, n ≤ m ∧ (stateAt (Sys.step lt) s0 acts m).session.fsmtx ≠ none) := by
  obtain ⟨m, hm, hturn, hsame⟩ := (Sys.threaded lt).next_turn (hf.turns r) n
  have hpolls := hq.polls m (hn.trans hm) r hturn
  have hwait := hf.not_waiting lt hq h0 hn r
  have hpoll := hf.not_polling lt hq h0 hn r
  rw [hsame] at hpolls
  cases hrd : (stateAt (Sys.step lt) s0 acts n).readers r with
  | mk fr pc =>
      rw [hrd] at hpolls hwait hpoll
      cases pc with
      | done ret => exact Or.inl ⟨ret, rfl⟩
      | lock => exact Or.inr ⟨rfl, m, hm, hpolls⟩
      | waitHave => exact (hwait fr (Or.inl rfl)).elim
      | waitPop => exact (hwait fr (Or.inr rfl)).elim
      | bufPop | bufFind => exact (hpoll trivial).elim
      | _ => exact hpolls.elim

/-- In the quiet part `fsmtx` is free: its holder would be polling inside. -/
theorem Fair.fsmtx_free (hq : QuietAt lt s0 acts N) (h0 : Sys.Inv t True calls s0)
    (hf : Fair lt s0 acts) (hn : N ≤ n) :
    (stateAt (Sys.step lt) s0 acts n).session.fsmtx = none := by
  by_contra hheld
  obtain ⟨r, hr⟩ := Option.ne_none_iff_exists'.mp hheld
  have hmutex := ((hf.inv lt h0 n).readers r).mutex
  rw [hr] at hmutex
  rcases hf.cases lt hq h0 hn r with ⟨ret, hpc⟩ | ⟨hpc, -⟩
  · rw [hpc] at hmutex
    exact hmutex rfl
  · rw [hpc] at hmutex
    exact hmutex rfl

/-- In the quiet part every call has returned. -/
theorem Fair.done_of_quiet (hq : QuietAt lt s0 acts N) (h0 : Sys.Inv t True calls s0)
    (hf : Fair lt s0 acts) (r : ι) :
    ∃ ret, ((stateAt (Sys.step lt) s0 acts N).readers r).pc = .done ret := by
  rcases hf.cases lt hq h0 le_rfl r with hdone | ⟨-, m, hm, hheld⟩
  · exact hdone
  · exact absurd (hf.fsmtx_free lt hq h0 hm) hheld

theorem Fair.all_done (h0 : Sys.Inv t True calls s0) (hf : Fair lt s0 acts) :
    ∃ n, ∀ r, ∃ ret, ((stateAt (Sys.step lt) s0 acts n).readers r).pc = .done ret := by
  obtain ⟨N, hq⟩ := hf.exists_quiet lt h0
  exact ⟨N, hf.done_of_quiet lt hq h0⟩

/-- Runs that are fair exist: a schedule that serves everyone makes one. -/
theorem exists_fair (h0 : Sys.Inv t True calls s0) : ∃ acts, Fair lt s0 acts := by
  obtain ⟨acts, hserving, harrives⟩ := exists_serving (I := Sys.Inv t True calls) (Sys.hosted lt)
    (fun _ _ h ha => h.step lt fun _ => ha)
    (fun s r h => ((s.readers r).step_holds lt (h.called r).opened_index h.session
      (h.readers r)).1.requests) h0
  exact ⟨acts, hserving, fun p n hv _ => harrives p n hv⟩

end Quiet

/-! ## The result of `read` -/

/-- The result that a call owes for file `f`, of which `get_file_size` returns `L`. -/
def ReturnsSlice (f : FileEntry) (L : Int) (call fr : Frame) (ret : Int) : Prop :=
  (L ≤ call.offset → ret = 0) ∧
  (call.offset < L →
    ret = min (call.size : Int) (L - call.offset) ∧
      call.offset + ret.toNat ≤ f.bytes.length ∧
      fr.buf.take ret.toNat = slice f.bytes call.offset ret.toNat ∧
      fr.buf.drop ret.toNat = call.buf.drop ret.toNat)

theorem Finished.returnsSlice {call fr : Frame} {i : Nat} {ret : Int} (hi : i < t.files.length)
    (hsize : call.size ≤ 2147483647) (h : Finished t call i fr ret) :
    ReturnsSlice t.files[i] (fileEnd t i) call fr ret := by
  refine ⟨fun hle => (h.1 hle).1, fun hlt => ?_⟩
  obtain ⟨n, hn, rfl, htake, hdrop⟩ := h.2 hlt
  have hsz : toInt32 call.size = call.size := toInt32_of_fits ⟨by omega, by omega⟩
  have hle := fileEnd_le t i
  rw [hsz] at hn
  rw [fileBytes_eq hi] at htake hle
  rw [Int.toNat_natCast]
  exact ⟨by omega, by omega, htake, hdrop⟩

end BitFS.Read
