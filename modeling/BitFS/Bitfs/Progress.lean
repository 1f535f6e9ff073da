import BitFS.Bitfs.Reachable
import BitFS.Read.Progress

/-! # Every call of `bitfs_read` returns

Each step lowers a rank or polls, as in FS.cpp. Here libtorrent need download a piece only while
it is at top priority and the limit is up: this holds for as long as a thread waits for it.
-/

namespace BitFS.Bitfs

open MachineInt Memory BitFS.Tree BitFS.Read Transition Threads

variable {t : Torrent} (lt : TorrentInfo t) {ι : Type}

/-! ## The rank of a thread -/

/-- How far a thread is from its end: eight for each byte a loop has still to pass. -/
def Reader.rank (rd : Reader) : Nat :=
  let left := 8 * rd.frame.remaining_size.toNat
  let second := 8 * rd.frame.wanted.toNat + 6
  match rd.pc with
  | .entry => 16 * rd.frame.size + 18
  | .lock => 8 * rd.frame.wanted.toNat + second + 10
  | .limitUp => 8 * rd.frame.wanted.toNat + second + 9
  | .prioHead => left + second + 8
  | .prioSelf => left + second + 7
  | .prioNext => left + second + 6
  | .prioAdvance => left + second + 5
  | .copyHead => left + 6
  | .waitTest => left + 5
  | .waitHit | .waitPrio => left + 4
  | .waitHave | .waitPop => left + 3
  | .bufTest => left + 2
  | .bufRequest => left + 1
  | .bufPop | .bufFind => left
  | .copy => left - 1
  | .limitDown => 2
  | .unlock => 1
  | .done _ | .crashed => 0

/-- The thread polls: its next step may leave everything as it is. -/
def Reader.Polls (sh : Session ι) (rd : Reader) : Prop :=
  match rd.pc with
  | .lock => sh.fsmtx ≠ none
  | .waitHave => rd.frame.pr.piece ∉ sh.downloaded
  | .waitPop | .bufPop | .done _ | .crashed => True
  | .bufFind => sh.piece_buffer_map rd.frame.pr.piece = none
  | _ => False

def Session.pending (sh : Session ι) : Nat := sh.toSession.pending

section Rank

variable {fr0 fr : Frame} {i : Nat} {sh : Session ι} {me : ι} {genuine : Prop}

@[simp] theorem Session.pending_havePiece (p : Int) :
    (sh.on fun s => s.havePiece p).pending = sh.pending := rfl

@[simp] theorem Session.pending_piecePriority (p prio : Int) :
    (sh.on fun s => s.piecePriority p prio).pending = sh.pending := rfl

theorem Session.pending_readPiece (p : Int) :
    (sh.on fun s => s.readPiece p).pending = sh.pending + 2 := Read.Session.pending_readPiece p

theorem Session.pending_getPieceBuffers_le :
    (sh.on Read.Session.getPieceBuffers).pending ≤ sh.pending :=
  Read.Session.pending_getPieceBuffers_le

/-- A round of copies leaves fewer bytes. -/
theorem Copied.copyPiece_lt {k : Nat} {fr' : Frame} {src : List UInt8}
    (hk : Copied t genuine fr0 sh fr i k) (hloc : Located t fr i k)
    (hcopy : fr.copyPiece src = some fr') :
    fr'.remaining_size.toNat < fr.remaining_size.toNat := by
  have hb := hloc.roundSize_bounds hk.copying.reading
  have hrem : fr.remaining_size.toNat = fr.wanted.toNat - k := hloc.toAt.rem_toNat
  rw [hloc.copyPiece_eq hk.copying.reading hk.copying.read_ptr] at hcopy
  obtain ⟨temp, -, hcopy⟩ := Option.bind_eq_some_iff.mp hcopy
  obtain ⟨out, -, rfl⟩ := Option.map_eq_some_iff.mp hcopy
  have hrem' : (fr.copied temp out (k + roundSize t fr i k)).remaining_size.toNat =
    fr.wanted.toNat - (k + roundSize t fr i k) := (at_passed hb.2.1).rem_toNat
  omega

/-- What one step of a thread does to the ranks. -/
def Reader.Descends (sh : Session ι) (rd : Reader) (out : Session ι × Reader) : Prop :=
  Threads.Descends 3 rank Session.pending (fun sh rd => rd.Polls sh) sh rd out

theorem Reader.begin_descends {pc : Pc} (hpc : pc ∈ [Pc.entry, .lock, .limitUp])
    (ho : fr0.Opened t i) (h : Reader.Holds t genuine fr0 i sh me ⟨fr, pc⟩) :
    Reader.Descends sh ⟨fr, pc⟩ (step lt me sh ⟨fr, pc⟩) := by
  cases pc with
  | entry =>
      left
      rw [Reader.step]
      split
      · simp only [rank]
        omega
      · rename_i hend
        have hread := ho.reading lt h.call (lt_of_not_ge hend)
        have hle : (fr.start lt).wanted.toNat ≤ fr.size := wanted_le_size hread
        simp only [rank]
        omega
  | lock =>
      rw [Reader.step]
      split
      · left
        have hpending : (sh.on fun s => { s with fsmtx := some me }).pending = sh.pending := rfl
        simp only [rank, hpending]
        omega
      · rename_i holder hheld
        exact Or.inr ⟨by simp [Polls, hheld], le_rfl⟩
  | limitUp =>
      have hf : Fresh t fr0 fr i := h.facts
      have hrem : (fr.passed 0).remaining_size.toNat = fr.wanted.toNat :=
        (at_passed (Nat.zero_le _)).rem_toNat
      have hwanted : (fr.passed 0).wanted = fr.wanted := rfl
      have hpending : (sh.setDownloadLimit (1024 * 1024)).pending = sh.pending := rfl
      left
      rw [Reader.step, hf.reading.restart, orCrash]
      simp only [rank, hrem, hwanted, hpending]
      omega
  | _ => simp at hpc

theorem Reader.mark_descends {pc : Pc}
    (hpc : pc ∈ [Pc.prioHead, .prioSelf, .prioNext, .prioAdvance])
    (h : Reader.Holds t genuine fr0 i sh me ⟨fr, pc⟩) :
    Reader.Descends sh ⟨fr, pc⟩ (step lt me sh ⟨fr, pc⟩) := by
  left
  cases pc with
  | prioHead =>
      obtain ⟨k, hf, -, -⟩ := h.facts
      rw [Reader.step]
      split
      · have hwanted : (fr.mapFile lt).wanted = fr.wanted := rfl
        have hrem : (fr.mapFile lt).remaining_size = fr.remaining_size := rfl
        simp only [rank, hwanted, hrem]
        omega
      · have hrem : (fr.passed 0).remaining_size.toNat = fr.wanted.toNat :=
          (at_passed (Nat.zero_le _)).rem_toNat
        rw [hf.reading.restart, orCrash]
        simp only [rank, hrem]
        omega
  | prioSelf =>
      simp only [Reader.step, rank, Session.pending_piecePriority]
      omega
  | prioNext =>
      rw [Reader.step]
      split
      all_goals
        simp only [rank, Session.pending_piecePriority]
        omega
  | prioAdvance =>
      obtain ⟨k, hf, -, hloc, -⟩ := h.facts
      have hb := hloc.roundSize_bounds hf.reading
      have hrem : fr.remaining_size.toNat = fr.wanted.toNat - k := hloc.toAt.rem_toNat
      have hrem' := (at_passed hb.2.1).rem_toNat
      have hwanted : (fr.passed (k + roundSize t fr i k)).wanted = fr.wanted := rfl
      rw [Reader.step, hloc.skipPiece hf.reading, orCrash]
      dsimp only at hrem' hb
      simp only [rank, hwanted, hrem', hrem]
      omega
  | _ => simp at hpc

theorem Reader.wait_descends {pc : Pc} (hpc : pc ∈ [Pc.copyHead, .waitTest, .waitHit, .waitPrio,
      .waitHave, .waitPop]) :
    Reader.Descends sh ⟨fr, pc⟩ (step lt me sh ⟨fr, pc⟩) := by
  cases pc with
  | copyHead =>
      have hrem : (fr.mapFile lt).remaining_size = fr.remaining_size := rfl
      left
      rw [Reader.step]
      split
      all_goals
        simp only [rank, hrem]
        omega
  | waitTest =>
      left
      rw [Reader.step]
      split
      all_goals
        simp only [rank, Session.pending_havePiece]
        omega
  | waitHit =>
      left
      rw [Reader.step]
      split
      · rename_i sh' hcount
        have hpending : sh'.pending = sh.pending :=
          congrArg Read.Session.pending (Session.countHit_eq hcount).1
        simp only [rank, hpending]
        omega
      · simp only [rank]
        omega
  | waitPrio =>
      left
      simp only [Reader.step, rank, Session.pending_piecePriority]
      omega
  | waitHave =>
      rw [Reader.step]
      split
      · left
        simp only [rank, Session.pending_havePiece]
        omega
      · rename_i hmissing
        exact Or.inr ⟨hmissing, le_rfl⟩
  | waitPop =>
      have hpop : (sh.on Read.Session.getPieceBuffers).pending ≤ sh.pending :=
        Session.pending_getPieceBuffers_le
      right
      refine ⟨trivial, ?_⟩
      simp only [Reader.step, rank]
      omega
  | _ => simp at hpc

theorem Reader.copy_descends {pc : Pc}
    (hpc : pc ∈ [Pc.bufTest, .bufRequest, .bufPop, .bufFind, .copy])
    (h : Reader.Holds t genuine fr0 i sh me ⟨fr, pc⟩) :
    Reader.Descends sh ⟨fr, pc⟩ (step lt me sh ⟨fr, pc⟩) := by
  cases pc with
  | bufTest =>
      left
      rw [Reader.step]
      split
      all_goals
        simp only [rank]
        omega
  | bufRequest =>
      left
      simp only [Reader.step, rank, Session.pending_readPiece]
      omega
  | bufPop =>
      have hpop : (sh.on Read.Session.getPieceBuffers).pending ≤ sh.pending :=
        Session.pending_getPieceBuffers_le
      right
      refine ⟨trivial, ?_⟩
      simp only [Reader.step, rank]
      omega
  | bufFind =>
      obtain ⟨k, -, hloc, -⟩ := h.facts
      have hrem : 1 ≤ fr.remaining_size.toNat := hloc.toAt.rem_pos hloc.more
      rw [Reader.step]
      split
      · left
        simp only [rank]
        omega
      · rename_i hnone
        exact Or.inr ⟨Option.not_isSome_iff_eq_none.mp hnone, le_rfl⟩
  | copy =>
      obtain ⟨k, hk, hloc, hfound⟩ := h.facts
      have hrem : 1 ≤ fr.remaining_size.toNat := hloc.toAt.rem_pos hloc.more
      obtain ⟨src, hsrc⟩ := Option.isSome_iff_exists.mp hfound
      dsimp only at hsrc
      left
      rw [Reader.step, hsrc, Option.bind_some]
      cases hcopy : fr.copyPiece src with
      | none =>
          simp only [orCrash, rank]
          omega
      | some fr' =>
          have hless : fr'.remaining_size.toNat < fr.remaining_size.toNat :=
            hk.copyPiece_lt hloc hcopy
          simp only [orCrash, rank]
          omega
  | _ => simp at hpc

/-- A step of a thread lowers its rank by more than it adds to the session, or the thread polls
and nothing grows. -/
theorem Reader.step_descends (ho : fr0.Opened t i) {rd : Reader}
    (h : Reader.Holds t genuine fr0 i sh me rd) : rd.Descends sh (rd.step lt me sh) := by
  obtain ⟨fr, pc⟩ := rd
  cases pc with
  | entry | lock | limitUp => exact begin_descends lt (by simp) ho h
  | prioHead | prioSelf | prioNext | prioAdvance => exact mark_descends lt (by simp) h
  | copyHead | waitTest | waitHit | waitPrio | waitHave | waitPop =>
      exact wait_descends lt (by simp)
  | bufTest | bufRequest | bufPop | bufFind | copy => exact copy_descends lt (by simp) h
  | limitDown =>
      left
      have hpending : (sh.setDownloadLimit 1).pending = sh.pending := rfl
      simp only [Reader.step, rank, hpending]
      omega
  | unlock =>
      left
      have hpending : (sh.on fun s => { s with fsmtx := none }).pending = sh.pending := rfl
      simp only [Reader.step, rank, hpending]
      omega
  | done | crashed => exact Or.inr ⟨trivial, le_rfl⟩

end Rank

/-! ## The counter -/

/-- How often a thread can still find a piece downloaded: once a round, and a round passes a
byte. -/
def Reader.hitsLeft (rd : Reader) : Nat :=
  match rd.pc with
  | .entry => rd.frame.size
  | .lock | .limitUp | .prioHead | .prioSelf | .prioNext | .prioAdvance => rd.frame.wanted.toNat
  | .copyHead | .waitTest | .waitHit | .waitPrio | .waitHave | .waitPop =>
      rd.frame.remaining_size.toNat
  | .bufTest | .bufRequest | .bufPop | .bufFind | .copy => rd.frame.remaining_size.toNat - 1
  | .limitDown | .unlock | .done _ | .crashed => 0

section Counter

variable {fr0 fr : Frame} {i : Nat} {sh : Session ι} {me : ι} {genuine : Prop}

/-- What a thread adds to the counter it cannot add again. -/
theorem Reader.step_hits (ho : fr0.Opened t i) {rd : Reader}
    (h : Reader.Holds t genuine fr0 i sh me rd) :
    (rd.step lt me sh).1.cache_hit_counter + (rd.step lt me sh).2.hitsLeft ≤
      sh.cache_hit_counter + rd.hitsLeft := by
  obtain ⟨fr, pc⟩ := rd
  cases pc with
  | entry =>
      rw [Reader.step]
      split
      · simp only [hitsLeft]
        omega
      · rename_i hend
        have hread := ho.reading lt h.call (lt_of_not_ge hend)
        have hle : (fr.start lt).wanted.toNat ≤ fr.size := wanted_le_size hread
        simp only [hitsLeft]
        omega
  | lock =>
      rw [Reader.step]
      split <;> exact le_rfl
  | limitUp =>
      have hf : Fresh t fr0 fr i := h.facts
      rw [Reader.step, hf.reading.restart]
      exact le_rfl
  | prioHead =>
      obtain ⟨k, hf, -, -⟩ := h.facts
      have hrem : (fr.passed 0).remaining_size.toNat = fr.wanted.toNat :=
        (at_passed (Nat.zero_le _)).rem_toNat
      rw [Reader.step]
      split
      · exact le_rfl
      · rw [hf.reading.restart]
        simp only [orCrash, hitsLeft, hrem]
        omega
  | prioSelf => exact le_rfl
  | prioNext =>
      rw [Reader.step]
      split <;> exact le_rfl
  | prioAdvance =>
      obtain ⟨k, hf, -, hloc, -⟩ := h.facts
      rw [Reader.step, hloc.skipPiece hf.reading]
      exact le_rfl
  | copyHead =>
      rw [Reader.step]
      split
      · exact le_rfl
      · simp only [hitsLeft]
        omega
  | waitTest =>
      rw [Reader.step]
      split <;> exact le_rfl
  | waitHit =>
      obtain ⟨k, -, hloc⟩ := h.facts
      have hrem : 1 ≤ fr.remaining_size.toNat := hloc.toAt.rem_pos hloc.more
      rw [Reader.step]
      split
      · rename_i sh' hcount
        obtain ⟨-, -, hhits, -⟩ := Session.countHit_eq hcount
        simp only [hitsLeft, hhits]
        omega
      · simp only [hitsLeft]
        omega
  | waitPrio => exact le_rfl
  | waitHave =>
      have hsame : (sh.on fun s => s.havePiece fr.pr.piece).cache_hit_counter =
        sh.cache_hit_counter := rfl
      rw [Reader.step]
      split
      · simp only [hitsLeft, hsame]
        omega
      · exact le_rfl
  | waitPop => exact le_rfl
  | bufTest | bufFind =>
      rw [Reader.step]
      split <;> exact le_rfl
  | bufRequest | bufPop => exact le_rfl
  | copy =>
      obtain ⟨k, hk, hloc, hfound⟩ := h.facts
      obtain ⟨src, hsrc⟩ := Option.isSome_iff_exists.mp hfound
      dsimp only at hsrc
      rw [Reader.step, hsrc, Option.bind_some]
      cases hcopy : fr.copyPiece src with
      | none =>
          simp only [orCrash, hitsLeft]
          omega
      | some fr' =>
          have hless : fr'.remaining_size.toNat < fr.remaining_size.toNat :=
            hk.copyPiece_lt hloc hcopy
          simp only [orCrash, hitsLeft]
          omega
  | limitDown | unlock | done | crashed => exact le_rfl

end Counter

/-! ## Fair runs -/

section System

variable [Fintype ι] [DecidableEq ι] {genuine : Prop} {calls : ι → Frame}

/-- No action adds more to the counter than it takes from the threads. -/
theorem Sys.step_hits {s : Sys ι} (h : Sys.Inv t genuine calls s) (a : Action ι) :
    (s.step lt a).session.cache_hit_counter + (∑ r, ((s.step lt a).readers r).hitsLeft : Nat) ≤
      s.session.cache_hit_counter + (∑ r, (s.readers r).hitsLeft : Nat) := by
  by_cases ha : ∃ r, a = .reader r
  · obtain ⟨r, rfl⟩ := ha
    have hhits := Reader.step_hits lt (h.called r).opened_index (h.readers r)
    have hsum := Fairness.sum_update Reader.hitsLeft s.readers r
      ((s.readers r).step lt r s.session).2
    simp only [Sys.step]
    omega
  · rw [s.step_world lt (not_exists.mp ha)]
    exact le_rfl

/-- Every thread gets its turn again and again; libtorrent answers requests with success, and
downloads a piece if it stays at top priority with the limit at 1 MiB. -/
structure Fair (s0 : Sys ι) (acts : Nat → Action ι) : Prop extends
    Serving (Sys.step lt) (fun s => s.session.toSession) s0 acts where
  downloads : ∀ p n, Valid t p →
    (∀ m, n ≤ m → (stateAt (Sys.step lt) s0 acts m).session.priority p = 7 ∧
      (stateAt (Sys.step lt) s0 acts m).session.download_limit = 1024 * 1024) →
    ∃ m, n ≤ m ∧ p ∈ (stateAt (Sys.step lt) s0 acts m).session.downloaded

/-- From some point on no step lowers the rank, and whoever has a turn polls. -/
abbrev QuietAt (s0 : Sys ι) (acts : Nat → Action ι) (N : Nat) : Prop :=
  QuietFrom Reader.rank Session.toSession Sys.session Sys.readers (fun sh rd => rd.Polls sh)
    (Sys.step lt) s0 acts N

section Run

variable {s0 : Sys ι} {acts : Nat → Action ι} {N n : Nat}

omit [Fintype ι] in
theorem Fair.inv (h0 : Sys.Inv t True calls s0) (hf : Fair lt s0 acts) (n : Nat) :
    Sys.Inv t True calls (stateAt (Sys.step lt) s0 acts n) := by
  have hreach : Reaches (Sys.step lt) Action.Succeeds s0 (stateAt (Sys.step lt) s0 acts n) :=
    reaches_stateAt _ s0 hf.succeeds n
  apply hreach.invariant (I := Sys.Inv t True calls)
  · intro s a h ha
    exact h.step lt fun _ => ha
  · exact h0

omit [Fintype ι] in
theorem Fair.change (h0 : Sys.Inv t True calls s0) (hf : Fair lt s0 acts) (n : Nat) :
    ∃ who, Read.Session.Change t True (stateAt (Sys.step lt) s0 acts n).session.toSession who
      (stateAt (Sys.step lt) s0 acts (n + 1)).session.toSession := by
  obtain ⟨who, hc, -⟩ := (hf.inv lt h0 n).change lt (fun _ => hf.succeeds n)
  exact ⟨who, hc.base⟩

theorem Fair.exists_quiet (h0 : Sys.Inv t True calls s0) (hf : Fair lt s0 acts) :
    ∃ N, QuietAt lt s0 acts N :=
  exists_quietFrom (Sys.threaded lt) (Sys.hosted lt) fun n r =>
    Reader.step_descends lt ((hf.inv lt h0 n).called r).opened_index ((hf.inv lt h0 n).readers r)

/-- In the quiet part nobody polls for a buffer: one pop brings it into the map. -/
theorem Fair.not_polling (hq : QuietAt lt s0 acts N) (h0 : Sys.Inv t True calls s0)
    (hf : Fair lt s0 acts) (hn : N ≤ n) (r : ι) :
    ¬ ((stateAt (Sys.step lt) s0 acts n).readers r).pc.Polling := by
  have hneither (fr : Frame) : (stateAt (Sys.step lt) s0 acts n).readers r ≠ ⟨fr, .bufPop⟩ ∧
      (stateAt (Sys.step lt) s0 acts n).readers r ≠ ⟨fr, .bufFind⟩ := by
    apply hq.not_polling (Sys.threaded lt) (Sys.hosted lt) hf.toServing (hf.change lt h0)
      (p := fr.pr.piece) _ _ _ hn
    · exact fun _ => ⟨rfl, rfl⟩
    · intro sh hnone
      have hnone' : sh.piece_buffer_map fr.pr.piece = none := hnone
      exact ⟨hnone', by simp [Reader.step, hnone']⟩
    · intro n hrd
      have hfly := ((hf.inv lt h0 n).readers r).polling (by rw [hrd]; trivial)
      rwa [hrd] at hfly
  intro hpc
  cases hrd : (stateAt (Sys.step lt) s0 acts n).readers r with
  | mk fr pc =>
      rw [hrd] at hpc
      cases pc with
      | bufPop => exact (hneither fr).1 hrd
      | bufFind => exact (hneither fr).2 hrd
      | _ => exact hpc

omit [Fintype ι] [DecidableEq ι] in
/-- A thread that waits has its piece at top priority and the limit up. -/
theorem Reader.Holds.waits {fr0 fr : Frame} {i : Nat} {sh : Session ι} {me : ι} {rd : Reader}
    (h : Reader.Holds t genuine fr0 i sh me rd)
    (hw : rd = ⟨fr, .waitHave⟩ ∨ rd = ⟨fr, .waitPop⟩) :
    Valid t fr.pr.piece ∧ sh.priority fr.pr.piece = 7 ∧ sh.download_limit = 1024 * 1024 := by
  have hfacts : ∃ k, Copied t genuine fr0 sh fr i k ∧ Located t fr i k := by
    rcases hw with rfl | rfl
    · exact h.facts
    · exact h.facts
  have hlimit : sh.download_limit = 1024 * 1024 := by
    rcases hw with rfl | rfl
    · exact h.limit
    · exact h.limit
  obtain ⟨k, hk, hloc⟩ := hfacts
  refine ⟨hloc.valid hk.copying.reading, ?_, hlimit⟩
  rw [hloc.piece]
  exact hk.top k hloc.more

/-- In the quiet part nobody goes round in `wait_for_piece_download`: a thread that did would
keep its piece at top priority, and the piece would arrive. -/
theorem Fair.not_waiting (hq : QuietAt lt s0 acts N) (h0 : Sys.Inv t True calls s0)
    (hf : Fair lt s0 acts) (hn : N ≤ n) (r : ι) (fr : Frame) :
    ¬ ((stateAt (Sys.step lt) s0 acts n).readers r = ⟨fr, .waitHave⟩ ∨
      (stateAt (Sys.step lt) s0 acts n).readers r = ⟨fr, .waitPop⟩) := by
  intro hwait
  have htest (sh : Session ι) (hmissing : Reader.Polls sh ⟨fr, .waitHave⟩) :
      (Reader.step lt r sh ⟨fr, .waitHave⟩).2 = ⟨fr, .waitPop⟩ := by
    have hmissing' : fr.pr.piece ∉ sh.downloaded := hmissing
    simp only [Reader.step, if_neg hmissing']
  have hready (m : Nat) (hm : n ≤ m) :=
    ((hf.inv lt h0 m).readers r).waits
      (hq.goes_round (Sys.threaded lt) htest (fun _ => rfl) hn hwait hm)
  obtain ⟨m, -, hdown⟩ :=
    hf.downloads fr.pr.piece n (hready n le_rfl).1 fun m hm => (hready m hm).2
  exact hq.not_waiting (Sys.threaded lt) hf.toServing (hf.change lt h0) (p := fr.pr.piece)
    (fun sh h => ⟨htest sh h, h⟩) (fun _ => rfl) ⟨m, hdown⟩ hn hwait

/-- In the quiet part a thread has returned, waits for `fsmtx`, or has found the counter full. -/
theorem Fair.cases (hq : QuietAt lt s0 acts N) (h0 : Sys.Inv t True calls s0)
    (hf : Fair lt s0 acts) (hn : N ≤ n) (r : ι) :
    (∃ ret, ((stateAt (Sys.step lt) s0 acts n).readers r).pc = .done ret) ∨
      (((stateAt (Sys.step lt) s0 acts n).readers r).pc = .lock ∧
        ∃ m, n ≤ m ∧ (stateAt (Sys.step lt) s0 acts m).session.fsmtx ≠ none) ∨
      ((stateAt (Sys.step lt) s0 acts n).readers r).pc = .crashed := by
  obtain ⟨m, hm, hturn, hsame⟩ := (Sys.threaded lt).next_turn (hf.turns r) n
  have hpolls := hq.polls m (hn.trans hm) r hturn
  have hwait := hf.not_waiting lt hq h0 hn r
  have hpoll := hf.not_polling lt hq h0 hn r
  rw [hsame] at hpolls
  cases hrd : (stateAt (Sys.step lt) s0 acts n).readers r with
  | mk fr pc =>
      rw [hrd] at hpolls hwait hpoll
      cases pc with
      | done ret => exact Or.inl ⟨ret, rfl⟩
      | lock => exact Or.inr (Or.inl ⟨rfl, m, hm, hpolls⟩)
      | crashed => exact Or.inr (Or.inr rfl)
      | waitHave => exact (hwait fr (Or.inl rfl)).elim
      | waitPop => exact (hwait fr (Or.inr rfl)).elim
      | bufPop | bufFind => exact (hpoll trivial).elim
      | _ => exact hpolls.elim

/-- A holder of `fsmtx` in the quiet part has found the counter full. -/
theorem Fair.holder (hq : QuietAt lt s0 acts N) (h0 : Sys.Inv t True calls s0)
    (hf : Fair lt s0 acts) (hn : N ≤ n)
    (hheld : (stateAt (Sys.step lt) s0 acts n).session.fsmtx ≠ none) :
    (stateAt (Sys.step lt) s0 acts n).session.cache_hit_counter = 2147483647 := by
  obtain ⟨r, hr⟩ := Option.ne_none_iff_exists'.mp hheld
  have hinv := (hf.inv lt h0 n).readers r
  have hmutex := hinv.mutex
  rw [hr] at hmutex
  rcases hf.cases lt hq h0 hn r with ⟨ret, hpc⟩ | ⟨hpc, -⟩ | hpc
  · rw [hpc] at hmutex
    exact absurd rfl hmutex
  · rw [hpc] at hmutex
    exact absurd rfl hmutex
  · have hfacts := hinv.facts
    rw [hpc] at hfacts
    exact hfacts trivial

end Run

/-- Runs that are fair exist: a schedule that serves everyone makes one. -/
theorem exists_fair {s0 : Sys ι} (h0 : Sys.Inv t True calls s0) : ∃ acts, Fair lt s0 acts := by
  obtain ⟨acts, hserving, harrives⟩ := exists_serving (I := Sys.Inv t True calls) (Sys.hosted lt)
    (fun _ _ h ha => h.step lt fun _ => ha)
    (fun s r h => ((s.readers r).step_holds lt (h.called r).opened_index h.session
      (h.readers r)).1.base.requests) h0
  exact ⟨acts, hserving, fun p n hv _ => harrives p n hv⟩

/-- The counter stays below the bytes that are asked for. -/
theorem Fair.hits_le {s0 : Sys ι} (h0 : s0.Initial t) {acts : Nat → Action ι}
    (hf : Fair lt s0.initBitfs acts) (n : Nat) :
    (stateAt (Sys.step lt) s0.initBitfs acts n).session.cache_hit_counter ≤
      (∑ r, (s0.readers r).frame.size : Nat) := by
  have hsum (n : Nat) : (stateAt (Sys.step lt) s0.initBitfs acts n).session.cache_hit_counter +
      (∑ r, ((stateAt (Sys.step lt) s0.initBitfs acts n).readers r).hitsLeft : Nat) ≤
        (∑ r, (s0.readers r).frame.size : Nat) := by
    induction n with
    | zero =>
        have hhits : s0.initBitfs.session.cache_hit_counter = 0 := h0.hits
        have hleft (r : ι) : (s0.initBitfs.readers r).hitsLeft = (s0.readers r).frame.size := by
          have hpc : (s0.initBitfs.readers r).pc = .entry := h0.entry r
          rw [Reader.hitsLeft, hpc]
          rfl
        rw [stateAt, hhits, Finset.sum_congr rfl fun r _ => hleft r, zero_add]
    | succ n ih => exact (Sys.step_hits lt (hf.inv lt (h0.inv True) n) (acts n)).trans ih
  have hn := hsum n
  omega

/-- In a fair run all calls return, unless the hit counter comes to its maximum. -/
theorem Fair.all_done {s0 : Sys ι} (hinv : Sys.Inv t True calls s0) {acts : Nat → Action ι}
    (hf : Fair lt s0 acts) :
    ∃ n, (∀ r, ∃ ret, ((stateAt (Sys.step lt) s0 acts n).readers r).pc = .done ret) ∨
      (stateAt (Sys.step lt) s0 acts n).session.cache_hit_counter = 2147483647 := by
  obtain ⟨N, hq⟩ := hf.exists_quiet lt hinv
  by_cases hall : ∀ r, ∃ ret, ((stateAt (Sys.step lt) s0 acts N).readers r).pc = .done ret
  · exact ⟨N, Or.inl hall⟩
  · obtain ⟨r, hr⟩ := not_forall.mp hall
    rcases hf.cases lt hq hinv le_rfl r with hdone | ⟨-, m, hm, hheld⟩ | hcrash
    · exact absurd hdone hr
    · exact ⟨m, Or.inr (hf.holder lt hq hinv hm hheld)⟩
    · have hfacts := ((hf.inv lt hinv N).readers r).facts
      rw [hcrash] at hfacts
      exact ⟨N, Or.inr (hfacts trivial)⟩

/-- In every fair run all calls return, unless the hit counter comes to its maximum; so they do
where fewer bytes are asked for. libtorrent need only download what stays at top priority while
the limit is up. Every state that is reached while reads succeed has a fair run. -/
theorem bitfs_read_returns {s0 : Sys ι} (h0 : s0.Initial t) :
    (∀ acts, Fair lt s0.initBitfs acts →
      (∃ n,
        (∀ r, ∃ ret, ((stateAt (Sys.step lt) s0.initBitfs acts n).readers r).pc = .done ret) ∨
        (stateAt (Sys.step lt) s0.initBitfs acts n).session.cache_hit_counter = 2147483647) ∧
      (∑ r, (s0.readers r).frame.size < 2147483647 →
        ∃ n, ∀ r, ∃ ret,
          ((stateAt (Sys.step lt) s0.initBitfs acts n).readers r).pc = .done ret)) ∧
    ∀ s, Reaches (Sys.step lt) Action.Succeeds s0.initBitfs s → ∃ acts, Fair lt s acts := by
  constructor
  · intro acts hf
    have hends := hf.all_done lt (h0.inv True)
    refine ⟨hends, ?_⟩
    intro hsizes
    obtain ⟨n, hall | hfull⟩ := hends
    · exact ⟨n, hall⟩
    · have hle := hf.hits_le lt h0 n
      omega
  · rintro s ⟨acts, hacts, rfl⟩
    have hinv : Sys.Inv t True _ _ := h0.reaches lt ⟨acts, fun a ha _ => hacts a ha, rfl⟩
    exact exists_fair lt hinv

/-- One call of one byte returns. -/
theorem bitfs_read_returns_oneByte :
    ∃ acts n, ∀ r, ∃ ret, ((stateAt (Sys.step (.reference oneByte)) oneByteStart.initBitfs acts
      n).readers r).pc = .done ret := by
  have hreturns := bitfs_read_returns (.reference oneByte) oneByteStart_initial
  obtain ⟨acts, hf⟩ := hreturns.2 _ (.refl _ _ _)
  obtain ⟨n, hn⟩ := (hreturns.1 acts hf).2 (by decide)
  exact ⟨acts, n, hn⟩

end System

end BitFS.Bitfs
