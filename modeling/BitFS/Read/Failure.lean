import BitFS.Library.Simulation
import BitFS.Read.Guard

/-! # Reads that fail

`get_piece_buffers` copies the buffer of every `read_piece_alert`, so a failed
read leaves an empty buffer in the map. Nothing looks at it until it is copied.
Up to that copy a session whose reads may fail goes the way of a twin whose reads
all succeed. There the model of its thread ends, inside `fsmtx`, and the thread of
the twin stays at the copy; what is said of the program goes no further.
-/

namespace BitFS.Read

open MachineInt Memory BitFS.Tree Transition Simulation

variable {t : Torrent} (lt : TorrentInfo t) {ι : Type}

/-! ## The session as it would be without failures -/

/-- The buffer that a read of piece `p` with success leaves. -/
def mendBuffer (t : Torrent) (p : Int) : List UInt8 → List UInt8
  | [] => t.pieceBytes p.toNat
  | b :: bs => b :: bs

def Alert.mend (t : Torrent) : Alert → Alert
  | .read_piece_alert p _ [] => .read_piece_alert p false (t.pieceBytes p.toNat)
  | .read_piece_alert p failed (b :: bs) => .read_piece_alert p failed (b :: bs)
  | .other => .other

def mendMap (t : Torrent) (m : Int → Option (List UInt8)) (p : Int) : Option (List UInt8) :=
  (m p).map (mendBuffer t p)

/-- `sh` with the buffers of all failed reads replaced. -/
def Session.mend (t : Torrent) (sh : Session ι) : Session ι :=
  { sh with
    alerts := sh.alerts.map (Alert.mend t)
    piece_buffer_map := mendMap t sh.piece_buffer_map }

theorem mendBuffer_of_ne {p : Int} {buffer : List UInt8} (h : buffer ≠ []) :
    mendBuffer t p buffer = buffer := by
  cases buffer with
  | nil => exact absurd rfl h
  | cons b bs => rfl

theorem mendMap_isSome (m : Int → Option (List UInt8)) (p : Int) :
    (mendMap t m p).isSome = (m p).isSome := Option.isSome_map

theorem storeAlert_mend (m : Int → Option (List UInt8)) (a : Alert) :
    Session.storeAlert (mendMap t m) (a.mend t) = mendMap t (Session.storeAlert m a) := by
  cases a with
  | other => rfl
  | read_piece_alert p failed buffer =>
      funext q
      by_cases hq : q = p
      · subst hq
        cases buffer <;> simp [Session.storeAlert, Alert.mend, mendMap, mendBuffer]
      · cases buffer <;> simp [Session.storeAlert, Alert.mend, mendMap, hq]

theorem foldl_storeAlert_mend (as : List Alert) (m : Int → Option (List UInt8)) :
    (as.map (Alert.mend t)).foldl Session.storeAlert (mendMap t m) =
      mendMap t (as.foldl Session.storeAlert m) := by
  induction as generalizing m with
  | nil => rfl
  | cons a as ih => rw [List.map_cons, List.foldl_cons, storeAlert_mend, ih, List.foldl_cons]

/-- Failures come out of the queue as they went in. -/
theorem Session.getPieceBuffers_mend (sh : Session ι) :
    (sh.mend t).getPieceBuffers = sh.getPieceBuffers.mend t := by
  simp only [getPieceBuffers, mend, foldl_storeAlert_mend, List.map_nil]

theorem answerAlert_mend (p : Int) (failed : Bool) (h : t.pieceBytes p.toNat ≠ []) :
    (Sys.answerAlert t p failed).mend t = Sys.answerAlert t p false := by
  cases failed with
  | true => rfl
  | false =>
      obtain ⟨b, bs, hb⟩ := List.exists_cons_of_ne_nil h
      simp [Sys.answerAlert, hb, Alert.mend]

/-- No piece of the torrent is empty. -/
theorem Valid.pieceBytes_ne_nil {p : Int} (h : Valid t p) : t.pieceBytes p.toNat ≠ [] := by
  have hlt : p.toNat < t.numPieces := by have := h.1; have := h.2; omega
  have hpl := t.pieceLength_pos
  unfold Torrent.numPieces at hlt
  rw [Nat.lt_iff_add_one_le, Nat.le_div_iff_mul_le hpl, Nat.add_mul] at hlt
  intro hnil
  have hlen := t.pieceBytes_length p.toNat
  rw [hnil, List.length_nil] at hlen
  omega

/-- Where no read has failed there is nothing to replace. -/
theorem Session.Sound.mend_eq {sh : Session ι} (h : sh.Sound t True) : sh.mend t = sh := by
  have halerts : sh.alerts.map (Alert.mend t) = sh.alerts := by
    conv_rhs => rw [← List.map_id sh.alerts]
    apply List.map_congr_left
    intro a ha
    cases a with
    | other => rfl
    | read_piece_alert p failed buffer =>
        obtain ⟨hv, hreal⟩ := h.alerts p failed buffer ha
        have hne := hv.pieceBytes_ne_nil
        rw [← hreal trivial] at hne
        obtain ⟨b, bs, rfl⟩ := List.exists_cons_of_ne_nil hne
        rfl
  have hmap : mendMap t sh.piece_buffer_map = sh.piece_buffer_map := by
    funext p
    unfold mendMap
    cases hp : sh.piece_buffer_map p with
    | none => rfl
    | some buffer =>
        obtain ⟨hv, hreal⟩ := h.cache p buffer hp
        have hne := hv.pieceBytes_ne_nil
        rw [← hreal trivial] at hne
        rw [Option.map_some, mendBuffer_of_ne hne]
  rw [mend, halerts, hmap]

/-! ## Steps of a thread -/

/-- The thread is to copy the buffer of a failed read. -/
def Reader.AtFailure (sh : Session ι) (rd : Reader) : Prop :=
  rd.pc = .copy ∧ sh.piece_buffer_map rd.frame.pr.piece = some []

/-- But for that copy a thread does the same in both sessions. -/
theorem Reader.step_mend (me : ι) (sh : Session ι) {rd : Reader} (h : ¬ rd.AtFailure sh) :
    rd.step lt me (sh.mend t) = ((rd.step lt me sh).1.mend t, (rd.step lt me sh).2) := by
  obtain ⟨fr, pc⟩ := rd
  cases pc with
  | entry | prioPrev | prioNext | lock | copyHead =>
      simp only [Reader.step, Session.mend]
      split <;> rfl
  | prioHead =>
      by_cases hmore : fr.remaining_size > 0
      · by_cases hhave : (fr.mapFile lt).pr.piece ∈ sh.downloaded
        · simp [Reader.step, Session.mend, Session.havePiece, hmore, hhave]
        · simp [Reader.step, Session.mend, Session.havePiece, hmore, hhave]
      · simp [Reader.step, hmore]
  | sweep todo => cases todo <;> rfl
  | bufTest | bufFind =>
      simp only [Reader.step, Session.mend, mendMap_isSome]
  | waitPop | bufPop =>
      simp only [Reader.step, Session.getPieceBuffers_mend]
  | copy =>
      have hcopy : ((sh.mend t).piece_buffer_map fr.pr.piece).bind fr.copyPiece =
          (sh.piece_buffer_map fr.pr.piece).bind fr.copyPiece := by
        change (mendMap t sh.piece_buffer_map fr.pr.piece).bind fr.copyPiece = _
        unfold mendMap
        cases hp : sh.piece_buffer_map fr.pr.piece with
        | none => rfl
        | some buffer =>
            have hne : buffer ≠ [] := by
              rintro rfl
              exact h ⟨rfl, hp⟩
            rw [Option.map_some, mendBuffer_of_ne hne]
      simp only [Reader.step, hcopy]
  | _ => rfl

/-- The copy reads `piece_size` bytes, and there are none. -/
theorem Located.copyPiece_nil {fr : Frame} {i k : Nat} (hloc : Located t fr i k)
    (h : Reading t fr i) : fr.copyPiece [] = none := by
  have hne : 1 ≤ fr.piece_size := by
    have hv := (hloc.valid h).pieceBytes_ne_nil
    rw [hloc.piece, Int.toNat_natCast] at hv
    have hlen := List.length_pos_of_ne_nil hv
    have hsize := hloc.piece_size
    omega
  have hout : memcpy fr.temp_buf 0 [] 0 fr.piece_size = none := by
    unfold memcpy
    rw [if_neg]
    simp only [List.length_nil]
    omega
  unfold Frame.copyPiece
  rw [hout]
  rfl

/-- The thread of a failed copy ends. -/
theorem Reader.Holds.step_failure {genuine : Prop} {fr0 : Frame} {i : Nat} {sh sh' : Session ι}
    {me : ι} {rd : Reader} (h : rd.Holds t genuine fr0 i sh' me) (hfail : rd.AtFailure sh) :
    rd.step lt me sh = (sh, ⟨rd.frame, .crashed⟩) := by
  obtain ⟨fr, pc⟩ := rd
  obtain ⟨rfl, hmap⟩ := hfail
  obtain ⟨k, hc, hloc, -⟩ := h.facts
  dsimp only at hmap
  rw [Reader.step, hmap, Option.bind_some, hloc.copyPiece_nil hc.reading, Reader.orCrash]

/-- A thread that has ended does nothing. -/
theorem Reader.step_crashed {me : ι} {sh : Session ι} {rd : Reader} (h : rd.pc = .crashed) :
    rd.step lt me sh = (sh, rd) := by
  obtain ⟨fr, pc⟩ := rd
  cases h
  rfl

/-! ## The twin -/

/-- `s'` is `s` without failures, and a thread that has ended in `s` is at the copy
of the buffer that it ended with. -/
structure Sys.Twin (t : Torrent) (s s' : Sys ι) : Prop where
  session : s'.session = s.session.mend t
  readers : ∀ r, s'.readers r = s.readers r ∨
    (s.readers r).pc = .crashed ∧ s'.readers r = ⟨(s.readers r).frame, .copy⟩ ∧
      s.session.piece_buffer_map (s.readers r).frame.pr.piece = some []

/-- The two sessions begin as one. -/
theorem Sys.Initial.twin {s0 : Sys ι} (h0 : s0.Initial t) : s0.Twin t s0 where
  session := h0.session.sound.mend_eq.symm
  readers _ := Or.inl rfl

/-- A thread that has ended is inside `fsmtx`, so nobody else touches its buffer. -/
theorem Sys.Twin.ended_inside {calls : ι → Frame} {s s' : Sys ι} (hinv : Sys.Inv t True calls s')
    (h : s.Twin t s') {r : ι} (hr : (s.readers r).pc = .crashed) :
    s.session.fsmtx = some r ∧
      s.session.piece_buffer_map (s.readers r).frame.pr.piece = some [] := by
  rcases h.readers r with hsame | ⟨-, hcopy, hmap⟩
  · exact absurd (hsame ▸ hr) (hinv.no_crash r)
  · refine ⟨?_, hmap⟩
    have hin : (s'.readers r).pc.Inside := by
      rw [hcopy]
      trivial
    have hown := (hinv.readers r).mutex.owner hin
    rwa [h.session] at hown

variable [DecidableEq ι]

theorem Sys.step_reader (s : Sys ι) (r : ι) :
    (s.step lt (.reader r)).readers r = ((s.readers r).step lt r s.session).2 :=
  Function.update_self _ _ _

section Thread

variable {calls : ι → Frame} {s s' : Sys ι} {r : ι}

/-- At the copy of an empty buffer the twin waits. -/
theorem Sys.Twin.fails (hinv : Sys.Inv t True calls s') (h : s.Twin t s')
    (hsame : s'.readers r = s.readers r) (hfail : (s.readers r).AtFailure s.session) :
    (s.step lt (.reader r)).Twin t s' := by
  have hholds := hinv.readers r
  rw [hsame] at hholds
  have hstep := hholds.step_failure lt hfail
  refine ⟨?_, fun q => ?_⟩
  · rw [Sys.step, hstep]
    exact h.session
  · rw [Sys.step, hstep]
    by_cases hq : q = r
    · subst hq
      right
      simp only [Function.update_self]
      refine ⟨trivial, ?_, hfail.2⟩
      rw [hsame, ← hfail.1]
    · simpa only [Function.update_of_ne hq] using h.readers q

/-- Everywhere else it takes the same step. -/
theorem Sys.Twin.steps (hinv : Sys.Inv t True calls s') (h : s.Twin t s')
    (hsame : s'.readers r = s.readers r) (hfail : ¬ (s.readers r).AtFailure s.session) :
    (s.step lt (.reader r)).Twin t (s'.step lt (.reader r)) := by
  have hstep := (s.readers r).step_mend (t := t) lt r s.session hfail
  refine ⟨?_, fun q => ?_⟩
  · change ((s'.readers r).step lt r s'.session).1 = _
    rw [hsame, h.session, hstep]
    rfl
  · by_cases hq : q = r
    · subst hq
      left
      rw [Sys.step_reader, Sys.step_reader, hsame, h.session, hstep]
    · have hne : Action.reader r ≠ .reader q := by
        intro he
        exact hq (Action.reader.inj he).symm
      rw [Sys.step_readers lt s hne, Sys.step_readers lt s' hne]
      rcases h.readers q with hq' | ⟨hend, hcopy, hmap⟩
      · exact Or.inl hq'
      · -- `q` has ended inside `fsmtx`, so `r` is outside and leaves the map alone
        refine Or.inr ⟨hend, hcopy, ?_⟩
        have hout : ¬ (s.readers r).pc.Inside := by
          intro hin
          have hown := (hinv.readers r).mutex.owner (hsame ▸ hin)
          have hend' := (h.ended_inside hinv hend).1
          rw [h.session] at hown
          exact hq (Option.some.inj (hend'.symm.trans hown))
        have hkept := Reader.step_outside lt r s.session hout
        change ((s.readers r).step lt r s.session).1.piece_buffer_map _ = _
        rw [hkept.map, hmap]

/-- The twin takes the step of a thread, unless the thread has ended or ends with it. -/
theorem Sys.Twin.reader (hinv : Sys.Inv t True calls s') (h : s.Twin t s') (r : ι) :
    (s.step lt (.reader r)).Twin t s' ∨
      (s.step lt (.reader r)).Twin t (s'.step lt (.reader r)) := by
  rcases h.readers r with hsame | ⟨hend, -, -⟩
  · by_cases hfail : (s.readers r).AtFailure s.session
    · exact Or.inl (h.fails lt hinv hsame hfail)
    · exact Or.inr (h.steps lt hinv hsame hfail)
  · left
    rw [Sys.step, Reader.step_crashed lt hend, Function.update_eq_self]
    exact h

end Thread

/-- The twin answers every action with the same action, without its failure, or with none. -/
theorem Sys.twin_follows (calls : ι → Frame) :
    Follows (Sys.step lt) (fun _ => True) (Sys.step lt) Action.Succeeds
      (fun s s' => Sys.Inv t True calls s' ∧ s.Twin t s') := by
  intro s s' a hs _
  obtain ⟨hinv, h⟩ := hs
  have hnext : ∀ b : Action ι, b.Succeeds → (s.step lt a).Twin t (s'.step lt b) →
      ∃ y, Reaches (Sys.step lt) Action.Succeeds s' y ∧ Sys.Inv t True calls y ∧
        (s.step lt a).Twin t y :=
    fun b hb htwin => ⟨_, reaches_step hb s', hinv.step lt fun _ => hb, htwin⟩
  cases a with
  | reader r =>
      rcases h.reader lt hinv r with hstay | hgo
      · exact ⟨s', .refl _ _ s', hinv, hstay⟩
      · exact hnext (.reader r) trivial hgo
  | complete p =>
      apply hnext (.complete p) trivial
      rw [Sys.step, Sys.step]
      split
      · exact ⟨by rw [h.session]; rfl, h.readers⟩
      · exact h
  | answer k failed =>
      apply hnext (.answer k false) rfl
      have hreq : s'.session.requests = s.session.requests := by
        rw [h.session]
        rfl
      rw [Sys.step, Sys.step, hreq]
      cases hk : s.session.requests[k]? with
      | none => exact h
      | some p =>
          refine ⟨?_, h.readers⟩
          have hv := hinv.session.requests p (hreq ▸ List.mem_of_getElem? hk)
          simp only [h.session, Session.mend, List.map_append, List.map_cons, List.map_nil,
            answerAlert_mend p failed hv.pieceBytes_ne_nil]
  | post =>
      apply hnext .post trivial
      refine ⟨?_, h.readers⟩
      simp only [Sys.step, h.session, Session.mend, List.map_append, List.map_cons, List.map_nil,
        Alert.mend]

/-! ## Every run -/

/-- As long as no thread has come to undefined behaviour, reads that fail make no difference but
for the empty buffers they leave: the session and its threads are those of a run whose reads all
succeed, and the calls that have returned are right. The next thread to leave the bounds of its
buffers is one that copies the buffer of a failed read. -/
theorem failed_reads {s0 s : Sys ι} (h0 : s0.Initial t)
    (hs : Reaches (Sys.step lt) (fun _ => True) (s0.initBitfs t) s)
    (hdefined : ∀ r, (s.readers r).pc ≠ .crashed) :
    (∃ s', Reaches (Sys.step lt) Action.Succeeds (s0.initBitfs t) s' ∧
      s'.session = s.session.mend t ∧ s'.readers = s.readers) ∧
    (∀ r ret, (s.readers r).pc = .done ret →
      Finished t (s0.readers r).frame ((s0.readers r).frame.index t) (s.readers r).frame ret) ∧
    ∀ r, ((s.step lt (.reader r)).readers r).pc = .crashed ↔
      (s.readers r).pc = .copy ∧
        s.session.piece_buffer_map (s.readers r).frame.pr.piece = some [] := by
  obtain ⟨s', hs', hinv, h⟩ :=
    (Sys.twin_follows lt fun r => (s0.readers r).frame).reaches
      ⟨h0.initBitfs.inv True, h0.initBitfs.twin⟩ hs
  have hsame (r : ι) : s'.readers r = s.readers r :=
    (h.readers r).resolve_right fun he => hdefined r he.1
  refine ⟨⟨s', hs', h.session, funext hsame⟩, ?_, ?_⟩
  · intro r ret hret
    have hdone : (s'.readers r).pc = .done ret := by rw [hsame, hret]
    have hfin := hinv.finished hdone
    rwa [hsame] at hfin
  · intro r
    rw [Sys.step_reader]
    constructor
    · intro hcrash
      by_contra hfail
      have hstep := (s.readers r).step_mend (t := t) lt r s.session hfail
      have hnext := (hinv.step lt (a := .reader r) fun _ => trivial).no_crash r
      rw [Sys.step_reader, hsame, h.session, hstep] at hnext
      exact hnext hcrash
    · intro hfail
      have hholds := hinv.readers r
      rw [hsame] at hholds
      rw [hholds.step_failure lt hfail]

/-- The read of the only piece has failed, and the thread is about to copy its buffer. -/
theorem failed_reads_oneByte :
    (((run (Sys.step (.reference oneByte)) (oneByteStart.initBitfs oneByte)
      (answeredRead true ++ [.reader ()])).step (.reference oneByte) (.reader ())).readers
        ()).pc = .crashed := by
  have hpc : ((run (Sys.step (.reference oneByte)) (oneByteStart.initBitfs oneByte)
      (answeredRead true ++ [.reader ()])).readers ()).pc = .copy := by decide +kernel
  have hempty : (run (Sys.step (.reference oneByte)) (oneByteStart.initBitfs oneByte)
      (answeredRead true ++ [.reader ()])).session.piece_buffer_map
        ((run (Sys.step (.reference oneByte)) (oneByteStart.initBitfs oneByte)
          (answeredRead true ++ [.reader ()])).readers ()).frame.pr.piece = some [] := by
    decide +kernel
  have hdefined : ∀ r, ((run (Sys.step (.reference oneByte)) (oneByteStart.initBitfs oneByte)
      (answeredRead true ++ [.reader ()])).readers r).pc ≠ .crashed := by
    intro r
    rw [hpc]
    exact nofun
  exact ((failed_reads (.reference oneByte) oneByteStart_initial
    ⟨answeredRead true ++ [.reader ()], by simp, rfl⟩ hdefined).2.2 ()).mpr ⟨hpc, hempty⟩

end BitFS.Read
