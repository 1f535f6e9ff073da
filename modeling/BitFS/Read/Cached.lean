import BitFS.Read.Demand
import BitFS.Read.Sequential

/-! # Reading what has been read before

A call leaves all the pieces it goes over in `piece_buffer_map`. Where they are
there from the start, `read` asks libtorrent for nothing, pops no alert and waits
for nobody but the owner of `fsmtx`, whatever the other threads do.
-/

namespace BitFS.Read

open MachineInt Memory BitFS.Tree Transition

variable {t : Torrent} (lt : TorrentInfo t) {ι : Type}

/-- All but `fsmtx` and the history of calls is as before. -/
structure Session.Untouched (sh sh' : Session ι) : Prop where
  downloaded : sh'.downloaded = sh.downloaded
  priority : sh'.priority = sh.priority
  requests : sh'.requests = sh.requests
  alerts : sh'.alerts = sh.alerts
  map : sh'.piece_buffer_map = sh.piece_buffer_map

theorem Session.Untouched.refl (sh : Session ι) : sh.Untouched sh := ⟨rfl, rfl, rfl, rfl, rfl⟩

/-- Every piece that the call needs has arrived and is in the map. -/
def Session.Serving (t : Torrent) (fr0 : Frame) (sh : Session ι) : Prop :=
  ∀ p, fr0.Needs t p → p ∈ sh.downloaded ∧ (sh.piece_buffer_map p).isSome

/-- Where a thread gets to that misses nothing. -/
def Pc.Fast (fr : Frame) : Pc → Prop
  | .entry | .copyHead | .waitTest | .bufTest | .copy | .unlock | .done _ => True
  | .prioHead | .prioAdvance | .lock => fr.required_pieces = ∅
  | .sweep todo => todo = []
  | _ => False

theorem orCrash_fast {fr : Frame} {next : Option Frame} {pc : Pc}
    (hsafe : (Reader.orCrash fr next pc).pc ≠ .crashed)
    (h : ∀ fr', next = some fr' → pc.Fast fr') :
    (Reader.orCrash fr next pc).pc.Fast (Reader.orCrash fr next pc).frame := by
  cases next with
  | none => exact absurd rfl hsafe
  | some fr' => exact h fr' rfl

section Step

variable {fr0 : Frame} {sh : Session ι} {me : ι} {rd : Reader}

/-- Such a thread stays such a thread and leaves the session alone. -/
theorem Reader.step_fast (h : Reader.Holds t True fr0 (fr0.index t) sh me rd)
    (hserving : sh.Serving t fr0) (hsafe : (rd.step lt me sh).2.pc ≠ .crashed)
    (hfast : rd.pc.Fast rd.frame) :
    sh.Untouched (rd.step lt me sh).1 ∧
      (rd.step lt me sh).2.pc.Fast (rd.step lt me sh).2.frame := by
  obtain ⟨fr, pc⟩ := rd
  have hcall : fr0.SameCall fr := h.call
  cases pc with
  | entry =>
      rw [Reader.step] at hsafe ⊢
      split
      · exact ⟨.refl sh, trivial⟩
      · rename_i hend
        rw [if_neg hend] at hsafe
        exact ⟨.refl sh, orCrash_fast hsafe fun fr' hfr => restart_required hfr⟩
  | prioHead =>
      obtain ⟨k, hm, hat⟩ := h.facts
      rw [Reader.step]
      split
      · rename_i hmore
        have hloc := hat.mapFile lt hm.reading hmore
        have hread : Reading t (fr.mapFile lt) (fr0.index t) := { hm.reading with }
        have hneed : fr0.Needs t (fr.mapFile lt).pr.piece := hloc.needs hread { hcall with }
        dsimp only
        rw [if_pos (hserving _ hneed).1]
        exact ⟨⟨rfl, rfl, rfl, rfl, rfl⟩, hfast⟩
      · exact ⟨.refl sh, hfast⟩
  | prioAdvance =>
      have hnone : fr.required_pieces = ∅ := hfast
      exact ⟨.refl sh, orCrash_fast hsafe fun fr' hfr => (skipPiece_required hfr).trans hnone⟩
  | lock =>
      have hnone : fr.required_pieces = ∅ := hfast
      rw [Reader.step]
      split
      · refine ⟨⟨rfl, rfl, rfl, rfl, rfl⟩, ?_⟩
        rw [hnone]
        exact Finset.sort_empty _
      · exact ⟨.refl sh, hfast⟩
  | sweep todo =>
      obtain rfl : todo = [] := hfast
      exact ⟨.refl sh, orCrash_fast hsafe fun _ _ => trivial⟩
  | copyHead =>
      rw [Reader.step]
      split <;> exact ⟨.refl sh, trivial⟩
  | waitTest =>
      obtain ⟨k, hc, hloc⟩ := h.facts
      have hneed : fr0.Needs t fr.pr.piece := hloc.needs hc.reading hcall
      rw [Reader.step, if_pos (hserving _ hneed).1]
      exact ⟨⟨rfl, rfl, rfl, rfl, rfl⟩, trivial⟩
  | bufTest =>
      obtain ⟨k, hc, hloc⟩ := h.facts
      have hneed : fr0.Needs t fr.pr.piece := hloc.needs hc.reading hcall
      rw [Reader.step, if_pos (hserving _ hneed).2]
      exact ⟨.refl sh, trivial⟩
  | copy => exact ⟨.refl sh, orCrash_fast hsafe fun _ _ => trivial⟩
  | unlock => exact ⟨⟨rfl, rfl, rfl, rfl, rfl⟩, trivial⟩
  | done ret => exact ⟨.refl sh, trivial⟩
  | _ => exact hfast.elim

/-- The thread has something to do: it is not done and `fsmtx` is not in its way. -/
def Reader.free (sh : Session ι) (rd : Reader) : Bool :=
  match rd.pc with
  | .lock => sh.fsmtx.isNone
  | .done _ => false
  | _ => true

/-- Only `fsmtx` makes it wait. -/
theorem Reader.rank_fast (ho : fr0.Opened t (fr0.index t))
    (h : Reader.Holds t True fr0 (fr0.index t) sh me rd)
    (hserving : sh.Serving t fr0) (hsafe : (rd.step lt me sh).2.pc ≠ .crashed)
    (hfast : rd.pc.Fast rd.frame) :
    (rd.step lt me sh).2.rank + (rd.free sh).toNat ≤ rd.rank := by
  have hsame := (step_fast lt h hserving hsafe hfast).1
  have hpending : (rd.step lt me sh).1.pending = sh.pending := by
    unfold Session.pending
    rw [hsame.requests, hsame.alerts]
  rcases step_descends lt ho h with hdown | ⟨hpolls, hle⟩
  · have hone : (rd.free sh).toNat ≤ 1 := Bool.toNat_le _
    omega
  · have hstuck : rd.free sh = false := by
      cases hpc : rd.pc with
      | lock =>
          simp only [Polls, hpc] at hpolls
          simpa [free, hpc] using Option.ne_none_iff_isSome.mp hpolls
      | done ret => simp [free, hpc]
      | waitHave | waitPop | bufPop | bufFind =>
          rw [hpc] at hfast
          exact hfast.elim
      | _ => simp [Polls, hpc] at hpolls
    rw [hstuck]
    simp only [Bool.toNat_false]
    omega

end Step

/-! ## Every run -/

variable [DecidableEq ι]

/-- A step of thread `r` that does not find `fsmtx` taken. -/
def Sys.turn (r : ι) (s : Sys ι) : Action ι → Bool
  | .reader r' => r' = r && (s.readers r).free s.session
  | _ => false

/-- The invariant of a thread that misses nothing. -/
structure Sys.Fast (t : Torrent) (calls : ι → Frame) (r : ι) (s : Sys ι) : Prop where
  inv : Sys.Inv t True calls s
  serving : s.session.Serving t (calls r)
  fast : (s.readers r).pc.Fast (s.readers r).frame

section Run

variable {calls : ι → Frame} {r : ι} {s : Sys ι}

theorem Sys.Fast.safe (h : s.Fast t calls r) :
    ((s.readers r).step lt r s.session).2.pc ≠ .crashed := by
  have hnext := (h.inv.step lt (a := .reader r) fun _ => trivial).no_crash r
  simpa [Sys.step] using hnext

theorem Sys.Fast.step (h : s.Fast t calls r) {a : Action ι} (ha : a.Succeeds) :
    (s.step lt a).Fast t calls r := by
  obtain ⟨who, hchange, -⟩ := h.inv.change lt (a := a) fun _ => ha
  refine ⟨h.inv.step lt fun _ => ha, fun p hp => ?_, ?_⟩
  · exact ⟨hchange.downloaded (h.serving p hp).1, hchange.grows.cached p (h.serving p hp).2⟩
  · by_cases hr : a = .reader r
    · subst hr
      have hnext := (Reader.step_fast lt (h.inv.readers r) h.serving (h.safe lt) h.fast).2
      simpa [Sys.step] using hnext
    · rw [s.step_readers lt hr]
      exact h.fast

theorem Sys.Fast.rank (h : s.Fast t calls r) (a : Action ι) :
    ((s.step lt a).readers r).rank + (s.turn r a).toNat ≤ (s.readers r).rank := by
  by_cases hr : a = .reader r
  · subst hr
    have hdown := Reader.rank_fast lt (h.inv.called r).opened_index (h.inv.readers r) h.serving
      (h.safe lt) h.fast
    simpa [Sys.step, Sys.turn] using hdown
  · have hturn : s.turn r a = false := by
      cases a with
      | reader r' =>
          have hne : r' ≠ r := fun he => hr (by rw [he])
          simp [Sys.turn, hne]
      | _ => rfl
    rw [s.step_readers lt hr, hturn]
    exact le_rfl

end Run

/-- Such a thread changes nothing in the session but `fsmtx` and the history of calls, and it
takes a bounded number of steps. -/
theorem Sys.Fast.run {calls : ι → Frame} {r : ι} {s : Sys ι} (h : s.Fast t calls r) :
    (∀ s', Reaches (Sys.step lt) Action.Succeeds s s' →
      s'.session.Untouched (s'.step lt (.reader r)).session) ∧
    ∀ acts : List (Action ι), (∀ a ∈ acts, a.Succeeds) →
      count (Sys.step lt) (Sys.turn r) s acts ≤ (s.readers r).rank := by
  constructor
  · intro s' hs
    have hfast : s'.Fast t calls r :=
      hs.invariant (I := Sys.Fast t calls r) _ (fun x a hx ha => hx.step lt ha) h
    exact (Reader.step_fast lt (hfast.inv.readers r) hfast.serving (hfast.safe lt) hfast.fast).1
  · intro acts hacts
    have hle := count_le_rank (Sys.step lt) (Sys.turn r) (fun x : Sys ι => (x.readers r).rank)
      (fun x a hx ha => hx.step lt ha) (fun x a hx _ => hx.rank lt a) h hacts
    omega

/-! ## What a call leaves behind -/

section Served

omit [DecidableEq ι]

/-- The pieces of the first `n` bytes have arrived and are in the map. -/
def Session.ServedTo (t : Torrent) (fr : Frame) (i : Nat) (n : Int) (sh : Session ι) : Prop :=
  ∀ j : Nat, (j : Int) < n → ((pieceAt t fr i j : Nat) : Int) ∈ sh.downloaded ∧
    (sh.piece_buffer_map (pieceAt t fr i j)).isSome

/-- What the second loop has gone over stays in the map. -/
def Served (t : Torrent) (fr0 : Frame) (sh : Session ι) (fr : Frame) : Pc → Prop
  | .copyHead | .waitTest | .waitHave | .waitPop | .bufTest | .bufRequest | .bufPop | .bufFind
  | .copy => sh.ServedTo t fr (fr0.index t) fr.read_ptr
  | .unlock | .done _ => sh.Serving t fr0
  | _ => True

variable {fr0 fr : Frame} {sh sh' : Session ι} {me : ι} {genuine : Prop}

theorem Served.grow {pc : Pc} (h : Served t fr0 sh fr pc) (hsub : sh.downloaded ⊆ sh'.downloaded)
    (hg : sh.Grows sh') : Served t fr0 sh' fr pc := by
  cases pc with
  | copyHead | waitTest | waitHave | waitPop | bufTest | bufRequest | bufPop | bufFind | copy =>
      exact fun j hj => ⟨hsub (h j hj).1, hg.cached _ (h j hj).2⟩
  | unlock | done => exact fun p hp => ⟨hsub (h p hp).1, hg.cached p (h p hp).2⟩
  | _ => trivial

/-- All of the request has been gone over. -/
theorem Session.ServedTo.serving (h : sh.ServedTo t fr (fr0.index t) fr.wanted.toNat)
    (hread : Reading t fr (fr0.index t)) (hcall : fr0.SameCall fr) : sh.Serving t fr0 := by
  rintro p ⟨q, rfl, j, hj, rfl⟩
  have hlength : fr.wanted.toNat = passLength t fr0 (fr0.index t) := by
    unfold Frame.wanted passLength
    rw [hread.total, hcall.size, hcall.offset]
  rw [← pieceAt_congr hcall.offset j]
  apply h
  omega

/-- A round of the second loop leaves its piece behind. -/
theorem Located.served {k : Nat} (hloc : Located t fr (fr0.index t) k)
    (hc : Copying t genuine fr0 sh fr (fr0.index t) k)
    (hto : sh.ServedTo t fr (fr0.index t) fr.read_ptr) (hhave : fr.pr.piece ∈ sh.downloaded)
    (hfound : (sh.piece_buffer_map fr.pr.piece).isSome) {src : List UInt8} {fr' : Frame}
    (hcopy : fr.copyPiece src = some fr') :
    sh.ServedTo t fr' (fr0.index t) fr'.read_ptr := by
  rw [hloc.copyPiece_eq hc.reading hc.read_ptr] at hcopy
  obtain ⟨temp, -, hcopy⟩ := Option.bind_eq_some_iff.mp hcopy
  obtain ⟨out, -, rfl⟩ := Option.map_eq_some_iff.mp hcopy
  intro j hj
  change (j : Int) < ((k + roundSize t fr (fr0.index t) k : Nat) : Int) at hj
  change ((pieceAt t fr (fr0.index t) j : Nat) : Int) ∈ sh.downloaded ∧
    (sh.piece_buffer_map (pieceAt t fr (fr0.index t) j)).isSome
  have hptr := hc.read_ptr
  by_cases hjk : j < k
  · exact hto j (by omega)
  · have hin := hloc.pieceAt_eq hc.reading (j := j - k) (by omega)
    rw [show k + (j - k) = j by omega] at hin
    rw [hin, ← hloc.piece]
    exact ⟨hhave, hfound⟩

theorem orCrash_served {next : Option Frame} {pc : Pc}
    (h : ∀ fr', next = some fr' → Served t fr0 sh fr' pc) :
    Served t fr0 sh (Reader.orCrash fr next pc).frame (Reader.orCrash fr next pc).pc := by
  cases next with
  | none => trivial
  | some fr' => exact h fr' rfl

theorem Reader.step_served {rd : Reader} (ho : fr0.Opened t (fr0.index t))
    (h : Reader.Holds t genuine fr0 (fr0.index t) sh me rd)
    (hn : Noted (fr0.Needs t) sh rd.frame rd.pc) (hserved : Served t fr0 sh rd.frame rd.pc) :
    Served t fr0 sh (rd.step lt me sh).2.frame (rd.step lt me sh).2.pc := by
  obtain ⟨fr, pc⟩ := rd
  have hcall : fr0.SameCall fr := h.call
  cases pc with
  | entry =>
      rw [Reader.step]
      split
      · rename_i hend
        rintro p ⟨q, -, j, hj, -⟩
        have htotal : (fr.start lt).file_total_size = fileEnd t (fr0.index t) := by
          apply start_total lt ho.index_lt
          rw [hcall.filepath]
          exact ho.index
        have hoff := hcall.offset
        unfold passLength at hj
        omega
      · exact orCrash_served fun _ _ => trivial
  | prioHead =>
      rw [Reader.step]
      split
      · dsimp only
        split <;> trivial
      · trivial
  | prioSelf | prioPrev | prioNext => trivial
  | prioAdvance => exact orCrash_served fun _ _ => trivial
  | lock =>
      rw [Reader.step]
      split <;> trivial
  | sweep todo =>
      cases todo with
      | nil =>
          obtain ⟨hm, -⟩ := h.facts
          have hm' : Marking t fr0 sh fr (fr0.index t) fr.wanted.toNat := hm
          rw [Reader.step]
          refine orCrash_served fun fr' hfr j hj => ?_
          rw [hm'.reading.restart] at hfr
          cases hfr
          have hptr : (fr.passed 0).read_ptr = 0 := hm'.read_ptr
          omega
      | cons p todo =>
          rw [Reader.step]
          split <;> trivial
  | sweepRead p todo => trivial
  | copyHead =>
      obtain ⟨k, hc, hat⟩ := h.facts
      rw [Reader.step]
      split
      · exact hserved
      · rename_i hend
        have hptr : fr.read_ptr = fr.wanted.toNat := by
          rw [hat.wanted_eq hend]
          exact hc.read_ptr
        have hall : sh.ServedTo t fr (fr0.index t) fr.wanted.toNat := hptr ▸ hserved
        exact hall.serving hc.reading hcall
  | waitTest | waitHave | bufTest | bufFind =>
      rw [Reader.step]
      split <;> exact hserved
  | waitPop | bufRequest | bufPop => exact hserved
  | copy =>
      obtain ⟨k, hc, hloc, hfound⟩ := h.facts
      rw [Reader.step]
      refine orCrash_served fun fr' hfr => ?_
      obtain ⟨src, -, hcopy⟩ := Option.bind_eq_some_iff.mp hfr
      exact hloc.served hc hserved hn hfound hcopy
  | unlock => exact hserved
  | done ret => exact hserved
  | crashed => trivial

end Served

/-- The invariant of a system that keeps what it has read. -/
structure Sys.Keeping (t : Torrent) (calls : ι → Frame) (sh0 : Session ι) (s : Sys ι) :
    Prop where
  demand : s.OnDemand t calls sh0
  served : ∀ r, Served t (calls r) s.session (s.readers r).frame (s.readers r).pc

theorem Sys.Keeping.step {calls : ι → Frame} {sh0 : Session ι} {s : Sys ι}
    (h : s.Keeping t calls sh0) (a : Action ι) : (s.step lt a).Keeping t calls sh0 := by
  have hinv := h.demand.inv
  obtain ⟨who, hchange, -⟩ := hinv.change lt (a := a) False.elim
  refine ⟨h.demand.step lt a, fun r => ?_⟩
  by_cases hr : a = .reader r
  · subst hr
    have hnext := Reader.step_served lt (hinv.called r).opened_index (hinv.readers r)
      (h.demand.noted r) (h.served r)
    simpa [Sys.step] using hnext.grow hchange.downloaded hchange.grows
  · rw [s.step_readers lt hr]
    exact (h.served r).grow hchange.downloaded hchange.grows

theorem Sys.Initial.keeping {s0 s : Sys ι} (h0 : s0.Initial t)
    (hs : Reaches (Sys.step lt) (fun _ => True) s0 s) :
    s.Keeping t (fun r => (s0.readers r).frame) s0.session := by
  have hstart : s0.Keeping t (fun r => (s0.readers r).frame) s0.session := by
    refine ⟨h0.onDemand, fun r => ?_⟩
    rw [h0.entry r]
    trivial
  exact hs.invariant (I := fun x => Sys.Keeping t (fun r => (s0.readers r).frame) s0.session x)
    _ (fun _ a h _ => h.step lt a) hstart

/-- Once a call has returned, a call of any thread that goes over no other pieces changes
nothing in the session but `fsmtx` and the history of calls, and it returns within
`16 * size + 8` steps that do not find `fsmtx` taken, in every interleaving. -/
theorem reread_from_memory {s0 s : Sys ι} (h0 : s0.Initial t)
    (hs : Reaches (Sys.step lt) Action.Succeeds (s0.initBitfs t) s) {r0 r : ι} {ret : Int}
    (hdone : (s.readers r0).pc = .done ret) (hidle : s.Idle r) {fr : Frame} (hcall : fr.Call t)
    (hpart : ∀ p, fr.Needs t p → (s0.readers r0).frame.Needs t p) :
    (∀ s', Reaches (Sys.step lt) Action.Succeeds (s.call r fr) s' →
      s'.session.Untouched (s'.step lt (.reader r)).session) ∧
    ∀ acts : List (Action ι), (∀ a ∈ acts, a.Succeeds) →
      count (Sys.step lt) (Sys.turn r) (s.call r fr) acts ≤ 16 * fr.size + 8 := by
  obtain ⟨acts, hacts, hend⟩ := hs
  have hkeep := h0.initBitfs.keeping lt ⟨acts, fun _ _ => trivial, hend⟩
  have hserved := hkeep.served r0
  rw [hdone] at hserved
  have hinv := (h0.initBitfs.inv True).reaches lt ⟨acts, fun a ha _ => hacts a ha, hend⟩
  have hfast : (s.call r fr).Fast t
      (Function.update (fun r => ((s0.initBitfs t).readers r).frame) r fr) r := by
    refine ⟨hinv.call hidle hcall, ?_, ?_⟩
    · rw [Function.update_self]
      exact fun p hp => hserved p (hpart p hp)
    · simp [Sys.call, Pc.Fast]
  have hrank : ((s.call r fr).readers r).rank = 16 * fr.size + 8 := by
    simp [Sys.call, Reader.rank]
  have hrun := hfast.run lt
  rwa [hrank] at hrun

/-- The thread has returned. -/
def oneByteRead : Sys Unit :=
  run (Sys.step (.reference oneByte)) (oneByteStart.initBitfs oneByte)
    (answeredRead false ++ List.replicate 4 (.reader ()))

theorem reread_from_memory_oneByte :
    count (Sys.step (.reference oneByte)) (Sys.turn ())
      (oneByteRead.call () (oneByteStart.readers ()).frame)
      (List.replicate 30 (.reader ())) ≤ 24 := by
  have hdone : (oneByteRead.readers ()).pc = .done 1 := by decide +kernel
  exact (reread_from_memory (.reference oneByte) oneByteStart_initial
    ⟨_, by simp [answeredRead, Action.Succeeds], rfl⟩ hdone
    (Or.inr ⟨1, hdone⟩) (oneByteStart_initial.calls ()) (fun _ h => h)).2 _
      (by simp [Action.Succeeds])

end BitFS.Read
