import BitFS.Read.Priority

/-! # What is fetched and read on behalf of a call

`init_bitfs` turns the pieces from 10 on off, and `read` turns a piece on when a
call goes over it or over a neighbour. A buffer is requested only for a piece
that a call goes over and that has arrived.
-/

namespace BitFS.Read

open MachineInt Memory BitFS.Tree Transition

variable {t : Torrent} (lt : TorrentInfo t) {ι : Type}

/-- The loops of the call go over a byte of piece `p`. -/
def Frame.Needs (t : Torrent) (fr : Frame) (p : Int) : Prop :=
  ∃ q : Nat, p = q ∧ Overlaps t fr (fr.index t) (passLength t fr (fr.index t)) q

theorem Located.needs {fr0 fr : Frame} {k : Nat} (hloc : Located t fr (fr0.index t) k)
    (h : Reading t fr (fr0.index t)) (hcall : fr0.SameCall fr) : fr0.Needs t fr.pr.piece := by
  have hlength := h.wanted_toNat hcall
  exact ⟨pieceAt t fr (fr0.index t) k, hloc.piece, k, hlength ▸ hloc.more,
    pieceAt_congr hcall.offset.symm k⟩

/-! ## The calls of one step -/

/-- A call of `piece_priority` in the round of piece `q`. -/
def Marks (q p prio : Int) : Prop :=
  (p = q ∧ prio = 7) ∨ (p = q - 1 ∧ prio = 1) ∨ (p = q + 1 ∧ prio = 7)

theorem Marks.near {q p prio : Int} (h : Marks q p prio) :
    q - 1 ≤ p ∧ p ≤ q + 1 ∧ (prio = 1 ∨ prio = 7) := by
  unfold Marks at h
  omega

/-- What a step on behalf of a call that needs `needs` does to the session. -/
inductive Session.Serves (needs : Int → Prop) (sh : Session ι) : Session ι → Prop
  | keep : Serves needs sh sh
  | havePiece {p : Int} (hp : needs p) : Serves needs sh (sh.havePiece p)
  | piecePriority {q p prio : Int} (hq : needs q) (hmark : Marks q p prio) :
      Serves needs sh (sh.piecePriority p prio)
  | readPiece {p : Int} (hp : needs p) (hhave : p ∈ sh.downloaded) :
      Serves needs sh (sh.readPiece p)
  | getPieceBuffers : Serves needs sh sh.getPieceBuffers
  | mutex (m : Option ι) : Serves needs sh { sh with fsmtx := m }

/-- The pieces a thread has noted are needed, and the one whose buffer it looks for has
arrived. -/
def Noted (needs : Int → Prop) (sh : Session ι) (fr : Frame) : Pc → Prop
  | .entry | .done _ | .crashed => True
  | .sweep todo => ∀ p ∈ todo, needs p
  | .sweepRead p todo => p ∈ sh.downloaded ∧ ∀ q ∈ p :: todo, needs q
  | .copyHead | .waitTest | .waitHave | .waitPop | .unlock => True
  | .bufTest | .bufRequest | .bufPop | .bufFind | .copy => fr.pr.piece ∈ sh.downloaded
  | _ => ∀ p ∈ fr.required_pieces, needs p

theorem Noted.grow {needs : Int → Prop} {sh sh' : Session ι} {fr : Frame} {pc : Pc}
    (h : Noted needs sh fr pc) (hsub : sh.downloaded ⊆ sh'.downloaded) :
    Noted needs sh' fr pc := by
  cases pc with
  | sweepRead p todo => exact ⟨hsub h.1, h.2⟩
  | bufTest | bufRequest | bufPop | bufFind | copy => exact hsub h
  | _ => exact h

section Step

variable {fr0 fr : Frame} {sh : Session ι} {me : ι} {genuine : Prop}

theorem orCrash_noted {needs : Int → Prop} {fr : Frame} {next : Option Frame} {pc : Pc}
    (h : ∀ fr', next = some fr' → Noted needs sh fr' pc) :
    Noted needs sh (Reader.orCrash fr next pc).frame (Reader.orCrash fr next pc).pc := by
  cases next with
  | none => trivial
  | some fr' => exact h fr' rfl

theorem skipPiece_required {fr fr' : Frame} (h : fr.skipPiece = some fr') :
    fr'.required_pieces = fr.required_pieces := by
  unfold Frame.skipPiece Frame.advance at h
  simp only [Option.bind_eq_bind, Option.bind_eq_some_iff, Option.pure_def] at h
  obtain ⟨n, -, curr, -, rem, -, hfr⟩ := h
  cases hfr
  rfl

theorem restart_required {fr fr' : Frame} (h : fr.restart = some fr') :
    fr'.required_pieces = fr.required_pieces := by
  unfold Frame.restart at h
  simp only [Option.bind_eq_bind, Option.bind_eq_some_iff, Option.pure_def] at h
  obtain ⟨n, -, hfr⟩ := h
  cases hfr
  rfl

/-- The first loop. -/
theorem Reader.mark_serves {pc : Pc} (hpc : pc ∈ [Pc.entry, .prioHead, .prioSelf, .prioPrev,
      .prioNext, .prioAdvance])
    (h : Reader.Holds t genuine fr0 (fr0.index t) sh me ⟨fr, pc⟩)
    (hn : Noted (fr0.Needs t) sh fr pc) :
    sh.Serves (fr0.Needs t) (step lt me sh ⟨fr, pc⟩).1 ∧
      Noted (fr0.Needs t) sh (step lt me sh ⟨fr, pc⟩).2.frame (step lt me sh ⟨fr, pc⟩).2.pc := by
  have hcall : fr0.SameCall fr := h.call
  cases pc with
  | entry =>
      rw [Reader.step]
      split
      · exact ⟨.keep, trivial⟩
      · refine ⟨.keep, orCrash_noted fun fr' hfr p hp => ?_⟩
        rw [restart_required hfr] at hp
        exact absurd hp (Finset.notMem_empty p)
  | prioHead =>
      obtain ⟨k, hm, hat⟩ := h.facts
      rw [Reader.step]
      split
      · rename_i hmore
        have hloc := hat.mapFile lt hm.reading hmore
        have hread : Reading t (fr.mapFile lt) (fr0.index t) := { hm.reading with }
        have hneed : fr0.Needs t (fr.mapFile lt).pr.piece := hloc.needs hread { hcall with }
        dsimp only
        split
        · exact ⟨.havePiece hneed, hn⟩
        · refine ⟨.havePiece hneed, fun p hp => ?_⟩
          rcases Finset.mem_insert.mp hp with rfl | hp
          · exact hneed
          · exact hn p hp
      · exact ⟨.keep, hn⟩
  | prioSelf =>
      obtain ⟨k, hm, hloc⟩ := h.facts
      exact ⟨.piecePriority (hloc.needs hm.reading hcall) (Or.inl ⟨rfl, rfl⟩), hn⟩
  | prioPrev =>
      obtain ⟨k, hm, hloc, -⟩ := h.facts
      rw [Reader.step]
      split
      · exact ⟨.piecePriority (hloc.needs hm.reading hcall) (Or.inr (Or.inl ⟨rfl, rfl⟩)), hn⟩
      · exact ⟨.keep, hn⟩
  | prioNext =>
      obtain ⟨k, hm, hloc, -⟩ := h.facts
      rw [Reader.step]
      split
      · exact ⟨.piecePriority (hloc.needs hm.reading hcall) (Or.inr (Or.inr ⟨rfl, rfl⟩)), hn⟩
      · exact ⟨.keep, hn⟩
  | prioAdvance =>
      refine ⟨.keep, orCrash_noted fun fr' hfr p hp => ?_⟩
      rw [skipPiece_required hfr] at hp
      exact hn p hp
  | _ => simp at hpc

/-- The critical section. -/
theorem Reader.inside_serves {pc : Pc} (hpc : pc.Past)
    (h : Reader.Holds t genuine fr0 (fr0.index t) sh me ⟨fr, pc⟩)
    (hn : Noted (fr0.Needs t) sh fr pc) :
    sh.Serves (fr0.Needs t) (step lt me sh ⟨fr, pc⟩).1 ∧
      Noted (fr0.Needs t) sh (step lt me sh ⟨fr, pc⟩).2.frame (step lt me sh ⟨fr, pc⟩).2.pc := by
  have hcall : fr0.SameCall fr := h.call
  cases pc with
  | lock =>
      rw [Reader.step]
      split
      · exact ⟨.mutex _, fun p hp => hn p ((Finset.mem_sort _).mp hp)⟩
      · exact ⟨.keep, hn⟩
  | sweep todo =>
      cases todo with
      | nil =>
          rw [Reader.step]
          exact ⟨.keep, orCrash_noted fun _ _ => trivial⟩
      | cons p todo =>
          have hp := hn p List.mem_cons_self
          rw [Reader.step]
          split
          · rename_i hhave
            exact ⟨.havePiece hp, hhave, hn⟩
          · exact ⟨.havePiece hp, fun q hq => hn q (List.mem_cons_of_mem _ hq)⟩
  | sweepRead p todo =>
      exact ⟨.readPiece (hn.2 p List.mem_cons_self) hn.1,
        fun q hq => hn.2 q (List.mem_cons_of_mem _ hq)⟩
  | copyHead =>
      rw [Reader.step]
      split <;> exact ⟨.keep, trivial⟩
  | waitTest | waitHave =>
      obtain ⟨k, hc, hloc⟩ := h.facts
      have hneed := hloc.needs hc.reading hcall
      rw [Reader.step]
      split
      · rename_i hhave
        exact ⟨.havePiece hneed, hhave⟩
      · exact ⟨.havePiece hneed, trivial⟩
  | waitPop => exact ⟨.getPieceBuffers, trivial⟩
  | bufTest | bufFind =>
      rw [Reader.step]
      split <;> exact ⟨.keep, hn⟩
  | bufRequest =>
      obtain ⟨k, hc, hloc⟩ := h.facts
      exact ⟨.readPiece (hloc.needs hc.reading hcall) hn, hn⟩
  | bufPop => exact ⟨.getPieceBuffers, hn⟩
  | copy =>
      rw [Reader.step]
      exact ⟨.keep, orCrash_noted fun _ _ => trivial⟩
  | unlock => exact ⟨.mutex none, trivial⟩
  | done | crashed => exact ⟨.keep, trivial⟩
  | _ => exact hpc.elim

end Step

/-! ## The history of a session -/

/-- The call was due: its piece is needed, a neighbour of one in its round, or one that is
needed and has arrived. -/
def LtCall.Due (needed : Int → Prop) (downloaded : Finset Int) : LtCall → Prop
  | .have_piece p => needed p
  | .piece_priority p prio => ∃ q, needed q ∧ Marks q p prio
  | .read_piece p => needed p ∧ p ∈ downloaded

theorem LtCall.Due.grow {needed : Int → Prop} {d d' : Finset Int} {c : LtCall}
    (h : c.Due needed d) (hsub : d ⊆ d') : c.Due needed d' := by
  cases c with
  | read_piece p => exact ⟨h.1, hsub h.2⟩
  | _ => exact h

/-- What has become of `sh0` is on account of needed pieces. -/
structure Session.Demanded (needed : Int → Prop) (sh sh0 : Session ι) : Prop where
  priority : ∀ p, sh.priority p = sh0.priority p ∨ ∃ q, needed q ∧ Marks q p (sh.priority p)
  calls : ∀ c ∈ sh.calls, c ∈ sh0.calls ∨ c.Due needed sh.downloaded
  inFlight : ∀ p, sh.InFlight p → sh0.InFlight p ∨ (needed p ∧ p ∈ sh.downloaded)

section History

variable {needed : Int → Prop} {sh0 sh sh' : Session ι}

theorem Session.Demanded.refl (sh0 : Session ι) : sh0.Demanded needed sh0 :=
  ⟨fun _ => Or.inl rfl, fun _ hc => Or.inl hc, fun _ hp => Or.inl hp⟩

theorem Session.inFlight_getPieceBuffers {p : Int} (h : sh.getPieceBuffers.InFlight p) :
    sh.InFlight p := by
  rcases h with h | h | ⟨failed, buffer, h⟩
  · obtain ⟨buffer, hbuf⟩ := Option.isSome_iff_exists.mp h
    rcases foldl_storeAlert_eq _ _ hbuf with hm | ⟨failed, ha⟩
    · exact Or.inl (by rw [hm]; rfl)
    · exact Or.inr (Or.inr ⟨failed, buffer, ha⟩)
  · exact Or.inr (Or.inl h)
  · exact absurd h List.not_mem_nil

theorem Session.inFlight_readPiece {p q : Int} (h : (sh.readPiece p).InFlight q) :
    sh.InFlight q ∨ q = p := by
  rcases h with h | h | h
  · exact Or.inl (Or.inl h)
  · rcases List.mem_append.mp h with h | h
    · exact Or.inl (Or.inr (Or.inl h))
    · exact Or.inr (List.mem_singleton.mp h)
  · exact Or.inl (Or.inr (Or.inr h))

/-- One more call that was due. -/
theorem Session.Demanded.called {c : LtCall} (h : sh.Demanded needed sh0)
    (hc : c.Due needed sh.downloaded) :
    ∀ c' ∈ c :: sh.calls, c' ∈ sh0.calls ∨ c'.Due needed sh.downloaded := by
  intro c' hmem
  rcases List.mem_cons.mp hmem with rfl | hmem
  · exact Or.inr hc
  · exact h.calls c' hmem

theorem Session.Demanded.serves {needs : Int → Prop} (h : sh.Demanded needed sh0)
    (hneeds : ∀ p, needs p → needed p) (hs : sh.Serves needs sh') : sh'.Demanded needed sh0 := by
  cases hs with
  | keep => exact h
  | havePiece hp => exact { h with calls := h.called (hneeds _ hp) }
  | @piecePriority q p prio hq hmark =>
      refine { h with calls := h.called ⟨q, hneeds q hq, hmark⟩, priority := fun p' => ?_ }
      by_cases hp : p' = p
      · subst hp
        refine Or.inr ⟨q, hneeds q hq, ?_⟩
        simpa [Session.piecePriority] using hmark
      · simpa [Session.piecePriority, Function.update_of_ne hp] using h.priority p'
  | @readPiece p hp hhave =>
      refine { h with calls := h.called ⟨hneeds p hp, hhave⟩, inFlight := fun q hq => ?_ }
      rcases Session.inFlight_readPiece hq with hq | rfl
      · exact h.inFlight q hq
      · exact Or.inr ⟨hneeds q hp, hhave⟩
  | getPieceBuffers =>
      exact { h with inFlight := fun p hp => h.inFlight p (Session.inFlight_getPieceBuffers hp) }
  | mutex m => exact { h with }

theorem Session.Demanded.arrived (h : sh.Demanded needed sh0) (p : Int) :
    Session.Demanded needed { sh with downloaded := insert p sh.downloaded } sh0 := by
  have hsub : sh.downloaded ⊆ insert p sh.downloaded := Finset.subset_insert p _
  refine { h with calls := fun c hc => ?_, inFlight := fun q hq => ?_ }
  · exact (h.calls c hc).imp_right fun hdue => hdue.grow hsub
  · exact (h.inFlight q hq).imp_right fun hin => ⟨hin.1, hsub hin.2⟩

theorem Session.Demanded.answered (h : sh.Demanded needed sh0) {k : Nat} {p : Int}
    (hk : sh.requests[k]? = some p) (failed : Bool) :
    Session.Demanded needed { sh with
      requests := sh.requests.eraseIdx k
      alerts := sh.alerts ++ [Sys.answerAlert t p failed] } sh0 := by
  refine { h with inFlight := fun q hq => h.inFlight q ?_ }
  rcases hq with hq | hq | ⟨fl, buffer, hq⟩
  · exact Or.inl hq
  · exact Or.inr (Or.inl (List.mem_of_mem_eraseIdx hq))
  · rcases List.mem_append.mp hq with hq | hq
    · exact Or.inr (Or.inr ⟨fl, buffer, hq⟩)
    · obtain ⟨rfl, -, -⟩ := Alert.read_piece_alert.inj (List.mem_singleton.mp hq)
      exact Or.inr (Or.inl (List.mem_of_getElem? hk))

theorem Session.Demanded.posted (h : sh.Demanded needed sh0) :
    Session.Demanded needed { sh with alerts := sh.alerts ++ [.other] } sh0 := by
  refine { h with inFlight := fun q hq => h.inFlight q ?_ }
  rcases hq with hq | hq | ⟨fl, buffer, hq⟩
  · exact Or.inl hq
  · exact Or.inr (Or.inl hq)
  · rcases List.mem_append.mp hq with hq | hq
    · exact Or.inr (Or.inr ⟨fl, buffer, hq⟩)
    · cases List.mem_singleton.mp hq

end History

/-! ## Every run -/

variable [DecidableEq ι]

/-- The invariant of a system whose threads work on `calls` since the session was `sh0`. -/
structure Sys.OnDemand (t : Torrent) (calls : ι → Frame) (sh0 : Session ι) (s : Sys ι) :
    Prop where
  inv : Sys.Inv t False calls s
  noted : ∀ r, Noted ((calls r).Needs t) s.session (s.readers r).frame (s.readers r).pc
  demanded : s.session.Demanded (fun p => ∃ r, (calls r).Needs t p) sh0

omit [DecidableEq ι] in
theorem Reader.step_serves {fr0 : Frame} {sh : Session ι} {me : ι} {genuine : Prop} {rd : Reader}
    (h : Reader.Holds t genuine fr0 (fr0.index t) sh me rd)
    (hn : Noted (fr0.Needs t) sh rd.frame rd.pc) :
    sh.Serves (fr0.Needs t) (rd.step lt me sh).1 ∧
      Noted (fr0.Needs t) sh (rd.step lt me sh).2.frame (rd.step lt me sh).2.pc := by
  obtain ⟨fr, pc⟩ := rd
  cases pc with
  | entry | prioHead | prioSelf | prioPrev | prioNext | prioAdvance =>
      exact mark_serves lt (by simp) h hn
  | _ => exact inside_serves lt trivial h hn

theorem Sys.OnDemand.step {calls : ι → Frame} {sh0 : Session ι} {s : Sys ι}
    (h : s.OnDemand t calls sh0) (a : Action ι) : (s.step lt a).OnDemand t calls sh0 := by
  have hinv := h.inv.step lt (a := a) False.elim
  obtain ⟨who, hchange, -⟩ := h.inv.change lt (a := a) False.elim
  have hsub := hchange.downloaded
  refine ⟨hinv, fun r => ?_, ?_⟩
  · by_cases hr : a = .reader r
    · subst hr
      have hnext := (Reader.step_serves lt (h.inv.readers r) (h.noted r)).2.grow hsub
      simpa [Sys.step] using hnext
    · rw [s.step_readers lt hr]
      exact (h.noted r).grow hsub
  · cases a with
    | reader r =>
        exact h.demanded.serves (fun p hp => ⟨r, hp⟩)
          (Reader.step_serves lt (h.inv.readers r) (h.noted r)).1
    | complete p =>
        rw [Sys.step]
        split
        · exact h.demanded.arrived p
        · exact h.demanded
    | answer k failed =>
        rw [Sys.step]
        split
        · exact h.demanded
        · rename_i p hp
          exact h.demanded.answered hp failed
    | post => exact h.demanded.posted

theorem Sys.OnDemand.reaches {calls : ι → Frame} {sh0 : Session ι} {s s' : Sys ι}
    (h : s.OnDemand t calls sh0) (hs : Reaches (Sys.step lt) (fun _ => True) s s') :
    s'.OnDemand t calls sh0 :=
  hs.invariant (I := fun x => Sys.OnDemand t calls sh0 x) _ (fun _ a h _ => h.step lt a) h

omit [DecidableEq ι] in
theorem Sys.Initial.onDemand {s0 : Sys ι} (h0 : s0.Initial t) :
    s0.OnDemand t (fun r => (s0.readers r).frame) s0.session where
  inv := h0.inv False
  noted r := by
    rw [h0.entry r]
    trivial
  demanded := .refl _

omit [DecidableEq ι] in
/-- The loop of `init_bitfs` touches nothing but priorities and the history of calls. -/
theorem Session.initPriorities_spec (sh : Session ι) (n : Nat) :
    (∀ p : Int, (sh.initPriorities n).priority p =
      if 10 ≤ p ∧ p < n then 0 else sh.priority p) ∧
    ∀ p, (sh.initPriorities n).InFlight p ↔ sh.InFlight p := by
  have hloop : ∀ (l : List Nat) (sh : Session ι),
      (∀ p : Int, (l.foldl (fun sh (i : Nat) => sh.piecePriority i 0) sh).priority p =
        if ∃ i ∈ l, p = (i : Int) then 0 else sh.priority p) ∧
      ∀ p, (l.foldl (fun sh (i : Nat) => sh.piecePriority i 0) sh).InFlight p ↔
        sh.InFlight p := by
    intro l
    induction l with
    | nil => exact fun sh => ⟨fun p => by simp, fun p => Iff.rfl⟩
    | cons i l ih =>
        intro sh
        obtain ⟨hprio, hfly⟩ := ih (sh.piecePriority i 0)
        refine ⟨fun p => ?_, fun p => hfly p⟩
        have hlater := hprio p
        rw [List.foldl_cons, hlater]
        by_cases hl : ∃ j ∈ l, p = (j : Int)
        · obtain ⟨j, hj, hp⟩ := hl
          rw [if_pos ⟨j, hj, hp⟩, if_pos ⟨j, List.mem_cons_of_mem i hj, hp⟩]
        · rw [if_neg hl]
          by_cases hi : p = (i : Int)
          · rw [if_pos ⟨i, List.mem_cons_self, hi⟩]
            simp [Session.piecePriority, hi]
          · rw [if_neg]
            · simp [Session.piecePriority, Function.update_of_ne hi]
            · rintro ⟨j, hj, hp⟩
              rcases List.mem_cons.mp hj with rfl | hj
              · exact hi hp
              · exact hl ⟨j, hj, hp⟩
  obtain ⟨hprio, hfly⟩ := hloop (List.range' 10 (n - 10)) sh
  refine ⟨fun p => ?_, hfly⟩
  unfold Session.initPriorities
  rw [hprio p]
  have hrange : (∃ i ∈ List.range' 10 (n - 10), p = (i : Int)) ↔ 10 ≤ p ∧ p < n := by
    constructor
    · rintro ⟨i, hi, rfl⟩
      rw [List.mem_range'_1] at hi
      omega
    · intro hp
      refine ⟨p.toNat, ?_, by omega⟩
      rw [List.mem_range'_1]
      omega
  simp only [hrange]

/-- After `init_bitfs` a piece has its first priority, which is 0 from piece 10 on, until a
call goes over it or one of its neighbours. -/
theorem fetched_on_demand {s0 s : Sys ι} (h0 : s0.Initial t)
    (hs : Reaches (Sys.step lt) (fun _ => True) (s0.initBitfs t) s) (p : Int) :
    s.session.priority p = (if 10 ≤ p ∧ p < t.numPieces then 0 else s0.session.priority p) ∨
      ∃ r q, (s0.readers r).frame.Needs t q ∧ q - 1 ≤ p ∧ p ≤ q + 1 ∧
        (s.session.priority p = 1 ∨ s.session.priority p = 7) := by
  have hdem := (h0.initBitfs.onDemand.reaches lt hs).demanded
  rcases hdem.priority p with heq | ⟨q, ⟨r, hq⟩, hmark⟩
  · left
    rw [heq]
    exact (s0.session.initPriorities_spec t.numPieces).1 p
  · exact Or.inr ⟨r, q, hq, hmark.near⟩

theorem fetched_on_demand_oneByte :
    (run (Sys.step (.reference oneByte)) (oneByteStart.initBitfs oneByte)
        (List.replicate 5 (.reader ()))).session.priority 0 = 4 ∨
      ∃ r q, (oneByteStart.readers r).frame.Needs oneByte q ∧ q - 1 ≤ 0 ∧ 0 ≤ q + 1 ∧
        ((run (Sys.step (.reference oneByte)) (oneByteStart.initBitfs oneByte)
            (List.replicate 5 (.reader ()))).session.priority 0 = 1 ∨
          (run (Sys.step (.reference oneByte)) (oneByteStart.initBitfs oneByte)
            (List.replicate 5 (.reader ()))).session.priority 0 = 7) :=
  fetched_on_demand (.reference oneByte) oneByteStart_initial ⟨_, by simp, rfl⟩ 0

/-- Every call with a piece index is for a piece that a call of `read` goes over, or one next
to it for `piece_priority`; a buffer is only requested once the piece has arrived, and
nothing else gets into the cache. -/
theorem read_on_demand {s0 s : Sys ι} (h0 : s0.Initial t)
    (hs : Reaches (Sys.step lt) (fun _ => True) (s0.initBitfs t) s) :
    (∀ c ∈ s.session.calls, c ∈ (s0.initBitfs t).session.calls ∨
      c.Due (fun p => ∃ r, (s0.readers r).frame.Needs t p) s.session.downloaded) ∧
    ∀ p, s.session.InFlight p → s0.session.InFlight p ∨
      ((∃ r, (s0.readers r).frame.Needs t p) ∧ p ∈ s.session.downloaded) := by
  have hdem := (h0.initBitfs.onDemand.reaches lt hs).demanded
  refine ⟨hdem.calls, fun p hp => ?_⟩
  exact (hdem.inFlight p hp).imp_left
    ((s0.session.initPriorities_spec t.numPieces).2 p).mp

theorem read_on_demand_oneByte :
    (oneByteStart.readers ()).frame.Needs oneByte 0 := by
  have hfly : (run (Sys.step (.reference oneByte)) (oneByteStart.initBitfs oneByte)
      (answeredRead false)).session.piece_buffer_map 0 = some [7] := by decide +kernel
  have hin := (read_on_demand (.reference oneByte) oneByteStart_initial
    (s := run (Sys.step (.reference oneByte)) (oneByteStart.initBitfs oneByte)
      (answeredRead false)) ⟨_, by simp, rfl⟩).2 0 (Or.inl (by rw [hfly]; rfl))
  rcases hin with hin | ⟨⟨r, hr⟩, -⟩
  · rcases hin with hin | hin | ⟨fl, b, hin⟩
    · cases hin
    · cases hin
    · cases hin
  · exact hr

end BitFS.Read
