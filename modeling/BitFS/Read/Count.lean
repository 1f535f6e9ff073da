import BitFS.Read.Priority
import BitFS.Read.Progress

/-! # How high `required_count` goes

The first loop counts the pieces of the request that it finds missing, in an `int` that
nothing has initialised. Every round goes on to a new piece, so the count rises by at most one
for each piece that was missing when the calls began, and by all of them if none arrives in
between. `read` returns the requested slice without an overflow exactly if that sum is an
`int`.
-/

namespace BitFS.Read

open MachineInt Memory BitFS.Tree Transition Threads

variable {t : Torrent} (lt : TorrentInfo t) {ι : Type}

/-! ## Missing pieces -/

/-- The pieces of the first `k` bytes of a call that are not downloaded. -/
def missing (t : Torrent) (downloaded : Finset Int) (fr : Frame) (i k : Nat) : Finset Nat :=
  ((Finset.range k).image (pieceAt t fr i)).filter fun p => (p : Int) ∉ downloaded

section Missing

variable {D : Finset Int} {fr : Frame} {i k k' p : Nat}

theorem mem_missing : p ∈ missing t D fr i k ↔ Overlaps t fr i k p ∧ (p : Int) ∉ D := by
  simp [missing, Overlaps]

theorem missing_mono (h : k ≤ k') : missing t D fr i k ⊆ missing t D fr i k' := by
  intro p hp
  obtain ⟨⟨j, hj, hpiece⟩, hmiss⟩ := mem_missing.mp hp
  exact mem_missing.mpr ⟨⟨j, by omega, hpiece⟩, hmiss⟩

/-- A piece that is there does not count. -/
theorem missing_succ_of_mem (h : (pieceAt t fr i k : Int) ∈ D) :
    missing t D fr i (k + 1) = missing t D fr i k := by
  ext p
  simp only [mem_missing, Overlaps, Nat.exists_lt_succ_right]
  constructor
  · rintro ⟨hin | rfl, hmiss⟩
    · exact ⟨hin, hmiss⟩
    · exact absurd h hmiss
  · exact fun hp => ⟨Or.inl hp.1, hp.2⟩

/-- A missing piece behind all others counts once. -/
theorem missing_succ_card (hnew : ∀ j < k, pieceAt t fr i j < pieceAt t fr i k)
    (h : (pieceAt t fr i k : Int) ∉ D) :
    (missing t D fr i (k + 1)).card = (missing t D fr i k).card + 1 := by
  have hnot : pieceAt t fr i k ∉ missing t D fr i k := by
    intro hin
    obtain ⟨⟨j, hj, hpiece⟩, -⟩ := mem_missing.mp hin
    have hlt := hnew j hj
    omega
  rw [← Finset.card_insert_of_notMem hnot]
  congr 1
  ext p
  simp only [Finset.mem_insert, mem_missing, Overlaps, Nat.exists_lt_succ_right]
  constructor
  · rintro ⟨hin | rfl, hmiss⟩
    · exact Or.inr ⟨hin, hmiss⟩
    · exact Or.inl rfl
  · rintro (rfl | ⟨hin, hmiss⟩)
    · exact ⟨Or.inr rfl, h⟩
    · exact ⟨Or.inl hin, hmiss⟩

/-- The rest of the bytes of a round adds nothing to the first. -/
theorem Located.missing_round (hloc : Located t fr i k) (h : Reading t fr i) :
    missing t D fr i (k + roundSize t fr i k) = missing t D fr i (k + 1) := by
  have hone := (hloc.roundSize_bounds h).1
  apply (missing_mono (by omega)).antisymm'
  intro p hp
  obtain ⟨⟨j, hj, rfl⟩, hmiss⟩ := mem_missing.mp hp
  by_cases hjk : j ≤ k
  · exact mem_missing.mpr ⟨⟨j, by omega, rfl⟩, hmiss⟩
  · have hin := hloc.pieceAt_eq h (j := j - k) (by omega)
    rw [show k + (j - k) = j by omega] at hin
    exact mem_missing.mpr ⟨⟨k, by omega, hin.symm⟩, hmiss⟩

theorem missing_congr {fr' : Frame} (h : fr'.offset = fr.offset) :
    missing t D fr' i k = missing t D fr i k := by
  ext p
  simp only [mem_missing, Overlaps, pieceAt_congr h]

end Missing

/-! ## What a thread has counted -/

/-- Of the pieces of the first `k` bytes that were missing from `downloaded` the thread has counted
some, and all if no piece has arrived since. -/
structure Counts (t : Torrent) (downloaded : Finset Int) (fr0 : Frame) (i : Nat)
    (sh : Session ι) (fr : Frame) (k : Nat) : Prop where
  ge : fr0.required_count ≤ fr.required_count
  le : fr.required_count ≤ fr0.required_count + (missing t downloaded fr0 i k).card
  all : sh.downloaded = downloaded →
    fr.required_count = fr0.required_count + (missing t downloaded fr0 i k).card

/-- Byte `k` begins a piece. -/
def Begins (t : Torrent) (fr : Frame) (i k : Nat) : Prop :=
  k < passLength t fr i → ∀ j < k, pieceAt t fr i j < pieceAt t fr i k

/-- What a thread has counted at each control point. -/
def Tallied (t : Torrent) (downloaded : Finset Int) (fr0 : Frame) (i : Nat) (sh : Session ι)
    (fr : Frame) : Pc → Prop
  | .entry => fr.required_count = fr0.required_count
  | .prioHead => ∀ k, At fr k → Counts t downloaded fr0 i sh fr k ∧ Begins t fr0 i k
  | .prioSelf | .prioPrev | .prioNext | .prioAdvance =>
      ∀ k, At fr k → Counts t downloaded fr0 i sh fr (k + 1) ∧ Begins t fr0 i k
  | _ => Counts t downloaded fr0 i sh fr (passLength t fr0 i)

section Step

variable {D : Finset Int} {fr0 fr : Frame} {i k : Nat} {sh sh' : Session ι} {me : ι}
  {genuine : Prop}

theorem At.unique {k' : Nat} (h : At fr k) (h' : At fr k') : k = k' := by
  have hrem := h.rem
  have hrem' := h'.rem
  omega

/-- Pieces that arrive are counted no more. -/
theorem Counts.arrive (h : Counts t D fr0 i sh fr k) (hD : D ⊆ sh.downloaded)
    (hgrow : sh.downloaded ⊆ sh'.downloaded) : Counts t D fr0 i sh' fr k :=
  ⟨h.ge, h.le, fun hsame => h.all ((hsame ▸ hgrow).antisymm hD)⟩

theorem Tallied.arrive {pc : Pc} (h : Tallied t D fr0 i sh fr pc) (hD : D ⊆ sh.downloaded)
    (hgrow : sh.downloaded ⊆ sh'.downloaded) : Tallied t D fr0 i sh' fr pc := by
  cases pc with
  | entry => exact h
  | prioHead | prioSelf | prioPrev | prioNext | prioAdvance =>
      exact fun k hat => ⟨(h k hat).1.arrive hD hgrow, (h k hat).2⟩
  | _ => exact Counts.arrive h hD hgrow

theorem copyPiece_required_count {src : List UInt8} {fr' : Frame}
    (h : fr.copyPiece src = some fr') : fr'.required_count = fr.required_count := by
  simp only [Frame.copyPiece, Frame.advance, Option.bind_eq_bind, Option.bind_eq_some_iff,
    Option.pure_def, Option.some.injEq] at h
  obtain ⟨temp, -, n, -, out, -, fr1, ⟨curr, -, rem, -, rfl⟩, ptr, -, rfl⟩ := h
  rfl

theorem restart_required_count {fr' : Frame} (h : fr.restart = some fr') :
    fr'.required_count = fr.required_count := by
  simp only [Frame.restart, Option.bind_eq_bind, Option.bind_eq_some_iff, Option.pure_def,
    Option.some.injEq] at h
  obtain ⟨n, -, rfl⟩ := h
  rfl

theorem orCrash_required_count {next : Option Frame} {pc : Pc}
    (h : ∀ fr', next = some fr' → fr'.required_count = fr.required_count) :
    (Reader.orCrash fr next pc).frame.required_count = fr.required_count := by
  cases next with
  | none => rfl
  | some fr' => exact h fr' rfl

/-- Behind the first loop nothing is counted. -/
theorem Reader.step_past (me : ι) (sh : Session ι) {rd : Reader} (h : rd.pc.Past) :
    (rd.step lt me sh).2.pc.Past ∧
      (rd.step lt me sh).2.frame.required_count = rd.frame.required_count := by
  refine ⟨(alone_past lt me (x := (sh, rd)) h).1, ?_⟩
  obtain ⟨fr, pc⟩ := rd
  cases pc with
  | entry | prioHead | prioSelf | prioPrev | prioNext | prioAdvance => exact h.elim
  | lock | copyHead =>
      rw [Reader.step]
      split <;> rfl
  | sweep todo =>
      cases todo with
      | nil => exact orCrash_required_count fun _ => restart_required_count
      | cons p todo => rfl
  | copy =>
      apply orCrash_required_count
      intro fr' hfr
      obtain ⟨src, -, hcopy⟩ := Option.bind_eq_some_iff.mp hfr
      exact copyPiece_required_count hcopy
  | _ => rfl

theorem tallied_past {pc : Pc} (h : pc.Past) :
    Tallied t D fr0 i sh fr pc ↔ Counts t D fr0 i sh fr (passLength t fr0 i) := by
  cases pc <;> first | exact Iff.rfl | exact h.elim

/-- A round of the first loop counts its piece if that is missing. -/
theorem Reader.head_tallied (h : Reader.Holds t genuine fr0 i sh me ⟨fr, .prioHead⟩)
    (hD : D ⊆ sh.downloaded) (ht : Tallied t D fr0 i sh fr .prioHead) :
    Tallied t D fr0 i sh (step lt me sh ⟨fr, .prioHead⟩).2.frame
      (step lt me sh ⟨fr, .prioHead⟩).2.pc := by
  obtain ⟨k, hm, hat⟩ := h.facts
  have hcall : fr0.SameCall fr := h.call
  have hlength := hm.reading.wanted_toNat hcall
  obtain ⟨hcount, hbegins⟩ := ht k hat
  rw [Reader.step]
  split
  · rename_i hmore
    have hloc := hat.mapFile lt hm.reading hmore
    have hpiece : (fr.mapFile lt).pr.piece = pieceAt t fr0 i k := by
      rw [hloc.piece, pieceAt_congr (show (fr.mapFile lt).offset = fr0.offset from hcall.offset)]
    have hnew := hbegins (hlength ▸ hloc.more)
    dsimp only
    split
    · rename_i hhave
      rw [hpiece] at hhave
      intro k' hat'
      obtain rfl : k = k' := hat.unique ⟨hat'.curr, hat'.rem, hat'.le⟩
      have hsub : missing t D fr0 i k ⊆ missing t D fr0 i (k + 1) := missing_mono (by omega)
      have hle := Finset.card_le_card hsub
      have hge := hcount.ge
      have hup := hcount.le
      refine ⟨⟨hge, ?_, ?_⟩, hbegins⟩
      · change fr.required_count ≤ _
        omega
      · intro hsame
        rw [missing_succ_of_mem (hsame ▸ hhave)]
        exact hcount.all hsame
    · rename_i hmiss
      rw [hpiece] at hmiss
      intro k' hat'
      obtain rfl : k = k' := hat.unique ⟨hat'.curr, hat'.rem, hat'.le⟩
      have hcard := missing_succ_card hnew fun hin => hmiss (hD hin)
      have hge := hcount.ge
      have hup := hcount.le
      have hone : (fr.mapFile lt).requirePiece.required_count = fr.required_count + 1 := rfl
      refine ⟨⟨?_, ?_, ?_⟩, hbegins⟩
      · rw [hone]
        omega
      · rw [hone, hcard]
        omega
      · intro hsame
        have hall := hcount.all hsame
        rw [hone, hcard]
        omega
  · rename_i hend
    have hk : k = passLength t fr0 i := by
      rw [← hlength, hat.wanted_eq hend]
    rw [hk] at hcount
    exact hcount

/-- Every step counts as it should. -/
theorem Reader.step_tallied (ho : fr0.Opened t i) {rd : Reader}
    (h : Reader.Holds t genuine fr0 i sh me rd) (hD : D ⊆ sh.downloaded)
    (ht : Tallied t D fr0 i sh rd.frame rd.pc) :
    Tallied t D fr0 i sh (rd.step lt me sh).2.frame (rd.step lt me sh).2.pc := by
  by_cases hpast : rd.pc.Past
  · obtain ⟨hpast', hcount⟩ := rd.step_past lt me sh hpast
    have hc := (tallied_past hpast).mp ht
    rw [tallied_past hpast']
    exact ⟨hcount ▸ hc.ge, hcount ▸ hc.le, hcount ▸ hc.all⟩
  obtain ⟨fr, pc⟩ := rd
  have hcall : fr0.SameCall fr := h.call
  cases pc with
  | entry =>
      have hcount : fr.required_count = fr0.required_count := ht
      have hsame : (fr.start lt).required_count = fr0.required_count := hcount
      have hstart : Counts t D fr0 i sh (fr.start lt) 0 := by
        have hnone : missing t D fr0 i 0 = ∅ := rfl
        exact ⟨by omega, by simp [hnone, hsame], fun _ => by simp [hnone, hsame]⟩
      rw [Reader.step]
      split
      · rename_i hend
        have hlength : passLength t fr0 i = 0 := by
          rw [start_total lt ho.index_lt (hcall.filepath ▸ ho.index)] at hend
          have hoff := hcall.offset
          unfold passLength
          omega
        change Counts t D fr0 i sh (fr.start lt) (passLength t fr0 i)
        rw [hlength]
        exact hstart
      · rename_i hend
        have hread := ho.reading lt hcall (lt_of_not_ge hend)
        rw [hread.restart, orCrash]
        intro k hat
        obtain rfl : k = 0 := hat.unique (at_passed (Nat.zero_le _))
        exact ⟨⟨hstart.ge, hstart.le, hstart.all⟩, fun _ j hj => absurd hj (Nat.not_lt_zero j)⟩
  | prioHead => exact head_tallied lt h hD ht
  | prioSelf | prioPrev | prioNext => exact ht
  | prioAdvance =>
      obtain ⟨k, hm, hloc, -⟩ := h.facts
      have hoff : fr.offset = fr0.offset := hcall.offset
      have hround := hloc.missing_round hm.reading (D := D)
      have hlength := hm.reading.wanted_toNat hcall
      obtain ⟨hcount, hbegins⟩ := ht k hloc.toAt
      rw [Reader.step, hloc.skipPiece hm.reading, orCrash]
      intro k' hat'
      have hat : At (fr.passed (k + roundSize t fr i k)) (k + roundSize t fr i k) :=
        at_passed (hloc.roundSize_bounds hm.reading).2.1
      obtain rfl := hat.unique hat'
      dsimp only at hround ⊢
      rw [missing_congr hoff, missing_congr hoff] at hround
      refine ⟨⟨hcount.ge, hround ▸ hcount.le, hround ▸ hcount.all⟩, ?_⟩
      intro hmore j hj
      have hnew : ∀ j < k, pieceAt t fr i j < pieceAt t fr i k := by
        intro j hj
        rw [pieceAt_congr hoff, pieceAt_congr hoff]
        exact hbegins (hlength ▸ hloc.more) j hj
      rw [← pieceAt_congr hoff, ← pieceAt_congr hoff]
      exact hloc.onward hm.reading hnew (hlength ▸ hmore) hj
  | _ => exact absurd trivial hpast

/-- At every point the count lies between its first value and that plus the missing pieces. -/
theorem Reader.Holds.count_bounds {rd : Reader} (h : Reader.Holds t genuine fr0 i sh me rd)
    (ht : Tallied t D fr0 i sh rd.frame rd.pc) :
    fr0.required_count ≤ rd.frame.required_count ∧
      rd.frame.required_count ≤
        fr0.required_count + (missing t D fr0 i (passLength t fr0 i)).card := by
  have hbound {k : Nat} (hk : k ≤ passLength t fr0 i) (hc : Counts t D fr0 i sh rd.frame k) :
      fr0.required_count ≤ rd.frame.required_count ∧ rd.frame.required_count ≤
        fr0.required_count + (missing t D fr0 i (passLength t fr0 i)).card := by
    have hsub : missing t D fr0 i k ⊆ missing t D fr0 i (passLength t fr0 i) := missing_mono hk
    have hle := Finset.card_le_card hsub
    have hge := hc.ge
    have hup := hc.le
    omega
  obtain ⟨fr, pc⟩ := rd
  have hcall : fr0.SameCall fr := h.call
  cases pc with
  | entry =>
      have hcount : fr.required_count = fr0.required_count := ht
      dsimp only
      omega
  | prioHead =>
      obtain ⟨k, hm, hat⟩ := h.facts
      exact hbound (hm.reading.wanted_toNat hcall ▸ hat.le) (ht k hat).1
  | prioSelf =>
      obtain ⟨k, hm, hloc⟩ := h.facts
      exact hbound (hm.reading.wanted_toNat hcall ▸ hloc.more) (ht k hloc.toAt).1
  | prioPrev | prioNext | prioAdvance =>
      obtain ⟨k, hm, hloc, -⟩ := h.facts
      exact hbound (hm.reading.wanted_toNat hcall ▸ hloc.more) (ht k hloc.toAt).1
  | _ => exact hbound le_rfl ht

end Step

/-! ## Every run -/

section Run

variable [DecidableEq ι] {calls : ι → Frame} {D : Finset Int} {s : Sys ι}

/-- The invariant of a system that began with the pieces of `downloaded`. -/
structure Sys.Tally (t : Torrent) (downloaded : Finset Int) (calls : ι → Frame) (s : Sys ι) :
    Prop where
  inv : s.Inv t True calls
  began : downloaded ⊆ s.session.downloaded
  tallied : ∀ r, Tallied t downloaded (calls r) ((calls r).index t) s.session
    (s.readers r).frame (s.readers r).pc

theorem Sys.Tally.step (h : s.Tally t D calls) {a : Action ι} (ha : a.Succeeds) :
    (s.step lt a).Tally t D calls := by
  obtain ⟨who, hc, -⟩ := h.inv.change lt (a := a) fun _ => ha
  refine ⟨h.inv.step lt fun _ => ha, h.began.trans hc.downloaded, fun r => ?_⟩
  apply Tallied.arrive _ h.began hc.downloaded
  by_cases hr : a = .reader r
  · subst hr
    have hnext := Reader.step_tallied lt (h.inv.called r).opened_index (h.inv.readers r)
      h.began (h.tallied r)
    simpa [Sys.step] using hnext
  · rw [s.step_readers lt hr]
    exact h.tallied r

omit [DecidableEq ι] in
theorem Sys.Initial.tally {s0 : Sys ι} (h0 : s0.Initial t) :
    s0.Tally t s0.session.downloaded fun r => (s0.readers r).frame := by
  refine ⟨h0.inv True, Finset.Subset.refl _, fun r => ?_⟩
  rw [h0.entry r]
  rfl

theorem Sys.Tally.reaches {s' : Sys ι} (h : s.Tally t D calls)
    (hs : Reaches (Sys.step lt) Action.Succeeds s s') : s'.Tally t D calls :=
  hs.invariant (I := Sys.Tally t D calls) _ (fun _ _ h ha => h.step lt ha) h

end Run

/-! ## `read` as a whole -/

section Whole

variable [DecidableEq ι]

/-- The call of thread `r` does what `read` is for. As long as libtorrent's reads succeed its
copies stay in bounds, no `int` overflows and it returns nothing but the requested slice of the
file that `get_file_index` picks; and it returns in every fair run. -/
def ReadsSlice (s0 : Sys ι) (r : ι) : Prop :=
  ∃ (i : Nat) (hi : i < t.files.length),
    getFileIndex t.files (s0.readers r).frame.filepath = i ∧
    (∀ s, Reaches (Sys.step lt) Action.Succeeds s0 s → (s.readers r).pc ≠ .crashed ∧
      Fits32 (s.readers r).frame.required_count ∧
      ∀ ret, (s.readers r).pc = .done ret →
        ReturnsSlice t.files[i] (getFileSize lt.toFileStorage i) (s0.readers r).frame
          (s.readers r).frame ret) ∧
    ∀ acts, Fair lt s0 acts →
      ∃ n ret, ((stateAt (Sys.step lt) s0 acts n).readers r).pc = .done ret

/-- The pieces that the loops of a call go over and that are missing when it begins. -/
def Frame.missing (t : Torrent) (downloaded : Finset Int) (fr : Frame) : Finset Nat :=
  Read.missing t downloaded fr (fr.index t) (passLength t fr (fr.index t))

/-- The same calls, with other values where `required_count` has its place in the stack. -/
def Sys.withCounts (s : Sys ι) (counts : ι → Int) : Sys ι :=
  { s with
    readers := fun r =>
      { s.readers r with frame := { (s.readers r).frame with required_count := counts r } } }

omit [DecidableEq ι] in
theorem Sys.Initial.withCounts {s0 : Sys ι} (h0 : s0.Initial t) (counts : ι → Int) :
    (s0.withCounts counts).Initial t where
  session := h0.session
  entry := h0.entry
  calls r := ⟨(h0.calls r).opened, (h0.calls r).buf, (h0.calls r).temp⟩

variable {s0 : Sys ι}

/-- A thread that goes through its first loop alone counts all its missing pieces. -/
theorem exists_counted (h0 : s0.Initial t) (r : ι) :
    ∃ s, Reaches (Sys.step lt) Action.Succeeds s0 s ∧
      (s.readers r).frame.required_count = (s0.readers r).frame.required_count +
        ((s0.readers r).frame.missing t s0.session.downloaded).card := by
  have ho := (h0.calls r).opened_index
  by_cases hlt : ((s0.readers r).frame.offset : Int) <
      ((s0.readers r).frame.start lt).file_total_size
  · have hread := Frame.start_reading lt ho.index_lt ho.index hlt
    obtain ⟨n, fr', sh', m, hrun, hp⟩ := pass_ends lt r hread s0.session
    have hacts : ∀ a ∈ List.replicate n (Action.reader r), a.Succeeds := by
      intro a ha
      rw [List.eq_of_mem_replicate ha]
      trivial
    have hreach : Reaches (Sys.step lt) Action.Succeeds s0
        (run (Sys.step lt) s0 (List.replicate n (.reader r))) := ⟨_, hacts, rfl⟩
    have hentry : s0.readers r = ⟨(s0.readers r).frame, .entry⟩ := by rw [← h0.entry r]
    have hturns := (Sys.threaded lt).run_turns s0 r n
    rw [hentry] at hturns
    obtain ⟨hsession, hreader⟩ := Prod.mk.inj (hturns.trans hrun)
    have htally := (h0.tally.reaches lt hreach).tallied r
    rw [hsession, hreader] at htally
    have hcounts : Counts t s0.session.downloaded (s0.readers r).frame
        ((s0.readers r).frame.index t) sh' fr' _ := htally
    refine ⟨_, hreach, ?_⟩
    rw [hreader]
    exact hcounts.all hp.downloaded
  · -- past the end of the file the loop is not reached
    refine ⟨s0, .refl _ _ _, ?_⟩
    have hlength : passLength t (s0.readers r).frame ((s0.readers r).frame.index t) = 0 := by
      rw [start_total lt ho.index_lt ho.index] at hlt
      unfold passLength
      omega
    rw [Frame.missing, hlength]
    simp [missing]

theorem ReadsSlice.count_le (h0 : s0.Initial t) {r : ι} (h : ReadsSlice lt s0 r) :
    (s0.readers r).frame.required_count +
      ((s0.readers r).frame.missing t s0.session.downloaded).card ≤ 2147483647 := by
  obtain ⟨i, hi, hindex, hsafe, -⟩ := h
  obtain ⟨s, hs, hcount⟩ := exists_counted lt h0 r
  have hfits := (hsafe s hs).2.1.2
  omega

theorem readsSlice_of_count [Fintype ι] (h0 : s0.Initial t) {r : ι}
    (hsize : (s0.readers r).frame.size ≤ 2147483647)
    (hfits : Fits32 (s0.readers r).frame.required_count)
    (hcount : (s0.readers r).frame.required_count +
      ((s0.readers r).frame.missing t s0.session.downloaded).card ≤ 2147483647) :
    ReadsSlice lt s0 r := by
  have ho := (h0.calls r).opened_index
  refine ⟨_, ho.index_lt, ho.index, ?_, ?_⟩
  · intro s hs
    have htally := h0.tally.reaches lt hs
    have hbounds : _ ∧ (s.readers r).frame.required_count ≤
        (s0.readers r).frame.required_count +
          ((s0.readers r).frame.missing t s0.session.downloaded).card :=
      (htally.inv.readers r).count_bounds (htally.tallied r)
    have hlow := hfits.1
    refine ⟨htally.inv.no_crash r, ⟨by omega, by omega⟩, ?_⟩
    intro ret hpc
    rw [getFileSize_eq lt ho.index_lt]
    exact (htally.inv.finished hpc).returnsSlice ho.index_lt hsize
  · intro acts hf
    obtain ⟨n, hn⟩ := hf.all_done lt (h0.inv True)
    exact ⟨n, hn r⟩

/-- All calls of `read` return the requested slices without an overflow exactly if for each the
value that `required_count` happens to begin with leaves room for the pieces that are missing;
and whatever these values are exactly if no piece of a request is missing. -/
theorem read_returns_slice_iff [Fintype ι] (h0 : s0.Initial t)
    (hsizes : ∀ r, (s0.readers r).frame.size ≤ 2147483647)
    (hfits : ∀ r, Fits32 (s0.readers r).frame.required_count) :
    ((∀ r, ReadsSlice lt s0 r) ↔ ∀ r, (s0.readers r).frame.required_count +
      ((s0.readers r).frame.missing t s0.session.downloaded).card ≤ 2147483647) ∧
    ((∀ counts : ι → Int, (∀ r, Fits32 (counts r)) → ∀ r, ReadsSlice lt (s0.withCounts counts) r) ↔
      ∀ r, (s0.readers r).frame.missing t s0.session.downloaded = ∅) := by
  refine ⟨⟨fun h r => (h r).count_le lt h0, fun h r =>
    readsSlice_of_count lt h0 (hsizes r) (hfits r) (h r)⟩, ?_, ?_⟩
  · intro h r
    have hslice := h (fun _ => 2147483647) (fun _ => ⟨by decide, by decide⟩) r
    have hle := hslice.count_le lt (h0.withCounts _)
    have hcard : ((s0.readers r).frame.missing t s0.session.downloaded).card ≤ 0 := by
      change (2147483647 : Int) +
        ((s0.readers r).frame.missing t s0.session.downloaded).card ≤ 2147483647 at hle
      omega
    exact Finset.card_eq_zero.mp (Nat.le_zero.mp hcard)
  · intro h counts hcounts r
    apply readsSlice_of_count lt (h0.withCounts counts) (hsizes r) (hcounts r)
    have hnone : ((s0.withCounts counts).readers r).frame.missing t s0.session.downloaded = ∅ :=
      h r
    have hup := (hcounts r).2
    change counts r + (((s0.withCounts counts).readers r).frame.missing t
      s0.session.downloaded).card ≤ 2147483647
    rw [hnone]
    simpa using hup

end Whole

/-- Two calls that begin with a count of 41, one for two missing pieces and the other for one. -/
theorem read_returns_slice_iff_threeBytes :
    ReadsSlice (.reference threeBytes) (threeBytesStart.withCounts fun _ => 41) false ∧
      ReadsSlice (.reference threeBytes) (threeBytesStart.withCounts fun _ => 41) true := by
  have hall := ((read_returns_slice_iff (.reference threeBytes)
    (threeBytesStart_initial.withCounts fun _ => 41) (by decide) (by decide)).1).mpr (by decide)
  exact ⟨hall false, hall true⟩

/-- A call that begins with the largest `int` overflows it at its first missing piece. -/
theorem read_overflows :
    ¬ ∀ s0 : Sys Unit, s0.Initial oneByte → (s0.readers ()).frame.size ≤ 2147483647 →
      Fits32 (s0.readers ()).frame.required_count → ReadsSlice (.reference oneByte) s0 () := by
  intro h
  obtain ⟨i, hi, hindex, hsafe, -⟩ := h (oneByteStart.withCounts fun _ => 2147483647)
    (oneByteStart_initial.withCounts _) (by decide) (by decide)
  have hcount : ((run (Sys.step (.reference oneByte))
      (oneByteStart.withCounts fun _ => 2147483647)
      [.reader (), .reader ()]).readers ()).frame.required_count = 2147483648 := by decide +kernel
  have hfits := (hsafe _ ⟨[.reader (), .reader ()], by simp [Action.Succeeds], rfl⟩).2.1.2
  omega

end BitFS.Read
