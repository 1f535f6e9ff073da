import BitFS.Bitfs.Session
import BitFS.Read.Reachable

/-! # The invariant of all readers of bitFS.cpp

Everything after the end-of-file test is inside `fsmtx`, and no priority but 7 is
ever set, so what a thread has marked stays marked. The lemmas on cursors and
copies are those of `FS::read`; the download limit and the counters come on top.
-/

namespace BitFS.Bitfs

open MachineInt Memory BitFS.Tree BitFS.Read Mutex

variable {t : Torrent} (lt : TorrentInfo t) {ι : Type} {genuine : Prop}

/-! ## Changes of the session -/

/-- What one step of a thread or of libtorrent does to the session. -/
structure Session.Change (t : Torrent) (genuine : Prop) (sh : Session ι) (who : Option ι)
    (sh' : Session ι) : Prop where
  base : Read.Session.Change t genuine sh.toSession who sh'.toSession
  top : ∀ p, sh.priority p = 7 → sh'.priority p = 7
  idle : (sh.fsmtx = none → sh.download_limit = 1) → sh'.fsmtx = none → sh'.download_limit = 1
  limit : ∀ r, who ≠ some r → sh.fsmtx = some r → sh'.download_limit = sh.download_limit
  hits : sh.cache_hit_counter ≤ sh'.cache_hit_counter ∧ sh'.cache_hit_counter ≤ 2147483647
  counters : sh'.piece_download_counter - sh'.cache_hit_counter =
    sh.piece_download_counter - sh.cache_hit_counter

section Change

variable {sh sh' : Session ι} {who : Option ι} {me : ι}

/-- A step that leaves priorities, `fsmtx`, the limit and the counters alone. -/
theorem Session.Change.quiet {f : Read.Session ι → Read.Session ι}
    (h : Read.Session.Change t genuine sh.toSession who (f sh.toSession))
    (hprio : (f sh.toSession).priority = sh.priority)
    (hmutex : (f sh.toSession).fsmtx = sh.fsmtx) (hfits : sh.cache_hit_counter ≤ 2147483647) :
    Session.Change t genuine sh who (sh.on f) where
  base := h
  top p hp := (congrFun hprio p).trans hp
  idle hfree hnone := hfree (hmutex.symm.trans hnone)
  limit _ _ _ := rfl
  hits := ⟨le_rfl, hfits⟩
  counters := rfl

theorem Session.Change.keep (who : Option ι) (hfits : sh.cache_hit_counter ≤ 2147483647) :
    Session.Change t genuine sh who sh :=
  ⟨.keep who, fun _ h => h, fun h => h, fun _ _ _ => rfl, ⟨le_rfl, hfits⟩, rfl⟩

theorem Session.Change.piecePriority (me : ι) {p : Int} (hp : Valid t p)
    (hfits : sh.cache_hit_counter ≤ 2147483647) :
    Session.Change t genuine sh (some me) (sh.on fun s => s.piecePriority p 7) where
  base := .piecePriority me hp (by decide)
  top q hq := by
    by_cases hqp : q = p
    · simp [Session.on, Read.Session.piecePriority, hqp]
    · simpa [Session.on, Read.Session.piecePriority, Function.update_of_ne hqp] using hq
  idle h := h
  limit _ _ _ := rfl
  hits := ⟨le_rfl, hfits⟩
  counters := rfl

theorem Session.Change.lock (me : ι) (hfree : sh.fsmtx = none)
    (hfits : sh.cache_hit_counter ≤ 2147483647) :
    Session.Change t genuine sh (some me) (sh.on fun s => { s with fsmtx := some me }) where
  base := .lock me hfree
  top _ h := h
  idle _ h := by cases h
  limit _ _ _ := rfl
  hits := ⟨le_rfl, hfits⟩
  counters := rfl

theorem Session.Change.unlock (me : ι) (hheld : sh.fsmtx = some me) (hlimit : sh.download_limit = 1)
    (hfits : sh.cache_hit_counter ≤ 2147483647) :
    Session.Change t genuine sh (some me) (sh.on fun s => { s with fsmtx := none }) where
  base := .unlock me hheld
  top _ h := h
  idle _ _ := hlimit
  limit _ _ _ := rfl
  hits := ⟨le_rfl, hfits⟩
  counters := rfl

theorem Session.Change.setDownloadLimit (limit : Int) (hheld : sh.fsmtx = some me)
    (hfits : sh.cache_hit_counter ≤ 2147483647) :
    Session.Change t genuine sh (some me) (sh.setDownloadLimit limit) where
  base := .keep _
  top _ h := h
  idle _ hnone := by
    change sh.fsmtx = none at hnone
    rw [hheld] at hnone
    cases hnone
  limit r hne hr := absurd (hheld.symm.trans hr) hne
  hits := ⟨le_rfl, hfits⟩
  counters := rfl

theorem Session.countHit_eq {sh' : Session ι} (h : sh.countHit = some sh') :
    sh'.toSession = sh.toSession ∧ sh'.download_limit = sh.download_limit ∧
      sh'.cache_hit_counter = sh.cache_hit_counter + 1 ∧
      sh'.piece_download_counter = sh.piece_download_counter + 1 ∧
      sh'.cache_hit_counter ≤ 2147483647 := by
  unfold Session.countHit at h
  simp only [Option.bind_eq_bind, Option.bind_eq_some_iff, Option.pure_def] at h
  obtain ⟨hits, hhits, pieces, hpieces, hsh⟩ := h
  obtain ⟨hfits, rfl⟩ := checked32_eq_some.mp hhits
  obtain ⟨-, rfl⟩ := checked32_eq_some.mp hpieces
  cases hsh
  exact ⟨rfl, rfl, rfl, rfl, hfits.2⟩

theorem Session.Change.countHit (me : ι) (h : sh.countHit = some sh') :
    Session.Change t genuine sh (some me) sh' := by
  obtain ⟨hbase, hlimit, hhits, hpieces, hfits⟩ := Session.countHit_eq h
  refine ⟨?_, ?_, ?_, ?_, ⟨by omega, hfits⟩, by omega⟩
  · rw [hbase]
    exact .keep _
  · rw [hbase]
    exact fun _ h => h
  · rw [hbase, hlimit]
    exact fun h => h
  · exact fun _ _ _ => hlimit

end Change

/-! ## Where a thread stands -/

/-- Between `fsmtx.lock()` and `fsmtx.unlock()`. -/
def Pc.Inside : Pc → Prop
  | .entry | .lock | .done _ | .crashed => False
  | _ => True

/-- Where a thread stands with respect to `fsmtx`. -/
def Pc.place : Pc → Place
  | .entry | .lock | .done _ => .outside
  | .crashed => .lost
  | _ => .inside

/-- `fsmtx` is held by `me` exactly inside. Nothing is said of a thread whose behaviour is
undefined. -/
def Pc.Mutex (me : ι) (fsmtx : Option ι) (pc : Pc) : Prop := pc.place.Agrees me fsmtx

/-- The download limit is 1 MiB from its first change to the second. -/
def Pc.Limit (limit : Int) : Pc → Prop
  | .entry | .lock | .done _ | .crashed => True
  | .limitUp | .unlock => limit = 1
  | _ => limit = 1024 * 1024

/-- The pieces of the first `k` bytes are at top priority. -/
def Top (t : Torrent) (sh : Session ι) (fr : Frame) (i k : Nat) : Prop :=
  ∀ j < k, sh.priority (pieceAt t fr i j) = 7

/-- Before the second loop: nothing is copied yet. -/
structure Fresh (t : Torrent) (fr0 fr : Frame) (i : Nat) : Prop where
  reading : Reading t fr i
  buf : fr.buf = fr0.buf
  read_ptr : fr.read_ptr = 0

/-- In the second loop: all is marked, and the first `k` bytes are in `buf`. -/
structure Copied (t : Torrent) (genuine : Prop) (fr0 : Frame) (sh : Session ι) (fr : Frame)
    (i k : Nat) : Prop where
  copying : Copying t genuine fr0 sh.toSession fr i k
  top : Top t sh fr i fr.wanted.toNat

/-- What holds of a thread at each control point. -/
def Facts (t : Torrent) (genuine : Prop) (fr0 : Frame) (i : Nat) (sh : Session ι) (fr : Frame) :
    Pc → Prop
  | .entry => fr.buf = fr0.buf
  | .lock | .limitUp => Fresh t fr0 fr i
  | .prioHead => ∃ k, Fresh t fr0 fr i ∧ Top t sh fr i k ∧ At fr k
  | .prioSelf => ∃ k, Fresh t fr0 fr i ∧ Top t sh fr i k ∧ Located t fr i k
  | .prioNext | .prioAdvance =>
      ∃ k, Fresh t fr0 fr i ∧ Top t sh fr i k ∧ Located t fr i k ∧ sh.priority fr.pr.piece = 7
  | .copyHead => ∃ k, Copied t genuine fr0 sh fr i k ∧ At fr k
  | .waitTest | .waitHit | .waitPrio | .waitHave | .waitPop | .bufTest | .bufRequest =>
      ∃ k, Copied t genuine fr0 sh fr i k ∧ Located t fr i k
  | .bufPop | .bufFind =>
      ∃ k, Copied t genuine fr0 sh fr i k ∧ Located t fr i k ∧ sh.InFlight fr.pr.piece
  | .copy =>
      ∃ k, Copied t genuine fr0 sh fr i k ∧ Located t fr i k ∧
        (sh.piece_buffer_map fr.pr.piece).isSome
  | .limitDown | .unlock => Copied t genuine fr0 sh fr i fr.wanted.toNat
  | .done ret => genuine → Finished t fr0 i fr ret
  | .crashed => genuine → sh.cache_hit_counter = 2147483647

/-- The invariant of thread `me`. -/
structure Reader.Holds (t : Torrent) (genuine : Prop) (fr0 : Frame) (i : Nat) (sh : Session ι)
    (me : ι) (rd : Reader) : Prop where
  call : fr0.SameCall rd.frame
  mutex : rd.pc.Mutex me sh.fsmtx
  limit : rd.pc.Limit sh.download_limit
  facts : Facts t genuine fr0 i sh rd.frame rd.pc

/-- The session between two steps. -/
structure Session.Sound (t : Torrent) (genuine : Prop) (sh : Session ι) : Prop where
  base : sh.toSession.Sound t genuine
  idle : sh.fsmtx = none → sh.download_limit = 1
  counters : sh.piece_download_counter = sh.cache_hit_counter
  nonneg : 0 ≤ sh.cache_hit_counter
  fits : sh.cache_hit_counter ≤ 2147483647

/-! ## Steps of the other threads -/

section Others

variable {fr0 fr : Frame} {i k : Nat} {sh sh' : Session ι} {who : Option ι} {me : ι}

theorem Session.Change.sound (h : Session.Change t genuine sh who sh')
    (hs : sh.Sound t genuine) : sh'.Sound t genuine := by
  have hc := h.counters
  have hh := h.hits
  have heq := hs.counters
  have hpos := hs.nonneg
  exact ⟨h.base.sound hs.base, h.idle hs.idle, by omega, by omega, hh.2⟩

theorem Top.change (h : Top t sh fr i k) (hc : Session.Change t genuine sh who sh') :
    Top t sh' fr i k := fun j hj => hc.top _ (h j hj)

theorem Copied.change (h : Copied t genuine fr0 sh fr i k)
    (hc : Session.Change t genuine sh who sh') : Copied t genuine fr0 sh' fr i k :=
  ⟨h.copying.grow hc.base.grows, h.top.change hc⟩

theorem Facts.change {pc : Pc} (h : Facts t genuine fr0 i sh fr pc)
    (hc : Session.Change t genuine sh who sh') : Facts t genuine fr0 i sh' fr pc := by
  cases pc with
  | entry | lock | limitUp | done => exact h
  | prioHead | prioSelf =>
      obtain ⟨k, hf, htop, hat⟩ := h
      exact ⟨k, hf, htop.change hc, hat⟩
  | prioNext | prioAdvance =>
      obtain ⟨k, hf, htop, hloc, hp⟩ := h
      exact ⟨k, hf, htop.change hc, hloc, hc.top _ hp⟩
  | copyHead | waitTest | waitHit | waitPrio | waitHave | waitPop | bufTest | bufRequest =>
      obtain ⟨k, hk, hat⟩ := h
      exact ⟨k, hk.change hc, hat⟩
  | bufPop | bufFind =>
      obtain ⟨k, hk, hloc, hp⟩ := h
      exact ⟨k, hk.change hc, hloc, hc.base.grows.inFlight _ hp⟩
  | copy =>
      obtain ⟨k, hk, hloc, hp⟩ := h
      exact ⟨k, hk.change hc, hloc, hc.base.grows.cached _ hp⟩
  | limitDown | unlock => exact Copied.change h hc
  | crashed =>
      intro hg
      have hmax := h hg
      have hle := hc.hits
      omega

theorem Pc.Limit.change {limit limit' : Int} {pc : Pc} (h : pc.Limit limit)
    (hsame : pc.Inside → limit' = limit) : pc.Limit limit' := by
  cases pc with
  | entry | lock | done | crashed => trivial
  | _ =>
      rw [hsame trivial]
      exact h

theorem Pc.Mutex.owner {m : Option ι} {pc : Pc} (h : pc.Mutex me m) (hin : pc.Inside) :
    m = some me := by
  cases pc with
  | entry | lock | done | crashed => exact hin.elim
  | _ => exact h

/-- A change by anyone else keeps the invariant of a thread. -/
theorem Reader.Holds.change {rd : Reader} (h : Reader.Holds t genuine fr0 i sh me rd)
    (hc : Session.Change t genuine sh who sh') (hne : who ≠ some me) :
    Reader.Holds t genuine fr0 i sh' me rd where
  call := h.call
  mutex := Place.Agrees.change h.mutex (hc.base.fsmtx hne)
  limit := h.limit.change fun hin => hc.limit me hne (h.mutex.owner hin)
  facts := h.facts.change hc

end Others

/-! ## The steps of a thread -/

section Step

variable {fr0 fr : Frame} {i k : Nat} {sh : Session ι} {me : ι}

/-- `out` is a lawful outcome of a step of thread `me`. -/
def Reader.Keeps (t : Torrent) (genuine : Prop) (fr0 : Frame) (i : Nat) (me : ι) (sh : Session ι)
    (out : Session ι × Reader) : Prop :=
  Session.Change t genuine sh (some me) out.1 ∧ Reader.Holds t genuine fr0 i out.1 me out.2

/-- A step whose next facts already hold in the session before it. -/
theorem Reader.Holds.next {sh' : Session ι} {rd' : Reader}
    (hc : Session.Change t genuine sh (some me) sh') (hcall : fr0.SameCall rd'.frame)
    (hlock : rd'.pc.Mutex me sh'.fsmtx) (hlimit : rd'.pc.Limit sh'.download_limit)
    (hfacts : Facts t genuine fr0 i sh rd'.frame rd'.pc) :
    Reader.Keeps t genuine fr0 i me sh (sh', rd') :=
  ⟨hc, hcall, hlock, hlimit, hfacts.change hc⟩

/-- A round of the first loop leaves the pieces of the bytes it passes at the top. -/
theorem Top.passed (htop : Top t sh fr i k) (hread : Reading t fr i) (hloc : Located t fr i k)
    (hp : sh.priority fr.pr.piece = 7) :
    Top t sh (fr.passed (k + roundSize t fr i k)) i (k + roundSize t fr i k) := by
  intro j hj
  change sh.priority (pieceAt t fr i j) = 7
  by_cases hjk : j < k
  · exact htop j hjk
  · have hin := hloc.pieceAt_eq hread (j := j - k) (by omega)
    rw [show k + (j - k) = j by omega] at hin
    rwa [hin, ← hloc.piece]

theorem Fresh.passed (h : Fresh t fr0 fr i) (n : Nat) : Fresh t fr0 (fr.passed n) i :=
  ⟨h.reading.passed n, h.buf, h.read_ptr⟩

/-- The second loop starts with nothing copied. -/
theorem Fresh.copied (h : Fresh t fr0 fr i) (htop : Top t sh fr i fr.wanted.toNat) :
    Copied t genuine fr0 sh (fr.passed 0) i 0 where
  copying :=
    { reading := h.reading.passed 0
      asked := fun j hj => Or.inr (by
        have h7 : sh.priority (pieceAt t fr i j) = 7 := htop j hj
        change 1 ≤ sh.priority (pieceAt t fr i j)
        omega)
      read_ptr := h.read_ptr
      data := fun _ => ⟨by simp, congrArg _ h.buf⟩ }
  top := htop

/-- Up to the first loop. -/
theorem Reader.step_begin {pc : Pc} (hpc : pc ∈ [Pc.entry, .lock, .limitUp])
    (ho : fr0.Opened t i) (hs : sh.Sound t genuine)
    (h : Reader.Holds t genuine fr0 i sh me ⟨fr, pc⟩) :
    Reader.Keeps t genuine fr0 i me sh (step lt me sh ⟨fr, pc⟩) := by
  have hcall : fr0.SameCall fr := h.call
  cases pc with
  | entry =>
      have hbuf : fr.buf = fr0.buf := h.facts
      rw [Reader.step]
      split
      · rename_i hend
        have htotal : (fr.start lt).file_total_size = fileEnd t i := by
          change getFileSize lt.toFileStorage (getFileIndex t.files fr.filepath) = _
          rw [hcall.filepath, ho.index, getFileSize_eq lt ho.index_lt]
        refine Holds.next (.keep _ hs.fits) { hcall with } h.mutex trivial
          fun _ => ⟨fun _ => ⟨rfl, hbuf⟩, fun hlt => ?_⟩
        have hoff := hcall.offset
        rw [htotal] at hend
        omega
      · rename_i hend
        exact Holds.next (.keep _ hs.fits) { hcall with } h.mutex trivial
          ⟨ho.reading lt hcall (lt_of_not_ge hend), hbuf, rfl⟩
  | lock =>
      rw [Reader.step]
      split
      · rename_i hfree
        exact Holds.next (.lock me hfree hs.fits) hcall rfl (hs.idle hfree) h.facts
      · exact Holds.next (.keep _ hs.fits) hcall h.mutex trivial h.facts
  | limitUp =>
      have hf : Fresh t fr0 fr i := h.facts
      rw [Reader.step, hf.reading.restart, Reader.orCrash]
      exact Holds.next (.setDownloadLimit _ h.mutex hs.fits) { hcall with } h.mutex rfl
        ⟨0, hf.passed 0, fun j hj => absurd hj (Nat.not_lt_zero j), at_passed (Nat.zero_le _)⟩
  | _ => simp at hpc

/-- The steps of the first loop. -/
theorem Reader.step_mark {pc : Pc} (hpc : pc ∈ [Pc.prioHead, .prioSelf, .prioNext, .prioAdvance])
    (hs : sh.Sound t genuine) (h : Reader.Holds t genuine fr0 i sh me ⟨fr, pc⟩) :
    Reader.Keeps t genuine fr0 i me sh (step lt me sh ⟨fr, pc⟩) := by
  have hcall : fr0.SameCall fr := h.call
  cases pc with
  | prioHead =>
      obtain ⟨k, hf, htop, hat⟩ := h.facts
      rw [Reader.step]
      split
      · rename_i hmore
        exact Holds.next (.keep _ hs.fits) { hcall with } h.mutex h.limit
          ⟨k, ⟨{ hf.reading with }, hf.buf, hf.read_ptr⟩, htop, hat.mapFile lt hf.reading hmore⟩
      · rename_i hend
        have hall : Top t sh fr i fr.wanted.toNat := by rwa [hat.wanted_eq hend]
        rw [hf.reading.restart, Reader.orCrash]
        exact Holds.next (.keep _ hs.fits) { hcall with } h.mutex h.limit
          ⟨0, hf.copied hall, at_passed (Nat.zero_le _)⟩
  | prioSelf =>
      obtain ⟨k, hf, htop, hloc⟩ := h.facts
      have hc : Session.Change t genuine sh (some me)
          (sh.on fun s => s.piecePriority fr.pr.piece 7) :=
        .piecePriority me (hloc.valid hf.reading) hs.fits
      refine ⟨hc, hcall, h.mutex, h.limit, k, hf, htop.change hc, hloc, ?_⟩
      exact Function.update_self _ _ _
  | prioNext =>
      obtain ⟨k, hf, htop, hloc, hp⟩ := h.facts
      obtain ⟨hlow, hhigh⟩ : Valid t fr.pr.piece := hloc.valid hf.reading
      rw [Reader.step]
      split
      · exact Holds.next (.piecePriority me ⟨by omega, by omega⟩ hs.fits) hcall h.mutex h.limit
          ⟨k, hf, htop, hloc, hp⟩
      · exact Holds.next (.keep _ hs.fits) hcall h.mutex h.limit ⟨k, hf, htop, hloc, hp⟩
  | prioAdvance =>
      obtain ⟨k, hf, htop, hloc, hp⟩ := h.facts
      rw [Reader.step, hloc.skipPiece hf.reading, Reader.orCrash]
      exact Holds.next (.keep _ hs.fits) { hcall with } h.mutex h.limit
        ⟨_, hf.passed _, htop.passed hf.reading hloc hp,
          at_passed (hloc.roundSize_bounds hf.reading).2.1⟩
  | _ => simp at hpc

/-- The test of the second loop and the wait for the piece. -/
theorem Reader.step_wait {pc : Pc} (hpc : pc ∈ [Pc.copyHead, .waitTest, .waitHit, .waitPrio,
      .waitHave, .waitPop])
    (hs : sh.Sound t genuine) (h : Reader.Holds t genuine fr0 i sh me ⟨fr, pc⟩) :
    Reader.Keeps t genuine fr0 i me sh (step lt me sh ⟨fr, pc⟩) := by
  have hcall : fr0.SameCall fr := h.call
  cases pc with
  | copyHead =>
      obtain ⟨k, hk, hat⟩ := h.facts
      have hread := hk.copying.reading
      rw [Reader.step]
      split
      · rename_i hmore
        exact Holds.next (.keep _ hs.fits) { hcall with } h.mutex h.limit
          ⟨k, ⟨{ hk.copying with reading := { hread with } }, hk.top⟩,
            hat.mapFile lt hread hmore⟩
      · rename_i hend
        refine Holds.next (.keep _ hs.fits) hcall h.mutex h.limit ?_
        change Copied t genuine fr0 sh fr i fr.wanted.toNat
        rwa [hat.wanted_eq hend]
  | waitTest | waitHave =>
      obtain ⟨k, hk, hloc⟩ := h.facts
      have hc : Session.Change t genuine sh (some me) (sh.on fun s => s.havePiece fr.pr.piece) :=
        .quiet (.havePiece me (hloc.valid hk.copying.reading)) rfl rfl hs.fits
      rw [Reader.step]
      split
      all_goals exact Holds.next hc hcall h.mutex h.limit ⟨k, hk, hloc⟩
  | waitHit =>
      obtain ⟨k, hk, hloc⟩ := h.facts
      rw [Reader.step]
      split
      · rename_i sh' hcount
        obtain ⟨hbase, hlimit, -⟩ := Session.countHit_eq hcount
        have hmutex : sh'.fsmtx = some me := by
          rw [hbase]
          exact h.mutex
        exact Holds.next (.countHit me hcount) hcall hmutex (hlimit.trans h.limit) ⟨k, hk, hloc⟩
      · rename_i hfull
        refine Holds.next (.keep _ hs.fits) hcall trivial trivial fun _ => ?_
        have heq := hs.counters
        have hpos := hs.nonneg
        have hle := hs.fits
        by_contra hne
        have hfits : Fits32 (sh.cache_hit_counter + 1) := ⟨by omega, by omega⟩
        rw [Session.countHit, heq, checked32_of_fits hfits] at hfull
        cases hfull
  | waitPrio =>
      obtain ⟨k, hk, hloc⟩ := h.facts
      exact Holds.next (.piecePriority me (hloc.valid hk.copying.reading) hs.fits) hcall h.mutex
        h.limit ⟨k, hk, hloc⟩
  | waitPop =>
      exact Holds.next (.quiet (.getPieceBuffers me) rfl rfl hs.fits) hcall h.mutex h.limit h.facts
  | _ => simp at hpc

/-- The search for the buffer and the copies. -/
theorem Reader.step_copy {pc : Pc} (hpc : pc ∈ [Pc.bufTest, .bufRequest, .bufPop, .bufFind, .copy])
    (ho : fr0.Opened t i) (hs : sh.Sound t genuine)
    (h : Reader.Holds t genuine fr0 i sh me ⟨fr, pc⟩) :
    Reader.Keeps t genuine fr0 i me sh (step lt me sh ⟨fr, pc⟩) := by
  have hcall : fr0.SameCall fr := h.call
  cases pc with
  | bufTest =>
      obtain ⟨k, hk, hloc⟩ := h.facts
      rw [Reader.step]
      split
      · rename_i hfound
        exact Holds.next (.keep _ hs.fits) hcall h.mutex h.limit ⟨k, hk, hloc, hfound⟩
      · exact Holds.next (.keep _ hs.fits) hcall h.mutex h.limit ⟨k, hk, hloc⟩
  | bufRequest =>
      obtain ⟨k, hk, hloc⟩ := h.facts
      have hc : Session.Change t genuine sh (some me) (sh.on fun s => s.readPiece fr.pr.piece) :=
        .quiet (.readPiece me (hloc.valid hk.copying.reading)) rfl rfl hs.fits
      exact ⟨hc, hcall, h.mutex, h.limit, k, hk.change hc, hloc,
        Read.Session.inFlight_readPiece_self _⟩
  | bufPop =>
      exact Holds.next (.quiet (.getPieceBuffers me) rfl rfl hs.fits) hcall h.mutex h.limit h.facts
  | bufFind =>
      obtain ⟨k, hk, hloc, hfly⟩ := h.facts
      rw [Reader.step]
      split
      · rename_i hfound
        exact Holds.next (.keep _ hs.fits) hcall h.mutex h.limit ⟨k, hk, hloc, hfound⟩
      · exact Holds.next (.keep _ hs.fits) hcall h.mutex h.limit ⟨k, hk, hloc, hfly⟩
  | copy =>
      obtain ⟨k, hk, hloc, hfound⟩ := h.facts
      obtain ⟨src, hsrc⟩ := Option.isSome_iff_exists.mp hfound
      have hreal : genuine → src = t.pieceBytes (pieceAt t fr i k) := by
        intro hg
        have hp : fr.pr.piece = pieceAt t fr i k := hloc.piece
        rw [(hs.base.cache _ _ hsrc).2 hg, hp, Int.toNat_natCast]
      rw [Reader.step]
      dsimp only at hsrc
      rw [hsrc, Option.bind_some]
      cases hcopy : fr.copyPiece src with
      | some fr' =>
          obtain ⟨hc', hat, hsame⟩ := hk.copying.copied hloc hreal hcopy
          have htop : Top t sh fr' i fr'.wanted.toNat := by
            have hw : fr'.wanted = fr.wanted := by
              unfold Frame.wanted
              rw [hsame.size, hsame.offset, hc'.reading.total, hk.copying.reading.total]
            intro j hj
            have hpos : pieceAt t fr' i j = pieceAt t fr i j := by
              unfold pieceAt pos
              rw [hsame.offset]
            rw [hpos]
            exact hk.top j (hw ▸ hj)
          refine Holds.next (.keep _ hs.fits) ?_ h.mutex h.limit ⟨_, ⟨hc', htop⟩, hat⟩
          exact ⟨hsame.filepath.trans hcall.filepath, hsame.size.trans hcall.size,
            hsame.offset.trans hcall.offset, hsame.buf.trans hcall.buf,
            hsame.temp.trans hcall.temp⟩
      | none =>
          refine Holds.next (.keep _ hs.fits) hcall trivial trivial fun hg => ?_
          have hin := hk.copying.copies ho hcall hloc
          rw [← hreal hg, hcopy] at hin
          cases hin
  | _ => simp at hpc

/-- Every step of a thread keeps its invariant. -/
theorem Reader.step_holds (ho : fr0.Opened t i) (hs : sh.Sound t genuine) {rd : Reader}
    (h : Reader.Holds t genuine fr0 i sh me rd) :
    Reader.Keeps t genuine fr0 i me sh (rd.step lt me sh) := by
  obtain ⟨fr, pc⟩ := rd
  have hcall : fr0.SameCall fr := h.call
  cases pc with
  | entry | lock | limitUp => exact step_begin lt (by simp) ho hs h
  | prioHead | prioSelf | prioNext | prioAdvance => exact step_mark lt (by simp) hs h
  | copyHead | waitTest | waitHit | waitPrio | waitHave | waitPop =>
      exact step_wait lt (by simp) hs h
  | bufTest | bufRequest | bufPop | bufFind | copy => exact step_copy lt (by simp) ho hs h
  | limitDown =>
      exact Holds.next (.setDownloadLimit 1 h.mutex hs.fits) hcall h.mutex rfl h.facts
  | unlock =>
      have hk : Copied t genuine fr0 sh fr i fr.wanted.toNat := h.facts
      exact Holds.next (.unlock me h.mutex h.limit hs.fits) hcall
        (by simp [Pc.Mutex, Pc.place, Place.Agrees, Session.on]) trivial
        fun hg => hk.copying.finished hcall hg
  | done ret => exact Holds.next (.keep _ hs.fits) hcall h.mutex trivial h.facts
  | crashed => exact Holds.next (.keep _ hs.fits) hcall trivial trivial h.facts

end Step

end BitFS.Bitfs
