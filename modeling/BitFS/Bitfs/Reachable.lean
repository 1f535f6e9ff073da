import BitFS.Bitfs.Safety
import BitFS.Library.Mutex
import BitFS.Read.Demand

/-! # Every run of the readers of bitFS.cpp

The invariants hold after every run from a session that `init_bitfs` has set up.
They give what `FS::read` gives and two things it does not: all pieces of a call
are at top priority when its second loop begins, and they stay there.
-/

namespace BitFS.Bitfs

open MachineInt Memory BitFS.Tree BitFS.Read Transition Threads

variable {t : Torrent} (lt : TorrentInfo t) {ι : Type}

/-- Threads about to call `bitfs_read` on a session nobody is reading from; `stats` is zero. -/
structure Sys.Initial (t : Torrent) (s : Sys ι) : Prop where
  session : s.session.toSession.Ready t
  hits : s.session.cache_hit_counter = 0
  pieces : s.session.piece_download_counter = 0
  entry : ∀ r, (s.readers r).pc = .entry
  calls : ∀ r, (s.readers r).frame.Call t

/-- The invariant of a system whose threads work on `calls`. -/
structure Sys.Inv (t : Torrent) (genuine : Prop) (calls : ι → Frame) (s : Sys ι) : Prop where
  session : s.session.Sound t genuine
  called : ∀ r, (calls r).Call t
  readers : ∀ r, Reader.Holds t genuine (calls r) ((calls r).index t) s.session r (s.readers r)

theorem Sys.Initial.inv {s0 : Sys ι} (h0 : s0.Initial t) (genuine : Prop) :
    Sys.Inv t genuine (fun r => (s0.readers r).frame) s0.initBitfs := by
  have hhits := h0.hits
  have hpieces := h0.pieces
  refine ⟨⟨h0.session.sound.weaken genuine, fun _ => rfl, ?_, ?_, ?_⟩, h0.calls, fun r => ?_⟩
  · exact hpieces.trans hhits.symm
  · exact le_of_eq hhits.symm
  · change s0.session.cache_hit_counter ≤ 2147483647
    omega
  · have hpc : (s0.initBitfs.readers r).pc = .entry := h0.entry r
    have hfree : s0.initBitfs.session.fsmtx = none := h0.session.free
    refine ⟨⟨rfl, rfl, rfl, rfl, rfl⟩, ?_, ?_, ?_⟩
    · rw [hpc, hfree]
      exact nofun
    · rw [hpc]
      trivial
    · rw [hpc]
      rfl

variable [DecidableEq ι]

/-! ## One action -/

/-- What is not a step of a thread is libtorrent's, as for the readers of FS.cpp. -/
theorem Sys.step_world (s : Sys ι) {a : Action ι} (ha : ∀ r, a ≠ .reader r) :
    s.step lt a = { s with session := s.session.on fun sh => sh.served t a } := by
  cases a with
  | reader r => exact (ha r rfl).elim
  | complete p =>
      simp only [Sys.step, Session.on, Read.Session.served]
      split <;> rfl
  | answer k failed =>
      simp only [Sys.step, Session.on, Read.Session.served]
      cases s.session.requests[k]? <;> rfl
  | post => rfl

theorem Sys.threaded : Threaded (Sys.step lt) (Action.reader (ι := ι)) Sys.session Sys.readers
    (fun r sh rd => rd.step lt r sh) where
  own_shared _ _ := rfl
  own_thread _ _ := rfl
  world s a ha := by rw [s.step_world lt ha]

theorem Sys.hosted : Hosted t (Sys.step lt) (fun s : Sys ι => s.session.toSession) := by
  intro s a ha
  rw [s.step_world lt ha]
  rfl

/-- The session changes only in the ways of `Session.Change`. -/
theorem Sys.Inv.change {genuine : Prop} {calls : ι → Frame} {s : Sys ι}
    (h : Sys.Inv t genuine calls s) {a : Action ι} (ha : genuine → a.Succeeds) :
    ∃ who, Session.Change t genuine s.session who (s.step lt a).session ∧
      ∀ r, who = some r → a = .reader r := by
  by_cases hturn : ∃ r, a = .reader r
  · obtain ⟨r, rfl⟩ := hturn
    have hkeeps := (s.readers r).step_holds lt (h.called r).opened_index h.session (h.readers r)
    exact ⟨some r, hkeeps.1, fun r' he => by rw [Option.some.inj he]⟩
  · have hkept : Read.Session.SetByThreads s.session.toSession
        (s.session.toSession.served t a) := Read.Session.served_kept
    refine ⟨none, ?_, nofun⟩
    rw [s.step_world lt (not_exists.mp hturn)]
    exact .quiet (f := fun sh => sh.served t a) (Read.Session.served_change ha) hkept.priority
      hkept.fsmtx h.session.fits

theorem Sys.Inv.step {genuine : Prop} {calls : ι → Frame} {s : Sys ι}
    (h : Sys.Inv t genuine calls s) {a : Action ι} (ha : genuine → a.Succeeds) :
    Sys.Inv t genuine calls (s.step lt a) := by
  obtain ⟨who, hc, hwho⟩ := h.change lt ha
  refine ⟨hc.sound h.session, h.called, fun r => ?_⟩
  by_cases hr : a = .reader r
  · subst hr
    have hkeeps := (s.readers r).step_holds lt (h.called r).opened_index h.session (h.readers r)
    simpa [Sys.step] using hkeeps.2
  · rw [(Sys.threaded lt).others s hr]
    exact (h.readers r).change hc (fun he => hr (hwho r he))

theorem Sys.Initial.reaches {genuine : Prop} {s0 s : Sys ι} (h0 : s0.Initial t)
    (hs : Reaches (Sys.step lt) (fun a => genuine → a.Succeeds) s0.initBitfs s) :
    Sys.Inv t genuine (fun r => (s0.readers r).frame) s :=
  hs.invariant (I := Sys.Inv t genuine fun r => (s0.readers r).frame) _
    (fun _ _ h ha => h.step lt ha) (h0.inv genuine)

/-! ## What all readers agree on -/

/-- The arguments of two calls are the same; what their locals hold before they are set is not
asked. -/
structure SameArguments (fr fr' : Frame) : Prop where
  filepath : fr'.filepath = fr.filepath
  size : fr'.size = fr.size
  offset : fr'.offset = fr.offset
  buf : fr'.buf = fr.buf

section Arguments

omit [DecidableEq ι]

variable {call call' fr fr' : Frame} {i : Nat} {ret ret' : Int}

theorem SameArguments.index (h : SameArguments call call') : call'.index t = call.index t := by
  rw [Frame.index, h.filepath, Frame.index]

theorem SameArguments.finished (h : SameArguments call call') (hfin : Finished t call' i fr ret) :
    Finished t call i fr ret := by
  unfold Finished at hfin ⊢
  rwa [h.size, h.offset, h.buf] at hfin

/-- The result of a call is determined by the call. -/
theorem finished_unique (h : Finished t call i fr ret) (h' : Finished t call i fr' ret') :
    ret = ret' ∧ fr.buf = fr'.buf := by
  by_cases hend : fileEnd t i ≤ call.offset
  · have hret := h.1 hend
    have hret' := h'.1 hend
    exact ⟨hret.1.trans hret'.1.symm, hret.2.trans hret'.2.symm⟩
  · obtain ⟨n, hn, rfl, htake, hdrop⟩ := h.2 (lt_of_not_ge hend)
    obtain ⟨n', hn', rfl, htake', hdrop'⟩ := h'.2 (lt_of_not_ge hend)
    obtain rfl : n = n' := hn.trans hn'.symm
    refine ⟨rfl, ?_⟩
    rw [← List.take_append_drop n fr.buf, htake, hdrop, ← htake', ← hdrop',
      List.take_append_drop]

end Arguments

/-- As long as libtorrent's reads succeed, `bitfs_read` and `FS::read` return the same count and
leave the same buffer, each in any interleaving with any other calls; and `bitfs_read` does
something undefined only where the hit counter cannot be raised any more. -/
theorem bitfs_read_agrees {κ : Type} [DecidableEq κ] {s0 s : Sys ι} {z0 z : Read.Sys κ}
    (h0 : s0.Initial t) (hs : Reaches (Sys.step lt) Action.Succeeds s0.initBitfs s)
    (g0 : z0.Initial t) (gs : Reaches (Read.Sys.step lt) Action.Succeeds (z0.initBitfs t) z)
    {r : ι} {q : κ} (hcall : SameArguments (s0.readers r).frame (z0.readers q).frame) :
    ((s.readers r).pc = .crashed → s.session.cache_hit_counter = 2147483647) ∧
    ∀ ret ret', (s.readers r).pc = .done ret → (z.readers q).pc = .done ret' →
      ret = ret' ∧ (s.readers r).frame.buf = (z.readers q).frame.buf := by
  obtain ⟨acts, hacts, rfl⟩ := hs
  obtain ⟨acts', hacts', rfl⟩ := gs
  have hinv : Sys.Inv t True _ _ := h0.reaches lt ⟨acts, fun a ha _ => hacts a ha, rfl⟩
  have ginv := (g0.initBitfs.inv True).reaches lt ⟨acts', fun a ha _ => hacts' a ha, rfl⟩
  have hfacts := (hinv.readers r).facts
  constructor
  · intro hpc
    rw [hpc] at hfacts
    exact hfacts trivial
  · intro ret ret' hret hret'
    rw [hret] at hfacts
    have hfin' : Finished t (z0.readers q).frame ((z0.readers q).frame.index t) _ ret' :=
      ginv.finished hret'
    rw [hcall.index] at hfin'
    exact finished_unique (hfacts trivial) (hcall.finished hfin')

/-- The session of `oneByteStart`, with no limit on downloads yet. -/
def oneByteStart : Sys Unit where
  session :=
    { toSession := Read.oneByteStart.session
      download_limit := -1
      cache_hit_counter := 0
      piece_download_counter := 0 }
  readers r := ⟨(Read.oneByteStart.readers r).frame, .entry⟩

theorem oneByteStart_initial : oneByteStart.Initial oneByte where
  session := Read.oneByteStart_initial.session
  hits := rfl
  pieces := rfl
  entry _ := rfl
  calls := Read.oneByteStart_initial.calls

/-- A thread that reads the first two bytes of `threeBytes`, with other values in its locals than
the one of `threeBytesStart`. -/
def threeBytesStart : Sys Unit where
  session := oneByteStart.session
  readers _ := ⟨{ threeBytesCall with
    size := 2, buf := [0, 0], temp_buf := [9], read_ptr := 5 }, .entry⟩

theorem threeBytesStart_initial : threeBytesStart.Initial threeBytes where
  session := ⟨⟨nofun, nofun, nofun, nofun⟩, rfl⟩
  hits := rfl
  pieces := rfl
  entry _ := rfl
  calls := fun () => ⟨by decide, rfl, rfl⟩

/-- `bitfs_read` waits for its second piece. -/
def readBoth : List (Action Unit) :=
  [.complete 0] ++ List.replicate 17 (.reader ()) ++ [.answer 0 false] ++
    List.replicate 8 (.reader ()) ++ [.complete 1] ++ List.replicate 3 (.reader ()) ++
    [.answer 0 false] ++ List.replicate 6 (.reader ())

/-- `FS::read` finds both pieces, and another thread is in its first loop. -/
def readBeside : List (Action Bool) :=
  [.complete 0, .complete 1] ++ List.replicate 3 (.reader false) ++
    List.replicate 12 (.reader true) ++ [.answer 0 false] ++ List.replicate 7 (.reader true) ++
    [.answer 0 false] ++ List.replicate 5 (.reader true)

theorem bitfs_read_agrees_threeBytes :
    ((run (Sys.step (.reference threeBytes)) threeBytesStart.initBitfs readBoth).readers
        ()).frame.buf =
      ((run (Read.Sys.step (.reference threeBytes))
        (Read.threeBytesStart.initBitfs threeBytes) readBeside).readers true).frame.buf := by
  have hret : ((run (Sys.step (.reference threeBytes)) threeBytesStart.initBitfs
      readBoth).readers ()).pc = .done 2 := by decide +kernel
  have hret' : ((run (Read.Sys.step (.reference threeBytes))
      (Read.threeBytesStart.initBitfs threeBytes) readBeside).readers true).pc = .done 2 := by
    decide +kernel
  exact ((bitfs_read_agrees (.reference threeBytes) threeBytesStart_initial
    ⟨readBoth, by simp [readBoth, Action.Succeeds], rfl⟩ Read.threeBytesStart_initial
    ⟨readBeside, by simp [readBeside, Action.Succeeds], rfl⟩ ⟨rfl, rfl, rfl, rfl⟩).2 2 2 hret
    hret').2

/-! ## The second loop -/

/-- Behind the first loop and before the end. -/
def Pc.Second : Pc → Prop
  | .entry | .lock | .limitUp | .prioHead | .prioSelf | .prioNext | .prioAdvance | .done _
  | .crashed => False
  | _ => True

/-- Inside the `has_buff` loop. -/
def Pc.Polling : Pc → Prop
  | .bufPop | .bufFind => True
  | _ => False

section Second

omit [DecidableEq ι]

variable {fr0 : Frame} {i : Nat} {sh : Session ι} {me : ι} {rd : Reader} {genuine : Prop}

theorem Reader.Holds.top (h : Reader.Holds t genuine fr0 i sh me rd) (hpc : rd.pc.Second) :
    Reading t rd.frame i ∧ Top t sh rd.frame i rd.frame.wanted.toNat := by
  have hf := h.facts
  cases hp : rd.pc with
  | copyHead | waitTest | waitHit | waitPrio | waitHave | waitPop | bufTest | bufRequest =>
      rw [hp] at hf
      obtain ⟨k, hk, -⟩ := hf
      exact ⟨hk.copying.reading, hk.top⟩
  | bufPop | bufFind | copy =>
      rw [hp] at hf
      obtain ⟨k, hk, -, -⟩ := hf
      exact ⟨hk.copying.reading, hk.top⟩
  | limitDown | unlock =>
      rw [hp] at hf
      have hk : Copied t genuine fr0 sh rd.frame i rd.frame.wanted.toNat := hf
      exact ⟨hk.copying.reading, hk.top⟩
  | _ => simp [hp, Pc.Second] at hpc

theorem Reader.Holds.polling (h : Reader.Holds t genuine fr0 i sh me rd) (hpc : rd.pc.Polling) :
    sh.InFlight rd.frame.pr.piece := by
  have hf := h.facts
  cases hp : rd.pc with
  | bufPop | bufFind =>
      rw [hp] at hf
      obtain ⟨k, -, -, hfly⟩ := hf
      exact hfly
  | _ => simp [hp, Pc.Polling] at hpc

/-- In terms of the call. -/
theorem Top.needs {fr : Frame} (h : Top t sh fr (fr0.index t) fr.wanted.toNat)
    (hread : Reading t fr (fr0.index t)) (hcall : fr0.SameCall fr) {p : Int}
    (hp : fr0.Needs t p) : sh.priority p = 7 := by
  obtain ⟨q, rfl, j, hj, rfl⟩ := hp
  have hlength := hread.wanted_toNat hcall
  rw [← pieceAt_congr hcall.offset j]
  apply h
  omega

end Second

/-- In every reachable state all pieces of a thread in its second loop are at priority 7,
whatever the others have marked since, and a thread that looks for a buffer has one coming. -/
theorem bitfs_pieces_at_top {s0 s : Sys ι} (h0 : s0.Initial t)
    (hs : Reaches (Sys.step lt) (fun _ => True) s0.initBitfs s) (r : ι) :
    ((s.readers r).pc.Second →
      ∀ p, (s0.readers r).frame.Needs t p → s.session.priority p = 7) ∧
    ((s.readers r).pc.Polling → s.session.InFlight (s.readers r).frame.pr.piece) := by
  obtain ⟨acts, -, rfl⟩ := hs
  have hinv : Sys.Inv t False _ _ := h0.reaches lt ⟨acts, fun _ _ => False.elim, rfl⟩
  have hholds := hinv.readers r
  constructor
  · intro hpc p hp
    have htop := hholds.top hpc
    exact htop.2.needs htop.1 hholds.call hp
  · exact hholds.polling

/-- The thread has marked its piece. -/
theorem bitfs_pieces_at_top_oneByte :
    (run (Sys.step (.reference oneByte)) oneByteStart.initBitfs
      (List.replicate 8 (.reader ()))).session.priority 0 = 7 := by
  have hpc : ((run (Sys.step (.reference oneByte)) oneByteStart.initBitfs
      (List.replicate 8 (.reader ()))).readers ()).pc = .copyHead := by decide +kernel
  have hneed : (oneByteStart.readers ()).frame.Needs oneByte 0 :=
    ⟨0, rfl, 0, by decide, by decide⟩
  exact (bitfs_pieces_at_top (.reference oneByte) oneByteStart_initial ⟨_, by simp, rfl⟩ ()).1
    (by rw [hpc]; trivial) 0 hneed

/-! ## The critical section -/

/-- What the other threads and libtorrent leave as it is: all that threads ever set. -/
structure Session.Kept (sh sh' : Session ι) : Prop where
  map : sh'.piece_buffer_map = sh.piece_buffer_map
  priority : sh'.priority = sh.priority
  calls : sh'.calls = sh.calls
  limit : sh'.download_limit = sh.download_limit
  hits : sh'.cache_hit_counter = sh.cache_hit_counter
  alerts : sh.alerts <+: sh'.alerts

omit [DecidableEq ι] in
theorem Session.Kept.refl (sh : Session ι) : sh.Kept sh :=
  ⟨rfl, rfl, rfl, rfl, rfl, List.prefix_rfl⟩

omit [DecidableEq ι] in
theorem Session.Kept.trans {sh sh' sh'' : Session ι} (h : sh.Kept sh') (h' : sh'.Kept sh'') :
    sh.Kept sh'' :=
  ⟨h'.map.trans h.map, h'.priority.trans h.priority, h'.calls.trans h.calls,
    h'.limit.trans h.limit, h'.hits.trans h.hits, h.alerts.trans h'.alerts⟩

/-- The owner of `fsmtx` is where it was, and the session is as it left it. -/
structure Sys.Kept (r : ι) (s s' : Sys ι) : Prop where
  reader : s'.readers r = s.readers r
  session : s.session.Kept s'.session

omit [DecidableEq ι] in
/-- Outside the critical section a thread does nothing but take `fsmtx`. -/
theorem Reader.step_outside (me : ι) (sh : Session ι) {rd : Reader} (hout : ¬ rd.pc.Inside) :
    sh.Kept (rd.step lt me sh).1 := by
  obtain ⟨fr, pc⟩ := rd
  cases pc with
  | entry =>
      rw [Reader.step]
      split <;> exact .refl sh
  | lock =>
      rw [Reader.step]
      split
      · exact ⟨rfl, rfl, rfl, rfl, rfl, List.prefix_rfl⟩
      · exact .refl sh
  | done | crashed => exact .refl sh
  | _ => exact (hout trivial).elim

/-- One action of libtorrent or of another thread. -/
theorem Sys.Inv.others {calls : ι → Frame} {s : Sys ι} (h : Sys.Inv t False calls s)
    {a : Action ι} {r : ι} (hr : s.session.fsmtx = some r) (ha : a ≠ .reader r) :
    (s.step lt a).session.fsmtx = some r ∧ s.session.Kept (s.step lt a).session := by
  constructor
  · obtain ⟨who, hc, hwho⟩ := h.change lt (a := a) False.elim
    exact (hc.base.fsmtx fun he => ha (hwho r he)).mpr hr
  · by_cases hturn : ∃ r', a = .reader r'
    · obtain ⟨r', rfl⟩ := hturn
      have hne : r' ≠ r := fun he => ha (by rw [he])
      apply Reader.step_outside
      intro hin
      have hown := (h.readers r').mutex.owner hin
      exact hne (Option.some.inj (hown.symm.trans hr))
    · have hkept : Read.Session.SetByThreads s.session.toSession
          (s.session.toSession.served t a) := Read.Session.served_kept
      rw [s.step_world lt (not_exists.mp hturn)]
      exact ⟨hkept.map, hkept.priority, hkept.calls, rfl, rfl, hkept.alerts⟩

/-- `fsmtx` guards all that threads set. -/
theorem Sys.Inv.guarded {calls : ι → Frame} {s s' : Sys ι} (h : Sys.Inv t False calls s) {r : ι}
    (hr : s.session.fsmtx = some r) (hrun : Reaches (Sys.step lt) (fun a => a ≠ .reader r) s s') :
    s'.session.fsmtx = some r ∧ Sys.Kept r s s' := by
  have hguards := (Sys.threaded lt).guards (fun sh => sh.fsmtx) Session.Kept
    (Sys.Inv t False calls) (fun _ _ h => h.step lt False.elim) Session.Kept.refl
    (fun _ _ _ => Session.Kept.trans) (fun _ _ _ h hr ha => h.others lt hr ha)
  obtain ⟨hown, hreader, hsession⟩ := hguards.reaches h hr hrun
  exact ⟨hown, hreader, hsession⟩

omit [DecidableEq ι] in
/-- Equal counters make every rate that is shown 100. -/
theorem Session.Sound.rate {sh : Session ι} {genuine : Prop} (h : sh.Sound t genuine) {rate : Int}
    (hrate : sh.cacheHitRate = some rate) : rate = 100 := by
  have heq := h.counters
  unfold Session.cacheHitRate at hrate
  simp only [Option.bind_eq_bind, Option.bind_eq_some_iff, Option.pure_def] at hrate
  obtain ⟨percent, hpercent, hrate⟩ := hrate
  obtain ⟨-, rfl⟩ := checked32_eq_some.mp hpercent
  split at hrate
  · cases hrate
  · rename_i hne
    rw [heq] at hne hrate
    cases hrate
    exact Int.mul_tdiv_cancel_left 100 hne

/-- In every reachable state at most one thread is inside `fsmtx`, and until its own next step
nobody else changes the map, a priority, the limit or a counter. The download limit is 1
whenever nobody is inside and 1 MiB in both loops, and the two counters are always equal, so
that the hit rate shows nothing but 100. -/
theorem bitfs_critical_section {s0 s : Sys ι} (h0 : s0.Initial t)
    (hs : Reaches (Sys.step lt) (fun _ => True) s0.initBitfs s) :
    (∀ r r', (s.readers r).pc.Inside → (s.readers r').pc.Inside → r = r') ∧
    (∀ r s', (s.readers r).pc.Inside → Reaches (Sys.step lt) (fun a => a ≠ .reader r) s s' →
      s'.session.fsmtx = some r ∧ Sys.Kept r s s') ∧
    (s.session.fsmtx = none → s.session.download_limit = 1) ∧
    (∀ r, (s.readers r).pc.Limit s.session.download_limit) ∧
    s.session.piece_download_counter = s.session.cache_hit_counter ∧
    ∀ rate, s.session.cacheHitRate = some rate → rate = 100 := by
  obtain ⟨acts, -, rfl⟩ := hs
  have hinv : Sys.Inv t False _ _ := h0.reaches lt ⟨acts, fun _ _ => False.elim, rfl⟩
  refine ⟨?_, ?_, hinv.session.idle, fun r => (hinv.readers r).limit, hinv.session.counters,
    fun rate hrate => hinv.session.rate hrate⟩
  · intro r r' hr hr'
    have hown := (hinv.readers r).mutex.owner hr
    have hown' := (hinv.readers r').mutex.owner hr'
    exact Option.some.inj (hown.symm.trans hown')
  · intro r s' hr hrun
    exact hinv.guarded lt ((hinv.readers r).mutex.owner hr) hrun

theorem bitfs_critical_section_oneByte :
    (run (Sys.step (.reference oneByte)) oneByteStart.initBitfs
        (.complete 0 :: List.replicate 11 (.reader ()))).session.piece_download_counter =
      (run (Sys.step (.reference oneByte)) oneByteStart.initBitfs
        (.complete 0 :: List.replicate 11 (.reader ()))).session.cache_hit_counter :=
  (bitfs_critical_section (.reference oneByte) oneByteStart_initial
    ⟨_, by simp, rfl⟩).2.2.2.2.1

end BitFS.Bitfs
