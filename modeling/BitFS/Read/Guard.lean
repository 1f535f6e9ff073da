import BitFS.Library.Mutex
import BitFS.Read.Reachable

/-! # The critical section of `FS::read`

From the loop over `required_pieces` to the end `read` holds `fsmtx`. The other
threads mark priorities meanwhile, finish or begin calls, and libtorrent posts
alerts, but `piece_buffer_map` is as the owner left it and the alerts it has not
popped are all still there.
-/

namespace BitFS.Read

open MachineInt Memory BitFS.Tree Transition Mutex Threads

variable {t : Torrent} (lt : TorrentInfo t) {ι : Type}

/-- Between `fsmtx.lock()` and `fsmtx.unlock()`. -/
def Pc.Inside : Pc → Prop
  | .sweep _ | .sweepRead _ _ | .copyHead | .waitTest | .waitHave | .waitPop | .bufTest
  | .bufRequest | .bufPop | .bufFind | .copy | .unlock => True
  | _ => False

theorem Pc.Mutex.owner {me : ι} {m : Option ι} {pc : Pc} (h : pc.Mutex me m) (hin : pc.Inside) :
    m = some me := by
  cases pc <;> first | exact h | cases hin

theorem Pc.Mutex.inside {me : ι} {m : Option ι} {pc : Pc} (h : pc.Mutex me m)
    (hown : m = some me) : pc.Inside ∨ pc = .crashed := by
  have hplace := Place.Agrees.inside h hown
  cases pc <;> simp_all [Pc.place, Pc.Inside]

/-! ## Steps outside -/

/-- What a thread inside relies on: the map is the same, and no alert has gone. -/
structure Session.Kept (sh sh' : Session ι) : Prop where
  map : sh'.piece_buffer_map = sh.piece_buffer_map
  alerts : sh.alerts <+: sh'.alerts

theorem Session.Kept.refl (sh : Session ι) : sh.Kept sh := ⟨rfl, List.prefix_rfl⟩

theorem Session.Kept.trans {sh sh' sh'' : Session ι} (h : sh.Kept sh') (h' : sh'.Kept sh'') :
    sh.Kept sh'' := ⟨h'.map.trans h.map, h.alerts.trans h'.alerts⟩

/-- Neither the map nor the queue of alerts is touched without `fsmtx`. -/
theorem Reader.step_outside (me : ι) (sh : Session ι) {rd : Reader} (hout : ¬ rd.pc.Inside) :
    sh.Kept (rd.step lt me sh).1 := by
  obtain ⟨fr, pc⟩ := rd
  cases pc with
  | entry =>
      rw [Reader.step]
      split <;> exact .refl sh
  | prioHead =>
      rw [Reader.step]
      split
      · dsimp only
        split <;> exact ⟨rfl, List.prefix_rfl⟩
      · exact .refl sh
  | prioPrev | prioNext =>
      rw [Reader.step]
      split <;> exact ⟨rfl, List.prefix_rfl⟩
  | lock =>
      rw [Reader.step]
      split <;> exact ⟨rfl, List.prefix_rfl⟩
  | prioSelf | prioAdvance | done | crashed => exact ⟨rfl, List.prefix_rfl⟩
  | _ => exact (hout trivial).elim

/-! ## The guard -/

variable [DecidableEq ι]

/-- The owner of `fsmtx` is where it was, and the session is as it left it. -/
structure Sys.Kept (r : ι) (s s' : Sys ι) : Prop where
  reader : s'.readers r = s.readers r
  session : s.session.Kept s'.session

/-- One action of libtorrent or of another thread. -/
theorem Sys.Inv.others {calls : ι → Frame} {s : Sys ι} (h : Sys.Inv t False calls s)
    {a : Action ι} {r : ι} (hr : s.session.fsmtx = some r) (ha : a ≠ .reader r) :
    (s.step lt a).session.fsmtx = some r ∧ s.session.Kept (s.step lt a).session := by
  constructor
  · obtain ⟨who, hc, hwho⟩ := h.change lt (a := a) False.elim
    exact (hc.fsmtx fun he => ha (hwho r he)).mpr hr
  · by_cases hturn : ∃ r', a = .reader r'
    · obtain ⟨r', rfl⟩ := hturn
      have hne : r' ≠ r := fun he => ha (by rw [he])
      apply Reader.step_outside
      intro hin
      have hown := (h.readers r').mutex.owner hin
      exact hne (Option.some.inj (hown.symm.trans hr))
    · have hkept : Session.SetByThreads s.session (s.session.served t a) := Session.served_kept
      rw [s.step_world lt (not_exists.mp hturn)]
      exact ⟨hkept.map, hkept.alerts⟩

/-- `fsmtx` guards the map, the queue and the place of its owner. -/
theorem Sys.Inv.guarded {calls : ι → Frame} {s s' : Sys ι} (h : Sys.Inv t False calls s) {r : ι}
    (hr : s.session.fsmtx = some r) (hrun : Reaches (Sys.step lt) (fun a => a ≠ .reader r) s s') :
    s'.session.fsmtx = some r ∧ Sys.Kept r s s' := by
  have hguards := (Sys.threaded lt).guards (fun sh => sh.fsmtx) Session.Kept
    (Sys.Inv t False calls) (fun _ _ h => h.step lt False.elim) Session.Kept.refl
    (fun _ _ _ => Session.Kept.trans) (fun _ _ _ h hr ha => h.others lt hr ha)
  obtain ⟨hown, hreader, hsession⟩ := hguards.reaches h hr hrun
  exact ⟨hown, hreader, hsession⟩

/-- In every reachable state at most one thread is inside the critical section, it owns
`fsmtx`, and until its own next step, whatever the others and libtorrent do, the map
stays as it is and no alert is lost to it. -/
theorem critical_section {s0 s : Sys ι} (h0 : s0.Initial t)
    (hs : Reaches (Sys.step lt) (fun _ => True) (s0.initBitfs t) s) :
    (∀ r r', (s.readers r).pc.Inside → (s.readers r').pc.Inside → r = r') ∧
    (∀ r, s.session.fsmtx = some r → (s.readers r).pc.Inside ∨ (s.readers r).pc = .crashed) ∧
    ∀ r s', (s.readers r).pc.Inside → Reaches (Sys.step lt) (fun a => a ≠ .reader r) s s' →
      s'.session.fsmtx = some r ∧ Sys.Kept r s s' := by
  obtain ⟨acts, -, rfl⟩ := hs
  have hinv := (h0.initBitfs.inv False).reaches lt ⟨acts, fun _ _ => False.elim, rfl⟩
  refine ⟨?_, ?_, ?_⟩
  · intro r r' hr hr'
    have hown := (hinv.readers r).mutex.owner hr
    have hown' := (hinv.readers r').mutex.owner hr'
    exact Option.some.inj (hown.symm.trans hown')
  · intro r hr
    exact (hinv.readers r).mutex.inside hr
  · intro r s' hr hrun
    exact hinv.guarded lt ((hinv.readers r).mutex.owner hr) hrun

/-- One thread waits for piece 1 inside, the other has come to `fsmtx`; until the next step of
the first, a piece that arrives and steps of the other leave it the mutex and the map. -/
theorem critical_section_threeBytes :
    (run (Sys.step (.reference threeBytes)) (run (Sys.step (.reference threeBytes))
        (threeBytesStart.initBitfs threeBytes) awaitSecond)
      [.reader false, .complete 1, .post, .reader false]).session.fsmtx = some true ∧
    (run (Sys.step (.reference threeBytes)) (run (Sys.step (.reference threeBytes))
        (threeBytesStart.initBitfs threeBytes) awaitSecond)
      [.reader false, .complete 1, .post, .reader false]).session.piece_buffer_map =
    (run (Sys.step (.reference threeBytes)) (threeBytesStart.initBitfs threeBytes)
      awaitSecond).session.piece_buffer_map := by
  have hpc : ((run (Sys.step (.reference threeBytes)) (threeBytesStart.initBitfs threeBytes)
      awaitSecond).readers true).pc = .waitPop := by decide +kernel
  have hkept := (critical_section (.reference threeBytes) threeBytesStart_initial
    ⟨awaitSecond, by simp, rfl⟩).2.2 true _ (by rw [hpc]; trivial)
    ⟨[.reader false, .complete 1, .post, .reader false], by simp, rfl⟩
  exact ⟨hkept.1, hkept.2.session.map⟩

end BitFS.Read
