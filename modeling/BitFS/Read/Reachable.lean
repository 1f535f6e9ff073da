import BitFS.Read.Safety
import BitFS.Read.Service

/-! # Every run of the readers

The invariants of all threads and of the session together are kept by every
action, so they hold after every run from a session that `init_bitfs` has set up.
-/

namespace BitFS.Read

open MachineInt Memory BitFS.Tree Transition Threads

variable {t : Torrent} (lt : TorrentInfo t) {ι : Type} [DecidableEq ι]

/-- The file that `get_file_index` picks for a call. -/
def Frame.index (t : Torrent) (fr : Frame) : Nat := (getFileIndex t.files fr.filepath).toNat

/-- A call of `read` as FUSE makes it: on an opened path, with room for `size` bytes. -/
structure Frame.Call (t : Torrent) (fr : Frame) : Prop where
  opened : openFile (initBitfs t.files) fr.filepath = .ok ()
  buf : fr.buf.length = fr.size
  temp : fr.temp_buf.length = t.pieceLength

/-- A session nobody is reading from: real buffers in the map and under way, and
`fsmtx` free. -/
structure Session.Ready (t : Torrent) (sh : Session ι) : Prop where
  sound : sh.Sound t True
  free : sh.fsmtx = none

/-- Threads about to call `read` on a session. -/
structure Sys.Initial (t : Torrent) (s : Sys ι) : Prop where
  session : s.session.Ready t
  entry : ∀ r, (s.readers r).pc = .entry
  calls : ∀ r, (s.readers r).frame.Call t

/-- The end of `init_bitfs`. -/
def Sys.initBitfs (t : Torrent) (s : Sys ι) : Sys ι :=
  { s with session := s.session.initPriorities t.numPieces }

/-- The invariant of a system whose threads work on `calls`. -/
structure Sys.Inv (t : Torrent) (genuine : Prop) (calls : ι → Frame) (s : Sys ι) : Prop where
  session : s.session.Sound t genuine
  called : ∀ r, (calls r).Call t
  readers : ∀ r, Reader.Holds t genuine (calls r) ((calls r).index t) s.session r (s.readers r)

/-! ## The start -/

section Start

omit [DecidableEq ι]

/-- `get_file_index` finds a path that has been opened. -/
theorem Frame.index_of_opened {fr : Frame}
    (h : openFile (initBitfs t.files) fr.filepath = .ok ()) :
    fr.index t < t.files.length ∧ getFileIndex t.files fr.filepath = fr.index t := by
  obtain ⟨f, hf, hpath⟩ := (openFile_ok_iff _).mp h
  have hmem : ∃ f ∈ t.files, f.path = fr.filepath.tail := ⟨f, hf, by rw [hpath, List.tail_cons]⟩
  obtain ⟨i, hi, hidx, -⟩ := getFileIndex_of_mem hmem
  have hindex : fr.index t = i := by rw [index, hidx, Int.toNat_natCast]
  exact ⟨hindex ▸ hi, by rw [hidx, hindex]⟩

theorem Frame.Call.opened_index {fr : Frame} (h : fr.Call t) : fr.Opened t (fr.index t) := by
  obtain ⟨hlt, hindex⟩ := Frame.index_of_opened h.opened
  exact ⟨hlt, hindex, h.buf, h.temp⟩

theorem Session.Sound.weaken {sh : Session ι} (h : sh.Sound t True) (genuine : Prop) :
    sh.Sound t genuine :=
  { h with
    alerts := fun p fl b hm => ⟨(h.alerts p fl b hm).1, fun _ => (h.alerts p fl b hm).2 trivial⟩
    cache := fun p b hm => ⟨(h.cache p b hm).1, fun _ => (h.cache p b hm).2 trivial⟩ }

theorem Session.initPriorities_sound {sh : Session ι} {genuine : Prop} (h : sh.Sound t genuine) :
    (sh.initPriorities t.numPieces).Sound t genuine := by
  have hloop : ∀ (l : List Nat) (sh : Session ι), (∀ i ∈ l, i < t.numPieces) →
      sh.Sound t genuine →
      (l.foldl (fun sh (i : Nat) => sh.piecePriority i 0) sh).Sound t genuine := by
    intro l
    induction l with
    | nil => exact fun sh _ hsh => hsh
    | cons i l ih =>
        intro sh hl hsh
        refine ih _ (fun j hj => hl j (List.mem_cons_of_mem _ hj)) { hsh with calls := ?_ }
        have hi := hl i List.mem_cons_self
        exact List.forall_mem_cons.mpr
          ⟨⟨by simp [LtCall.piece], by simpa [LtCall.piece]⟩, hsh.calls⟩
  unfold initPriorities
  refine hloop _ sh (fun i hi => ?_) h
  rw [List.mem_range'_1] at hi
  omega

theorem Session.initPriorities_fsmtx (sh : Session ι) (n : Nat) :
    (sh.initPriorities n).fsmtx = sh.fsmtx :=
  List.foldlRecOn (motive := fun s : Session ι => s.fsmtx = sh.fsmtx) _ _ rfl
    (fun _ hs _ _ => hs)

theorem Sys.Initial.initBitfs {s : Sys ι} (h : s.Initial t) : (s.initBitfs t).Initial t where
  session := ⟨Session.initPriorities_sound h.session.sound,
    (Session.initPriorities_fsmtx _ _).trans h.session.free⟩
  entry := h.entry
  calls := h.calls

theorem Sys.Initial.inv {s : Sys ι} (h : s.Initial t) (genuine : Prop) :
    Sys.Inv t genuine (fun r => (s.readers r).frame) s := by
  refine ⟨h.session.sound.weaken genuine, h.calls, fun r => ?_⟩
  have hpc := h.entry r
  refine ⟨⟨rfl, rfl, rfl, rfl, rfl⟩, ?_, ?_⟩
  · rw [hpc, h.session.free]
    exact nofun
  · rw [hpc]
    rfl

end Start

/-! ## One action -/

/-- What is not a step of a thread is libtorrent's. -/
theorem Sys.step_world (s : Sys ι) {a : Action ι} (ha : ∀ r, a ≠ .reader r) :
    s.step lt a = { s with session := s.session.served t a } := by
  cases a with
  | reader r => exact (ha r rfl).elim
  | complete p =>
      rw [Sys.step, Session.served]
      split <;> rfl
  | answer k failed =>
      rw [Sys.step, Session.served]
      cases s.session.requests[k]? <;> rfl
  | post => rfl

theorem Sys.threaded : Threaded (Sys.step lt) (Action.reader (ι := ι)) Sys.session Sys.readers
    (fun r sh rd => rd.step lt r sh) where
  own_shared _ _ := rfl
  own_thread _ _ := rfl
  world s a ha := by rw [s.step_world lt ha]

theorem Sys.hosted : Hosted t (Sys.step lt) (Sys.session (ι := ι)) := by
  intro s a ha
  rw [s.step_world lt ha]

/-- Only its own steps move a thread. -/
theorem Sys.step_readers (s : Sys ι) {a : Action ι} {r : ι} (ha : a ≠ .reader r) :
    (s.step lt a).readers r = s.readers r :=
  (Sys.threaded lt).others s ha

/-- The session changes only in the ways of `Session.Change`. -/
theorem Sys.Inv.change {genuine : Prop} {calls : ι → Frame} {s : Sys ι}
    (h : Sys.Inv t genuine calls s) {a : Action ι} (ha : genuine → a.Succeeds) :
    ∃ who, Session.Change t genuine s.session who (s.step lt a).session ∧
      ∀ r, who = some r → a = .reader r := by
  by_cases hturn : ∃ r, a = .reader r
  · obtain ⟨r, rfl⟩ := hturn
    exact ⟨some r,
      ((s.readers r).step_holds lt (h.called r).opened_index h.session (h.readers r)).1,
      fun r' he => by rw [Option.some.inj he]⟩
  · refine ⟨none, ?_, nofun⟩
    rw [Sys.hosted lt s a (not_exists.mp hturn)]
    exact Session.served_change ha

theorem Sys.Inv.step {genuine : Prop} {calls : ι → Frame} {s : Sys ι}
    (h : Sys.Inv t genuine calls s) {a : Action ι} (ha : genuine → a.Succeeds) :
    Sys.Inv t genuine calls (s.step lt a) := by
  obtain ⟨who, hc, hwho⟩ := h.change lt ha
  refine ⟨hc.sound h.session, h.called, fun r => ?_⟩
  by_cases hr : a = .reader r
  · subst hr
    simpa [Sys.step] using
      ((s.readers r).step_holds lt (h.called r).opened_index h.session (h.readers r)).2
  · rw [s.step_readers lt hr]
    exact (h.readers r).change hc (fun he => hr (hwho r he))

theorem Sys.Inv.reaches {genuine : Prop} {calls : ι → Frame} {s s' : Sys ι}
    (h : Sys.Inv t genuine calls s)
    (hs : Reaches (Sys.step lt) (fun a => genuine → a.Succeeds) s s') :
    Sys.Inv t genuine calls s' :=
  hs.invariant (I := Sys.Inv t genuine calls) _ (fun _ _ h ha => h.step lt ha) h

/-! ## What a reader waits for -/

/-- Inside `wait_for_piece_download`. -/
def Pc.Waiting : Pc → Prop
  | .waitTest | .waitHave | .waitPop => True
  | _ => False

/-- Inside the `has_buff` loop. -/
def Pc.Polling : Pc → Prop
  | .bufPop | .bufFind => True
  | _ => False

omit [DecidableEq ι] in
theorem Reader.Holds.waiting {genuine : Prop} {fr0 : Frame} {i : Nat} {sh : Session ι} {me : ι}
    {rd : Reader} (h : rd.Holds t genuine fr0 i sh me) (hpc : rd.pc.Waiting) :
    Valid t rd.frame.pr.piece ∧ sh.Asked rd.frame.pr.piece := by
  have hf := h.facts
  cases hp : rd.pc with
  | waitTest | waitHave | waitPop =>
      rw [hp] at hf
      obtain ⟨k, hc, hloc⟩ := hf
      refine ⟨hloc.valid hc.reading, ?_⟩
      rw [hloc.piece]
      exact hc.asked k hloc.more
  | _ => simp [hp, Pc.Waiting] at hpc

omit [DecidableEq ι] in
theorem Reader.Holds.polling {genuine : Prop} {fr0 : Frame} {i : Nat} {sh : Session ι} {me : ι}
    {rd : Reader} (h : rd.Holds t genuine fr0 i sh me) (hpc : rd.pc.Polling) :
    sh.InFlight rd.frame.pr.piece := by
  have hf := h.facts
  cases hp : rd.pc with
  | bufPop | bufFind =>
      rw [hp] at hf
      obtain ⟨k, -, -, hfly⟩ := hf
      exact hfly
  | _ => simp [hp, Pc.Polling] at hpc

/-- No reader waits for a piece that was never asked for or for a buffer that was
never requested, whether reads succeed or fail. -/
theorem waits_for_asked {s0 s : Sys ι} (h0 : s0.Initial t)
    (hs : Reaches (Sys.step lt) (fun _ => True) (s0.initBitfs t) s) :
    (∀ r, (s.readers r).pc.Waiting → s.session.Asked (s.readers r).frame.pr.piece) ∧
    (∀ r, (s.readers r).pc.Polling → s.session.InFlight (s.readers r).frame.pr.piece) ∧
    ∀ c ∈ s.session.calls, 0 ≤ c.piece ∧ c.piece < t.numPieces := by
  obtain ⟨acts, -, rfl⟩ := hs
  have hinv := (h0.initBitfs.inv False).reaches lt ⟨acts, fun _ _ => False.elim, rfl⟩
  exact ⟨fun r hr => ((hinv.readers r).waiting hr).2, fun r hr => (hinv.readers r).polling hr,
    hinv.session.calls⟩

/-- A torrent of one file `a` of one byte, in one piece. -/
def oneByte : Torrent where
  files := [.a [7] (by decide)]
  pieceLength := 1
  pieceLength_pos := le_rfl
  pieceLength_fits := by decide
  numPieces_fits := by decide

/-- One thread about to read all of it; nothing is downloaded. -/
def oneByteStart : Sys Unit where
  session := ⟨∅, fun _ => 4, [], [], fun _ => none, none, []⟩
  readers _ := {
    frame := {
      filepath := str ['/', 'a']
      size := 1
      offset := 0
      file_index := 0
      file_total_size := 0
      pr := ⟨0, 0, 0⟩
      piece_size := 0
      temp_buf := [0]
      buf := [0]
      curr_offset := 0
      remaining_size := 0
      read_ptr := 0
      required_pieces := ∅
      required_count := 0 }
    pc := .entry }

theorem oneByteStart_initial : oneByteStart.Initial oneByte where
  session := ⟨⟨nofun, nofun, nofun, nofun⟩, rfl⟩
  entry _ := rfl
  calls := fun () => ⟨by decide, rfl, rfl⟩

/-- A torrent of one file `a` of three bytes, one in each piece. -/
def threeBytes : Torrent where
  files := [.a [1, 2, 3] (by decide)]
  pieceLength := oneByte.pieceLength
  pieceLength_pos := oneByte.pieceLength_pos
  pieceLength_fits := oneByte.pieceLength_fits
  numPieces_fits := by decide

/-- A call that reads all of it. -/
def threeBytesCall : Frame where
  filepath := str ['/', 'a']
  size := 3
  offset := 0
  file_index := 0
  file_total_size := 0
  pr := ⟨0, 0, 0⟩
  piece_size := 0
  temp_buf := [0]
  buf := [0, 0, 0]
  curr_offset := 0
  remaining_size := 0
  read_ptr := 0
  required_pieces := ∅
  required_count := 0

/-- Two threads about to read, one the first two bytes and the other the last. -/
def threeBytesStart : Sys Bool where
  session := ⟨∅, fun _ => 4, [], [], fun _ => none, none, []⟩
  readers
    | true => ⟨{ threeBytesCall with size := 2, buf := [0, 0] }, .entry⟩
    | false => ⟨{ threeBytesCall with size := 1, offset := 2, buf := [0] }, .entry⟩

theorem threeBytesStart_initial : threeBytesStart.Initial threeBytes where
  session := ⟨⟨nofun, nofun, nofun, nofun⟩, rfl⟩
  entry
    | true => rfl
    | false => rfl
  calls
    | true => ⟨by decide, rfl, rfl⟩
    | false => ⟨by decide, rfl, rfl⟩

/-- Piece 0 arrives, both threads go through their first loops, and the first one requests
piece 0. -/
def requestFirst : List (Action Bool) :=
  [.complete 0] ++ List.replicate 9 (.reader true) ++ List.replicate 7 (.reader false) ++
    List.replicate 7 (.reader true) ++ [.reader false]

/-- It gets piece 0 and goes on to piece 1, which the other thread has set back to 1. -/
def awaitSecond : List (Action Bool) :=
  requestFirst ++ [.answer 0 false] ++ List.replicate 6 (.reader true)

/-- One thread looks for the buffer of piece 0 and then waits for piece 1, while the other
waits for `fsmtx`. -/
theorem waits_for_asked_threeBytes :
    (run (Sys.step (.reference threeBytes)) (threeBytesStart.initBitfs threeBytes)
      requestFirst).session.InFlight 0 ∧
    (run (Sys.step (.reference threeBytes)) (threeBytesStart.initBitfs threeBytes)
      awaitSecond).session.Asked 1 := by
  constructor
  · have hpc : ((run (Sys.step (.reference threeBytes)) (threeBytesStart.initBitfs threeBytes)
        requestFirst).readers true).pc = .bufPop := by decide +kernel
    have hpiece : ((run (Sys.step (.reference threeBytes))
        (threeBytesStart.initBitfs threeBytes) requestFirst).readers true).frame.pr.piece = 0 := by
      decide +kernel
    have hfly := (waits_for_asked (.reference threeBytes) threeBytesStart_initial
      ⟨requestFirst, by simp, rfl⟩).2.1 true (by rw [hpc]; trivial)
    rwa [hpiece] at hfly
  · have hpc : ((run (Sys.step (.reference threeBytes)) (threeBytesStart.initBitfs threeBytes)
        awaitSecond).readers true).pc = .waitPop := by decide +kernel
    have hpiece : ((run (Sys.step (.reference threeBytes))
        (threeBytesStart.initBitfs threeBytes) awaitSecond).readers true).frame.pr.piece = 1 := by
      decide +kernel
    have hasked := (waits_for_asked (.reference threeBytes) threeBytesStart_initial
      ⟨awaitSecond, by simp, rfl⟩).1 true (by rw [hpc]; trivial)
    rwa [hpiece] at hasked

/-! ## The cache -/

/-- Every entry of the map holds exactly the bytes of its piece. -/
def Sys.CacheReal (s : Sys ι) : Prop :=
  ∀ p buffer, s.session.piece_buffer_map p = some buffer →
    Valid t p ∧ buffer.length = lt.piece_size p ∧ buffer = t.pieceBytes p.toNat

/-- No copy leaves its buffers, and finished calls return bytes of the torrent. -/
def Sys.ReadsReal (t : Torrent) (s s0 : Sys ι) : Prop :=
  ∀ r, (s.readers r).pc ≠ .crashed ∧ ∀ ret, (s.readers r).pc = .done ret →
    ∃ o n : Nat, ret = n ∧ o + n ≤ t.content.length ∧
      (s.readers r).frame.buf.take n = slice t.content o n ∧
      (s.readers r).frame.buf.drop n = (s0.readers r).frame.buf.drop n

section Results

omit [DecidableEq ι]

variable {calls : ι → Frame} {s : Sys ι}

theorem Sys.Inv.cacheReal (h : Sys.Inv t True calls s) : s.CacheReal lt := by
  intro p buffer hp
  obtain ⟨⟨hlow, hhigh⟩, hbytes⟩ := h.session.cache p buffer hp
  refine ⟨⟨hlow, hhigh⟩, ?_, hbytes trivial⟩
  have hsize := lt.piece_size_eq p.toNat (by omega)
  rw [Int.toNat_of_nonneg hlow] at hsize
  rw [hbytes trivial, hsize]

theorem Sys.Inv.no_crash (h : Sys.Inv t True calls s) (r : ι) : (s.readers r).pc ≠ .crashed := by
  intro hpc
  have hf := (h.readers r).facts
  rw [hpc] at hf
  exact hf trivial

theorem Sys.Inv.finished (h : Sys.Inv t True calls s) {r : ι} {ret : Int}
    (hpc : (s.readers r).pc = .done ret) :
    Finished t (calls r) ((calls r).index t) (s.readers r).frame ret := by
  have hf := (h.readers r).facts
  rw [hpc] at hf
  exact hf trivial

/-- The bytes of a finished call stand in the torrent behind the start of the file. -/
theorem Finished.in_torrent {fr0 fr : Frame} {i : Nat} {ret : Int} (hi : i < t.files.length)
    (h : Finished t fr0 i fr ret) :
    ∃ o n : Nat, ret = n ∧ o + n ≤ t.content.length ∧ fr.buf.take n = slice t.content o n ∧
      fr.buf.drop n = fr0.buf.drop n := by
  by_cases hend : fileEnd t i ≤ fr0.offset
  · obtain ⟨hret, hbuf⟩ := h.1 hend
    exact ⟨0, 0, by simpa using hret, Nat.zero_le _, by simp [slice_zero], by rw [hbuf]⟩
  · obtain ⟨n, hn, hret, htake, hdrop⟩ := h.2 (lt_of_not_ge hend)
    have hle := fileEnd_le t i
    have hmin := min_le_right (toInt32 fr0.size) (fileEnd t i - fr0.offset)
    have hbound : fr0.offset + n ≤ (fileBytes t i).length := by omega
    rw [fileBytes_eq hi] at hbound htake
    have hs := t.fileStart_add_length_le hi
    refine ⟨t.fileStart i + fr0.offset, n, hret, by omega, ?_, hdrop⟩
    rw [htake, ← slice_slice t.content hbound, t.slice_content_file hi]

end Results

/-- As long as libtorrent's reads succeed, the cache holds only real piece data and
all bytes returned come from the torrent. -/
theorem cache_real {s0 s : Sys ι} (h0 : s0.Initial t)
    (hs : Reaches (Sys.step lt) Action.Succeeds s0 s) :
    s.CacheReal lt ∧ s.ReadsReal t s0 := by
  obtain ⟨acts, hacts, rfl⟩ := hs
  have hinv := (h0.inv True).reaches lt ⟨acts, fun a ha _ => hacts a ha, rfl⟩
  refine ⟨hinv.cacheReal lt, fun r => ⟨hinv.no_crash r, fun ret hpc => ?_⟩⟩
  exact (hinv.finished hpc).in_torrent (h0.calls r).opened_index.index_lt

/-- The reader asks for the buffer of its piece and libtorrent answers. -/
def answeredRead (failed : Bool) : List (Action Unit) :=
  [.complete 0] ++ List.replicate 10 (.reader ()) ++ [.answer 0 failed, .reader ()]

theorem cache_real_oneByte :
    (run (Sys.step (.reference oneByte)) oneByteStart (answeredRead false)).CacheReal
        (.reference oneByte) ∧
      (run (Sys.step (.reference oneByte)) oneByteStart (answeredRead false)).ReadsReal
        oneByte oneByteStart :=
  cache_real _ oneByteStart_initial ⟨_, by simp [answeredRead, Action.Succeeds], rfl⟩

/-- A failed read leaves an empty buffer in the cache. -/
theorem cache_failed_read :
    ¬ ∀ s0 s : Sys Unit, s0.Initial oneByte →
      Reaches (Sys.step (.reference oneByte)) (fun _ => True) s0 s →
      s.CacheReal (.reference oneByte) ∧ s.ReadsReal oneByte s0 := by
  intro h
  have hentry : (run (Sys.step (.reference oneByte)) oneByteStart
      (answeredRead true)).session.piece_buffer_map 0 = some [] := by decide +kernel
  obtain ⟨hcache, -⟩ := h _ _ oneByteStart_initial ⟨answeredRead true, by simp, rfl⟩
  exact absurd (hcache 0 [] hentry).2.2 (by decide)

end BitFS.Read
