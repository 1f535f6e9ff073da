import BitFS.Mount.Tree
import BitFS.Read.Sequential
import BitFS.Tree.Calls

/-! # A mounted torrent

The callbacks that client.cpp gives to FUSE, from any number of threads and in any
order. `getattr`, `open` and `readdir` look at tables and are one step; a call of
`read` takes the steps of its thread between those of the others. FUSE hands over
absolute paths, reads only from a path that `open` has accepted, at most 2^31-1 bytes
into a buffer of their size, and has one call at a time in a thread.
-/

namespace BitFS.Mount

open MachineInt Memory BitFS.Tree BitFS.Read FileTree Transition

abbrev AbsPath := { path : Str // path.head? = some slash }

/-- The mounted file system. `answered` is the history of the answers. -/
structure State (ι : Type) where
  sys : Sys ι
  maps : Maps
  answered : List (Request Str × Answer Str UInt8)

inductive Act (ι : Type) where
  | getattr (path : AbsPath)
  | openFile (path : AbsPath)
  | readdir (path : AbsPath)
  /-- thread `r` calls `read` -/
  | read (r : ι) (fr : Frame)
  /-- a step of a call of `read`, or of libtorrent -/
  | go (a : Action ι)

/-- The action does not report a failed read. -/
def Act.Succeeds {ι : Type} : Act ι → Prop
  | .go a => a.Succeeds
  | _ => True

/-- The thread is in no call. -/
def rests (rd : Reader) : Bool :=
  match rd.pc with
  | .done _ => true
  | _ => false

/-- The answer of a thread whose call ends with a step. -/
def returned (rd rd' : Reader) : List (Request Str × Answer Str UInt8) :=
  match rests rd, rd'.pc with
  | false, .done ret =>
      [(.read rd'.frame.filepath rd'.frame.size rd'.frame.offset,
        .data ret (rd'.frame.buf.take ret.toNat))]
  | _, _ => []

namespace State

variable {t : Torrent} (lt : TorrentInfo t) {ι : Type}

def answer (s : State ι) (q : Request Str) (a : Answer Str UInt8) : State ι :=
  { s with answered := (q, a) :: s.answered }

/-- FUSE makes such a call. -/
def Accepts (t : Torrent) (s : State ι) (r : ι) (fr : Frame) : Prop :=
  rests (s.sys.readers r) = true ∧ (.openFile fr.filepath, .opened) ∈ s.answered ∧
    fr.size ≤ 2147483647 ∧ fr.buf.length = fr.size ∧ fr.temp_buf.length = t.pieceLength

instance (s : State ι) (r : ι) (fr : Frame) : Decidable (s.Accepts t r fr) :=
  inferInstanceAs (Decidable (_ ∧ _ ∧ _ ∧ _ ∧ _))

variable [DecidableEq ι]

def step (s : State ι) : Act ι → State ι
  | .getattr path =>
      s.answer (.stat path.val) (statAnswer (Tree.getattr lt.toFileStorage s.maps path.val))
  | .openFile path => s.answer (.openFile path.val) (openAnswer (Tree.openFile s.maps path.val))
  | .readdir path =>
      { s.answer (.list path.val) (listAnswer (Tree.readdir s.maps path.val)) with
        maps := Call.step s.maps (.readdir path.val) }
  | .read r fr => if s.Accepts t r fr then { s with sys := s.sys.call r fr } else s
  | .go (.reader r) =>
      { s with
        sys := s.sys.step lt (.reader r)
        answered := returned (s.sys.readers r) ((s.sys.step lt (.reader r)).readers r) ++
          s.answered }
  | .go a => { s with sys := s.sys.step lt a }

end State

/-- A session nobody is reading from, and threads in no call. -/
structure Idle (t : Torrent) {ι : Type} (sys : Sys ι) : Prop where
  session : sys.session.Ready t
  rests : ∀ r, rests (sys.readers r) = true

/-- The file system after `init_bitfs`. -/
def mount (t : Torrent) {ι : Type} (sys : Sys ι) : State ι :=
  ⟨sys.initBitfs t, initBitfs t.files, []⟩

/-! ## The threads -/

section Threads

variable {t : Torrent} (lt : TorrentInfo t) {ι : Type}

/-- How a thread stands in a session. -/
inductive Fares (t : Torrent) (sh : Session ι) (r : ι) (rd : Reader) : Prop where
  | rests (hpc : rests rd = true) (hout : sh.fsmtx ≠ some r)
  | reads (fr0 : Frame) (hcall : fr0.Call t) (hsize : fr0.size ≤ 2147483647)
      (h : rd.Holds t True fr0 (fr0.index t) sh r)

variable {sh sh' : Session ι} {r : ι} {rd : Reader}

/-- What somebody else does leaves a thread where it stands. -/
theorem Fares.change (h : Fares t sh r rd) {who : Option ι}
    (hc : Session.Change t True sh who sh') (hne : who ≠ some r) : Fares t sh' r rd := by
  cases h with
  | rests hpc hout => exact .rests hpc (mt (hc.fsmtx hne).mp hout)
  | reads fr0 hcall hsize h => exact .reads fr0 hcall hsize (h.change hc hne)

theorem step_of_rests (h : rests rd = true) : rd.step lt r sh = (sh, rd) := by
  obtain ⟨fr, pc⟩ := rd
  cases pc <;> first | rfl | cases h

/-- A step of a thread. -/
theorem Fares.step (hs : sh.Sound t True) (h : Fares t sh r rd) :
    Session.Change t True sh (some r) (rd.step lt r sh).1 ∧
      Fares t (rd.step lt r sh).1 r (rd.step lt r sh).2 := by
  cases h with
  | rests hpc hout =>
      rw [step_of_rests lt hpc]
      exact ⟨.keep _, .rests hpc hout⟩
  | reads fr0 hcall hsize h =>
      have hkeeps := rd.step_holds lt hcall.opened_index hs h
      exact ⟨hkeeps.1, .reads fr0 hcall hsize hkeeps.2⟩

/-- A call that returns has read the bytes of its file, as far as there are any. -/
theorem allows_read {fr0 fr : Frame} {ret : Int} (hcall : fr0.Call t)
    (hsize : fr0.size ≤ 2147483647) (hsame : fr0.SameCall fr)
    (hfits : ∀ f ∈ t.files, f.bytes.length ≤ 2147483647)
    (h : Finished t fr0 (fr0.index t) fr ret) :
    Allows (Names t.files) (.read fr.filepath fr.size fr.offset)
      (.data ret (fr.buf.take ret.toNat)) := by
  obtain ⟨f, hf, hpath⟩ := (openFile_ok_iff _).mp hcall.opened
  have hnamed : ∃ f ∈ t.files, f.path = fr0.filepath.tail :=
    ⟨f, hf, by rw [hpath, List.tail_cons]⟩
  obtain ⟨i, hi, hidx, hname, -⟩ := getFileIndex_of_mem hnamed
  have hindex : fr0.index t = i := by rw [Frame.index, hidx, Int.toNat_natCast]
  have hmem : t.files[i] ∈ t.files := List.getElem_mem hi
  have hown : fr.filepath = slash :: t.files[i].path := by
    rw [hsame.filepath, hname, hpath, List.tail_cons]
  have hend : fileEnd t i = t.files[i].bytes.length := by
    have hlen := hfits _ hmem
    rw [fileEnd_eq, fileBytes_eq hi, toInt32_of_fits ⟨by omega, by omega⟩]
  have hsz : toInt32 fr0.size = fr0.size := toInt32_of_fits ⟨by omega, by omega⟩
  have hbytes : ret = ((t.files[i].bytes.drop fr.offset).take fr.size).length ∧
      fr.buf.take ret.toNat = (t.files[i].bytes.drop fr.offset).take fr.size := by
    rw [hindex] at h
    rw [hsame.offset, hsame.size]
    by_cases hlt : (fr0.offset : Int) < fileEnd t i
    · obtain ⟨n, hn, rfl, htake, -⟩ := h.2 hlt
      rw [hsz, hend] at hn
      rw [hend] at hlt
      rw [fileBytes_eq hi] at htake
      have hcut : (t.files[i].bytes.drop fr0.offset).take fr0.size =
          slice t.files[i].bytes fr0.offset n := by
        unfold slice
        rw [List.take_eq_take_iff, List.length_drop]
        omega
      rw [hcut, Int.toNat_natCast]
      refine ⟨?_, htake⟩
      rw [slice_length]
      omega
    · obtain ⟨rfl, -⟩ := h.1 (not_lt.mp hlt)
      rw [hend] at hlt
      have hnil : t.files[i].bytes.drop fr0.offset = [] := List.drop_eq_nil_of_le (by omega)
      simp [hnil]
  obtain ⟨hret, hdata⟩ := hbytes
  rw [hdata, hret, hown]
  exact .data (.file hmem)

/-- The answer that a step of a thread gives. -/
theorem Fares.returned (hs : sh.Sound t True)
    (hfits : ∀ f ∈ t.files, f.bytes.length ≤ 2147483647) (h : Fares t sh r rd) :
    ∀ e ∈ returned rd (rd.step lt r sh).2, Allows (Names t.files) e.1 e.2 := by
  intro e he
  unfold Mount.returned at he
  split at he
  · rename_i ret hbusy hdone
    obtain rfl := List.mem_singleton.mp he
    cases h with
    | rests hpc =>
        rw [hpc] at hbusy
        cases hbusy
    | reads fr0 hcall hsize h =>
        have hkeeps := rd.step_holds lt hcall.opened_index hs h
        have hfin := hkeeps.2.facts
        rw [hdone] at hfin
        exact allows_read hcall hsize hkeeps.2.call hfits (hfin trivial)
  · cases he

end Threads

/-! ## The sessions -/

section Sessions

variable {t : Torrent} (lt : TorrentInfo t) {ι : Type} [DecidableEq ι]

/-- The session and all its threads. -/
structure Fine (t : Torrent) (s : Sys ι) : Prop where
  session : s.session.Sound t True
  readers : ∀ r, Fares t s.session r (s.readers r)

theorem Fine.step {s : Sys ι} (h : Fine t s) {a : Action ι} (hok : a.Succeeds) :
    Fine t (s.step lt a) := by
  by_cases ha : ∃ r, a = .reader r
  · obtain ⟨r, rfl⟩ := ha
    obtain ⟨hc, hself⟩ := (h.readers r).step lt h.session
    refine ⟨hc.sound h.session, fun q => ?_⟩
    by_cases hq : q = r
    · rw [hq, (Sys.threaded lt).own_thread, Function.update_self]
      exact hself
    · have hne : Action.reader r ≠ .reader q := fun he => hq (Action.reader.inj he).symm
      rw [s.step_readers lt hne]
      exact (h.readers q).change hc fun he => hq (Option.some.inj he).symm
  · have hc : Session.Change t True s.session none (s.session.served t a) :=
      Session.served_change fun _ => hok
    rw [s.step_world lt (not_exists.mp ha)]
    exact ⟨hc.sound h.session, fun q => (h.readers q).change hc nofun⟩

end Sessions

/-! ## The file system -/

section Serving

variable {t : Torrent} (lt : TorrentInfo t) {ι : Type}

/-- The tables are those of `init_bitfs`, and all answers are right. -/
structure State.Serves (t : Torrent) (s : State ι) : Prop where
  fine : Fine t s.sys
  maps : s.maps = initBitfs t.files
  answered : ∀ e ∈ s.answered, Allows (Names t.files) e.1 e.2

theorem State.Serves.answer {s : State ι} (h : s.Serves t) {q : Request Str}
    {a : Answer Str UInt8} (ha : Allows (Names t.files) q a) : (s.answer q a).Serves t where
  fine := h.fine
  maps := h.maps
  answered e he := by
    rcases List.mem_cons.mp he with rfl | he
    · exact ha
    · exact h.answered e he

theorem Idle.serves {sys : Sys ι} (h : Idle t sys) : (mount t sys).Serves t := by
  have hready := h.session
  have hfree : (sys.initBitfs t).session.fsmtx = none :=
    (Session.initPriorities_fsmtx _ _).trans hready.free
  have hsound : (sys.initBitfs t).session.Sound t True := Session.initPriorities_sound hready.sound
  refine ⟨⟨hsound, fun r => .rests (h.rests r) ?_⟩, rfl, fun e he => by cases he⟩
  change (sys.initBitfs t).session.fsmtx ≠ some r
  rw [hfree]
  simp

variable [DecidableEq ι]

/-- A thread in no call can begin one. -/
theorem State.Serves.call {s : State ι} (h : s.Serves t) {r : ι} {fr : Frame}
    (hacc : s.Accepts t r fr) : Fine t (s.sys.call r fr) := by
  obtain ⟨hrests, hopened, hsize, hbuf, htemp⟩ := hacc
  have hcall : fr.Call t := by
    refine ⟨?_, hbuf, htemp⟩
    have hallows := h.answered _ hopened
    cases hallows with
    | opened hnames => exact hnames.openFile
  refine ⟨h.fine.session, fun q => ?_⟩
  by_cases hq : q = r
  · subst hq
    simp only [Sys.call, Function.update_self]
    refine .reads fr hcall hsize ⟨⟨rfl, rfl, rfl, rfl, rfl⟩, ?_, rfl⟩
    cases h.fine.readers q with
    | rests _ hout => exact hout
    | reads fr0 _ _ hholds =>
        have hmutex := hholds.mutex
        cases hpc : (s.sys.readers q).pc with
        | done ret =>
            rw [hpc] at hmutex
            exact hmutex
        | _ => simp [Mount.rests, hpc] at hrests
  · simpa only [Sys.call, Function.update_of_ne hq] using h.fine.readers q

/-- Every action leaves only right answers. -/
theorem State.Serves.step (hpf : PrefixFree t.files) (hd : DistinctPaths t.files)
    (hfits : ∀ f ∈ t.files, f.bytes.length ≤ 2147483647) {s : State ι} (h : s.Serves t)
    {a : Act ι} (ha : a.Succeeds) : (s.step lt a).Serves t := by
  cases a with
  | getattr path =>
      rw [State.step, h.maps]
      exact h.answer (allows_stat lt hpf hd hfits path.property)
  | openFile path =>
      rw [State.step, h.maps]
      exact h.answer (allows_open path.val)
  | readdir path =>
      rw [State.step, h.maps]
      have hans := h.answer (allows_list (t := t) path.property)
      exact ⟨hans.fine, step_initBitfs t.files (.readdir path.val), hans.answered⟩
  | read r fr =>
      rw [State.step]
      split
      · rename_i hacc
        exact ⟨h.call hacc, h.maps, h.answered⟩
      · exact h
  | go a =>
      have hfine := h.fine.step lt (a := a) ha
      cases a with
      | reader r =>
          refine ⟨hfine, h.maps, fun e he => ?_⟩
          rcases List.mem_append.mp he with he | he
          · rw [(Sys.threaded lt).own_thread, Function.update_self] at he
            exact (h.fine.readers r).returned lt h.fine.session hfits e he
          · exact h.answered e he
      | complete p => exact ⟨hfine, h.maps, h.answered⟩
      | answer k failed => exact ⟨hfine, h.maps, h.answered⟩
      | post => exact ⟨hfine, h.maps, h.answered⟩

/-- A torrent without nested or doubled paths is a tree in which each path names one node, and
as long as libtorrent's reads succeed the mounted file system gives all callers the answers of
that tree and no others, in every interleaving, exactly if all file lengths fit an `int`. -/
theorem mount_serves_tree_iff (hpf : PrefixFree t.files) (hd : DistinctPaths t.files)
    {sys : Sys ι} (h0 : Idle t sys) :
    OneNode (Names t.files) ∧
    ((∀ s, Reaches (State.step lt) Act.Succeeds (mount t sys) s →
        ∀ e ∈ s.answered, Allows (Names t.files) e.1 e.2) ↔
      ∀ f ∈ t.files, f.bytes.length ≤ 2147483647) := by
  have hone := names_oneNode hpf hd
  refine ⟨hone, ?_, ?_⟩
  · intro hall f hf
    have hstat := hall _ ⟨[.getattr ⟨slash :: f.path, rfl⟩], by simp [Act.Succeeds], rfl⟩ _
      List.mem_cons_self
    change Allows _ _ (statAnswer (getattr lt.toFileStorage (initBitfs t.files) _)) at hstat
    rw [Bitfs.getattr_own lt hpf hd hf, statAnswer_regular] at hstat
    have hsame := hstat.same hone (.isFile (Names.file hf))
    have hsize : toInt32 f.bytes.length = f.bytes.length := Answer.isFile.inj hsame
    have hmax := (toInt32_fits (f.bytes.length : Int)).2
    omega
  · intro hfits s hs
    exact (hs.invariant (I := State.Serves t) _
      (fun _ _ h ha => h.step lt hpf hd hfits ha) h0.serves).answered

end Serving

/-- One thread, in no call, and the torrent of one byte. -/
def oneByteIdle : Sys Unit :=
  ⟨oneByteStart.session, fun _ => ⟨(oneByteStart.readers ()).frame, .done 0⟩⟩

/-- `/a` is opened and read. -/
def openAndRead : List (Act Unit) :=
  [.openFile ⟨str ['/', 'a'], rfl⟩, .go (.complete 0), .read () (oneByteStart.readers ()).frame] ++
    List.replicate 10 (.go (.reader ())) ++ [.go (.answer 0 false)] ++
    List.replicate 5 (.go (.reader ()))

theorem mount_serves_tree_iff_oneByte :
    Allows (Names oneByte.files) (.read (str ['/', 'a']) 1 0) (.data 1 [7]) := by
  have hidle : Idle oneByte oneByteIdle := ⟨oneByteStart_initial.session, fun _ => rfl⟩
  have hfits : ∀ f ∈ oneByte.files, f.bytes.length ≤ 2147483647 := by decide
  have hans : (Request.read (str ['/', 'a']) 1 0, Answer.data 1 [7]) ∈
      (run (State.step (.reference oneByte)) (mount oneByte oneByteIdle)
        openAndRead).answered := by decide +kernel
  exact (mount_serves_tree_iff (.reference oneByte) (prefixFree_singleton _)
    (List.nodup_singleton _) hidle).2.mpr hfits _
    ⟨openAndRead, by simp [openAndRead, Act.Succeeds, Action.Succeeds], rfl⟩ _ hans

end BitFS.Mount
