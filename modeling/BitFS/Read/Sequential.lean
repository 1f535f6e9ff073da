import BitFS.Read.Progress

/-! # Reading a file from front to back

One thread calls `read` again and again, each time where the last call ended,
until a call returns 0; other threads go on as they like. The concatenated
results end where `get_file_size` says the file ends, which is its real end
exactly for the lengths that fit an `int`.
-/

namespace BitFS.Read

open MachineInt Memory BitFS.Tree Transition

variable {t : Torrent} (lt : TorrentInfo t) {ι : Type} [DecidableEq ι]

/-- Thread `me` calls `read` (again). -/
def Sys.call (s : Sys ι) (me : ι) (fr : Frame) : Sys ι :=
  { s with readers := Function.update s.readers me ⟨fr, .entry⟩ }

/-- A call for `size` bytes of `path` at `offset`. -/
structure Frame.Asks (t : Torrent) (path : Str) (size offset : Nat) (fr : Frame) : Prop where
  call : fr.Call t
  filepath : fr.filepath = path
  size : fr.size = size
  offset : fr.offset = offset

/-- `SeqRead lt me path sizes s offset data`: the calls of thread `me` on `path` from
`offset` on, the `k`-th for `sizes k` bytes, return `data` before the first 0. -/
inductive SeqRead (me : ι) (path : Str) : (Nat → Nat) → Sys ι → Nat → List UInt8 → Prop
  | last {sizes : Nat → Nat} {s s' : Sys ι} {offset : Nat} {fr : Frame}
      (hcall : fr.Asks t path (sizes 0) offset)
      (hrun : Reaches (Sys.step lt) Action.Succeeds (s.call me fr) s')
      (hret : (s'.readers me).pc = .done 0) : SeqRead me path sizes s offset []
  | next {sizes : Nat → Nat} {s s' : Sys ι} {offset : Nat} {fr : Frame} {ret : Int}
      {data : List UInt8} (hcall : fr.Asks t path (sizes 0) offset)
      (hrun : Reaches (Sys.step lt) Action.Succeeds (s.call me fr) s')
      (hret : (s'.readers me).pc = .done ret) (hne : ret ≠ 0)
      (hrest : SeqRead me path (fun k => sizes (k + 1)) s' (offset + ret.toNat) data) :
      SeqRead me path sizes s offset ((s'.readers me).frame.buf.take ret.toNat ++ data)

/-- Thread `me` is not inside a call. -/
def Sys.Idle (s : Sys ι) (me : ι) : Prop :=
  (s.readers me).pc = .entry ∨ ∃ ret, (s.readers me).pc = .done ret

theorem Sys.Inv.call {calls : ι → Frame} {s : Sys ι} (h : Sys.Inv t True calls s) {me : ι}
    (hidle : s.Idle me) {fr : Frame} (hfr : fr.Call t) :
    Sys.Inv t True (Function.update calls me fr) (s.call me fr) := by
  refine ⟨h.session, fun r => ?_, fun r => ?_⟩
  · by_cases hr : r = me
    · rw [hr, Function.update_self]
      exact hfr
    · rw [Function.update_of_ne hr]
      exact h.called r
  · by_cases hr : r = me
    · subst hr
      have hmutex := (h.readers r).mutex
      simp only [Sys.call, Function.update_self]
      refine ⟨⟨rfl, rfl, rfl, rfl, rfl⟩, ?_, rfl⟩
      rcases hidle with hpc | ⟨ret, hpc⟩
      all_goals
        rw [hpc] at hmutex
        exact hmutex
    · simpa only [Sys.call, Function.update_of_ne hr] using h.readers r

section Call

variable {calls : ι → Frame} {s s' : Sys ι} {me : ι} {path : Str} {size offset i : Nat}
  {fr : Frame}

/-- What one call of the sequence returns. -/
theorem Frame.Asks.result (hcall : fr.Asks t path size offset) (h : Sys.Inv t True calls s)
    (hidle : s.Idle me) (hrun : Reaches (Sys.step lt) Action.Succeeds (s.call me fr) s')
    (hi : getFileIndex t.files path = i) :
    ∃ calls', Sys.Inv t True calls' s' ∧ i < t.files.length ∧
      ∀ ret, (s'.readers me).pc = .done ret → Finished t fr i (s'.readers me).frame ret := by
  obtain ⟨acts, hacts, hend⟩ := hrun
  have hinv := (h.call hidle hcall.call).reaches lt ⟨acts, fun a ha _ => hacts a ha, hend⟩
  have hindex : fr.index t = i := by rw [Frame.index, hcall.filepath, hi, Int.toNat_natCast]
  refine ⟨_, hinv, hindex ▸ hcall.call.opened_index.index_lt, fun ret hret => ?_⟩
  have hfin := hinv.finished hret
  rwa [Function.update_self, hindex] at hfin

/-- A call for at least one byte returns 0 at the end of the file and else the next bytes. -/
theorem Frame.Asks.progress (hcall : fr.Asks t path size offset) (hsize : 1 ≤ size)
    (hfits : size ≤ 2147483647) {ret : Int} {fr' : Frame} (hfin : Finished t fr i fr' ret) :
    (ret = 0 ∧ (fileEnd t i).toNat ≤ offset) ∨
      (1 ≤ ret ∧ offset + ret.toNat ≤ (fileEnd t i).toNat ∧
        fr'.buf.take ret.toNat = slice (fileBytes t i) offset ret.toNat) := by
  have hoff := hcall.offset
  by_cases hlt : (fr.offset : Int) < fileEnd t i
  · obtain ⟨n, hn, rfl, htake, -⟩ := hfin.2 hlt
    have hsz : toInt32 fr.size = size := by
      rw [hcall.size]
      exact toInt32_of_fits ⟨by omega, by omega⟩
    rw [hsz] at hn
    rw [hoff] at htake
    exact Or.inr ⟨by omega, by omega, htake⟩
  · exact Or.inl ⟨(hfin.1 (not_lt.mp hlt)).1, by omega⟩

end Call

section Sequence

variable {calls : ι → Frame} {s : Sys ι} {me : ι} {path : Str} {sizes : Nat → Nat}
  {offset i : Nat}

/-- The data of a sequence reaches from its start to the end that `get_file_size` gives. -/
theorem SeqRead.data_eq {data : List UInt8} (hseq : SeqRead lt me path sizes s offset data)
    (h : Sys.Inv t True calls s) (hidle : s.Idle me) (hi : getFileIndex t.files path = i)
    (hsizes : ∀ k, 1 ≤ sizes k ∧ sizes k ≤ 2147483647) :
    data = slice (fileBytes t i) offset ((fileEnd t i).toNat - offset) := by
  induction hseq generalizing calls with
  | last hcall hrun hret =>
      obtain ⟨-, -, -, hfin⟩ := hcall.result lt h hidle hrun hi
      rcases hcall.progress (hsizes 0).1 (hsizes 0).2 (hfin _ hret) with ⟨-, hend⟩ | ⟨hpos, -⟩
      · rw [Nat.sub_eq_zero_of_le hend, slice_zero]
      · omega
  | @next sizes s s' offset fr ret data hcall hrun hret hne hrest ih =>
      obtain ⟨calls', hinv, -, hfin⟩ := hcall.result lt h hidle hrun hi
      rcases hcall.progress (hsizes 0).1 (hsizes 0).2 (hfin _ hret) with ⟨h0, -⟩ | ⟨-, hle, hbytes⟩
      · exact (hne h0).elim
      · rw [ih hinv (Or.inr ⟨ret, hret⟩) (fun k => hsizes (k + 1)), hbytes, slice_append]
        congr 1
        omega

/-- A frame for the next call. -/
theorem exists_asks (hopen : openFile (initBitfs t.files) path = .ok ()) (size offset : Nat) :
    ∃ fr : Frame, fr.Asks t path size offset :=
  ⟨{  filepath := path
      size := size
      offset := offset
      file_index := 0
      file_total_size := 0
      pr := ⟨0, 0, 0⟩
      piece_size := 0
      temp_buf := List.replicate t.pieceLength 0
      buf := List.replicate size 0
      curr_offset := 0
      remaining_size := 0
      read_ptr := 0
      required_pieces := ∅
      required_count := 0 },
    ⟨hopen, List.length_replicate, List.length_replicate⟩, rfl, rfl, rfl⟩

/-- Every sequence of sizes can be read to the end: each call returns. -/
theorem exists_seqRead [Fintype ι] (h : Sys.Inv t True calls s) (hidle : s.Idle me)
    (hopen : openFile (initBitfs t.files) path = .ok ()) (hi : getFileIndex t.files path = i)
    (hsizes : ∀ k, 1 ≤ sizes k ∧ sizes k ≤ 2147483647) :
    ∃ data, SeqRead lt me path sizes s offset data := by
  induction hn : (fileEnd t i).toNat - offset using Nat.strong_induction_on
    generalizing calls s sizes offset with
  | _ n ih =>
      obtain ⟨fr, hcall⟩ := exists_asks hopen (sizes 0) offset
      have hcalled := h.call hidle hcall.call
      obtain ⟨acts, hfair⟩ := exists_fair lt hcalled
      obtain ⟨m, hdone⟩ := hfair.all_done lt hcalled
      obtain ⟨ret, hret⟩ := hdone me
      have hrun := reaches_stateAt (Sys.step lt) (s.call me fr) hfair.succeeds m
      obtain ⟨calls', hinv, -, hfin⟩ := hcall.result lt h hidle hrun hi
      rcases hcall.progress (hsizes 0).1 (hsizes 0).2 (hfin _ hret) with ⟨h0, -⟩ | ⟨hpos, hle, -⟩
      · exact ⟨[], .last hcall hrun (h0 ▸ hret)⟩
      · have hless : (fileEnd t i).toNat - (offset + ret.toNat) < n := by omega
        obtain ⟨data, hdata⟩ := ih _ hless hinv (Or.inr ⟨ret, hret⟩) (fun k => hsizes (k + 1)) rfl
        exact ⟨_, .next hcall hrun hret (by omega) hdata⟩

end Sequence

/-! ## The whole file -/

/-- File paths are pairwise distinct. -/
def DistinctPaths (files : List FileEntry) : Prop := (files.map FileEntry.path).Nodup

section Whole

variable {i : Nat} (hi : i < t.files.length)

theorem openFile_own_path : openFile (initBitfs t.files) (slash :: t.files[i].path) = .ok () :=
  (openFile_ok_iff _).mpr ⟨_, List.getElem_mem hi, rfl⟩

theorem DistinctPaths.index_eq (hd : DistinctPaths t.files) {j : Nat} (hj : j < t.files.length)
    (h : t.files[j].path = t.files[i].path) : j = i := by
  have hfile : t.files[j] = t.files[i] :=
    List.inj_on_of_nodup_map hd (List.getElem_mem hj) (List.getElem_mem hi) h
  exact (List.Nodup.of_map _ hd).getElem_inj_iff.mp hfile

theorem DistinctPaths.getFileIndex_eq (hd : DistinctPaths t.files) :
    getFileIndex t.files (slash :: t.files[i].path) = i := by
  obtain ⟨j, hj, hidx, hpath, -⟩ : ∃ (j : Nat) (hj : j < t.files.length),
      getFileIndex t.files (slash :: t.files[i].path) = j ∧ t.files[j].path = t.files[i].path ∧ _ :=
    getFileIndex_of_mem ⟨_, List.getElem_mem hi, rfl⟩
  rw [hidx, hd.index_eq hi hj hpath]

theorem getattr_size (hpf : PrefixFree t.files) (hd : DistinctPaths t.files) :
    ∃ st, getattr lt.toFileStorage (initBitfs t.files) (slash :: t.files[i].path) = .ok st ∧
      st.st_size = fileEnd t i := by
  have hmem : t.files[i] ∈ t.files := List.getElem_mem hi
  have hnodir : hasDir (initBitfs t.files) (dirKey t.files[i].names) = false := by
    rw [Bool.eq_false_iff]
    intro hdir
    have hfile := (hasFile_dirKey t.files[i].slash_not_mem_names).mpr ⟨_, hmem, rfl⟩
    rw [hpf.not_hasFile hdir] at hfile
    cases hfile
  obtain ⟨j, hj, hpath, hattr⟩ := getattr_own_path lt.toFileStorage hmem hnodir
  obtain rfl := hd.index_eq hi hj hpath
  exact ⟨_, hattr, by rw [fileEnd_eq, fileBytes_eq hi]⟩

/-- Sequential reading returns the whole file, and as many bytes as `getattr` reports,
exactly if the length of the file fits an `int`. -/
theorem sequential_read_iff [Fintype ι] (hpf : PrefixFree t.files) (hd : DistinctPaths t.files)
    {s : Sys ι} (h0 : s.Initial t) (me : ι) {sizes : Nat → Nat}
    (hsizes : ∀ k, 1 ≤ sizes k ∧ sizes k ≤ 2147483647) :
    ((∃ data, SeqRead lt me (slash :: t.files[i].path) sizes s 0 data) ∧
      ∀ data, SeqRead lt me (slash :: t.files[i].path) sizes s 0 data →
        data = t.files[i].bytes ∧
        ∃ st, getattr lt.toFileStorage (initBitfs t.files) (slash :: t.files[i].path) = .ok st ∧
          st.st_size = data.length) ↔
      t.files[i].bytes.length ≤ 2147483647 := by
  have hidx := hd.getFileIndex_eq hi
  have hidle : s.Idle me := Or.inl (h0.entry me)
  have hdata : ∀ data, SeqRead lt me (slash :: t.files[i].path) sizes s 0 data →
      data = t.files[i].bytes.take (fileEnd t i).toNat := by
    intro data hseq
    rw [hseq.data_eq lt (h0.inv True) hidle hidx hsizes, fileBytes_eq hi, Nat.sub_zero, slice,
      List.drop_zero]
  have hend : fileEnd t i = toInt32 t.files[i].bytes.length := by rw [fileEnd_eq, fileBytes_eq hi]
  constructor
  · rintro ⟨⟨data, hseq⟩, hall⟩
    have hlen := congrArg List.length ((hall data hseq).1.symm.trans (hdata data hseq))
    rw [List.length_take] at hlen
    have hfit := (fileEnd_fits t i).2
    omega
  · intro hle
    have hend' : fileEnd t i = t.files[i].bytes.length :=
      hend.trans (toInt32_of_fits ⟨by omega, by omega⟩)
    refine ⟨exists_seqRead lt (h0.inv True) hidle (openFile_own_path hi) hidx hsizes,
      fun data hseq => ?_⟩
    have hwhole : data = t.files[i].bytes := by
      rw [hdata data hseq, hend', Int.toNat_natCast, List.take_length]
    obtain ⟨st, hattr, hsize⟩ := getattr_size lt hi hpf hd
    exact ⟨hwhole, st, hattr, by rw [hsize, hend', hwhole]⟩

theorem prefixFree_singleton (f : FileEntry) : PrefixFree [f] := by
  intro f1 h1 f2 h2 _
  rw [List.mem_singleton.mp h1, List.mem_singleton.mp h2]

theorem sequential_read_iff_oneByte :
    ((∃ data, SeqRead (.reference oneByte) () (slash :: oneByte.files[0].path) (fun _ => 1)
        oneByteStart 0 data) ∧
      ∀ data, SeqRead (.reference oneByte) () (slash :: oneByte.files[0].path) (fun _ => 1)
          oneByteStart 0 data →
        data = oneByte.files[0].bytes ∧
        ∃ st, getattr (FileStorage.reference oneByte.files) (initBitfs oneByte.files)
          (slash :: oneByte.files[0].path) = .ok st ∧ st.st_size = data.length) ↔
      oneByte.files[0].bytes.length ≤ 2147483647 :=
  sequential_read_iff (.reference oneByte) (by decide) (prefixFree_singleton _)
    (List.nodup_singleton _) oneByteStart_initial () (fun _ => by decide)

/-- A file `a` of 2^31 zero bytes. -/
def bigFile : FileEntry :=
  .a (List.replicate (2 ^ 31) 0) (by rw [List.length_replicate]; decide)

theorem bigFile_length : bigFile.bytes.length = 2 ^ 31 := List.length_replicate

/-- The torrent of that file, in pieces of 2 MiB. -/
def bigTorrent : Torrent where
  files := [bigFile]
  pieceLength := 2097152
  pieceLength_pos := by decide
  pieceLength_fits := by decide
  numPieces_fits := by
    rw [List.flatMap_cons, List.flatMap_nil, List.append_nil, bigFile_length]
    decide

/-- Reading it returns 0 at once. -/
theorem sequential_read_truncated :
    ¬ ∀ (s : Sys Unit) (data : List UInt8), s.Initial bigTorrent →
      SeqRead (.reference bigTorrent) () (slash :: bigFile.path) (fun _ => 1) s 0 data →
      data = bigFile.bytes := by
  intro h
  have hi : 0 < bigTorrent.files.length := by decide
  have hopen := openFile_own_path hi
  have hidx : getFileIndex bigTorrent.files (slash :: bigFile.path) = (0 : Nat) :=
    DistinctPaths.getFileIndex_eq hi (List.nodup_singleton _)
  obtain ⟨fr, hcall⟩ := exists_asks hopen 1 0
  have h0 : Sys.Initial bigTorrent ⟨oneByteStart.session, fun _ : Unit => ⟨fr, .entry⟩⟩ :=
    ⟨⟨⟨nofun, nofun, nofun, nofun⟩, rfl⟩, fun _ => rfl, fun _ => hcall.call⟩
  have hsizes : ∀ k : Nat, 1 ≤ (fun _ : Nat => 1) k ∧ (fun _ : Nat => 1) k ≤ 2147483647 :=
    fun _ => ⟨le_rfl, by norm_num⟩
  obtain ⟨data, hseq⟩ : ∃ data, SeqRead (.reference bigTorrent) () (slash :: bigFile.path)
      (fun _ => 1) _ 0 data :=
    exists_seqRead (.reference bigTorrent) (h0.inv True) (Or.inl (h0.entry ())) hopen hidx hsizes
  have hdata := hseq.data_eq _ (h0.inv True) (Or.inl (h0.entry ())) hidx hsizes
  have hend : fileEnd bigTorrent 0 = -2147483648 := by
    rw [fileEnd_eq, fileBytes_eq hi]
    change toInt32 bigFile.bytes.length = _
    rw [bigFile_length]
    decide
  have hlen := congrArg List.length (hdata.symm.trans (h _ data h0 hseq))
  rw [hend, bigFile_length, slice_length] at hlen
  omega

end Whole

end BitFS.Read
