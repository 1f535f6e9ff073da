import BitFS.Read.Reachable
import BitFS.Tree.Kinds

/-! # The attributes in bitFS.cpp

The older `bitfs_getattr` looks in the same tables as `FS::getattr`, but tells the size of the
whole torrent for each of its files. It is not cut down to an `int`.
-/

namespace BitFS.Bitfs

open MachineInt BitFS.Tree

/-- `bitfs_getattr`. -/
def bitfsGetattr (t : Torrent) (g : Maps) (path : Str) : Except Errno Stat :=
  if hasDir g (strpath path) then
    .ok { st_mode := S_IFDIR ||| 0o755, st_nlink := 2, st_size := 0 }
  else if hasFile g (strpath path) then
    .ok { st_mode := S_IFREG ||| 0o444, st_nlink := 1, st_size := t.content.length }
  else .error .ENOENT

/-- Every file is a regular file under its own path, with its true size. -/
def TellsSizes (t : Torrent) (stat : Str → Except Errno Stat) : Prop :=
  ∀ f ∈ t.files, ∃ st, stat (slash :: f.path) = .ok st ∧ st.isReg ∧ st.st_size = f.bytes.length

/-! ## The files of a torrent -/

section Files

variable {t : Torrent}

theorem length_le_content {f : FileEntry} (hf : f ∈ t.files) :
    f.bytes.length ≤ t.content.length := by
  obtain ⟨i, hi, rfl⟩ := List.getElem_of_mem hf
  have hle := t.fileStart_add_length_le hi
  omega

/-- Each file is as long as all together only if it is alone or nothing is in them. -/
theorem all_whole_iff :
    (∀ f ∈ t.files, f.bytes.length = t.content.length) ↔
      t.content = [] ∨ t.files.length = 1 := by
  cases hfiles : t.files with
  | nil => simp [Torrent.content, hfiles]
  | cons f rest =>
      have hcontent : t.content = f.bytes ++ rest.flatMap FileEntry.bytes := by
        rw [Torrent.content, hfiles, List.flatMap_cons]
      have hlen := congrArg List.length hcontent
      rw [List.length_append] at hlen
      constructor
      · intro hall
        have hwhole := hall f List.mem_cons_self
        cases rest with
        | nil => exact Or.inr rfl
        | cons g rest =>
            have hother := hall g (List.mem_cons_of_mem _ List.mem_cons_self)
            rw [List.flatMap_cons, List.length_append] at hlen
            exact Or.inl (List.eq_nil_of_length_eq_zero (by omega))
      · rintro (hnil | hone) g hg
        · have hle := length_le_content (hfiles ▸ hg)
          rw [hnil, List.length_nil] at hle ⊢
          omega
        · have hrest : rest = [] := by simpa using hone
          subst hrest
          rw [List.mem_singleton.mp hg, hlen]
          simp

/-- The paths of files are those that they spell. -/
theorem exists_path_of_hasFile {path : Str}
    (h : hasFile (initBitfs t.files) (strpath path) = true) :
    ∃ f ∈ t.files, path = slash :: f.path := by
  obtain ⟨ds, ⟨f, hf, rfl⟩, hkey⟩ := (hasFile_iff _).mp h
  refine ⟨f, hf, ?_⟩
  have hpath : f.path ≠ [] := intercalate_ne_nil f.names_ne f.nonempty_of_mem_names
  have hne : slash :: f.path ≠ [slash] := fun heq => hpath (List.cons.inj heq).2
  rw [← strpath_path f, strpath, strpath, if_neg hne] at hkey
  split at hkey
  · rename_i hroot
    rw [hroot, List.cons_append] at hkey
    have hnil := (List.cons.inj hkey).2
    simp at hnil
  · exact List.append_cancel_right hkey

end Files

/-! ## The two programs -/

section Getattr

variable {t : Torrent} (lt : TorrentInfo t)

theorem isReg_regular (st_nlink : Nat) (st_size : Int) :
    Stat.isReg ⟨S_IFREG ||| 0o444, st_nlink, st_size⟩ := by
  simp only [Stat.isReg]
  decide

/-- The two look at the tables alike. -/
theorem bitfsGetattr_eq (g : Maps) (path : Str) :
    bitfsGetattr t g path = (getattr lt.toFileStorage g path).map fun st =>
      if st.isReg then { st with st_size := t.content.length } else st := by
  unfold bitfsGetattr getattr
  split
  · rfl
  · split
    · dsimp only [Except.map]
      rw [if_pos (isReg_regular _ _)]
    · rfl

section WellFormed

variable (hpf : PrefixFree t.files) (hpaths : (t.files.map FileEntry.path).Nodup)
include hpf hpaths

theorem getattr_own {f : FileEntry} (hf : f ∈ t.files) :
    getattr lt.toFileStorage (initBitfs t.files) (slash :: f.path) =
      .ok ⟨S_IFREG ||| 0o444, 1, toInt32 f.bytes.length⟩ := by
  have hd : hasDir (initBitfs t.files) (dirKey f.names) = false := by
    rw [Bool.eq_false_iff]
    intro hd
    have hnot := hpf.not_hasFile hd
    rw [(hasFile_dirKey f.slash_not_mem_names).mpr ⟨f, hf, rfl⟩] at hnot
    cases hnot
  obtain ⟨i, hi, hpath, hstat⟩ := getattr_own_path lt.toFileStorage hf hd
  have hsame : t.files[i] = f :=
    List.inj_on_of_nodup_map hpaths (List.getElem_mem hi) hf hpath
  rw [hstat, hsame]

theorem bitfsGetattr_own {f : FileEntry} (hf : f ∈ t.files) :
    bitfsGetattr t (initBitfs t.files) (slash :: f.path) =
      .ok ⟨S_IFREG ||| 0o444, 1, t.content.length⟩ := by
  rw [bitfsGetattr_eq (TorrentInfo.reference t), getattr_own _ hpf hpaths hf]
  dsimp only [Except.map]
  rw [if_pos (isReg_regular _ _)]

theorem tellsSizes_iff :
    TellsSizes t (getattr lt.toFileStorage (initBitfs t.files)) ↔
      ∀ f ∈ t.files, f.bytes.length ≤ 2147483647 := by
  apply forall₂_congr
  intro f hf
  rw [getattr_own lt hpf hpaths hf]
  have hfits := toInt32_eq_self_iff (x := (f.bytes.length : Int)) (by omega)
  constructor
  · rintro ⟨st, hst, -, hsize⟩
    cases hst
    dsimp only at hsize
    have hle := hfits.mp hsize
    omega
  · intro hle
    refine ⟨_, rfl, isReg_regular _ _, ?_⟩
    dsimp only
    exact hfits.mpr (by omega)

theorem bitfs_tellsSizes_iff :
    TellsSizes t (bitfsGetattr t (initBitfs t.files)) ↔
      t.content = [] ∨ t.files.length = 1 := by
  rw [← all_whole_iff]
  apply forall₂_congr
  intro f hf
  rw [bitfsGetattr_own hpf hpaths hf]
  constructor
  · rintro ⟨st, hst, -, hsize⟩
    cases hst
    dsimp only at hsize
    omega
  · intro hwhole
    exact ⟨_, rfl, isReg_regular _ _, congrArg Nat.cast hwhole.symm⟩

/-- The programs agree about every path exactly where both tell the true sizes: bitFS.cpp does if
the torrent has no bytes or one file, FS.cpp if no file is too long for an `int`. -/
theorem bitfs_getattr_agrees_iff :
    ((∀ path, bitfsGetattr t (initBitfs t.files) path =
        getattr lt.toFileStorage (initBitfs t.files) path) ↔
      TellsSizes t (bitfsGetattr t (initBitfs t.files)) ∧
        TellsSizes t (getattr lt.toFileStorage (initBitfs t.files))) ∧
      (TellsSizes t (bitfsGetattr t (initBitfs t.files)) ↔
        t.content = [] ∨ t.files.length = 1) ∧
      (TellsSizes t (getattr lt.toFileStorage (initBitfs t.files)) ↔
        ∀ f ∈ t.files, f.bytes.length ≤ 2147483647) := by
  have hold := bitfs_tellsSizes_iff hpf hpaths
  have hnew := tellsSizes_iff lt hpf hpaths
  refine ⟨?_, hold, hnew⟩
  rw [hold, ← all_whole_iff, hnew]
  constructor
  · intro hagree
    rw [← forall₂_and]
    intro f hf
    have hsame := hagree (slash :: f.path)
    rw [bitfsGetattr_own hpf hpaths hf, getattr_own lt hpf hpaths hf, Except.ok.injEq,
      Stat.mk.injEq] at hsame
    have hsize : (t.content.length : Int) = toInt32 f.bytes.length := hsame.2.2
    have hle := length_le_content hf
    have hcut := toInt32_le (x := (f.bytes.length : Int)) (by omega)
    have hmax := (toInt32_fits (f.bytes.length : Int)).2
    omega
  · rintro ⟨hwhole, hshort⟩ path
    rw [bitfsGetattr_eq lt]
    cases hst : getattr lt.toFileStorage (initBitfs t.files) path with
    | error e => rfl
    | ok st =>
        dsimp only [Except.map]
        by_cases hreg : st.isReg
        · have hfile := ((getattr_reg_iff lt.toFileStorage path).mp ⟨st, hst, hreg⟩).2
          obtain ⟨f, hf, rfl⟩ := exists_path_of_hasFile hfile
          rw [getattr_own lt hpf hpaths hf] at hst
          cases hst
          have hfits : Fits32 (f.bytes.length : Int) := by
            have hle := hshort f hf
            exact ⟨by omega, by omega⟩
          rw [if_pos hreg, toInt32_of_fits hfits, hwhole f hf]
        · rw [if_neg hreg]

end WellFormed

end Getattr

/-! Two files `a` and `b` of one byte each. -/

section TwoFiles

theorem singleton_fits (b : UInt8) : [b].length < 2 ^ 63 := by simp

def twoFiles : Torrent where
  files := [.a [8] (singleton_fits 8), ⟨[.b], List.cons_ne_nil _ _, [9], singleton_fits 9⟩]
  pieceLength := Read.oneByte.pieceLength
  pieceLength_pos := Read.oneByte.pieceLength_pos
  pieceLength_fits := Read.oneByte.pieceLength_fits
  numPieces_fits := by decide

theorem twoFiles_prefixFree : PrefixFree twoFiles.files := by
  intro f hf f' hf' hpre
  simp only [twoFiles, List.mem_cons, List.not_mem_nil, or_false] at hf hf'
  rcases hf with rfl | rfl <;> rcases hf' with rfl | rfl
  · rfl
  · exact absurd hpre (by decide)
  · exact absurd hpre (by decide)
  · rfl

theorem bitfs_getattr_agrees_iff_twoFiles :
    ((∀ path, bitfsGetattr twoFiles (initBitfs twoFiles.files) path =
        getattr (FileStorage.reference twoFiles.files) (initBitfs twoFiles.files) path) ↔
      TellsSizes twoFiles (bitfsGetattr twoFiles (initBitfs twoFiles.files)) ∧
        TellsSizes twoFiles
          (getattr (FileStorage.reference twoFiles.files) (initBitfs twoFiles.files))) ∧
      (TellsSizes twoFiles (bitfsGetattr twoFiles (initBitfs twoFiles.files)) ↔
        twoFiles.content = [] ∨ twoFiles.files.length = 1) ∧
      (TellsSizes twoFiles
          (getattr (FileStorage.reference twoFiles.files) (initBitfs twoFiles.files)) ↔
        ∀ f ∈ twoFiles.files, f.bytes.length ≤ 2147483647) :=
  bitfs_getattr_agrees_iff (TorrentInfo.reference twoFiles) twoFiles_prefixFree (by decide)

end TwoFiles

end BitFS.Bitfs
