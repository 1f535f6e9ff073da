import BitFS.Bitfs.Attributes
import BitFS.Library.FileTree
import BitFS.Read.Sequential

/-! # The tree that a torrent stands for

A torrent is mounted so that its files can be read under their paths. The tree
says what that means without any table; the lookups of FS.cpp answer as it does.
-/

namespace BitFS.Mount

open MachineInt BitFS.Tree BitFS.Read FileTree

/-- What a path names: the directories that lead to files, each with what lies in it,
and the files with their bytes. -/
inductive Names (files : List FileEntry) : Str → Node Str UInt8 → Prop where
  | dir {ds : List Str} (h : IsDir files ds) :
      Names files (absPath ds) (.dir {c | IsNode files (ds ++ [c])})
  | file {f : FileEntry} (h : f ∈ files) : Names files (slash :: f.path) (.file f.bytes)

/-! ## What is handed back to the caller -/

/-- `struct stat` as its reader takes it. -/
def statAnswer : Except Errno Stat → Answer Str UInt8
  | .ok st => if st.isDir then .isDir else .isFile st.st_size
  | .error .ENOENT => .noEntry

def openAnswer : Except Errno Unit → Answer Str UInt8
  | .ok () => .opened
  | .error .ENOENT => .noEntry

def listAnswer : Except Errno (List Str × Maps) → Answer Str UInt8
  | .ok (names, _) => .names names
  | .error .ENOENT => .noEntry

theorem statAnswer_directory (st_nlink : Nat) (st_size : Int) :
    statAnswer (.ok ⟨S_IFDIR ||| 0o755, st_nlink, st_size⟩) = .isDir := by
  have hdir : Stat.isDir ⟨S_IFDIR ||| 0o755, st_nlink, st_size⟩ := by
    simp only [Stat.isDir]
    decide
  exact if_pos hdir

theorem statAnswer_regular (st_nlink : Nat) (st_size : Int) :
    statAnswer (.ok ⟨S_IFREG ||| 0o444, st_nlink, st_size⟩) = .isFile st_size := by
  have hreg : ¬ Stat.isDir ⟨S_IFREG ||| 0o444, st_nlink, st_size⟩ := by
    simp only [Stat.isDir]
    decide
  exact if_neg hreg

/-! ## Paths and keys -/

section Keys

variable {files : List FileEntry} {path : Str}

theorem Names.hasDir {s : Set Str} (h : Names files path (.dir s)) :
    hasDir (initBitfs files) (strpath path) = true := by
  cases h with
  | dir hds =>
      rw [strpath_absPath hds.isNode.ne_nil_of_mem]
      exact (hasDir_dirKey hds.isNode.slash_not_mem).mpr hds

theorem Names.hasFile {bs : List UInt8} (h : Names files path (.file bs)) :
    hasFile (initBitfs files) (strpath path) = true := by
  cases h with
  | file hf =>
      rw [strpath_path]
      exact (hasFile_dirKey (FileEntry.slash_not_mem_names _)).mpr ⟨_, hf, rfl⟩

theorem Names.openFile {bs : List UInt8} (h : Names files path (.file bs)) :
    Tree.openFile (initBitfs files) path = .ok () := by
  cases h with
  | file hf => exact (openFile_ok_iff _).mpr ⟨_, hf, rfl⟩

/-- The directory under an absolute path. -/
theorem exists_dir (habs : path.head? = some slash)
    (h : Tree.hasDir (initBitfs files) (strpath path) = true) :
    ∃ ds, IsDir files ds ∧ path = absPath ds ∧ strpath path = dirKey ds := by
  obtain ⟨ds, hds, hkey⟩ := (hasDir_iff _).mp h
  exact ⟨ds, hds, eq_absPath_of_strpath habs hkey, hkey⟩

end Keys

section WellFormed

variable {t : Torrent} (hpf : PrefixFree t.files) (hd : DistinctPaths t.files)

include hpf hd in
theorem names_oneNode : OneNode (Names t.files) := by
  intro p n n' h h'
  cases h with
  | @dir ds hds =>
      have hdir := (Names.dir hds).hasDir
      generalize hp : absPath ds = p at h' hdir
      cases h' with
      | @dir es hes =>
          have hkey := congrArg strpath hp
          rw [strpath_absPath hds.isNode.ne_nil_of_mem,
            strpath_absPath hes.isNode.ne_nil_of_mem] at hkey
          rw [dirKey_inj hds.isNode.slash_not_mem hes.isNode.slash_not_mem hkey]
      | file hf =>
          have hfile := (Names.file hf).hasFile
          rw [hpf.not_hasFile hdir] at hfile
          cases hfile
  | @file f hf =>
      have hfile := (Names.file hf).hasFile
      generalize hp : slash :: f.path = p at h' hfile
      cases h' with
      | dir hds =>
          have hdir := (Names.dir hds).hasDir
          rw [hpf.not_hasFile hdir] at hfile
          cases hfile
      | @file f' hf' =>
          have hsame : f = f' := List.inj_on_of_nodup_map hd hf hf' (List.cons.inj hp).2
          rw [hsame]

end WellFormed

/-! ## The lookups -/

section Lookups

variable {t : Torrent} (lt : TorrentInfo t) {path : Str}

include lt in
theorem allows_stat (hpf : PrefixFree t.files) (hd : DistinctPaths t.files)
    (hfits : ∀ f ∈ t.files, f.bytes.length ≤ 2147483647) (habs : path.head? = some slash) :
    Allows (Names t.files) (.stat path)
      (statAnswer (getattr lt.toFileStorage (initBitfs t.files) path)) := by
  cases hdir : hasDir (initBitfs t.files) (strpath path) with
  | true =>
      obtain ⟨ds, hds, rfl, -⟩ := exists_dir habs hdir
      rw [getattr, if_pos hdir, statAnswer_directory]
      exact .isDir (.dir hds)
  | false =>
      cases hfile : hasFile (initBitfs t.files) (strpath path) with
      | true =>
          obtain ⟨f, hf, rfl⟩ := Bitfs.exists_path_of_hasFile hfile
          have hlen := hfits f hf
          rw [Bitfs.getattr_own lt hpf hd hf, toInt32_of_fits ⟨by omega, by omega⟩,
            statAnswer_regular]
          exact .isFile (Names.file hf)
      | false =>
          have hans : getattr lt.toFileStorage (initBitfs t.files) path = .error .ENOENT := by
            simp [getattr, hdir, hfile]
          rw [hans]
          apply Allows.noStat
          intro n hn
          cases n with
          | dir s =>
              rw [hn.hasDir] at hdir
              cases hdir
          | file bs =>
              rw [hn.hasFile] at hfile
              cases hfile

theorem allows_open (path : Str) :
    Allows (Names t.files) (.openFile path) (openAnswer (openFile (initBitfs t.files) path)) := by
  cases hopen : openFile (initBitfs t.files) path with
  | ok _ =>
      obtain ⟨f, hf, rfl⟩ := (openFile_ok_iff path).mp hopen
      exact .opened (.file hf)
  | error e =>
      cases e
      apply Allows.noOpen
      intro bs hn
      rw [hn.openFile] at hopen
      cases hopen

theorem allows_list (habs : path.head? = some slash) :
    Allows (Names t.files) (.list path) (listAnswer (readdir (initBitfs t.files) path)) := by
  cases hread : readdir (initBitfs t.files) path with
  | ok r =>
      obtain ⟨names, g⟩ := r
      obtain ⟨hdir, -, hnodup, hmem⟩ := readdir_ok hread
      obtain ⟨ds, hds, rfl, hkey⟩ := exists_dir habs hdir
      refine .names (.dir hds) hnodup fun c => ?_
      rw [hmem, hkey, lists_dirKey_iff hds.isNode.slash_not_mem]
      rfl
  | error e =>
      cases e
      apply Allows.noList
      intro s hn
      obtain ⟨r, hr⟩ := (readdir_ok_iff path).mpr hn.hasDir
      rw [hr] at hread
      cases hread

end Lookups

end BitFS.Mount
