import BitFS.Tree.Agreement

/-! # The kind of a path

`getattr` looks in `dirmap` first, `open` looks in `filenames` only and the
size comes from the first file with a matching path. The three agree on every
path exactly for the file lists in which no path is a directory of another and
equal paths have equal sizes.
-/

namespace BitFS.Tree

open MachineInt Separated

section Kinds

variable {files : List FileEntry} (lt : FileStorage files) (g : Maps)

/-- A directory to `getattr` and `readdir`, nothing to `open`. -/
def DirKind (path : Str) : Prop :=
  (∃ st, getattr lt g path = .ok st ∧ st.isDir) ∧ (∃ r, readdir g path = .ok r) ∧
    openFile g path = .error .ENOENT

/-- A regular file to `getattr` and `open`, nothing to `readdir`. -/
def FileKind (path : Str) : Prop :=
  (∃ st, getattr lt g path = .ok st ∧ st.isReg) ∧ openFile g path = .ok () ∧
    readdir g path = .error .ENOENT

/-- Nothing to all three. -/
def NoKind (path : Str) : Prop :=
  getattr lt g path = .error .ENOENT ∧ readdir g path = .error .ENOENT ∧
    openFile g path = .error .ENOENT

/-- Exactly one of the three. -/
def OneKind (path : Str) : Prop :=
  (DirKind lt g path ∨ FileKind lt g path ∨ NoKind lt g path) ∧
    ¬ (DirKind lt g path ∧ FileKind lt g path) ∧ ¬ (DirKind lt g path ∧ NoKind lt g path) ∧
    ¬ (FileKind lt g path ∧ NoKind lt g path)

end Kinds

/-- Every file is a regular file under its own name, with its own size. -/
def FilesReachable {files : List FileEntry} (lt : FileStorage files) (g : Maps) : Prop :=
  ∀ (i : Nat) (h : i < files.length), ∃ st,
    getattr lt g (slash :: files[i].path) = .ok st ∧ st.isReg ∧ st.st_size = getFileSize lt i

/-- No path is a directory prefix of another. -/
def PrefixFree (files : List FileEntry) : Prop :=
  ∀ f ∈ files, ∀ f' ∈ files, f.names <+: f'.names → f.names = f'.names

/-- Files with the same path have lengths with the same `int` value. -/
def SameSizes (files : List FileEntry) : Prop :=
  ∀ f ∈ files, ∀ f' ∈ files, f.path = f'.path →
    toInt32 f.bytes.length = toInt32 f'.bytes.length

section Index

variable {files : List FileEntry}

/-- A path that names a file has the index of the first such file. -/
theorem getFileIndex_of_mem {path : Str} (h : ∃ f ∈ files, f.path = path.tail) :
    ∃ (i : Nat) (hi : i < files.length), getFileIndex files path = i ∧
      files[i].path = path.tail ∧ ∀ (j : Nat) (hj : j < i), files[j].path ≠ path.tail := by
  obtain ⟨f, hf, hp⟩ := h
  unfold getFileIndex
  cases hfind : files.findIdx? (fun f => f.path = path.tail) with
  | none =>
      have hnone := List.findIdx?_eq_none_iff.mp hfind f hf
      simp [hp] at hnone
  | some i =>
      obtain ⟨hi, hpi, hbefore⟩ := List.findIdx?_eq_some_iff_getElem.mp hfind
      refine ⟨i, hi, rfl, by simpa using hpi, ?_⟩
      intro j hj
      simpa using hbefore j hj

theorem getFileSize_natCast (lt : FileStorage files) {i : Nat} (hi : i < files.length) :
    getFileSize lt i = toInt32 files[i].bytes.length := by
  rw [getFileSize, lt.file_size_eq i hi]

end Index

section Iff

variable {files : List FileEntry} (lt : FileStorage files)

/-- The lookup key `getattr` uses for a file's own path. -/
theorem strpath_path (f : FileEntry) : strpath (slash :: f.path) = dirKey f.names := by
  have h := strpath_absPath f.nonempty_of_mem_names
  rwa [absPath, if_neg f.names_ne] at h

theorem not_isFile_nil : ¬ IsFile files [] := by
  rintro ⟨f, -, hf⟩
  exact f.names_ne hf

/-- `open` refuses the root, whatever the list. -/
theorem hasFile_double_slash : hasFile (initBitfs files) [slash, slash] = false := by
  rw [Bool.eq_false_iff, Ne, hasFile_iff]
  rintro ⟨ds, hds, h⟩
  obtain ⟨f, -, rfl⟩ := hds
  cases hn : f.names with
  | nil => exact f.names_ne hn
  | cons p ps =>
      have hp := f.nonempty_of_mem_names p (by simp [hn])
      have hlen := congrArg List.length h
      have hpl := List.length_pos_iff.mpr hp
      simp only [hn, dirKey, terminated_cons, List.length_cons, List.length_append,
        List.length_nil] at hlen
      omega

/-- Outside the root `open` and `getattr` look for the same key. -/
theorem openFile_eq (path : Str) :
    openFile (initBitfs files) path =
      if hasFile (initBitfs files) (strpath path) then .ok () else .error .ENOENT := by
  unfold openFile strpath
  by_cases hroot : path = [slash]
  · have hf : hasFile (initBitfs files) [slash] = false := by
      rw [Bool.eq_false_iff, Ne, show [slash] = dirKey [] from rfl,
        hasFile_dirKey (by simp)]
      exact not_isFile_nil
    simp [hroot, hasFile_double_slash, hf]
  · rw [if_neg hroot]

/-- Without nested files no key is a directory and a file at once. -/
theorem PrefixFree.not_hasFile (hpf : PrefixFree files) {key : Str}
    (hd : hasDir (initBitfs files) key = true) : hasFile (initBitfs files) key = false := by
  rw [Bool.eq_false_iff, Ne, hasFile_iff]
  rintro ⟨es, ⟨f, hf, rfl⟩, he⟩
  obtain ⟨ds, hds, hkey⟩ := (hasDir_iff _).mp hd
  have hdf : ds = f.names :=
    dirKey_inj hds.isNode.slash_not_mem f.slash_not_mem_names (hkey ▸ he)
  obtain ⟨f', hf', hpre, hne⟩ := hds
  rw [hdf] at hpre hne
  exact hne (hpf f hf f' hf' hpre)

theorem oneKind_of_prefixFree (hpf : PrefixFree files) (path : Str) :
    OneKind lt (initBitfs files) path := by
  have hdir := getattr_dir_iff lt path
  have hreg := getattr_reg_iff lt path
  have hread : (∃ r, readdir (initBitfs files) path = .ok r) ↔ _ := readdir_ok_iff path
  have hopen : openFile (initBitfs files) path = _ := openFile_eq path
  unfold OneKind DirKind FileKind NoKind
  cases hd : hasDir (initBitfs files) (strpath path) with
  | true =>
      have hf := hpf.not_hasFile hd
      rw [hd] at hdir hread
      rw [hf] at hopen
      obtain ⟨st, hst, hisdir⟩ := hdir.mpr rfl
      obtain ⟨r, hr⟩ := hread.mpr rfl
      refine ⟨Or.inl ⟨⟨st, hst, hisdir⟩, ⟨r, hr⟩, by simpa using hopen⟩, ?_, ?_, ?_⟩ <;>
        simp [hst, hr]
  | false =>
      have hr : readdir (initBitfs files) path = .error .ENOENT := by simp [readdir, hd]
      cases hf : hasFile (initBitfs files) (strpath path) with
      | true =>
          rw [hf] at hopen
          obtain ⟨st, hst, hisreg⟩ := hreg.mpr ⟨hd, hf⟩
          refine ⟨Or.inr (Or.inl ⟨⟨st, hst, hisreg⟩, by simpa using hopen, hr⟩), ?_, ?_, ?_⟩ <;>
            simp [hst, hr]
      | false =>
          rw [hf] at hopen
          have hst : getattr lt (initBitfs files) path = .error .ENOENT := by
            simp [getattr, hd, hf]
          refine ⟨Or.inr (Or.inr ⟨hst, hr, by simpa using hopen⟩), ?_, ?_, ?_⟩ <;>
            simp [hst, hr]

/-- What `getattr` says about a file's own path when it is not a directory too. -/
theorem getattr_own_path {f : FileEntry} (hf : f ∈ files)
    (hd : hasDir (initBitfs files) (dirKey f.names) = false) :
    ∃ (i : Nat) (hi : i < files.length), files[i].path = f.path ∧
      getattr lt (initBitfs files) (slash :: f.path) =
        .ok ⟨S_IFREG ||| 0o444, 1, toInt32 files[i].bytes.length⟩ := by
  obtain ⟨i, hi, hidx, hpath, -⟩ :=
    getFileIndex_of_mem ⟨f, hf, (List.tail_cons (a := slash)).symm⟩
  have hfile : hasFile (initBitfs files) (dirKey f.names) = true :=
    (hasFile_dirKey f.slash_not_mem_names).mpr ⟨f, hf, rfl⟩
  refine ⟨i, hi, hpath, ?_⟩
  simp [getattr, strpath_path, hd, hfile, hidx, getFileSize_natCast lt hi]

/-- The lookups give every path one kind, and every file its own size, exactly
for prefix-free lists in which equal paths have equal `int` sizes. -/
theorem path_kinds_iff :
    ((∀ path, OneKind lt (initBitfs files) path) ∧ FilesReachable lt (initBitfs files)) ↔
      PrefixFree files ∧ SameSizes files := by
  constructor
  · rintro ⟨hkind, hreach⟩
    have hown : ∀ f ∈ files, hasDir (initBitfs files) (dirKey f.names) = false := by
      intro f hf
      obtain ⟨i, hi, rfl⟩ := List.getElem_of_mem hf
      obtain ⟨st, hst, hreg, -⟩ := hreach i hi
      have h := ((getattr_reg_iff lt _).mp ⟨st, hst, hreg⟩).1
      rwa [strpath_path] at h
    refine ⟨?_, ?_⟩
    · intro f hf f' hf' hpre
      by_contra hne
      have hd : hasDir (initBitfs files) (dirKey f.names) = true :=
        (hasDir_dirKey f.slash_not_mem_names).mpr ⟨f', hf', hpre, hne⟩
      rw [hown f hf] at hd
      cases hd
    · -- both files are looked up at the first index with their common path
      intro f hf f' hf' hpath
      obtain ⟨k, hk, -, hst⟩ := getattr_own_path lt hf (hown f hf)
      obtain ⟨i, hi, rfl⟩ := List.getElem_of_mem hf
      obtain ⟨j, hj, rfl⟩ := List.getElem_of_mem hf'
      obtain ⟨st, hsti, -, hsi⟩ := hreach i hi
      obtain ⟨st', hstj, -, hsj⟩ := hreach j hj
      rw [← hpath] at hstj
      rw [hst, Except.ok.injEq] at hsti hstj
      rw [← getFileSize_natCast lt hi, ← getFileSize_natCast lt hj, ← hsi, ← hsj, ← hsti, ← hstj]
  · rintro ⟨hpf, hsizes⟩
    refine ⟨oneKind_of_prefixFree lt hpf, ?_⟩
    intro i hi
    have hmem : files[i] ∈ files := List.getElem_mem hi
    have hd : hasDir (initBitfs files) (dirKey files[i].names) = false := by
      rw [Bool.eq_false_iff]
      intro hd
      have hfile : hasFile (initBitfs files) (dirKey files[i].names) = true :=
        (hasFile_dirKey files[i].slash_not_mem_names).mpr ⟨files[i], hmem, rfl⟩
      rw [hpf.not_hasFile hd] at hfile
      cases hfile
    obtain ⟨k, hk, hpath, hst⟩ := getattr_own_path lt hmem hd
    refine ⟨_, hst, by simp only [Stat.isReg]; decide, ?_⟩
    dsimp only
    rw [getFileSize_natCast lt hi]
    exact hsizes _ (List.getElem_mem hk) _ hmem hpath

end Iff

/-- A torrent file `a` without content. -/
def plainFile : FileEntry := .a [] FileEntry.nil_fits

/-- With the files `a` and `a/b`, `/a` is a directory to `getattr` and opens as a file. -/
theorem path_kinds_collision :
    ¬ ((∀ path, OneKind (FileStorage.reference [plainFile, nestedFile])
          (initBitfs [plainFile, nestedFile]) path) ∧
        FilesReachable (FileStorage.reference [plainFile, nestedFile])
          (initBitfs [plainFile, nestedFile])) := by
  rintro ⟨hkind, -⟩
  have hdir : hasDir (initBitfs [plainFile, nestedFile]) (strpath (str ['/', 'a'])) = true := by
    decide
  have hopen : openFile (initBitfs [plainFile, nestedFile]) (str ['/', 'a']) = .ok () :=
    if_pos (by decide)
  obtain ⟨st, hst, hisdir⟩ := (getattr_dir_iff
    (FileStorage.reference [plainFile, nestedFile]) (str ['/', 'a'])).mpr hdir
  obtain ⟨r, hr⟩ : ∃ r, readdir (initBitfs [plainFile, nestedFile]) (str ['/', 'a']) = .ok r :=
    (readdir_ok_iff _).mpr hdir
  rcases (hkind (str ['/', 'a'])).1 with ⟨-, -, h⟩ | ⟨-, -, h⟩ | ⟨h, -, -⟩
  · simp [hopen] at h
  · simp [hr] at h
  · simp [hst] at h

end BitFS.Tree
