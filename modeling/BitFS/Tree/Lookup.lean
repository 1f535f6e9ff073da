import BitFS.Tree.Contents

/-! # Lookups as statements about the tree of components

`IsDir` and `IsFile` say what a component list is for a list of files, without
any string. Each lookup of FS.cpp is then one of these predicates at the
component list its argument spells.
-/

namespace BitFS.Tree

open Separated

section Nodes

variable (files : List FileEntry)

/-- A proper prefix of some file's components. -/
def IsDir (ds : List Str) : Prop := ∃ f ∈ files, ds <+: f.names ∧ ds ≠ f.names

/-- The components of some file. -/
def IsFile (ds : List Str) : Prop := ∃ f ∈ files, f.names = ds

/-- A prefix of some file's components. -/
def IsNode (ds : List Str) : Prop := ∃ f ∈ files, ds <+: f.names

variable {files}

theorem isNode_iff (ds : List Str) : IsNode files ds ↔ IsDir files ds ∨ IsFile files ds := by
  constructor
  · rintro ⟨f, hf, hpre⟩
    by_cases h : ds = f.names
    · exact Or.inr ⟨f, hf, h.symm⟩
    · exact Or.inl ⟨f, hf, hpre, h⟩
  · rintro (⟨f, hf, hpre, -⟩ | ⟨f, hf, rfl⟩)
    · exact ⟨f, hf, hpre⟩
    · exact ⟨f, hf, List.prefix_refl _⟩

theorem IsDir.isNode {ds : List Str} (h : IsDir files ds) : IsNode files ds :=
  (isNode_iff ds).mpr (Or.inl h)

theorem IsFile.isNode {ds : List Str} (h : IsFile files ds) : IsNode files ds :=
  (isNode_iff ds).mpr (Or.inr h)

/-- What has a child is a directory. -/
theorem IsNode.isDir_of_append {ds : List Str} {c : Str} (h : IsNode files (ds ++ [c])) :
    IsDir files ds := by
  obtain ⟨f, hf, hpre⟩ := h
  refine ⟨f, hf, (List.prefix_append ds [c]).trans hpre, ?_⟩
  rintro rfl
  have := hpre.length_le
  simp at this

theorem IsNode.slash_not_mem {ds : List Str} (h : IsNode files ds) : ∀ p ∈ ds, slash ∉ p := by
  obtain ⟨f, -, hpre⟩ := h
  exact fun p hp => f.slash_not_mem_names p (hpre.subset hp)

theorem IsNode.ne_nil_of_mem {ds : List Str} (h : IsNode files ds) : ∀ p ∈ ds, p ≠ [] := by
  obtain ⟨f, -, hpre⟩ := h
  exact fun p hp => f.nonempty_of_mem_names p (hpre.subset hp)

/-- A non-empty torrent has a root directory. -/
theorem isDir_root (h : files ≠ []) : IsDir files [] := by
  obtain ⟨f, rest, rfl⟩ := List.exists_cons_of_ne_nil h
  exact ⟨f, List.mem_cons_self, List.nil_prefix, f.names_ne.symm⟩

end Nodes

/-! ## Spelling of a component list -/

/-- `/` for the root, otherwise `/` and the components joined by `/`. -/
def absPath (ds : List Str) : Str :=
  if ds = [] then [slash] else slash :: [slash].intercalate ds

/-- `"/" + c` for the root, `d + "/" + c` otherwise. -/
def childPath (d c : Str) : Str := if d = [slash] then slash :: c else d ++ slash :: c

theorem strpath_root : strpath [slash] = dirKey [] := rfl

theorem dirKey_eq {ds : List Str} (h : ds ≠ []) :
    dirKey ds = slash :: [slash].intercalate ds ++ [slash] := by
  rw [dirKey, terminated_eq_intercalate slash h]
  rfl

theorem intercalate_ne_nil {ds : List Str} (hds : ds ≠ []) (h : ∀ p ∈ ds, p ≠ []) :
    [slash].intercalate ds ≠ [] := by
  cases ds with
  | nil => exact absurd rfl hds
  | cons p ps =>
      have hp := h p List.mem_cons_self
      cases ps with
      | nil => simpa using hp
      | cons q qs => simp [List.intercalate_cons_cons]

theorem strpath_absPath {ds : List Str} (h : ∀ p ∈ ds, p ≠ []) :
    strpath (absPath ds) = dirKey ds := by
  by_cases hds : ds = []
  · subst hds
    rfl
  · have hne := intercalate_ne_nil hds h
    rw [absPath, if_neg hds, strpath, if_neg (by simpa using hne), dirKey_eq hds]

/-- An absolute path with the key of `ds` spells `ds`. -/
theorem eq_absPath_of_strpath {path : Str} {ds : List Str} (habs : path.head? = some slash)
    (h : strpath path = dirKey ds) : path = absPath ds := by
  unfold strpath at h
  split at h
  · rename_i hroot
    have hds : ds = [] := by
      cases ds with
      | nil => rfl
      | cons p ps => simp [hroot, dirKey] at h
    rw [hds, hroot]
    rfl
  · by_cases hds : ds = []
    · subst hds
      have hlen := congrArg List.length h
      simp only [dirKey, terminated_nil, List.length_append, List.length_cons,
        List.length_nil] at hlen
      have hnil : path = [] := List.length_eq_zero_iff.mp (by omega)
      simp [hnil] at habs
    · rw [dirKey_eq hds] at h
      rw [absPath, if_neg hds, List.append_cancel_right h]

theorem dirKey_inj {ds es : List Str} (hds : ∀ p ∈ ds, slash ∉ p) (hes : ∀ p ∈ es, slash ∉ p)
    (h : dirKey ds = dirKey es) : ds = es :=
  terminated_inj hds hes (List.cons.inj h).2

theorem dirKey_append (ds : List Str) (c : Str) :
    dirKey (ds ++ [c]) = dirKey ds ++ c ++ [slash] := by
  simp [dirKey, terminated_append]

/-- The lookup key of a child extends the key of its directory. -/
theorem strpath_childPath {d c : Str} (hc : c ≠ []) :
    strpath (childPath d c) = strpath d ++ c ++ [slash] := by
  unfold childPath
  split
  · rename_i hd
    subst hd
    rw [strpath, if_neg (by simpa using hc)]
    simp [strpath]
  · rename_i hd
    have hne : d ++ slash :: c ≠ [slash] := by
      intro he
      have hlen := congrArg List.length he
      have hcl := List.length_pos_iff.mpr hc
      simp only [List.length_append, List.length_cons, List.length_nil] at hlen
      omega
    rw [strpath, if_neg hne, strpath, if_neg hd]
    simp

theorem childPath_head {d c : Str} (habs : d.head? = some slash) :
    (childPath d c).head? = some slash := by
  unfold childPath
  split
  · rfl
  · cases d with
    | nil => simp at habs
    | cons e d => simpa using habs

/-! ## The lookups -/

section Lookups

variable {files : List FileEntry} (lt : FileStorage files)

theorem hasDir_iff (path : Str) :
    hasDir (initBitfs files) path = true ↔ ∃ ds, IsDir files ds ∧ path = dirKey ds := by
  rw [hasDir, decide_eq_true_iff, mem_dirmap_initBitfs]
  constructor
  · rintro ⟨f, hf, ds, hpre, hne, h⟩
    exact ⟨ds, ⟨f, hf, hpre, hne⟩, h⟩
  · rintro ⟨ds, ⟨f, hf, hpre, hne⟩, h⟩
    exact ⟨f, hf, ds, hpre, hne, h⟩

theorem hasFile_iff (path : Str) :
    hasFile (initBitfs files) path = true ↔ ∃ ds, IsFile files ds ∧ path = dirKey ds := by
  rw [hasFile, decide_eq_true_iff, mem_filenames_initBitfs]
  constructor
  · rintro ⟨f, hf, h⟩
    exact ⟨f.names, ⟨f, hf, rfl⟩, h⟩
  · rintro ⟨_, ⟨f, hf, rfl⟩, h⟩
    exact ⟨f, hf, h⟩

theorem hasDir_dirKey {ds : List Str} (h : ∀ p ∈ ds, slash ∉ p) :
    hasDir (initBitfs files) (dirKey ds) = true ↔ IsDir files ds := by
  rw [hasDir_iff]
  constructor
  · rintro ⟨es, hes, he⟩
    rwa [dirKey_inj h hes.isNode.slash_not_mem he]
  · intro hd
    exact ⟨ds, hd, rfl⟩

theorem hasFile_dirKey {ds : List Str} (h : ∀ p ∈ ds, slash ∉ p) :
    hasFile (initBitfs files) (dirKey ds) = true ↔ IsFile files ds := by
  rw [hasFile_iff]
  constructor
  · rintro ⟨es, hes, he⟩
    rwa [dirKey_inj h hes.isNode.slash_not_mem he]
  · intro hd
    exact ⟨ds, hd, rfl⟩

theorem getattr_dir_iff (path : Str) :
    (∃ st, getattr lt (initBitfs files) path = .ok st ∧ st.isDir) ↔
      hasDir (initBitfs files) (strpath path) = true := by
  unfold getattr
  split
  · rename_i h
    simp only [h, iff_true]
    exact ⟨_, rfl, by decide⟩
  · rename_i h
    refine iff_of_false ?_ h
    rintro ⟨st, hst, hdir⟩
    split at hst
    · cases hst
      exact absurd hdir (by simp only [Stat.isDir]; decide)
    · cases hst

theorem getattr_reg_iff (path : Str) :
    (∃ st, getattr lt (initBitfs files) path = .ok st ∧ st.isReg) ↔
      hasDir (initBitfs files) (strpath path) = false ∧
        hasFile (initBitfs files) (strpath path) = true := by
  unfold getattr
  split
  · rename_i h
    refine iff_of_false ?_ (by simp [h])
    rintro ⟨st, hst, hreg⟩
    cases hst
    exact absurd hreg (by decide)
  · rename_i h
    split
    · rename_i hf
      refine iff_of_true ⟨_, rfl, ?_⟩ ⟨by simpa using h, hf⟩
      simp only [Stat.isReg]
      decide
    · rename_i hf
      refine iff_of_false ?_ (by simp [hf])
      rintro ⟨st, hst, -⟩
      cases hst

theorem getattr_ok_iff (path : Str) :
    getattr lt (initBitfs files) path ≠ .error .ENOENT ↔
      ∃ ds, IsNode files ds ∧ strpath path = dirKey ds := by
  have hnode : (∃ ds, IsNode files ds ∧ strpath path = dirKey ds) ↔
      hasDir (initBitfs files) (strpath path) = true ∨
        hasFile (initBitfs files) (strpath path) = true := by
    simp only [isNode_iff, or_and_right, exists_or, ← hasDir_iff, ← hasFile_iff]
  rw [hnode]
  unfold getattr
  split
  · rename_i h
    simp [h]
  · rename_i h
    split
    · rename_i hf
      simp [hf]
    · rename_i hf
      simp [h, hf]

theorem readdir_ok_iff (path : Str) :
    (∃ r, readdir (initBitfs files) path = .ok r) ↔
      hasDir (initBitfs files) (strpath path) = true := by
  unfold readdir
  split
  · rename_i h
    simp [h]
  · rename_i h
    simp [h]

/-- A successful `readdir` emits the listed names and leaves the tables alone. -/
theorem readdir_ok {path : Str} {names : List Str} {g : Maps}
    (h : readdir (initBitfs files) path = .ok (names, g)) :
    hasDir (initBitfs files) (strpath path) = true ∧ g = initBitfs files ∧ names.Nodup ∧
      ∀ c, c ∈ names ↔ (initBitfs files).Lists (strpath path) c := by
  unfold readdir at h
  split at h
  · rename_i hd
    have hkey : (initBitfs files).HasKey (strpath path) :=
      (hasKey_initBitfs_iff files _).mpr (of_decide_eq_true hd)
    rw [Except.ok.injEq, Prod.mk.injEq] at h
    obtain ⟨rfl, rfl⟩ := h
    exact ⟨hd, Maps.index_snd_of_hasKey hkey, Finset.sort_nodup _ _,
      fun c => Finset.mem_sort _⟩
  · cases h

/-- A name is listed below a directory exactly when it extends to a node. -/
theorem lists_dirKey_iff {ds : List Str} (h : ∀ p ∈ ds, slash ∉ p) (c : Str) :
    (initBitfs files).Lists (dirKey ds) c ↔ IsNode files (ds ++ [c]) := by
  rw [lists_initBitfs]
  constructor
  · rintro ⟨f, hf, es, hpre, he⟩
    have hes : IsNode files es := ⟨f, hf, (List.prefix_append es [c]).trans hpre⟩
    rw [dirKey_inj h hes.slash_not_mem he]
    exact ⟨f, hf, hpre⟩
  · rintro ⟨f, hf, hpre⟩
    exact ⟨f, hf, ds, hpre, rfl⟩

end Lookups

end BitFS.Tree
