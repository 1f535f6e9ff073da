import BitFS.Tree.Lookup

/-! # `readdir` and `getattr` describe one tree

Both start from the same key of `dirmap`, and what one lists below a directory
is what the other accepts under the child path. Nothing here depends on the
paths being distinct or prefix-free.
-/

namespace BitFS.Tree

open Separated

/-- The paths found from `/` by listing directories. -/
inductive Listed (g : Maps) : Str → Prop where
  | root : Listed g [slash]
  | child {d c : Str} {names : List Str} {g' : Maps} :
      Listed g d → readdir g d = .ok (names, g') → c ∈ names → Listed g (childPath d c)

section

variable {files : List FileEntry} (lt : FileStorage files)

/-- An absolute path `getattr` accepts is the spelling of a node. -/
theorem getattr_ok_iff_node {path : Str} (habs : path.head? = some slash) :
    getattr lt (initBitfs files) path ≠ .error .ENOENT ↔
      ∃ ds, IsNode files ds ∧ path = absPath ds := by
  rw [getattr_ok_iff]
  constructor
  · rintro ⟨ds, hds, h⟩
    exact ⟨ds, hds, eq_absPath_of_strpath habs h⟩
  · rintro ⟨ds, hds, rfl⟩
    exact ⟨ds, hds, strpath_absPath hds.ne_nil_of_mem⟩

/-- Below a directory, a name is listed when and only when its child path is accepted. -/
theorem mem_readdir_iff {d c : Str} {names : List Str} {g : Maps}
    (h : readdir (initBitfs files) d = .ok (names, g)) (hc : c ≠ []) (hslash : slash ∉ c) :
    c ∈ names ↔ getattr lt (initBitfs files) (childPath d c) ≠ .error .ENOENT := by
  obtain ⟨hdir, -, -, hmem⟩ := readdir_ok h
  obtain ⟨ds, hds, hkey⟩ := (hasDir_iff _).mp hdir
  have hds' := hds.isNode.slash_not_mem
  rw [hmem, hkey, lists_dirKey_iff hds', getattr_ok_iff, strpath_childPath hc, hkey,
    ← dirKey_append]
  constructor
  · intro hn
    exact ⟨ds ++ [c], hn, rfl⟩
  · rintro ⟨es, hes, he⟩
    have hdc : ∀ p ∈ ds ++ [c], slash ∉ p := by
      intro p hp
      rcases List.mem_append.mp hp with hp | hp
      · exact hds' p hp
      · rwa [List.mem_singleton.mp hp]
    rwa [dirKey_inj hdc hes.slash_not_mem he]

theorem childPath_absPath {ds : List Str} {c : Str} (h : ∀ p ∈ ds, p ≠ []) :
    childPath (absPath ds) c = absPath (ds ++ [c]) := by
  have hcat : ds ++ [c] ≠ [] := by simp
  by_cases hds : ds = []
  · subst hds
    simp [childPath, absPath]
  · have hroot : absPath ds ≠ [slash] := by
      have hne := intercalate_ne_nil hds h
      rw [absPath, if_neg hds]
      simpa using hne
    have hjoin := dirKey_append ds c
    rw [dirKey_eq hds, dirKey_eq hcat] at hjoin
    rw [childPath, if_neg hroot, absPath, if_neg hds, absPath, if_neg hcat]
    exact (List.append_cancel_right (by simpa using hjoin)).symm

/-- Every node is reached by listing its ancestors. -/
theorem listed_absPath {ds : List Str} (h : IsNode files ds) :
    Listed (initBitfs files) (absPath ds) := by
  induction ds using List.reverseRecOn with
  | nil => exact Listed.root
  | append_singleton ds c ih =>
      have hdir : IsDir files ds := h.isDir_of_append
      have hne := hdir.isNode.ne_nil_of_mem
      have hkey := strpath_absPath hne
      have hok : hasDir (initBitfs files) (strpath (absPath ds)) = true := by
        rw [hkey]
        exact (hasDir_dirKey hdir.isNode.slash_not_mem).mpr hdir
      obtain ⟨⟨names, g⟩, hread⟩ := (readdir_ok_iff (absPath ds)).mpr hok
      obtain ⟨-, -, -, hmem⟩ := readdir_ok hread
      have hc : c ∈ names := by
        rw [hmem, hkey, lists_dirKey_iff hdir.isNode.slash_not_mem]
        exact h
      rw [← childPath_absPath hne]
      exact Listed.child (ih hdir.isNode) hread hc

theorem listed_iff (hfiles : files ≠ []) (path : Str) :
    Listed (initBitfs files) path ↔
      path.head? = some slash ∧ getattr lt (initBitfs files) path ≠ .error .ENOENT := by
  constructor
  · intro h
    induction h with
    | root =>
        refine ⟨rfl, (getattr_ok_iff lt _).mpr ⟨[], ?_, strpath_root⟩⟩
        exact (isDir_root hfiles).isNode
    | @child d c names g' _ hread hc ih =>
        refine ⟨childPath_head ih.1, ?_⟩
        obtain ⟨hdir, -, -, hmem⟩ := readdir_ok hread
        obtain ⟨ds, hds, hkey⟩ := (hasDir_iff _).mp hdir
        have hnode : IsNode files (ds ++ [c]) := by
          rw [← lists_dirKey_iff hds.isNode.slash_not_mem, ← hkey]
          exact (hmem c).mp hc
        exact (mem_readdir_iff lt hread (hnode.ne_nil_of_mem c (by simp))
          (hnode.slash_not_mem c (by simp))).mp hc
  · rintro ⟨habs, hok⟩
    obtain ⟨ds, hds, rfl⟩ := (getattr_ok_iff_node lt habs).mp hok
    exact listed_absPath hds

/-- `readdir` succeeds on the directories of `getattr`, lists each child once and
exactly the children `getattr` accepts; the listed paths are the accepted ones,
and these are `/` and the component prefixes of the files. -/
theorem readdir_getattr_same_tree (hfiles : files ≠ []) :
    (∀ d : Str, d.head? = some slash →
      ((∃ r, readdir (initBitfs files) d = .ok r) ↔
        ∃ st, getattr lt (initBitfs files) d = .ok st ∧ st.isDir) ∧
      ∀ names g, readdir (initBitfs files) d = .ok (names, g) →
        g = initBitfs files ∧ names.Nodup ∧
        ∀ c, c ≠ [] → slash ∉ c →
          (c ∈ names ↔ getattr lt (initBitfs files) (childPath d c) ≠ .error .ENOENT)) ∧
    (∀ p : Str, Listed (initBitfs files) p ↔
      p.head? = some slash ∧ getattr lt (initBitfs files) p ≠ .error .ENOENT) ∧
    (∀ p : Str, p.head? = some slash →
      (getattr lt (initBitfs files) p ≠ .error .ENOENT ↔
        p = [slash] ∨ ∃ f ∈ files, ∃ ds, ds ≠ [] ∧ ds <+: f.names ∧
          p = slash :: [slash].intercalate ds)) := by
  refine ⟨fun d habs => ⟨?_, ?_⟩, listed_iff lt hfiles, fun p habs => ?_⟩
  · rw [readdir_ok_iff, getattr_dir_iff]
  · intro names g h
    obtain ⟨-, hg, hnodup, -⟩ := readdir_ok h
    exact ⟨hg, hnodup, fun c hc hslash => mem_readdir_iff lt h hc hslash⟩
  · rw [getattr_ok_iff_node lt habs]
    constructor
    · rintro ⟨ds, ⟨f, hf, hpre⟩, rfl⟩
      by_cases hds : ds = []
      · exact Or.inl (by simp [absPath, hds])
      · exact Or.inr ⟨f, hf, ds, hds, hpre, by simp [absPath, hds]⟩
    · rintro (rfl | ⟨f, hf, ds, hds, hpre, rfl⟩)
      · exact ⟨[], (isDir_root hfiles).isNode, rfl⟩
      · exact ⟨ds, ⟨f, hf, hpre⟩, by simp [absPath, hds]⟩

end

/-- A torrent file `a/b` without content. -/
def nestedFile : FileEntry where
  components := [.a, .b]
  components_ne := List.cons_ne_nil _ _
  bytes := []
  length_fits := FileEntry.nil_fits

theorem readdir_getattr_same_tree_nested :
    [nestedFile] ≠ [] ∧ Listed (initBitfs [nestedFile]) (str ['/', 'a', '/', 'b']) :=
  ⟨by simp, ((readdir_getattr_same_tree (FileStorage.reference [nestedFile]) (by simp)).2.1 _).mpr
    ⟨by decide, ((readdir_getattr_same_tree (FileStorage.reference [nestedFile])
      (by simp)).2.2 _ (by decide)).mpr
        (Or.inr ⟨nestedFile, by simp, nestedFile.names, by decide, List.prefix_refl _, by decide⟩)⟩⟩

end BitFS.Tree
