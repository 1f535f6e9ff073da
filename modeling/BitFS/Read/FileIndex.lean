import BitFS.Read.Reachable

/-! # The index of an accepted path

`getattr`, `open` and `read` go by the slash-terminated keys of the tables,
`get_file_index` compares the path without its first character. On absolute
paths both find the same files, which `getattr` and `read` rely on: they pass
the index on without looking at it.
-/

namespace BitFS.Read

open MachineInt Memory BitFS.Tree Transition

/-- `i` is the least index of a file whose path with a slash in front is `path`. -/
def FirstIndex (files : List FileEntry) (path : Str) (i : Nat) : Prop :=
  (∃ f, files[i]? = some f ∧ slash :: f.path = path) ∧
    ∀ j < i, ∀ f, files[j]? = some f → slash :: f.path ≠ path

section Tables

variable {files : List FileEntry} {path : Str}

theorem getFileIndex_firstIndex (h : openFile (initBitfs files) path = .ok ()) :
    ∃ i : Nat, getFileIndex files path = i ∧ FirstIndex files path i := by
  obtain ⟨f, hf, rfl⟩ := (openFile_ok_iff path).mp h
  obtain ⟨i, hi, hindex, hpath, hleast⟩ :=
    getFileIndex_of_mem ⟨f, hf, (List.tail_cons (a := slash)).symm⟩
  have hfirst : FirstIndex files (slash :: f.path) i := by
    constructor
    · have hpath' : slash :: files[i].path = slash :: f.path := by
        rw [hpath, List.tail_cons]
      exact ⟨files[i], List.getElem?_eq_getElem hi, hpath'⟩
    · intro j hj g hg heq
      obtain ⟨hlt, rfl⟩ := List.getElem?_eq_some_iff.mp hg
      exact hleast j hj (List.cons.inj heq).2
  exact ⟨i, hindex, hfirst⟩

theorem openFile_of_getFileIndex (habs : path.head? = some slash)
    (h : getFileIndex files path ≠ -1) : openFile (initBitfs files) path = .ok () := by
  unfold getFileIndex at h
  cases hfind : files.findIdx? (fun f => f.path = path.tail) with
  | none =>
      rw [hfind] at h
      exact absurd rfl h
  | some i =>
      obtain ⟨hi, hpath, -⟩ := List.findIdx?_eq_some_iff_getElem.mp hfind
      have hcons : path = slash :: files[i].path := by
        rw [of_decide_eq_true hpath]
        exact (List.cons_head?_tail habs).symm
      exact (openFile_ok_iff path).mpr ⟨files[i], List.getElem_mem hi, hcons⟩

/-- A regular file to `getattr` can be opened. -/
theorem openFile_of_isReg (lt : FileStorage files)
    (h : ∃ st, getattr lt (initBitfs files) path = .ok st ∧ st.isReg) :
    openFile (initBitfs files) path = .ok () := by
  rw [openFile_eq, if_pos ((getattr_reg_iff lt path).mp h).2]

end Tables

section Reads

variable {t : Torrent} {ι : Type} [DecidableEq ι]

/-- At a call of `map_file`. -/
def Pc.Mapping : Pc → Prop
  | .prioHead | .copyHead => True
  | _ => False

omit [DecidableEq ι] in
theorem Reader.Holds.mapping {genuine : Prop} {fr0 : Frame} {i : Nat} {sh : Session ι} {me : ι}
    {rd : Reader} (h : rd.Holds t genuine fr0 i sh me) (hpc : rd.pc.Mapping) :
    rd.frame.file_index = i := by
  have hf := h.facts
  cases hp : rd.pc with
  | prioHead =>
      rw [hp] at hf
      obtain ⟨k, hm, -⟩ := hf
      exact hm.reading.file_index
  | copyHead =>
      rw [hp] at hf
      obtain ⟨k, hc, -⟩ := hf
      exact hc.reading.file_index
  | _ => simp [hp, Pc.Mapping] at hpc

/-- In every run every reader passes a valid index to `map_file`. -/
theorem reaches_mapping (lt : TorrentInfo t) {s0 s : Sys ι} (h0 : s0.Initial t)
    (hs : Reaches (Sys.step lt) (fun _ => True) (s0.initBitfs t) s) {r : ι}
    (hpc : (s.readers r).pc.Mapping) : (s.readers r).frame.file_index ≠ -1 := by
  obtain ⟨acts, -, rfl⟩ := hs
  have hinv := (h0.initBitfs.inv False).reaches lt ⟨acts, fun _ _ => False.elim, rfl⟩
  have hindex := (hinv.readers r).mapping hpc
  omega

end Reads

/-- An absolute path that is a regular file to `getattr` or that `open` accepts has an index,
the least of its files, and only such a path has one. Neither `get_file_size` nor, in any
run of readers, `map_file` is called with -1 for it. -/
theorem accepted_path_has_index {files : List FileEntry} (lt : FileStorage files) {path : Str}
    (habs : path.head? = some slash) :
    ((∃ st, getattr lt (initBitfs files) path = .ok st ∧ st.isReg) ∨
        openFile (initBitfs files) path = .ok () →
      ∃ i : Nat, getFileIndex files path = i ∧ FirstIndex files path i) ∧
    (getFileIndex files path ≠ -1 → openFile (initBitfs files) path = .ok ()) ∧
    (openFile (initBitfs files) path = .ok () → getFileIndex files path ≠ -1 ∧
      ∀ {ι : Type} [DecidableEq ι] (t : Torrent) (lt' : TorrentInfo t) (s0 s : Sys ι),
        t.files = files → s0.Initial t →
        Reaches (Sys.step lt') (fun _ => True) (s0.initBitfs t) s →
        ∀ r, (s.readers r).frame.filepath = path → (s.readers r).pc.Mapping →
          (s.readers r).frame.file_index ≠ -1) := by
  refine ⟨?_, openFile_of_getFileIndex habs, ?_⟩
  · intro haccepted
    rcases haccepted with hreg | hopen
    · exact getFileIndex_firstIndex (openFile_of_isReg lt hreg)
    · exact getFileIndex_firstIndex hopen
  · intro hopen
    obtain ⟨i, hindex, -⟩ := getFileIndex_firstIndex hopen
    constructor
    · omega
    · intro ι _ t lt' s0 s _ h0 hs r _ hpc
      exact reaches_mapping lt' h0 hs hpc

theorem accepted_path_has_index_oneByte :
    ∃ i : Nat, getFileIndex oneByte.files (str ['/', 'a']) = i ∧
      FirstIndex oneByte.files (str ['/', 'a']) i :=
  (accepted_path_has_index (FileStorage.reference oneByte.files) (by decide)).1
    (Or.inr (by decide))

end BitFS.Read
