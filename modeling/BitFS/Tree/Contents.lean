import BitFS.Tree.Directory

/-! # What the directory tables contain

The nodes of the tree are the prefixes of the files' component lists. After
`init_bitfs` the three tables are exactly the proper prefixes, the full lists
and the one-component extensions, each under its slash-terminated spelling.
-/

namespace BitFS.Tree

open Separated

/-! ## Effect of one insertion -/

namespace Maps

@[simp] theorem index_fst (g : Maps) (key : Str) : (g.index key).1 = (g.entries key).getD ∅ := by
  unfold index
  cases g.entries key <;> rfl

/-- `name` stands in the set stored under `key`. -/
def Lists (g : Maps) (key name : Str) : Prop := name ∈ (g.index key).1

@[simp] theorem dirmap_insertEntry (g : Maps) (key name : Str) :
    (g.insertEntry key name).dirmap = g.dirmap := rfl

@[simp] theorem filenames_insertEntry (g : Maps) (key name : Str) :
    (g.insertEntry key name).filenames = g.filenames := rfl

@[simp] theorem filenames_insertDir (g : Maps) (d : Str) :
    (g.insertDir d).filenames = g.filenames := rfl

@[simp] theorem dirmap_insertFile (g : Maps) (f : Str) :
    (g.insertFile f).dirmap = g.dirmap := rfl

@[simp] theorem mem_dirmap_insertDir (g : Maps) (d e : Str) :
    e ∈ (g.insertDir d).dirmap ↔ e = d ∨ e ∈ g.dirmap := Finset.mem_insert

@[simp] theorem mem_filenames_insertFile (g : Maps) (f e : Str) :
    e ∈ (g.insertFile f).filenames ↔ e = f ∨ e ∈ g.filenames := Finset.mem_insert

@[simp] theorem lists_insertDir (g : Maps) (d key name : Str) :
    (g.insertDir d).Lists key name ↔ g.Lists key name := by
  simp [Lists, insertDir]

@[simp] theorem lists_insertFile (g : Maps) (f key name : Str) :
    (g.insertFile f).Lists key name ↔ g.Lists key name := by
  simp [Lists, insertFile]

@[simp] theorem lists_insertEntry (g : Maps) (k n key name : Str) :
    (g.insertEntry k n).Lists key name ↔ (key = k ∧ name = n) ∨ g.Lists key name := by
  by_cases hk : key = k
  · subst hk
    simp [Lists, insertEntry]
  · simp [Lists, insertEntry, hk]

/-- `entries` has the key, whatever set it holds. -/
def HasKey (g : Maps) (key : Str) : Prop := (g.entries key).isSome

/-- Looking up a present key inserts nothing. -/
theorem index_snd_of_hasKey {g : Maps} {key : Str} (h : g.HasKey key) :
    (g.index key).2 = g := by
  obtain ⟨names, hn⟩ := Option.isSome_iff_exists.mp h
  simp [index, hn]

@[simp] theorem hasKey_insertDir (g : Maps) (d key : Str) :
    (g.insertDir d).HasKey key ↔ g.HasKey key := Iff.rfl

@[simp] theorem hasKey_insertFile (g : Maps) (f key : Str) :
    (g.insertFile f).HasKey key ↔ g.HasKey key := Iff.rfl

@[simp] theorem hasKey_insertEntry (g : Maps) (k n key : Str) :
    (g.insertEntry k n).HasKey key ↔ key = k ∨ g.HasKey key := by
  by_cases hk : key = k
  · subst hk
    simp [HasKey, insertEntry]
  · simp [HasKey, insertEntry, hk]

end Maps

/-! ## Effect of the component loop -/

/-- The key of a directory: `/`, then every component closed by a slash. -/
def dirKey (ds : List Str) : Str := slash :: terminated slash ds

theorem addComponents_cons (g : Maps) (base s : Str) {rest : List Str} (h : rest ≠ []) :
    addComponents g base (s :: rest) =
      addComponents ((g.insertEntry base s).insertDir (base ++ s ++ [slash]))
        (base ++ s ++ [slash]) rest := by
  cases rest with
  | nil => exact absurd rfl h
  | cons t rest => rfl

theorem mem_dirmap_addComponents (g : Maps) (base d : Str) (ns : List Str) :
    d ∈ (addComponents g base ns).dirmap ↔
      d ∈ g.dirmap ∨
        ∃ ds, ds <+: ns ∧ ds ≠ [] ∧ ds ≠ ns ∧ d = base ++ terminated slash ds := by
  induction ns generalizing g base with
  | nil => simp +contextual [addComponents]
  | cons s rest ih =>
      by_cases hrest : rest = []
      · subst hrest
        simp only [addComponents, Maps.dirmap_insertEntry, Maps.dirmap_insertFile]
        refine ⟨Or.inl, ?_⟩
        rintro (h | ⟨ds, hpre, hne, hns, -⟩)
        · exact h
        · cases ds with
          | nil => exact absurd rfl hne
          | cons s' ds =>
              obtain ⟨rfl, hds⟩ := List.cons_prefix_cons.mp hpre
              exact absurd (by rw [List.prefix_nil.mp hds]) hns
      · rw [addComponents_cons g base s hrest, ih]
        simp only [Maps.mem_dirmap_insertDir, Maps.dirmap_insertEntry]
        constructor
        · rintro ((rfl | h) | ⟨ds, hpre, hne, hns, rfl⟩)
          · exact Or.inr ⟨[s], by simp, by simp, by simpa using Ne.symm hrest, by simp⟩
          · exact Or.inl h
          · exact Or.inr ⟨s :: ds, by simpa using hpre, by simp, by simpa using hns, by simp⟩
        · rintro (h | ⟨ds, hpre, hne, hns, rfl⟩)
          · exact Or.inl (Or.inr h)
          · cases ds with
            | nil => exact absurd rfl hne
            | cons s' ds =>
                obtain ⟨rfl, htail⟩ := List.cons_prefix_cons.mp hpre
                by_cases hds : ds = []
                · exact Or.inl (Or.inl (by simp [hds]))
                · exact Or.inr ⟨ds, htail, hds, by simpa using hns, by simp⟩

theorem mem_filenames_addComponents (g : Maps) (base d : Str) {ns : List Str} (h : ns ≠ []) :
    d ∈ (addComponents g base ns).filenames ↔
      d ∈ g.filenames ∨ d = base ++ terminated slash ns := by
  induction ns generalizing g base with
  | nil => exact absurd rfl h
  | cons s rest ih =>
      by_cases hrest : rest = []
      · subst hrest
        simp [addComponents, or_comm]
      · rw [addComponents_cons g base s hrest, ih _ _ hrest]
        simp

theorem lists_addComponents (g : Maps) (base key name : Str) (ns : List Str) :
    (addComponents g base ns).Lists key name ↔
      g.Lists key name ∨ ∃ ds, ds ++ [name] <+: ns ∧ key = base ++ terminated slash ds := by
  induction ns generalizing g base with
  | nil => simp [addComponents]
  | cons s rest ih =>
      have hsplit : (∃ ds, ds ++ [name] <+: s :: rest ∧ key = base ++ terminated slash ds) ↔
          (key = base ∧ name = s) ∨
            ∃ ds, ds ++ [name] <+: rest ∧ key = base ++ s ++ [slash] ++ terminated slash ds := by
        constructor
        · rintro ⟨ds, hpre, rfl⟩
          cases ds with
          | nil => exact Or.inl ⟨by simp, by simpa using hpre⟩
          | cons s' ds =>
              obtain ⟨rfl, htail⟩ := List.cons_prefix_cons.mp hpre
              exact Or.inr ⟨ds, htail, by simp⟩
        · rintro (⟨rfl, rfl⟩ | ⟨ds, hpre, rfl⟩)
          · exact ⟨[], by simp, by simp⟩
          · exact ⟨s :: ds, by simpa using hpre, by simp⟩
      by_cases hrest : rest = []
      · subst hrest
        rw [hsplit]
        simp [addComponents, or_comm]
      · rw [addComponents_cons g base s hrest, ih, hsplit]
        simp only [Maps.lists_insertDir, Maps.lists_insertEntry]
        tauto

/-- The keys grow by the directories, from the start of the path on. -/
theorem hasKey_addComponents (g : Maps) (base key : Str) (ns : List Str) :
    (addComponents g base ns).HasKey key ↔
      g.HasKey key ∨ ∃ ds, ds <+: ns ∧ ds ≠ ns ∧ key = base ++ terminated slash ds := by
  induction ns generalizing g base with
  | nil => simp +contextual [addComponents]
  | cons s rest ih =>
      have hsplit : (∃ ds, ds <+: s :: rest ∧ ds ≠ s :: rest ∧ key = base ++ terminated slash ds) ↔
          key = base ∨ ∃ ds, ds <+: rest ∧ ds ≠ rest ∧
            key = base ++ s ++ [slash] ++ terminated slash ds := by
        constructor
        · rintro ⟨ds, hpre, hns, rfl⟩
          cases ds with
          | nil => exact Or.inl (by simp)
          | cons s' ds =>
              obtain ⟨rfl, htail⟩ := List.cons_prefix_cons.mp hpre
              exact Or.inr ⟨ds, htail, by simpa using hns, by simp⟩
        · rintro (rfl | ⟨ds, hpre, hns, rfl⟩)
          · exact ⟨[], by simp, by simp, by simp⟩
          · exact ⟨s :: ds, by simpa using hpre, by simpa using hns, by simp⟩
      by_cases hrest : rest = []
      · subst hrest
        rw [hsplit]
        simp +contextual [addComponents, or_comm]
      · rw [addComponents_cons g base s hrest, ih, hsplit]
        simp only [Maps.hasKey_insertDir, Maps.hasKey_insertEntry]
        tauto

/-! ## Effect of the file loop -/

theorem mem_dirmap_addFile (g : Maps) (f : FileEntry) (d : Str) :
    d ∈ (addFile g f.path).dirmap ↔
      d ∈ g.dirmap ∨ ∃ ds, ds <+: f.names ∧ ds ≠ f.names ∧ d = dirKey ds := by
  rw [addFile, f.splitOn_path, mem_dirmap_addComponents, Maps.mem_dirmap_insertDir]
  constructor
  · rintro ((rfl | h) | ⟨ds, hpre, -, hns, rfl⟩)
    · exact Or.inr ⟨[], by simp, f.names_ne.symm, rfl⟩
    · exact Or.inl h
    · exact Or.inr ⟨ds, hpre, hns, rfl⟩
  · rintro (h | ⟨ds, hpre, hns, rfl⟩)
    · exact Or.inl (Or.inr h)
    · by_cases hds : ds = []
      · exact Or.inl (Or.inl (by simp [hds, dirKey]))
      · exact Or.inr ⟨ds, hpre, hds, hns, rfl⟩

theorem mem_filenames_addFile (g : Maps) (f : FileEntry) (d : Str) :
    d ∈ (addFile g f.path).filenames ↔ d ∈ g.filenames ∨ d = dirKey f.names := by
  rw [addFile, f.splitOn_path, mem_filenames_addComponents _ _ _ f.names_ne]
  rfl

theorem lists_addFile (g : Maps) (f : FileEntry) (key name : Str) :
    (addFile g f.path).Lists key name ↔
      g.Lists key name ∨ ∃ ds, ds ++ [name] <+: f.names ∧ key = dirKey ds := by
  rw [addFile, f.splitOn_path, lists_addComponents, Maps.lists_insertDir]
  rfl

theorem hasKey_addFile (g : Maps) (f : FileEntry) (key : Str) :
    (addFile g f.path).HasKey key ↔
      g.HasKey key ∨ ∃ ds, ds <+: f.names ∧ ds ≠ f.names ∧ key = dirKey ds := by
  rw [addFile, f.splitOn_path, hasKey_addComponents, Maps.hasKey_insertDir]
  rfl

/-- A property each file adds to, and that starts empty, collects the files' shares. -/
theorem foldl_addFile_iff {P : Maps → Prop} {Q : FileEntry → Prop}
    (hadd : ∀ g f, P (addFile g f.path) ↔ P g ∨ Q f) (files : List FileEntry) (g : Maps) :
    P (files.foldl (fun g f => addFile g f.path) g) ↔ P g ∨ ∃ f ∈ files, Q f := by
  induction files generalizing g with
  | nil => simp
  | cons f files ih =>
      rw [List.foldl_cons, ih, hadd]
      simp [or_assoc]

section Init

variable (files : List FileEntry)

/-- `dirmap` holds the proper prefixes of the component lists. -/
theorem mem_dirmap_initBitfs (d : Str) :
    d ∈ (initBitfs files).dirmap ↔
      ∃ f ∈ files, ∃ ds, ds <+: f.names ∧ ds ≠ f.names ∧ d = dirKey ds := by
  rw [initBitfs, foldl_addFile_iff (P := fun g => d ∈ g.dirmap)
    (fun g f => mem_dirmap_addFile g f d)]
  simp [Maps.empty]

/-- `filenames` holds the full component lists. -/
theorem mem_filenames_initBitfs (d : Str) :
    d ∈ (initBitfs files).filenames ↔ ∃ f ∈ files, d = dirKey f.names := by
  rw [initBitfs, foldl_addFile_iff (P := fun g => d ∈ g.filenames)
    (fun g f => mem_filenames_addFile g f d)]
  simp [Maps.empty]

/-- `entries` lists below a directory the next component of each file under it. -/
theorem lists_initBitfs (key name : Str) :
    (initBitfs files).Lists key name ↔
      ∃ f ∈ files, ∃ ds, ds ++ [name] <+: f.names ∧ key = dirKey ds := by
  rw [initBitfs, foldl_addFile_iff (P := fun g => g.Lists key name)
    (fun g f => lists_addFile g f key name)]
  simp [Maps.empty, Maps.Lists]

/-- The keys of `entries` are the elements of `dirmap`. -/
theorem hasKey_initBitfs_iff (key : Str) :
    (initBitfs files).HasKey key ↔ key ∈ (initBitfs files).dirmap := by
  rw [mem_dirmap_initBitfs, initBitfs, foldl_addFile_iff (P := fun g => g.HasKey key)
    (fun g f => hasKey_addFile g f key)]
  simp [Maps.empty, Maps.HasKey]

end Init

end BitFS.Tree
