import BitFS.Library.Transition
import BitFS.Tree.Lookup

/-! # Calls on the directory tables

`entries[strpath]` in `readdir` would insert a missing key into a table that the
threads share without a lock. No sequence of calls comes to that.
-/

namespace BitFS.Tree

open Transition

/-- A call of the file system that looks at the tables. -/
inductive Call where
  | getattr (path : Str)
  | openFile (path : Str)
  | readdir (path : Str)

/-- The tables after a call. `getattr` and `open` only look for an element. -/
def Call.step (g : Maps) : Call → Maps
  | .getattr _ => g
  | .openFile _ => g
  | .readdir path =>
    match BitFS.Tree.readdir g path with
    | .ok (_, g') => g'
    | .error _ => g

section Init

variable (files : List FileEntry)

theorem step_initBitfs (c : Call) : Call.step (initBitfs files) c = initBitfs files := by
  cases c with
  | getattr path => rfl
  | openFile path => rfl
  | readdir path =>
      cases h : readdir (initBitfs files) path with
      | error e => simp only [Call.step, h]
      | ok r =>
          have hg := (readdir_ok (show readdir (initBitfs files) path = .ok (r.1, r.2) from h)).2.1
          simp only [Call.step, h, hg]

theorem run_initBitfs (calls : List Call) :
    run Call.step (initBitfs files) calls = initBitfs files := by
  have hstep : ∀ g c, g = initBitfs files → True → Call.step g c = initBitfs files := by
    intro g c hg _
    rw [hg, step_initBitfs]
  exact run_invariant Call.step hstep rfl (fun _ _ => trivial)

/-- The keys of `entries` are the elements of `dirmap`, so that after any calls the lookup of
`readdir` finds its key, and no call changes the tables. -/
theorem readdir_keeps_tables :
    (∀ key, (initBitfs files).HasKey key ↔ key ∈ (initBitfs files).dirmap) ∧
    ∀ calls : List Call, run Call.step (initBitfs files) calls = initBitfs files ∧
      ∀ path, hasDir (run Call.step (initBitfs files) calls) (strpath path) = true →
        (run Call.step (initBitfs files) calls).HasKey (strpath path) ∧
        ((run Call.step (initBitfs files) calls).index (strpath path)).2 =
          run Call.step (initBitfs files) calls := by
  constructor
  · exact hasKey_initBitfs_iff files
  · intro calls
    rw [run_initBitfs]
    constructor
    · rfl
    · intro path hdir
      have hkey : (initBitfs files).HasKey (strpath path) :=
        (hasKey_initBitfs_iff files _).mpr (of_decide_eq_true hdir)
      exact ⟨hkey, Maps.index_snd_of_hasKey hkey⟩

end Init

end BitFS.Tree
