import Mathlib.Data.List.Perm.Basic
import Mathlib.Data.Set.Defs

/-! # File systems that are only read

What a path names never changes there, so the file system is a relation between
paths and nodes. A server of it is right if every answer is one that the relation
allows, in whatever order the requests come and however they overlap.
-/

namespace BitFS.FileTree

/-- A directory with the names in it, or a file with its bytes. -/
inductive Node (N B : Type*) where
  | dir (names : Set N)
  | file (bytes : List B)

inductive Request (P : Type*) where
  | stat (path : P)
  | openFile (path : P)
  | list (path : P)
  | read (path : P) (size offset : Nat)
  deriving DecidableEq

inductive Answer (N B : Type*) where
  | isDir
  | isFile (size : Int)
  | opened
  | names (names : List N)
  | data (count : Int) (bytes : List B)
  | noEntry
  deriving DecidableEq

variable {P N B : Type*}

/-- The right answers where `tree` says what paths name. Names come in any order, and a
read stops at the end of the file. -/
inductive Allows (tree : P → Node N B → Prop) : Request P → Answer N B → Prop where
  | isDir {p : P} {s : Set N} (h : tree p (.dir s)) : Allows tree (.stat p) .isDir
  | isFile {p : P} {bs : List B} (h : tree p (.file bs)) :
      Allows tree (.stat p) (.isFile bs.length)
  | noStat {p : P} (h : ∀ n, ¬ tree p n) : Allows tree (.stat p) .noEntry
  | opened {p : P} {bs : List B} (h : tree p (.file bs)) : Allows tree (.openFile p) .opened
  | noOpen {p : P} (h : ∀ bs, ¬ tree p (.file bs)) : Allows tree (.openFile p) .noEntry
  | names {p : P} {s : Set N} {l : List N} (h : tree p (.dir s)) (hnodup : l.Nodup)
      (hmem : ∀ c, c ∈ l ↔ c ∈ s) : Allows tree (.list p) (.names l)
  | noList {p : P} (h : ∀ s, ¬ tree p (.dir s)) : Allows tree (.list p) .noEntry
  | data {p : P} {bs : List B} {size offset : Nat} (h : tree p (.file bs)) :
      Allows tree (.read p size offset)
        (.data ((bs.drop offset).take size).length ((bs.drop offset).take size))

/-- No path names two nodes. -/
def OneNode (tree : P → Node N B → Prop) : Prop := ∀ p n n', tree p n → tree p n' → n = n'

/-- The same answer, or the same names in another order. -/
def Answer.Same : Answer N B → Answer N B → Prop
  | .names l, .names l' => l.Perm l'
  | a, a' => a = a'

variable {tree : P → Node N B → Prop}

/-- Where no path names two nodes the right answer is determined. -/
theorem Allows.same (hone : OneNode tree) {q : Request P} {a a' : Answer N B}
    (h : Allows tree q a) (h' : Allows tree q a') : a.Same a' := by
  cases h with
  | isDir h =>
      cases h' with
      | isDir => rfl
      | isFile h' => cases hone _ _ _ h h'
      | noStat h' => exact (h' _ h).elim
  | isFile h =>
      cases h' with
      | isDir h' => cases hone _ _ _ h h'
      | isFile h' =>
          cases hone _ _ _ h h'
          rfl
      | noStat h' => exact (h' _ h).elim
  | noStat h =>
      cases h' with
      | isDir h' => exact (h _ h').elim
      | isFile h' => exact (h _ h').elim
      | noStat => rfl
  | opened h =>
      cases h' with
      | opened => rfl
      | noOpen h' => exact (h' _ h).elim
  | noOpen h =>
      cases h' with
      | opened h' => exact (h _ h').elim
      | noOpen => rfl
  | names h hnodup hmem =>
      cases h' with
      | names h' hnodup' hmem' =>
          cases hone _ _ _ h h'
          exact (List.perm_ext_iff_of_nodup hnodup hnodup').mpr fun c =>
            (hmem c).trans (hmem' c).symm
      | noList h' => exact (h' _ h).elim
  | noList h =>
      cases h' with
      | names h' => exact (h _ h').elim
      | noList => rfl
  | data h =>
      cases h' with
      | data h' =>
          cases hone _ _ _ h h'
          rfl

end BitFS.FileTree
