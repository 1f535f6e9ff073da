import BitFS.Torrent.Storage
import Mathlib.Data.Finset.Sort
import Mathlib.Data.List.Lex
import Mathlib.Order.Lex

/-! # The directory tables of FS.cpp

`init_bitfs` splits every file path on `/` and fills three string-keyed
globals; `getattr`, `open`, `readdir` and `get_file_index` are lookups in them
or scans of the file list.
-/

namespace BitFS.Tree

open MachineInt

inductive Errno where
  | ENOENT
  deriving DecidableEq, Repr

/-- The globals `dirmap`, `filenames` and `entries`. -/
structure Maps where
  dirmap : Finset Str
  filenames : Finset Str
  entries : Str → Option (Finset Str)

namespace Maps

def empty : Maps := ⟨∅, ∅, fun _ => none⟩

/-- `entries[key]`: a missing key is inserted with an empty set. -/
def index (g : Maps) (key : Str) : Finset Str × Maps :=
  match g.entries key with
  | some names => (names, g)
  | none => (∅, { g with entries := Function.update g.entries key (some ∅) })

/-- `entries[key].insert(name)`. -/
def insertEntry (g : Maps) (key name : Str) : Maps :=
  { g with entries := Function.update g.entries key (some (insert name (g.index key).1)) }

def insertDir (g : Maps) (dirpath : Str) : Maps :=
  { g with dirmap := insert dirpath g.dirmap }

def insertFile (g : Maps) (filepath : Str) : Maps :=
  { g with filenames := insert filepath g.filenames }

end Maps

/-- The loop over `strs` in `init_bitfs`, from component `j` on. -/
def addComponents (g : Maps) (dirpath : Str) : List Str → Maps
  | [] => g
  | [last] => (g.insertFile (dirpath ++ last ++ [slash])).insertEntry dirpath last
  | s :: rest =>
      addComponents ((g.insertEntry dirpath s).insertDir (dirpath ++ s ++ [slash]))
        (dirpath ++ s ++ [slash]) rest

/-- One round of the file loop: `boost::split`, then the component loop. -/
def addFile (g : Maps) (path : Str) : Maps :=
  addComponents (g.insertDir [slash]) [slash] (path.splitOn slash)

/-- The tables after `init_bitfs`. -/
def initBitfs (files : List FileEntry) : Maps :=
  files.foldl (fun g f => addFile g f.path) Maps.empty

def hasDir (g : Maps) (path : Str) : Bool := decide (path ∈ g.dirmap)

def hasFile (g : Maps) (path : Str) : Bool := decide (path ∈ g.filenames)

def S_IFMT : Nat := 0o170000
def S_IFDIR : Nat := 0o040000
def S_IFREG : Nat := 0o100000

/-- The fields of `struct stat` that `getattr` sets. -/
structure Stat where
  st_mode : Nat
  st_nlink : Nat
  st_size : Int
  deriving DecidableEq, Repr

def Stat.isDir (st : Stat) : Prop := st.st_mode &&& S_IFMT = S_IFDIR

def Stat.isReg (st : Stat) : Prop := st.st_mode &&& S_IFMT = S_IFREG

instance (st : Stat) : Decidable st.isDir := inferInstanceAs (Decidable (_ = _))

instance (st : Stat) : Decidable st.isReg := inferInstanceAs (Decidable (_ = _))

/-- `strpath` as `getattr` and `readdir` build it. -/
def strpath (path : Str) : Str := if path = [slash] then path else path ++ [slash]

section Lookups

variable {files : List FileEntry} (lt : FileStorage files) (g : Maps)

/-- First index whose `file_path` equals `filepath + 1`, or -1. -/
def getFileIndex (files : List FileEntry) (filepath : Str) : Int :=
  match files.findIdx? (fun f => f.path = filepath.tail) with
  | some i => i
  | none => -1

/-- `file_size` cut down to the `int` return type. -/
def getFileSize (index : Int) : Int := toInt32 (lt.file_size index)

def getattr (path : Str) : Except Errno Stat :=
  if hasDir g (strpath path) then
    .ok { st_mode := S_IFDIR ||| 0o755, st_nlink := 2, st_size := 0 }
  else if hasFile g (strpath path) then
    .ok { st_mode := S_IFREG ||| 0o444, st_nlink := 1,
          st_size := getFileSize lt (getFileIndex files path) }
  else .error .ENOENT

/-- `open` appends the slash without the root special case. -/
def openFile (path : Str) : Except Errno Unit :=
  if hasFile g (path ++ [slash]) then .ok () else .error .ENOENT

/-- The names handed to `filler`, in set order, and the tables afterwards. -/
def readdir (path : Str) : Except Errno (List Str × Maps) :=
  if hasDir g (strpath path) then
    .ok ((g.index (strpath path)).1.sort, (g.index (strpath path)).2)
  else .error .ENOENT

end Lookups

end BitFS.Tree
