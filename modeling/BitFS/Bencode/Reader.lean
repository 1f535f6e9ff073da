import BitFS.Library.Decimal
import BitFS.Library.MachineInt
import BitFS.Library.Slice

/-! # The bencode reader

The functions of `bencode.c` on a buffer of bytes. A `char *` is a position in the
buffer or `NULL`; reading outside of the buffer or through `NULL` and a failed
`assert` end the program. Loops and recursion run on fuel.
-/

namespace BitFS.Bencode

open MachineInt Memory Decimal

/-- Why a run has no result. -/
inductive Halt where
  | assertion
  | memory
  | fuel
  deriving DecidableEq

@[simp] theorem ok_bind {α β : Type} (a : α) (f : α → Except Halt β) :
    (Except.ok a >>= f) = f a := rfl

@[simp] theorem error_bind {α β : Type} (e : Halt) (f : α → Except Halt β) :
    (Except.error e >>= f) = .error e := rfl

@[simp] theorem pure_eq_ok {α : Type} (a : α) : (pure a : Except Halt α) = .ok a := rfl

theorem bind_eq_ok {α β : Type} {x : Except Halt α} {f : α → Except Halt β} {b : β} :
    (x >>= f) = .ok b ↔ ∃ a, x = .ok a ∧ f a = .ok b := by
  cases x with
  | error e => simp
  | ok a => simp

/-- `bencode_t`: the position, the start of the item, and the length carried over. -/
structure BencodeT where
  str : Option Nat
  start : Nat
  len : Int

/-- What `bencode_dict_get_next` stores when it returns 1. -/
structure Item where
  key : Nat
  klen : Int
  value : BencodeT

variable (buf : List UInt8)

/-- `*sp` -/
def peek (sp : Nat) : Except Halt UInt8 :=
  match buf[sp]? with
  | some c => .ok c
  | none => .error .memory

def deref : Option Nat → Except Halt Nat
  | some sp => .ok sp
  | none => .error .memory

/-- The loop over the digits of a number that wraps around at `m`, from `sp` on where the
buffer continues with the given bytes: the number, and where its digits end. -/
def readDigits (m : Nat) : List UInt8 → Int → Nat → Except Halt (Int × Nat)
  | [], _, _ => .error .memory
  | c :: cs, val, sp =>
    if isDigit c then readDigits m cs (((val * 10).bmod m + (c.toNat - 48)).bmod m) (sp + 1)
    else .ok (val, sp)

/-- `__read_string_int`: `*val`, and `*end` when it returns 1. The `long` wraps around. -/
def readStringInt (sp : Nat) : Except Halt (Int × Option Nat) := do
  let c ← peek buf sp
  let (sign, sp) := if c = 45 then ((-1 : Int), sp + 1) else (1, sp)
  let c ← peek buf sp
  if isDigit c then
    let (val, sp) ← readDigits 18446744073709551616 (buf.drop sp) 0 sp
    pure (toInt64 (val * sign), some sp)
  else pure (0, none)

/-- `__read_string_len`: `*slen` and the position of the string, or `NULL`. -/
def readStringLen (sp : Nat) : Except Halt (Option (Int × Nat)) := do
  let c ← peek buf sp
  if isDigit c then
    let (slen, sp) ← readDigits 4294967296 (buf.drop sp) 0 sp
    let c ← peek buf sp
    if c = 58 ∧ 0 ≤ slen then pure (some (slen, sp + 1)) else .error .assertion
  else pure none

def bencodeInit (str : Nat) (len : Int) : BencodeT := ⟨some str, str, len⟩

/-- `__carry_length` -/
def carryLength (be : BencodeT) (pos : Nat) : Except Halt Int := do
  let sp ← deref be.str
  if 0 < be.len then pure (toInt32 (be.len - ((pos : Int) - sp))) else .error .assertion

/-- `be->str && *be->str == c` -/
def isKind (c : UInt8) (be : BencodeT) : Except Halt Bool :=
  match be.str with
  | none => pure false
  | some sp => do return (← peek buf sp) == c

def bencodeIsDict : BencodeT → Except Halt Bool := isKind buf 100

def bencodeIsInt : BencodeT → Except Halt Bool := isKind buf 105

def bencodeIsList : BencodeT → Except Halt Bool := isKind buf 108

def bencodeIsString (be : BencodeT) : Except Halt Bool :=
  match be.str with
  | none => .error .assertion
  | some sp => do
    let c ← peek buf sp
    if isDigit c then
      let (_, sp) ← readDigits 4294967296 (buf.drop sp) 0 sp
      return (← peek buf sp) == 58
    else pure false

/-- `*val`, and whether it returns 1. -/
def bencodeIntValue (be : BencodeT) : Except Halt (Int × Bool) := do
  let sp ← deref be.str
  match ← readStringInt buf (sp + 1) with
  | (val, none) => pure (val, false)
  | (val, some fin) => do
    if (← peek buf fin) = 101 then pure (val, true) else .error .assertion

/-- `*str` and `*slen`, or nothing when it returns 0. -/
def bencodeStringValue (be : BencodeT) : Except Halt (Option (Nat × Int)) := do
  if ← bencodeIsString buf be then
    let sp ← deref be.str
    match ← readStringLen buf sp with
    | none => .error .assertion
    | some (slen, sp) =>
      if be.len ≤ 0 then .error .assertion
      else if (sp : Int) + slen > be.start + be.len then pure none
      else pure (some (sp, slen))
  else .error .assertion

def bencodeDictHasNext (be : BencodeT) : Except Halt Bool :=
  match be.str with
  | none => pure false
  | some sp => do
    let c ← peek buf sp
    if c = 101 ∨ c = 0 ∨ c = 13 then pure false
    else if c = 100 then
      if (← peek buf (sp + 1)) = 101 then pure false
      else pure (decide ((sp : Int) < be.start + be.len - 1))
    else pure (decide ((sp : Int) < be.start + be.len - 1))

/-- Moves off the start of an empty list. -/
def bencodeListHasNext (be : BencodeT) : Except Halt (Bool × BencodeT) := do
  let sp ← deref be.str
  let c ← peek buf sp
  if c = 108 ∧ sp = be.start then
    if (← peek buf (sp + 1)) = 101 then pure (false, { be with str := some (sp + 1) })
    else pure (true, be)
  else pure (c != 101, be)

mutual

/-- `__iterate_to_next_string_pos` -/
def iterateToNextStringPos (fuel : Nat) (be : BencodeT) (sp : Nat) : Except Halt (Option Nat) :=
  match fuel with
  | 0 => .error .fuel
  | fuel + 1 => do
    let iter := bencodeInit sp (← carryLength be sp)
    if ← bencodeIsDict buf iter then
      match ← dictToEnd fuel iter with
      | none => pure none
      | some iter =>
        let sp ← deref iter.str
        if (← peek buf sp) = 100 then
          if (← peek buf (sp + 1)) = 101 then pure (some (sp + 2)) else pure (some (sp + 1))
        else pure (some (sp + 1))
    else if ← bencodeIsList buf iter then
      match ← listToEnd fuel iter with
      | none => pure none
      | some iter =>
        let sp ← deref iter.str
        pure (some (sp + 1))
    else if ← bencodeIsString buf iter then
      match ← bencodeStringValue buf iter with
      | none => pure none
      | some (str, len) => pure (some (str + len.toNat))
    else if ← bencodeIsInt buf iter then
      match ← readStringInt buf (sp + 1) with
      | (_, none) => pure none
      | (_, some fin) =>
        if (← peek buf fin) = 101 then pure (some (fin + 1)) else .error .assertion
    else pure none

/-- The loop to the end of a dictionary, with nothing when an item is invalid. -/
def dictToEnd (fuel : Nat) (iter : BencodeT) : Except Halt (Option BencodeT) :=
  match fuel with
  | 0 => .error .fuel
  | fuel + 1 => do
    if ← bencodeDictHasNext buf iter then
      match ← bencodeDictGetNext fuel iter with
      | (_, none) => pure none
      | (iter, some _) => dictToEnd fuel iter
    else pure (some iter)

/-- The loop to the end of a list. -/
def listToEnd (fuel : Nat) (iter : BencodeT) : Except Halt (Option BencodeT) :=
  match fuel with
  | 0 => .error .fuel
  | fuel + 1 => do
    match ← bencodeListHasNext buf iter with
    | (false, iter) => pure (some iter)
    | (true, iter) =>
      match ← bencodeListGetNext fuel iter with
      | (-1, _) => pure none
      | (_, iter) => listToEnd fuel iter

/-- The cursor behind the call, and the item when it returns 1. A caller that passes no
`be_item` gets the same, for the length is carried over on the way to the next item too. -/
def bencodeDictGetNext (fuel : Nat) (be : BencodeT) : Except Halt (BencodeT × Option Item) :=
  match fuel with
  | 0 => .error .fuel
  | fuel + 1 => do
    let sp ← deref be.str
    let c ← peek buf sp
    if c = 101 then .error .assertion
    else
      let sp := if c = 100 then sp + 1 else sp
      if (← peek buf sp) = 101 then pure (be, none)
      else
        match ← readStringLen buf sp with
        -- `NULL` goes on to `bencode_is_string`, which asserts that it is none
        | none => .error .assertion
        | some (len, keyin) =>
          let pos := keyin + len.toNat
          let value := bencodeInit pos (← carryLength be pos)
          match ← iterateToNextStringPos fuel be pos with
          | none => pure ({ be with str := none }, none)
          | some next => pure ({ be with str := some next }, some ⟨keyin, len, value⟩)

/-- Without `be_item`, as its only caller has it: the return value and the cursor. -/
def bencodeListGetNext (fuel : Nat) (be : BencodeT) : Except Halt (Int × BencodeT) :=
  match fuel with
  | 0 => .error .fuel
  | fuel + 1 =>
    match be.str with
    | none => pure (0, be)
    | some sp => do
      let c ← peek buf sp
      if c = 101 then pure (0, be)
      else
        let sp := if c = 108 ∧ be.start = sp then sp + 1 else sp
        if (← peek buf sp) = 101 then pure (0, { be with str := some sp })
        else
          match ← iterateToNextStringPos fuel be sp with
          | none => pure (-1, { be with str := none })
          | some next => pure (1, { be with str := some next })

end

/-- The loop of `bencode_dict_get_start_and_len` on the copied cursor. -/
def walkDict (fuel : Nat) (ben : BencodeT) : Except Halt BencodeT :=
  match fuel with
  | 0 => .error .fuel
  | fuel + 1 => do
    if ← bencodeDictHasNext buf ben then
      let (ben, _) ← bencodeDictGetNext buf fuel ben
      walkDict fuel ben
    else pure ben

/-- `*start` and `*len`. -/
def bencodeDictGetStartAndLen (fuel : Nat) (be : BencodeT) : Except Halt (Nat × Int) := do
  let ben ← walkDict buf fuel be
  let start ← deref be.str
  let last ← deref ben.str
  pure (start, toInt32 ((last : Int) - start + 1))

end BitFS.Bencode
