import BitFS.Client.PeerList

/-! # The peer that is connected to

`main` cuts the first url of the list into a host and a port. The url is not terminated, so
what its block held before decides what is read for the port.
-/

namespace BitFS.Client

open MachineInt Memory Bencode Decimal

/-- `strtok`, on a string or on what the last call left: the token and what it leaves. -/
def strtok (delim : UInt8) (s : List UInt8) : Option (List UInt8 × List UInt8) :=
  match s.dropWhile (· = delim) with
  | [] => none
  | c :: s' => some ((c :: s').takeWhile (· ≠ delim), ((c :: s').dropWhile (· ≠ delim)).tail)

def isSpace (c : UInt8) : Bool := c = 32 || (9 ≤ c && c ≤ 13)

/-- The number that the digits up to the first other character make. -/
def numeral (s : List UInt8) : Nat :=
  (s.takeWhile isDigit).foldl (fun n c => n * 10 + (c.toNat - 48)) 0

/-- `atoi`. A number that is not an `int` leaves its behaviour open. -/
def atoi (s : List UInt8) : Option Int :=
  match s.dropWhile isSpace with
  | [] => some 0
  | c :: ds =>
    if c = 45 then checked32 (-(numeral ds : Int))
    else if c = 43 then checked32 (numeral ds)
    else checked32 (numeral (c :: ds))

/-- `ip` and `port` of `main`. Without an entry, a terminated string and two tokens its behaviour
is undefined. -/
def peerAddress (infoarr : List (List UInt8)) : Option (List UInt8 × Int) := do
  let url ← infoarr.head?
  let s ← cString url
  let (ip, s) ← strtok 58 s
  let (token, _) ← strtok 58 s
  let port ← atoi token
  pure (ip, port)

/-! ## Tokens and numbers -/

/-- A token up to the delimiter. -/
theorem strtok_token {delim : UInt8} {token : List UInt8} (hne : token ≠ []) (h : delim ∉ token)
    (s : List UInt8) : strtok delim (token ++ delim :: s) = some (token, s) := by
  obtain ⟨c, cs, rfl⟩ := List.exists_cons_of_ne_nil hne
  have hc : c ≠ delim := fun heq => h (heq ▸ List.mem_cons_self)
  have hall : ∀ x ∈ c :: cs, decide (x ≠ delim) = true := by
    intro x hx
    rw [decide_eq_true_iff]
    rintro rfl
    exact h hx
  have hskip : (c :: cs ++ delim :: s).dropWhile (· = delim) = c :: (cs ++ delim :: s) := by
    simp [hc]
  unfold strtok
  rw [hskip]
  dsimp only
  rw [← List.cons_append, List.takeWhile_append_of_pos hall, List.dropWhile_append_of_pos hall]
  simp

/-- The last token. -/
theorem strtok_rest {delim c : UInt8} (hc : c ≠ delim) (s : List UInt8) :
    ∃ rest, strtok delim (c :: s) = some ((c :: s).takeWhile (· ≠ delim), rest) := by
  refine ⟨((c :: s).dropWhile (· ≠ delim)).tail, ?_⟩
  have hskip : (c :: s).dropWhile (· = delim) = c :: s := by
    simp [hc]
  unfold strtok
  rw [hskip]

theorem atoi_digit {c : UInt8} (hc : isDigit c = true) (s : List UInt8) :
    atoi (c :: s) = checked32 (numeral (c :: s)) := by
  have hother : isSpace c = false ∧ c ≠ 45 ∧ c ≠ 43 := by
    obtain ⟨d, hd, rfl⟩ := exists_ofNat_of_isDigit hc
    interval_cases d <;> decide
  unfold atoi
  rw [List.dropWhile_cons, hother.1]
  simp only [Bool.false_eq_true, if_false, if_neg hother.2.1, if_neg hother.2.2]

/-- The digits of a number. -/
theorem foldl_decimal (n : Nat) :
    (decimal n).foldl (fun n c => n * 10 + (c.toNat - 48)) 0 = n := by
  have hdigits : ∀ (ds : List Nat) (a : Nat), (∀ d ∈ ds, d < 10) →
      (ds.map fun d => UInt8.ofNat (48 + d)).foldl (fun n c => n * 10 + (c.toNat - 48)) a =
        ds.foldl (fun a d => a * 10 + d) a := by
    intro ds
    induction ds with
    | nil => exact fun _ _ => rfl
    | cons d ds ih =>
        intro a h
        have hd := toNat_ofNat (h d List.mem_cons_self)
        rw [List.map_cons, List.foldl_cons, List.foldl_cons, hd, Nat.add_sub_cancel_left]
        exact ih _ fun d' hd' => h d' (List.mem_cons_of_mem d hd')
  rw [decimal, hdigits _ 0 fun d hd => digits_lt hd, foldl_digits]

theorem le_foldl (s : List UInt8) (a : Nat) :
    a ≤ s.foldl (fun n c => n * 10 + (c.toNat - 48)) a := by
  induction s generalizing a with
  | nil => exact le_rfl
  | cons c s ih =>
      have hnext := ih (a * 10 + (c.toNat - 48))
      rw [List.foldl_cons]
      omega

/-- More digits make another number of a positive one. -/
theorem numeral_decimal_iff {n : Nat} (hn : 1 ≤ n) (s : List UInt8) :
    numeral (decimal n ++ s) = n ↔ s.takeWhile isDigit = [] := by
  have hall : ∀ c ∈ decimal n, isDigit c = true := fun c hc => isDigit_of_mem hc
  unfold numeral
  rw [List.takeWhile_append_of_pos hall, List.foldl_append, foldl_decimal]
  cases s.takeWhile isDigit with
  | nil => simp
  | cons c ds =>
      have hle := le_foldl ds (n * 10 + (c.toNat - 48))
      rw [List.foldl_cons]
      refine iff_of_false (fun heq => ?_) (List.cons_ne_nil c ds)
      omega

/-! ## The first line of the list -/

section FirstLine

variable {ch : Nat → Int} {heap : Nat → UrlBlock} {host : List UInt8} {port : Nat}

/-- What `atoi` is given behind the port: nothing that it reads, or more digits. -/
theorem token_digits_iff {tail : List UInt8} (h : 0 ∈ tail) :
    ((cstr tail).takeWhile (· ≠ 58)).takeWhile isDigit = [] ↔
      tail.head?.map isDigit = some false := by
  cases tail with
  | nil => cases h
  | cons c tail =>
      rw [List.head?_cons, Option.map_some, Option.some.injEq]
      by_cases hc : isDigit c = true
      · have hother : c ≠ 0 ∧ c ≠ 58 := by
          constructor <;>
            · rintro rfl
              exact absurd hc (by decide)
        simp [cstr, hother, hc]
      · rw [Bool.not_eq_true] at hc
        simp only [hc, iff_true]
        by_cases hzero : c = 0
        · simp [cstr, hzero]
        · by_cases hcolon : c = 58
          · simp [cstr, hcolon]
          · simp [cstr, hzero, hcolon, hc]

/-- What is read for a host and a port with `tail` behind them. -/
theorem peerAddress_iff (hne : host ≠ []) (hhost : 0 ∉ host ∧ 58 ∉ host) (hport : 1 ≤ port)
    (hfits : port ≤ 2147483647) (tail : List UInt8) (infoarr : List (List UInt8)) :
    peerAddress ((host ++ 58 :: decimal port ++ tail) :: infoarr) = some (host, (port : Int)) ↔
      0 ∈ tail ∧ tail.head?.map isDigit = some false := by
  have hdigits : ∀ c ∈ decimal port, c ≠ 0 ∧ c ≠ 58 := by
    intro c hc
    have hd := isDigit_of_mem hc
    constructor <;>
      · rintro rfl
        exact absurd hd (by decide)
  have hnul : 0 ∉ host ++ 58 :: decimal port := by
    rw [List.mem_append, List.mem_cons]
    rintro (hmem | hmem | hmem)
    · exact hhost.1 hmem
    · exact absurd hmem (by decide)
    · exact (hdigits 0 hmem).1 rfl
  by_cases htail : 0 ∈ tail
  · have hstring : cString (host ++ 58 :: decimal port ++ tail) =
        some (host ++ 58 :: (decimal port ++ cstr tail)) := by
      rw [cString, if_pos (List.mem_append_right _ htail), cstr_append hnul, List.append_assoc,
        List.cons_append]
    have htoken : (decimal port ++ cstr tail).takeWhile (· ≠ 58) =
        decimal port ++ (cstr tail).takeWhile (· ≠ 58) := by
      apply List.takeWhile_append_of_pos
      intro c hc
      rw [decide_eq_true_iff]
      exact (hdigits c hc).2
    obtain ⟨c, cs, hcons, hc⟩ := exists_decimal port
    have hfirst : c ≠ 58 := (hdigits c (hcons ▸ List.mem_cons_self)).2
    obtain ⟨left, hnext⟩ := strtok_rest hfirst (cs ++ cstr tail)
    have hatoi := atoi_digit hc (cs ++ (cstr tail).takeWhile (· ≠ 58))
    rw [← List.cons_append, ← hcons] at hnext hatoi
    rw [htoken] at hnext
    have haddress : peerAddress ((host ++ 58 :: decimal port ++ tail) :: infoarr) =
        (checked32 (numeral (decimal port ++ (cstr tail).takeWhile (· ≠ 58)))).map
          fun port => (host, port) := by
      simp only [peerAddress, List.head?_cons, Option.bind_eq_bind, Option.bind_some, hstring,
        strtok_token hne hhost.2, hnext, hatoi, Option.map_eq_bind]
      rfl
    rw [haddress, ← token_digits_iff htail, ← numeral_decimal_iff hport, and_iff_right htail]
    constructor
    · intro h
      obtain ⟨x, hx, heq⟩ := Option.map_eq_some_iff.mp h
      obtain ⟨-, rfl⟩ := checked32_eq_some.mp hx
      rw [Prod.mk.injEq] at heq
      exact_mod_cast heq.2
    · intro h
      rw [h, checked32_of_fits ⟨by omega, by omega⟩]
      rfl
  · have hnone : cString (host ++ 58 :: decimal port ++ tail) = none := by
      rw [cString, if_neg]
      rw [List.mem_append]
      exact not_or_intro hnul htail
    refine iff_of_false ?_ fun h => htail h.1
    simp only [peerAddress, List.head?_cons, Option.bind_eq_bind, Option.bind_some, hnone,
      Option.bind_none]
    intro h
    cases h

/-- What is read of a list that `get_peer_list` has read inside of its buffers. -/
theorem peerAddress_list_iff (hne : host ≠ []) (hhost : 0 ∉ host ∧ 10 ∉ host ∧ 58 ∉ host)
    (hport : 1 ≤ port) (hfits : port ≤ 2147483647) {rest : List UInt8} {infoarr : List (List UInt8)}
    (hlist : getPeerList ch heap (host ++ 58 :: decimal port ++ 10 :: rest) = some infoarr) :
    peerAddress infoarr = some (host, (port : Int)) ↔
      ch 0 = 0 ∧
        0 ∈ (heap 0).1.drop (host ++ 58 :: decimal port).length ∧
        (heap 0).1[(host ++ 58 :: decimal port).length]?.map isDigit = some false := by
  obtain ⟨line, hline⟩ : ∃ line, line = host ++ 58 :: decimal port := ⟨_, rfl⟩
  have hdigit : ∀ c ∈ decimal port, c ≠ 0 ∧ c ≠ 10 := by
    intro c hc
    have hd := isDigit_of_mem hc
    constructor <;>
      · rintro rfl
        exact absurd hd (by decide)
  have hnul : 0 ∉ line := by
    rw [hline, List.mem_append, List.mem_cons]
    rintro (hmem | hmem | hmem)
    · exact hhost.1 hmem
    · exact absurd hmem (by decide)
    · exact (hdigit 0 hmem).1 rfl
  have hnewline : 10 ∉ line := by
    rw [hline, List.mem_append, List.mem_cons]
    rintro (hmem | hmem | hmem)
    · exact hhost.2.1 hmem
    · exact absurd hmem (by decide)
    · exact (hdigit 10 hmem).2 rfl
  rw [← hline] at hlist ⊢
  rw [getPeerList] at hlist
  by_cases hch : ch 0 = 0
  · have hroom : ([] : List (List UInt8)).length < 50 := by decide
    rw [peerLoop_line hroom hch hnewline hnul] at hlist
    split at hlist
    · obtain ⟨others, rfl⟩ := peerLoop_prefix hlist
      rw [List.nil_append, List.length_nil, List.singleton_append, ← List.head?_drop, hline,
        peerAddress_iff hne ⟨hhost.1, hhost.2.2⟩ hport hfits]
      exact (and_iff_right hch).symm
    · cases hlist
  · rw [peerLoop_eof (Or.inl hch)] at hlist
    split at hlist
    · cases hlist
      exact iff_of_false nofun fun h => hch h.1
    · cases hlist

/-- `main` connects to the host and the port of the first line exactly if `get_peer_list` stays in
its buffers on the whole list, the upper bytes of `ch` were 0, and the block of the url held, from
the end of the line on, a terminated string that does not begin with a digit. -/
theorem connects_iff (hne : host ≠ []) (hhost : 0 ∉ host ∧ 10 ∉ host ∧ 58 ∉ host) (hport : 1 ≤ port)
    (hfits : port ≤ 2147483647) (rest : List UInt8) :
    (getPeerList ch heap (host ++ 58 :: decimal port ++ 10 :: rest)).bind peerAddress =
        some (host, (port : Int)) ↔
      (getPeerList ch heap (host ++ 58 :: decimal port ++ 10 :: rest)).isSome = true ∧
        ch 0 = 0 ∧ 0 ∈ (heap 0).1.drop (host ++ 58 :: decimal port).length ∧
        (heap 0).1[(host ++ 58 :: decimal port).length]?.map isDigit = some false := by
  cases hlist : getPeerList ch heap (host ++ 58 :: decimal port ++ 10 :: rest) with
  | none => exact iff_of_false nofun fun h => absurd h.1 Bool.false_ne_true
  | some infoarr =>
      rw [Option.bind_some, peerAddress_list_iff hne hhost hport hfits hlist]
      exact (and_iff_right rfl).symm

end FirstLine

/-- The list of the one line `h:5`, in memory that held zeros. -/
theorem getPeerList_oneLine :
    getPeerList (fun _ => 0) (fun _ => zeroBlock) ([104] ++ 58 :: decimal 5 ++ 10 :: []) =
      some [[104] ++ 58 :: decimal 5 ++ zeroBlock.1.drop 3] := by
  have hline : peerLoop (fun _ => 0) (fun _ => zeroBlock) []
      ([104] ++ 58 :: decimal 5 ++ 10 :: []) = _ :=
    peerLoop_line (by decide) rfl (by decide) (by decide) []
  rw [getPeerList, hline, peerLoop_eof (Or.inr List.not_mem_nil)]
  rfl

theorem connects_iff_oneLine :
    (getPeerList (fun _ => 0) (fun _ => zeroBlock) ([104] ++ 58 :: decimal 5 ++ 10 :: [])).bind
      peerAddress = some ([104], ((5 : Nat) : Int)) := by
  refine (connects_iff (List.cons_ne_nil _ _) (by decide) (by decide) (by decide) []).mpr ?_
  rw [getPeerList_oneLine]
  decide

/-- A block that held the digit 1 makes port 51 of port 5. -/
example : peerAddress [[104, 58, 53, 49] ++ List.replicate 60 0] = some ([104], 51) := by decide

end BitFS.Client
