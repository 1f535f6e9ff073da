import BitFS.Client.Entries

/-! # The list of peers

`get_peer_list` reads the file `peerlist` byte by byte into an `int` that is never
set as a whole, drops what stands behind the last newline, and stores the lines
without a 0 behind them. What it does depends on what the memory held before.
-/

namespace BitFS.Client

open Memory Bencode

/-- A block of 64 bytes from `malloc`. -/
abbrev UrlBlock := { cells : List UInt8 // cells.length = 64 }

/-- The inner loop. `ch` is what the three upper bytes of the variable of that name amount to,
of which `read` sets only the lowest. The bytes in `buf`, and what is left of the file if the
loop ended at a newline; nothing when it writes behind the 1024 bytes of `buf`. -/
def readLine (ch : Int) (buf : List UInt8) :
    List UInt8 → Option (List UInt8 × Option (List UInt8))
  | [] => if buf.length < 1024 then some (buf, none) else none
  | c :: rest =>
    if 256 * ch + c.toNat = 10 then
      if buf.length < 1024 then some (buf, some rest) else none
    else if buf.length < 1024 then readLine ch (buf ++ [c]) rest
    else none

/-- `strncpy(url, buf, i)` -/
def storeUrl (url : UrlBlock) (buf : List UInt8) : Option (List UInt8) :=
  match strncpy (buf ++ [0]) 0 buf.length with
  | .ok bytes => memcpy url.1 0 bytes 0 bytes.length
  | .error _ => none

/-- The outer loop. It goes round once for every entry of `infoarr` and once more; `heap` is what
the blocks for the urls hold when they are allocated. -/
def peerLoop (ch : Nat → Int) (heap : Nat → UrlBlock) (infoarr : List (List UInt8))
    (rest : List UInt8) : Option (List (List UInt8)) :=
  match readLine (ch infoarr.length) [] rest with
  | none => none
  | some (_, none) => some infoarr
  | some (buf, some rest) =>
    if infoarr.length < 50 then
      match storeUrl (heap infoarr.length) buf with
      | none => none
      | some url => peerLoop ch heap (infoarr ++ [url]) rest
    else some infoarr
termination_by 50 - infoarr.length

/-- The urls of the list. Its `size` is their number. -/
def getPeerList (ch : Nat → Int) (heap : Nat → UrlBlock) (peerlist : List UInt8) :
    Option (List (List UInt8)) :=
  peerLoop ch heap [] peerlist

/-! ## Lines -/

/-- The lines of a file. The last one may be without a newline. -/
def lines : List UInt8 → List (List UInt8)
  | [] => []
  | c :: s =>
    if c = 10 then [] :: lines s
    else
      match lines s with
      | [] => [[c]]
      | line :: rest => (c :: line) :: rest

theorem lines_ended {line : List UInt8} (h : 10 ∉ line) (rest : List UInt8) :
    lines (line ++ 10 :: rest) = line :: lines rest := by
  induction line with
  | nil => simp [lines]
  | cons c line ih =>
      rw [List.mem_cons, not_or] at h
      rw [List.cons_append, lines, if_neg (Ne.symm h.1), ih h.2]

theorem lines_last {line : List UInt8} (h : 10 ∉ line) (hne : line ≠ []) : lines line = [line] := by
  induction line with
  | nil => exact absurd rfl hne
  | cons c line ih =>
      rw [List.mem_cons, not_or] at h
      rw [lines, if_neg (Ne.symm h.1)]
      by_cases hnil : line = []
      · subst hnil
        rfl
      · rw [ih h.2 hnil]

/-- What a C string function makes of a block: nothing if it reads on behind it. -/
def cString (block : List UInt8) : Option (List UInt8) :=
  if 0 ∈ block then some (cstr block) else none

/-- What stands behind the first `n` newlines. -/
def afterLines : Nat → List UInt8 → List UInt8
  | 0, s => s
  | n + 1, s => afterLines n (s.dropWhile (· ≠ 10)).tail

/-- The bytes that a round stores in `buf`. -/
def roundBytes (ch : Int) (s : List UInt8) : List UInt8 :=
  if ch = 0 then s.takeWhile (· ≠ 10) else s

theorem newline_iff (ch : Int) (c : UInt8) : 256 * ch + c.toNat = 10 ↔ ch = 0 ∧ c = 10 := by
  have hlt : c.toNat < 256 := c.toNat_lt
  constructor
  · intro h
    have hch : ch = 0 := by omega
    have hc : c.toNat = (10 : UInt8).toNat := by
      have hten : (10 : UInt8).toNat = 10 := rfl
      omega
    exact ⟨hch, UInt8.toNat_inj.mp hc⟩
  · intro ⟨hch, hc⟩
    rw [hch, hc]
    rfl

theorem readLine_ended {line : List UInt8} (h : 10 ∉ line) (buf rest : List UInt8) :
    readLine 0 buf (line ++ 10 :: rest) =
      if buf.length + line.length < 1024 then some (buf ++ line, some rest) else none := by
  induction line generalizing buf with
  | nil => simp [readLine]
  | cons c line ih =>
      rw [List.mem_cons, not_or] at h
      have hc : ¬ 256 * (0 : Int) + c.toNat = 10 := fun heq =>
        h.1 ((newline_iff 0 c).mp heq).2.symm
      rw [List.cons_append, readLine, if_neg hc, ih h.2, List.length_append, List.length_singleton,
        List.length_cons, List.append_assoc, List.singleton_append]
      split_ifs <;> first | rfl | omega

theorem readLine_eof {ch : Int} {s : List UInt8} (h : ch ≠ 0 ∨ 10 ∉ s) (buf : List UInt8) :
    readLine ch buf s =
      if buf.length + s.length < 1024 then some (buf ++ s, none) else none := by
  induction s generalizing buf with
  | nil => simp [readLine]
  | cons c s ih =>
      have hc : ¬ 256 * ch + c.toNat = 10 := by
        intro heq
        obtain ⟨hch, rfl⟩ := (newline_iff ch c).mp heq
        rcases h with h | h
        · exact h hch
        · exact h List.mem_cons_self
      have hs : ch ≠ 0 ∨ 10 ∉ s := h.imp_right fun hmem hs => hmem (List.mem_cons_of_mem c hs)
      rw [readLine, if_neg hc, ih hs, List.length_append, List.length_singleton, List.length_cons,
        List.append_assoc, List.singleton_append]
      split_ifs <;> first | rfl | omega

/-! ## Urls -/

theorem storeUrl_eq {line : List UInt8} (h : 0 ∉ line) (url : UrlBlock) :
    storeUrl url line =
      if line.length ≤ 64 then some (line ++ url.1.drop line.length) else none := by
  have hholds : Holds (line ++ [0]) 0 line := (holds_middle [] line [0])
  have hcopy : strncpy (line ++ [0]) 0 line.length = .ok line := by
    rw [strncpy_spec hholds, padded_eq_self h]
  rw [storeUrl, hcopy]
  by_cases hle : line.length ≤ 64
  · have hmem : memcpy url.1 (0 : Nat) line (0 : Nat) line.length = some _ :=
      memcpy_of_bounds (by rw [url.2]; omega) (by omega)
    rw [if_pos hle]
    rw [Nat.cast_zero, List.take_zero, List.nil_append, slice_all, Nat.zero_add] at hmem
    exact hmem
  · rw [if_neg hle]
    have hnone : ¬ (0 ≤ (0 : Int) ∧ 0 ≤ (0 : Int) ∧ 0 ≤ (line.length : Int) ∧
        0 + (line.length : Int) ≤ url.1.length ∧ 0 + (line.length : Int) ≤ line.length) := by
      rw [url.2]
      omega
    exact if_neg hnone

/-- A url reads as its line only if the block held a 0 behind it. -/
theorem cString_url_iff {line : List UInt8} (h : 0 ∉ line) (url : UrlBlock) :
    cString (line ++ url.1.drop line.length) = some line ↔ url.1[line.length]? = some 0 := by
  have hhead : (url.1.drop line.length).head? = url.1[line.length]? := List.head?_drop
  rw [← hhead, cString]
  cases hrest : url.1.drop line.length with
  | nil =>
      rw [List.append_nil, if_neg h]
      exact iff_of_false nofun nofun
  | cons c cells =>
      rw [List.head?_cons, Option.some.injEq, cstr_append h]
      by_cases hc : c = 0
      · subst hc
        rw [if_pos (List.mem_append_right _ List.mem_cons_self)]
        simp [cstr]
      · have hcstr : cstr (c :: cells) = c :: cstr cells := by simp [cstr, hc]
        refine iff_of_false ?_ hc
        rw [hcstr]
        intro heq
        split at heq
        · have hlen := congrArg List.length (Option.some.inj heq)
          simp at hlen
        · cases heq

/-! ## The list and the lines -/

/-- The list is the lines of the file, at most 50, and nothing is stored out of bounds. -/
def ListsPeers (ch : Nat → Int) (heap : Nat → UrlBlock) (peerlist : List UInt8) : Prop :=
  ∃ infoarr, getPeerList ch heap peerlist = some infoarr ∧
    infoarr.length = min 50 (lines peerlist).length ∧
    ∀ k < infoarr.length, (infoarr[k]?).bind cString = (lines peerlist)[k]?

/-- When the rounds from `k` on do what the next `r` lines ask for. -/
structure LinesFit (ch : Nat → Int) (heap : Nat → UrlBlock) (k r : Nat) (s : List UInt8) :
    Prop where
  ended : min r (lines s).length ≤ s.count 10
  stored : ∀ j < r, ∀ line, (lines s)[j]? = some line →
    ch (k + j) = 0 ∧ (heap (k + j)).1[line.length]? = some 0
  last : r ≤ (lines s).length → (roundBytes (ch (k + r)) (afterLines r s)).length < 1024

section Loop

variable {ch : Nat → Int} {heap : Nat → UrlBlock}

/-- A file is empty, without a newline, or a line and what follows. -/
theorem lines_cases (s : List UInt8) :
    s = [] ∨ (s ≠ [] ∧ 10 ∉ s) ∨ ∃ line rest, 10 ∉ line ∧ s = line ++ 10 :: rest := by
  by_cases hmem : 10 ∈ s
  · obtain ⟨line, rest, hs, hline⟩ := List.eq_append_cons_of_mem hmem
    exact Or.inr (Or.inr ⟨line, rest, hline, hs⟩)
  · by_cases hnil : s = []
    · exact Or.inl hnil
    · exact Or.inr (Or.inl ⟨hnil, hmem⟩)

theorem takeWhile_ended {line : List UInt8} (h : 10 ∉ line) (rest : List UInt8) :
    (line ++ 10 :: rest).takeWhile (· ≠ 10) = line ∧
      (line ++ 10 :: rest).dropWhile (· ≠ 10) = 10 :: rest := by
  have hall : ∀ c ∈ line, decide (c ≠ 10) = true := by
    intro c hc
    rw [decide_eq_true_iff]
    rintro rfl
    exact h hc
  constructor
  · rw [List.takeWhile_append_of_pos hall]
    simp
  · rw [List.dropWhile_append_of_pos hall]
    simp

/-- A round that reads up to the end of the file is the last one. -/
theorem peerLoop_eof {infoarr : List (List UInt8)} {s : List UInt8}
    (h : ch infoarr.length ≠ 0 ∨ 10 ∉ s) :
    peerLoop ch heap infoarr s = if s.length < 1024 then some infoarr else none := by
  rw [peerLoop, readLine_eof h, List.length_nil, Nat.zero_add, List.nil_append]
  split_ifs <;> rfl

/-- So is the one that finds the list full. -/
theorem peerLoop_full {infoarr : List (List UInt8)} (hfull : ¬ infoarr.length < 50)
    (s : List UInt8) :
    peerLoop ch heap infoarr s =
      if (roundBytes (ch infoarr.length) s).length < 1024 then some infoarr else none := by
  by_cases hch : ch infoarr.length = 0
  · rw [roundBytes, if_pos hch]
    rcases lines_cases s with rfl | ⟨-, hlast⟩ | ⟨line, rest, hline, rfl⟩
    · exact peerLoop_eof (Or.inr List.not_mem_nil)
    · have hall : s.takeWhile (· ≠ 10) = s := by
        apply List.takeWhile_eq_self_iff.mpr
        intro c hc
        rw [decide_eq_true_iff]
        rintro rfl
        exact hlast hc
      rw [hall]
      exact peerLoop_eof (Or.inr hlast)
    · rw [(takeWhile_ended hline rest).1, peerLoop, hch, readLine_ended hline, List.length_nil,
        Nat.zero_add, List.nil_append]
      split_ifs
      · rfl
      · rfl
  · rw [roundBytes, if_neg hch]
    exact peerLoop_eof (Or.inl hch)

/-- A line is stored, if it fits. -/
theorem peerLoop_line {infoarr : List (List UInt8)} (hroom : infoarr.length < 50)
    (hch : ch infoarr.length = 0) {line : List UInt8} (hline : 10 ∉ line) (hnul : 0 ∉ line)
    (rest : List UInt8) :
    peerLoop ch heap infoarr (line ++ 10 :: rest) =
      if line.length ≤ 64 then
        peerLoop ch heap (infoarr ++ [line ++ (heap infoarr.length).1.drop line.length]) rest
      else none := by
  rw [peerLoop, hch, readLine_ended hline, List.length_nil, Nat.zero_add, List.nil_append]
  by_cases hle : line.length ≤ 64
  · rw [if_pos (show line.length < 1024 by omega), if_pos hle]
    simp only [hroom, if_true, storeUrl_eq hnul, if_pos hle]
  · rw [if_neg hle]
    by_cases hlt : line.length < 1024
    · rw [if_pos hlt]
      simp only [hroom, if_true, storeUrl_eq hnul, if_neg hle]
    · rw [if_neg hlt]

/-- From an entry on, the lines that are read are the urls that are stored. -/
def RoundsList (ch : Nat → Int) (heap : Nat → UrlBlock) (infoarr : List (List UInt8)) (r : Nat)
    (s : List UInt8) : Prop :=
  ∃ urls, peerLoop ch heap infoarr s = some (infoarr ++ urls) ∧
    urls.map cString = ((lines s).take r).map some

theorem roundsList_of_stop {infoarr : List (List UInt8)} {r : Nat} {s : List UInt8} {p : Prop}
    [Decidable p] (h : peerLoop ch heap infoarr s = if p then some infoarr else none) :
    RoundsList ch heap infoarr r s ↔ p ∧ (lines s).take r = [] := by
  constructor
  · intro ⟨urls, hrun, hread⟩
    rw [h] at hrun
    split_ifs at hrun with hp
    have hnil : urls = [] := by
      have happ := Option.some.inj hrun
      rw [List.self_eq_append_right] at happ
      exact happ
    rw [hnil, List.map_nil] at hread
    exact ⟨hp, List.map_eq_nil_iff.mp hread.symm⟩
  · intro ⟨hp, hread⟩
    refine ⟨[], ?_, ?_⟩
    · rw [h, if_pos hp, List.append_nil]
    · rw [hread]
      rfl

theorem linesFit_cons {k r : Nat} {line rest : List UInt8} (hline : 10 ∉ line) :
    LinesFit ch heap k (r + 1) (line ++ 10 :: rest) ↔
      (ch k = 0 ∧ (heap k).1[line.length]? = some 0) ∧ LinesFit ch heap (k + 1) r rest := by
  have hlines := lines_ended hline rest
  have hcount : (line ++ 10 :: rest).count 10 = rest.count 10 + 1 := by
    rw [List.count_append, List.count_eq_zero.mpr hline, List.count_cons_self, Nat.zero_add]
  have hafter : afterLines (r + 1) (line ++ 10 :: rest) = afterLines r rest := by
    rw [afterLines, (takeWhile_ended hline rest).2, List.tail_cons]
  constructor
  · intro hfit
    have hended := hfit.ended
    have hlast := hfit.last
    rw [hlines, hcount, List.length_cons] at hended
    rw [hlines, hafter, List.length_cons] at hlast
    refine ⟨hfit.stored 0 (Nat.succ_pos r) line (by rw [hlines]; rfl), by omega, ?_, ?_⟩
    · intro j hj line' hline'
      have hstored := hfit.stored (j + 1) (by omega) line' (by rw [hlines]; exact hline')
      rwa [show k + (j + 1) = k + 1 + j by omega] at hstored
    · intro hle
      have hbytes := hlast (by omega)
      rwa [show k + (r + 1) = k + 1 + r by omega] at hbytes
  · intro ⟨hfirst, hfit⟩
    have hended := hfit.ended
    refine ⟨?_, ?_, ?_⟩
    · rw [hlines, hcount, List.length_cons]
      omega
    · intro j hj line' hline'
      rw [hlines] at hline'
      cases j with
      | zero =>
          cases hline'
          exact hfirst
      | succ j =>
          have hstored := hfit.stored j (by omega) line' hline'
          rwa [show k + 1 + j = k + (j + 1) by omega] at hstored
    · intro hle
      rw [hlines, List.length_cons] at hle
      rw [hafter, show k + (r + 1) = k + 1 + r by omega]
      exact hfit.last (by omega)

/-- Entries are only added. -/
theorem peerLoop_prefix {infoarr res : List (List UInt8)} {s : List UInt8}
    (h : peerLoop ch heap infoarr s = some res) : infoarr <+: res := by
  fun_induction peerLoop ch heap infoarr s with
  | case1 => cases h
  | case2 =>
      cases h
      exact List.prefix_refl _
  | case3 => cases h
  | case4 infoarr s buf rest hread hroom url hstore ih =>
      exact (List.prefix_append _ _).trans (ih h)
  | case5 =>
      cases h
      exact List.prefix_refl _

/-- A url that is stored and the entries behind it. -/
theorem roundsList_line {infoarr : List (List UInt8)} {r : Nat} (hroom : infoarr.length < 50)
    (hch : ch infoarr.length = 0) {line rest : List UInt8} (hline : 10 ∉ line) (hnul : 0 ∉ line)
    (hle : line.length ≤ 64) :
    RoundsList ch heap infoarr (r + 1) (line ++ 10 :: rest) ↔
      (heap infoarr.length).1[line.length]? = some 0 ∧
        RoundsList ch heap (infoarr ++ [line ++ (heap infoarr.length).1.drop line.length]) r
          rest := by
  have hrun : peerLoop ch heap infoarr (line ++ 10 :: rest) = _ :=
    peerLoop_line hroom hch hline hnul rest
  rw [if_pos hle] at hrun
  have htake : ((lines (line ++ 10 :: rest)).take (r + 1)).map some =
      some line :: ((lines rest).take r).map some := by
    rw [lines_ended hline rest]
    rfl
  unfold RoundsList
  rw [hrun, htake, ← cString_url_iff hnul]
  constructor
  · intro ⟨urls, hres, hread⟩
    obtain ⟨urls', hurls⟩ := peerLoop_prefix hres
    rw [List.append_assoc, List.append_cancel_left_eq] at hurls
    subst hurls
    obtain ⟨hurl, hread'⟩ := List.cons.inj hread
    refine ⟨hurl, urls', ?_, hread'⟩
    rw [hres, List.append_assoc]
  · intro ⟨hurl, urls', hres, hread⟩
    refine ⟨(line ++ (heap infoarr.length).1.drop line.length) :: urls', ?_, ?_⟩
    · rw [hres, List.append_assoc]
      rfl
    · rw [List.map_cons, hurl, hread]

theorem peerLoop_iff (r : Nat) {infoarr : List (List UInt8)} (hr : infoarr.length + r = 50)
    {s : List UInt8} (hnul : 0 ∉ s) :
    RoundsList ch heap infoarr r s ↔ LinesFit ch heap infoarr.length r s := by
  induction r generalizing infoarr s with
  | zero =>
      rw [roundsList_of_stop (peerLoop_full (by omega) s)]
      constructor
      · intro h
        exact ⟨by omega, fun j hj => absurd hj (Nat.not_lt_zero j), fun _ => h.1⟩
      · intro hfit
        exact ⟨hfit.last (Nat.zero_le _), List.take_zero⟩
  | succ r ih =>
      rcases lines_cases s with rfl | ⟨hne, hlast⟩ | ⟨line, rest, hline, rfl⟩
      · rw [roundsList_of_stop (peerLoop_eof (Or.inr List.not_mem_nil))]
        refine iff_of_true ⟨by decide, rfl⟩ ⟨Nat.le_of_eq (Nat.min_zero _), nofun, nofun⟩
      · -- a last line without a newline is dropped
        rw [roundsList_of_stop (peerLoop_eof (Or.inr hlast)), lines_last hlast hne]
        refine iff_of_false (fun h => List.cons_ne_nil _ _ h.2) ?_
        intro hfit
        have hended := hfit.ended
        rw [lines_last hlast hne, List.count_eq_zero.mpr hlast, List.length_singleton] at hended
        omega
      · have hroom : infoarr.length < 50 := by omega
        rw [List.mem_append, List.mem_cons, not_or, not_or] at hnul
        rw [linesFit_cons hline]
        by_cases hch : ch infoarr.length = 0
        · by_cases hle : line.length ≤ 64
          · have hlen : (infoarr ++ [line ++ (heap infoarr.length).1.drop line.length]).length =
                infoarr.length + 1 := by
              rw [List.length_append, List.length_singleton]
            rw [roundsList_line hroom hch hline hnul.1 hle, ih (by omega) hnul.2.2, hlen]
            tauto
          · have hnone : peerLoop ch heap infoarr (line ++ 10 :: rest) = none := by
              rw [peerLoop_line hroom hch hline hnul.1, if_neg hle]
            refine iff_of_false ?_ ?_
            · intro ⟨urls, hrun, _⟩
              rw [hnone] at hrun
              cases hrun
            · intro ⟨⟨_, hzero⟩, _⟩
              have hcell := (List.getElem?_eq_some_iff.mp hzero).1
              rw [(heap infoarr.length).2] at hcell
              omega
        · -- no newline is seen, so that the line is dropped with all that follows
          rw [roundsList_of_stop (peerLoop_eof (Or.inl hch)), lines_ended hline rest]
          exact iff_of_false (fun h => List.cons_ne_nil _ _ h.2) (fun h => hch h.1.1)

theorem listsPeers_iff_rounds (peerlist : List UInt8) :
    ListsPeers ch heap peerlist ↔ RoundsList ch heap [] 50 peerlist := by
  have hlength : ((lines peerlist).take 50).length = min 50 (lines peerlist).length :=
    List.length_take
  constructor
  · intro ⟨infoarr, hrun, hlen, hread⟩
    refine ⟨infoarr, hrun, ?_⟩
    apply List.ext_getElem
    · rw [List.length_map, List.length_map, hlength, hlen]
    · intro k hk hk'
      rw [List.length_map] at hk
      have hline := hread k hk
      rw [List.getElem?_eq_getElem hk, Option.bind_some] at hline
      rw [List.getElem_map, List.getElem_map, hline, List.getElem_take]
      exact List.getElem?_eq_getElem _
  · intro ⟨urls, hrun, hread⟩
    have hlen := congrArg List.length hread
    rw [List.length_map, List.length_map, hlength] at hlen
    refine ⟨urls, hrun, hlen, ?_⟩
    intro k hk
    have hline : (urls.map cString)[k]? = (((lines peerlist).take 50).map some)[k]? := by rw [hread]
    rw [List.getElem?_map, List.getElem?_map, List.getElem?_take_of_lt (by omega),
      List.getElem?_eq_getElem hk, Option.map_some,
      List.getElem?_eq_getElem (show k < (lines peerlist).length by omega),
      Option.map_some] at hline
    rw [List.getElem?_eq_getElem hk, Option.bind_some, Option.some.inj hline]
    exact (List.getElem?_eq_getElem _).symm

/-- `get_peer_list` gives the lines of the file exactly where the first 50 of them end in a
newline, are shorter than a block and find a 0 behind them in it, with the upper bytes of `ch` 0,
and where the round that finds the list full stores no more than `buf` has room for. -/
theorem getPeerList_lists_iff {peerlist : List UInt8} (hnul : 0 ∉ peerlist) :
    ListsPeers ch heap peerlist ↔ LinesFit ch heap 0 50 peerlist := by
  rw [listsPeers_iff_rounds]
  exact peerLoop_iff 50 (show ([] : List (List UInt8)).length + 50 = 50 from rfl) hnul

end Loop

/-- A block that holds only zeros. -/
def zeroBlock : UrlBlock := ⟨List.replicate 64 0, rfl⟩

/-- The file `a` with a newline, in memory that held zeros. -/
theorem getPeerList_lists_iff_newline : ListsPeers (fun _ => 0) (fun _ => zeroBlock) [97, 10] := by
  apply (getPeerList_lists_iff (by decide)).mpr
  refine ⟨by decide, ?_, ?_⟩
  · intro j _ line hline
    cases j with
    | zero =>
        cases hline
        decide
    | succ j => cases hline
  · intro h
    exact absurd h (by decide)

/-- Without the newline the line is dropped. -/
theorem getPeerList_noNewline : ¬ ListsPeers (fun _ => 0) (fun _ => zeroBlock) [97] := by
  intro h
  have hempty : ([] : List (List UInt8)).length + 50 = 50 := rfl
  have hfit := (peerLoop_iff 50 hempty (by decide)).mp ((listsPeers_iff_rounds [97]).mp h)
  exact absurd hfit.ended (by decide)

end BitFS.Client
