import BitFS.Read.Reachable

/-! # The priority pass of `FS::read`

The first loop gives every missing piece of the request priority 7, but it also
touches the pieces next to it: a missing piece is set back to 1 by the round of
the next one.
-/

namespace BitFS.Read

open MachineInt Memory BitFS.Tree

/-! ## Priorities -/

/-- A round of the first loop at piece `p`. -/
def markPiece (downloaded : Finset Int) (n : Nat) (priority : Int → Int) (p : Int) : Int → Int :=
  if p ∈ downloaded then priority
  else
    let priority := Function.update priority p 7
    let priority := if p > 1 then Function.update priority (p - 1) 1 else priority
    if p < n - 1 then Function.update priority (p + 1) 7 else priority

/-- Rounds at `m` neighbouring pieces from `a` on. -/
def markPieces (downloaded : Finset Int) (n : Nat) (priority : Int → Int) (a : Nat) :
    Nat → Int → Int
  | 0 => priority
  | m + 1 => markPiece downloaded n (markPieces downloaded n priority a m) ((a + m : Nat) : Int)

section Mark

variable {D : Finset Int} {n : Nat} {f : Int → Int}

theorem markPiece_apply (p q : Int) :
    markPiece D n f p q =
      if p ∈ D then f q
      else if q = p + 1 ∧ p < n - 1 then 7
      else if q = p - 1 ∧ p > 1 then 1
      else if q = p then 7
      else f q := by
  unfold markPiece
  by_cases hp : p ∈ D
  · rw [if_pos hp, if_pos hp]
  · rw [if_neg hp, if_neg hp]
    by_cases hnext : p < n - 1
    · by_cases hprev : p > 1
      · simp only [hnext, hprev, if_true, and_true, Function.update_apply]
      · simp only [hnext, hprev, if_true, if_false, and_true, and_false, Function.update_apply]
    · by_cases hprev : p > 1
      · simp only [hnext, hprev, if_true, if_false, and_true, and_false, Function.update_apply]
      · simp only [hnext, hprev, if_false, and_false, Function.update_apply]

/-- A round leaves the pieces alone that are not next to its own. -/
theorem markPiece_other {p q : Int} (h : q < p - 1 ∨ p + 1 < q) : markPiece D n f p q = f q := by
  rw [markPiece_apply]
  split_ifs <;> first | rfl | omega

variable {a : Nat}

/-- Pieces further on are left alone. -/
theorem markPieces_beyond {m i : Nat} (hi : m < i) :
    markPieces D n f a m ((a + i : Nat) : Int) = f ((a + i : Nat) : Int) := by
  induction m with
  | zero => rfl
  | succ m ih =>
      rw [markPieces, markPiece_other (Or.inr (by omega)), ih (by omega)]

/-- The piece behind a missing last one. -/
theorem markPieces_behind {m : Nat} (hmiss : ((a + m : Nat) : Int) ∉ D) (hn : a + m + 1 < n) :
    markPieces D n f a (m + 1) ((a + (m + 1) : Nat) : Int) = 7 := by
  rw [markPieces, markPiece_apply, if_neg hmiss, if_pos ⟨by omega, by omega⟩]

/-- The piece behind a last one that is there. -/
theorem markPieces_kept {m : Nat} (h : ∀ l, l + 1 = m → ((a + l : Nat) : Int) ∈ D) :
    markPieces D n f a m ((a + m : Nat) : Int) = f ((a + m : Nat) : Int) := by
  cases m with
  | zero => rfl
  | succ m => rw [markPieces, markPiece_apply, if_pos (h m rfl), markPieces_beyond (by omega)]

/-- A missing piece keeps its 7 if the next round is not for a missing piece. -/
theorem markPieces_top {m i : Nat} (hi : i < m) (hmiss : ((a + i : Nat) : Int) ∉ D)
    (hnext : i + 1 < m → 1 ≤ a + i → ((a + (i + 1) : Nat) : Int) ∈ D) :
    markPieces D n f a m ((a + i : Nat) : Int) = 7 := by
  induction m with
  | zero => omega
  | succ m ih =>
      rw [markPieces]
      rcases Nat.lt_trichotomy (i + 1) m with hlt | heq | hgt
      · rw [markPiece_other (Or.inl (by omega)), ih (by omega) (fun _ => hnext (by omega))]
      · subst heq
        rw [markPiece_apply, ih (by omega) (fun h => absurd h (Nat.lt_irrefl _))]
        by_cases hp : ((a + (i + 1) : Nat) : Int) ∈ D
        · rw [if_pos hp]
        · have ha : ¬ 1 ≤ a + i := fun ha => hp (hnext (by omega) ha)
          rw [if_neg hp, if_neg (by omega), if_neg (by omega), ite_self]
      · obtain rfl : i = m := by omega
        rw [markPiece_apply, if_neg hmiss, if_neg (by omega), if_neg (by omega), if_pos rfl]

/-- It is set back to 1 if the next round is for a missing piece too. -/
theorem markPieces_back {m i : Nat} (hi : i + 1 < m) (ha : 1 ≤ a + i)
    (hnext : ((a + (i + 1) : Nat) : Int) ∉ D) :
    markPieces D n f a m ((a + i : Nat) : Int) = 1 := by
  induction m with
  | zero => omega
  | succ m ih =>
      rw [markPieces]
      by_cases hlast : i + 1 = m
      · subst hlast
        rw [markPiece_apply, if_neg hnext, if_neg (by omega), if_pos ⟨by omega, by omega⟩]
      · rw [markPiece_other (Or.inl (by omega)), ih (by omega)]

end Mark

/-! ## One round of the loop -/

section Alone

variable {t : Torrent} (lt : TorrentInfo t) {ι : Type}

/-- A step of `me` while nothing else happens. -/
def alone (me : ι) (x : Session ι × Reader) : Session ι × Reader := x.2.step lt me x.1

variable {fr : Frame} {i k : Nat} (me : ι) (sh : Session ι)

/-- The session after the three calls of `piece_priority`. -/
def Session.mark (n : Nat) (p : Int) : Session ι :=
  let sh := sh.piecePriority p 7
  let sh := if p > 1 then sh.piecePriority (p - 1) 1 else sh
  if p < n - 1 then sh.piecePriority (p + 1) 7 else sh

theorem Session.mark_downloaded (n : Nat) (p : Int) : (sh.mark n p).downloaded = sh.downloaded := by
  unfold Session.mark
  split_ifs <;> rfl

theorem Session.mark_priority {sh : Session ι} {n : Nat} {p : Int} (hp : p ∉ sh.downloaded) :
    (sh.mark n p).priority = markPiece sh.downloaded n sh.priority p := by
  unfold Session.mark markPiece
  rw [if_neg hp]
  split_ifs <;> rfl

theorem alone_mark (hloc : Located t fr i k) (h : Reading t fr i) :
    (alone lt me)^[4] (sh, ⟨fr, .prioSelf⟩) =
      (sh.mark t.numPieces fr.pr.piece, ⟨fr.passed (k + roundSize t fr i k), .prioHead⟩) := by
  simp only [Function.iterate_succ_apply, Function.iterate_zero_apply, alone, Reader.step,
    hloc.skipPiece h, Reader.orCrash, Session.mark]

/-- The loop body, from the test on to the next test. -/
theorem alone_round (h : Reading t fr i) (hat : At fr k) (hmore : k < fr.wanted.toNat) :
    ∃ (m : Nat) (fr' : Frame) (sh' : Session ι),
      (alone lt me)^[m] (sh, ⟨fr, .prioHead⟩) = (sh', ⟨fr', .prioHead⟩) ∧
      Reading t fr' i ∧ At fr' (k + roundSize t fr i k) ∧
      fr'.offset = fr.offset ∧ fr'.wanted = fr.wanted ∧ sh'.downloaded = sh.downloaded ∧
      sh'.priority = markPiece sh.downloaded t.numPieces sh.priority (pieceAt t fr i k) := by
  have hrem := hat.rem
  have hpos : fr.remaining_size > 0 := by omega
  have hloc := hat.mapFile lt h hpos
  have hread : Reading t (fr.mapFile lt) i := { h with }
  have hround : k + roundSize t fr i k ≤ fr.wanted.toNat := (hloc.roundSize_bounds hread).2.1
  by_cases hhave : (fr.mapFile lt).pr.piece ∈ sh.downloaded
  · refine ⟨2, _, sh.havePiece (fr.mapFile lt).pr.piece, ?_, hread.passed _, at_passed hround, rfl,
      rfl, rfl, ?_⟩
    · have hhead : alone lt me (sh, ⟨fr, .prioHead⟩) =
          (sh.havePiece (fr.mapFile lt).pr.piece, ⟨fr.mapFile lt, .prioAdvance⟩) := by
        simp only [alone, Reader.step, hpos, if_true, hhave]
      rw [Function.iterate_succ_apply, hhead, Function.iterate_one, alone, Reader.step,
        hloc.skipPiece hread]
      rfl
    · have hpiece : (pieceAt t fr i k : Int) ∈ sh.downloaded := hloc.piece ▸ hhave
      rw [markPiece, if_pos hpiece]
      rfl
  · have hloc' : Located t (fr.mapFile lt).requirePiece i k := { hloc with }
    have hread' : Reading t (fr.mapFile lt).requirePiece i := { hread with }
    have hpiece : (fr.mapFile lt).requirePiece.pr.piece = pieceAt t fr i k := hloc.piece
    have hmiss : (pieceAt t fr i k : Int) ∉ sh.downloaded := hpiece ▸ hhave
    refine ⟨5, _, (sh.havePiece (pieceAt t fr i k)).mark t.numPieces (pieceAt t fr i k), ?_,
      hread'.passed _, at_passed hround, rfl, rfl, Session.mark_downloaded _ _ _,
      Session.mark_priority hmiss⟩
    have hhead : alone lt me (sh, ⟨fr, .prioHead⟩) =
        (sh.havePiece (pieceAt t fr i k), ⟨(fr.mapFile lt).requirePiece, .prioSelf⟩) := by
      simp only [alone, Reader.step, hpos, if_true, hhave, if_false]
      rw [← hpiece]
      rfl
    rw [Function.iterate_succ_apply, hhead, alone_mark lt me _ hloc' hread', hpiece]
    rfl

end Alone

/-! ## The whole pass -/

section Pass

variable {t : Torrent} {fr fr' : Frame} {i k : Nat}

theorem pieceAt_congr (h : fr'.offset = fr.offset) (j : Nat) :
    pieceAt t fr' i j = pieceAt t fr i j := by
  rw [pieceAt, pieceAt, pos, pos, h]

theorem pieceAt_mono {j j' : Nat} (h : j ≤ j') : pieceAt t fr i j ≤ pieceAt t fr i j' := by
  have hpos : pos t fr i j ≤ pos t fr i j' := by
    unfold pos
    omega
  exact Nat.div_le_div_right hpos

/-- A round that does not end the request ends its piece. -/
theorem pieceAt_next (h : Reading t fr i)
    (hmore : k + roundSize t fr i k < fr.wanted.toNat) :
    pieceAt t fr i (k + roundSize t fr i k) = pieceAt t fr i k + 1 := by
  have hend := h.pos_lt hmore
  have hpiece := t.pieceBytes_length (pieceAt t fr i k)
  have hmod := t.mod_lt_pieceBytes_length (h.pos_lt (show k < fr.wanted.toNat by omega))
  have hdiv := Nat.div_add_mod (pos t fr i k) t.pieceLength
  have hsize : roundSize t fr i k =
      (t.pieceBytes (pieceAt t fr i k)).length - pos t fr i k % t.pieceLength := by
    unfold roundSize at hmore ⊢
    omega
  have hpos : pos t fr i (k + roundSize t fr i k) = pos t fr i k + roundSize t fr i k := by
    unfold pos
    omega
  rw [Nat.mul_comm] at hdiv
  change pieceAt t fr i k * t.pieceLength + pos t fr i k % t.pieceLength = pos t fr i k at hdiv
  change pos t fr i k % t.pieceLength < (t.pieceBytes (pieceAt t fr i k)).length at hmod
  -- a piece that is cut short ends the torrent
  have hfull : (t.pieceBytes (pieceAt t fr i k)).length = t.pieceLength := by omega
  have hstart : pos t fr i (k + roundSize t fr i k) = (pieceAt t fr i k + 1) * t.pieceLength := by
    rw [Nat.succ_mul]
    omega
  rw [pieceAt, hstart, Nat.mul_div_cancel _ t.pieceLength_pos]

/-- If the pieces passed before a round come before its piece, so they do after it. -/
theorem Located.onward (hloc : Located t fr i k) (h : Reading t fr i)
    (hpast : ∀ j < k, pieceAt t fr i j < pieceAt t fr i k)
    (hmore : k + roundSize t fr i k < fr.wanted.toNat) {j : Nat}
    (hj : j < k + roundSize t fr i k) :
    pieceAt t fr i j < pieceAt t fr i (k + roundSize t fr i k) := by
  rw [pieceAt_next h hmore]
  by_cases hjk : j < k
  · have hlt := hpast j hjk
    omega
  · have hin := hloc.pieceAt_eq h (j := j - k) (by omega)
    rw [show k + (j - k) = j by omega] at hin
    omega

variable {ι : Type} {D : Finset Int} {f : Int → Int} {fr0 : Frame} {m : Nat}

/-- `k` bytes are passed, which lie in `m` pieces. -/
structure Pass (t : Torrent) (D : Finset Int) (f : Int → Int) (fr0 : Frame) (i k m : Nat)
    (sh : Session ι) : Prop where
  downloaded : sh.downloaded = D
  priority : sh.priority = markPieces D t.numPieces f (pieceAt t fr0 i 0) m
  inside : ∀ j < k, pieceAt t fr0 i j < pieceAt t fr0 i 0 + m
  reached : ∀ l < m, ∃ j < k, pieceAt t fr0 i j = pieceAt t fr0 i 0 + l
  next : k < fr0.wanted.toNat → pieceAt t fr0 i k = pieceAt t fr0 i 0 + m

theorem Pass.start {sh : Session ι} :
    Pass t sh.downloaded sh.priority fr0 i 0 0 sh where
  downloaded := rfl
  priority := rfl
  inside j hj := absurd hj (Nat.not_lt_zero j)
  reached l hl := absurd hl (Nat.not_lt_zero l)
  next _ := rfl

theorem located_passed (lt : TorrentInfo t) (h : Reading t fr i) (hk : k < fr.wanted.toNat) :
    Located t ((fr.passed k).mapFile lt) i k ∧ Reading t ((fr.passed k).mapFile lt) i := by
  have hrem : (fr.passed k).remaining_size > 0 := by
    dsimp only [Frame.passed]
    omega
  exact ⟨(at_passed hk.le).mapFile lt (h.passed k) hrem, { h with }⟩

theorem one_le_roundSize (lt : TorrentInfo t) (h : Reading t fr i) (hk : k < fr.wanted.toNat) :
    1 ≤ roundSize t fr i k := by
  obtain ⟨hloc, hread⟩ := located_passed lt h hk
  exact (hloc.roundSize_bounds hread).1

theorem Pass.round (lt : TorrentInfo t) {sh sh' : Session ι} (hp : Pass t D f fr0 i k m sh)
    (h : Reading t fr0 i) (hk : k < fr0.wanted.toNat)
    (hdown : sh'.downloaded = sh.downloaded)
    (hmark : sh'.priority =
      markPiece sh.downloaded t.numPieces sh.priority (pieceAt t fr0 i k)) :
    Pass t D f fr0 i (k + roundSize t fr0 i k) (m + 1) sh' := by
  have hnext := hp.next hk
  have hsize := one_le_roundSize lt h hk
  obtain ⟨hloc, hread⟩ := located_passed lt h hk
  refine ⟨hdown.trans hp.downloaded, ?_, ?_, ?_, ?_⟩
  · rw [hmark, hp.downloaded, hp.priority, markPieces, hnext]
  · intro j hj
    by_cases hjk : j < k
    · have hin := hp.inside j hjk
      omega
    · have hin : pieceAt t fr0 i (k + (j - k)) = pieceAt t fr0 i k :=
        hloc.pieceAt_eq hread (show j - k < roundSize t fr0 i k by omega)
      rw [show k + (j - k) = j by omega] at hin
      omega
  · intro l hl
    by_cases hlm : l < m
    · obtain ⟨j, hj, hpiece⟩ := hp.reached l hlm
      exact ⟨j, by omega, hpiece⟩
    · obtain rfl : l = m := by omega
      exact ⟨k, by omega, hnext⟩
  · intro hmore
    rw [pieceAt_next h hmore, hnext]
    rfl

/-- The loop ends, with all of the request passed. -/
theorem Pass.run (lt : TorrentInfo t) (me : ι) (h0 : Reading t fr0 i) {sh : Session ι}
    (hp : Pass t D f fr0 i k m sh) (h : Reading t fr i) (hat : At fr k)
    (hoffset : fr.offset = fr0.offset) (hwanted : fr.wanted = fr0.wanted) :
    ∃ (n : Nat) (fr' : Frame) (sh' : Session ι) (m' : Nat),
      (alone lt me)^[n] (sh, ⟨fr, .prioHead⟩) = (sh', ⟨fr', .lock⟩) ∧
      Pass t D f fr0 i fr0.wanted.toNat m' sh' := by
  induction hd : fr0.wanted.toNat - k using Nat.strong_induction_on generalizing k m fr sh with
  | _ d ih =>
      by_cases hmore : k < fr0.wanted.toNat
      · obtain ⟨n, fr1, sh1, hrun, h1, hat1, hoffset1, hwanted1, hdown, hmark⟩ :=
          alone_round lt me sh h hat (by rw [hwanted]; exact hmore)
        have hsame : roundSize t fr i k = roundSize t fr0 i k := by
          unfold roundSize pos
          rw [pieceAt_congr hoffset, hoffset, hwanted]
        rw [pieceAt_congr hoffset] at hmark
        rw [hsame] at hat1
        have hsize := one_le_roundSize lt h0 hmore
        have hp1 := hp.round lt h0 hmore hdown hmark
        obtain ⟨n', fr', sh', m', hrun', hp'⟩ := ih _ (by omega) hp1 h1 hat1
          (hoffset1.trans hoffset) (hwanted1.trans hwanted) rfl
        refine ⟨n' + n, fr', sh', m', ?_, hp'⟩
        rw [Function.iterate_add_apply, hrun, hrun']
      · have hle := hat.le
        have hrem := hat.rem
        rw [hwanted] at hle hrem
        obtain rfl : k = fr0.wanted.toNat := by omega
        have hend : ¬ fr.remaining_size > 0 := by omega
        refine ⟨1, fr, sh, m, ?_, hp⟩
        simp only [Function.iterate_one, alone, Reader.step, hend, if_false]

end Pass

/-! ## Behind the loop -/

/-- `read` is through with the first loop. -/
def Pc.Past : Pc → Prop
  | .entry | .prioHead | .prioSelf | .prioPrev | .prioNext | .prioAdvance => False
  | _ => True

section Past

variable {t : Torrent} (lt : TorrentInfo t) {ι : Type} (me : ι)

theorem orCrash_past {pc : Pc} (fr : Frame) (next : Option Frame) (h : pc.Past) :
    (Reader.orCrash fr next pc).pc.Past := by
  cases next with
  | none => trivial
  | some fr' => exact h

/-- From there on no priority changes. -/
theorem alone_past {x : Session ι × Reader} (h : x.2.pc.Past) :
    (alone lt me x).2.pc.Past ∧ (alone lt me x).1.priority = x.1.priority := by
  obtain ⟨sh, fr, pc⟩ := x
  cases pc with
  | entry | prioHead | prioSelf | prioPrev | prioNext | prioAdvance => exact h.elim
  | lock =>
      simp only [alone, Reader.step]
      split <;> exact ⟨trivial, rfl⟩
  | sweep todo =>
      cases todo with
      | nil => exact ⟨orCrash_past _ _ trivial, rfl⟩
      | cons p todo =>
          simp only [alone, Reader.step]
          split <;> exact ⟨trivial, rfl⟩
  | copyHead =>
      simp only [alone, Reader.step]
      split <;> exact ⟨trivial, rfl⟩
  | waitTest | waitHave | bufTest | bufFind =>
      refine ⟨?_, rfl⟩
      simp only [alone, Reader.step]
      split <;> trivial
  | copy => exact ⟨orCrash_past _ _ trivial, rfl⟩
  | sweepRead | waitPop | bufRequest | bufPop | unlock | done | crashed => exact ⟨trivial, rfl⟩

theorem iterate_past (n : Nat) {x : Session ι × Reader} (h : x.2.pc.Past) :
    ((alone lt me)^[n] x).1.priority = x.1.priority := by
  induction n generalizing x with
  | zero => rfl
  | succ n ih =>
      obtain ⟨hpast, hkept⟩ := alone_past lt me h
      rw [Function.iterate_succ_apply, ih hpast, hkept]

/-- Whenever the thread is found behind the loop, the priorities are the same. -/
theorem iterate_past_unique {x : Session ι × Reader} {n n' : Nat} {sh sh' : Session ι}
    {rd rd' : Reader} (h : (alone lt me)^[n] x = (sh, rd)) (hpast : rd.pc.Past)
    (h' : (alone lt me)^[n'] x = (sh', rd')) (hpast' : rd'.pc.Past) :
    sh.priority = sh'.priority := by
  rcases Nat.le_total n n' with hle | hle
  · obtain ⟨d, rfl⟩ := Nat.exists_eq_add_of_le' hle
    have hkept := iterate_past lt me d (x := (sh, rd)) hpast
    rw [Function.iterate_add_apply, h] at h'
    rw [h'] at hkept
    exact hkept.symm
  · obtain ⟨d, rfl⟩ := Nat.exists_eq_add_of_le' hle
    have hkept := iterate_past lt me d (x := (sh', rd')) hpast'
    rw [Function.iterate_add_apply, h'] at h
    rw [h] at hkept
    exact hkept

end Past

/-! ## Which requests are left at top priority -/

section Request

variable {t : Torrent} (lt : TorrentInfo t) {ι : Type} (me : ι)

/-- The requested bytes that the file has. -/
def requested (t : Torrent) (fr : Frame) (i : Nat) : Nat :=
  min fr.size ((fileBytes t i).length - fr.offset)

/-- The bytes that the loops go over, with `size` and the length of the file as `int`s. -/
def passLength (t : Torrent) (fr : Frame) (i : Nat) : Nat :=
  (min (toInt32 fr.size) (fileEnd t i - fr.offset)).toNat

/-- Piece `p` overlaps the first `n` bytes of the request. -/
def Overlaps (t : Torrent) (fr : Frame) (i n p : Nat) : Prop := ∃ j < n, pieceAt t fr i j = p

/-- If `read` gets to the first loop, the loop ends, and then every piece that overlaps the
request and is not downloaded has priority 7. -/
def LeavesAtTop (downloaded : Finset Int) (fr : Frame) : Prop :=
  ∀ sh : Session ι, sh.downloaded = downloaded →
    (fr.offset : Int) < (fr.start lt).file_total_size →
    (∃ n sh' fr', (alone lt me)^[n] (sh, ⟨fr, .entry⟩) = (sh', ⟨fr', .lock⟩)) ∧
    ∀ n sh' fr', (alone lt me)^[n] (sh, ⟨fr, .entry⟩) = (sh', ⟨fr', .lock⟩) →
      ∀ p, Overlaps t fr (fr.index t) (requested t fr (fr.index t)) p → (p : Int) ∉ downloaded →
        sh'.priority p = 7

/-- No two neighbouring pieces from piece 1 on are missing that the loop goes over, and what
it does not go over is there, but for the piece behind a missing last one. -/
structure NoneSetBack (t : Torrent) (downloaded : Finset Int) (fr : Frame) (i : Nat) : Prop where
  gaps : ∀ p, 1 ≤ p → Overlaps t fr i (passLength t fr i) p →
    Overlaps t fr i (passLength t fr i) (p + 1) →
    (p : Int) ∈ downloaded ∨ ((p + 1 : Nat) : Int) ∈ downloaded
  rest : ∀ p, Overlaps t fr i (requested t fr i) p → ¬ Overlaps t fr i (passLength t fr i) p →
    (p : Int) ∈ downloaded ∨
      ∃ q, q + 1 = p ∧ Overlaps t fr i (passLength t fr i) q ∧ (q : Int) ∉ downloaded

variable {fr : Frame} {i : Nat}

/-- What both loops work off, in terms of the call. -/
theorem Reading.wanted_toNat {fr0 : Frame} (h : Reading t fr i) (hcall : fr0.SameCall fr) :
    fr.wanted.toNat = passLength t fr0 i := by
  unfold Frame.wanted passLength
  rw [h.total, hcall.size, hcall.offset]

theorem Pass.overlaps_iff {D : Finset Int} {f : Int → Int} {k m p : Nat} {sh : Session ι}
    (hp : Pass t D f fr i k m sh) :
    Overlaps t fr i k p ↔ pieceAt t fr i 0 ≤ p ∧ p < pieceAt t fr i 0 + m := by
  constructor
  · intro ⟨j, hj, hpiece⟩
    have hin := hp.inside j hj
    have hmono : pieceAt t fr i 0 ≤ pieceAt t fr i j := pieceAt_mono (Nat.zero_le j)
    omega
  · intro ⟨hlow, hhigh⟩
    obtain ⟨j, hj, hpiece⟩ := hp.reached (p - pieceAt t fr i 0) (by omega)
    exact ⟨j, hj, by omega⟩

/-- The bytes that the loop goes over are requested. -/
theorem passLength_le : passLength t fr i ≤ requested t fr i := by
  have hsize : toInt32 fr.size ≤ fr.size := toInt32_le (by omega)
  have hend := fileEnd_le t i
  unfold passLength requested
  omega

theorem requested_piece_lt (h : Reading t fr i) {p : Nat}
    (hp : Overlaps t fr i (requested t fr i) p) : p < t.numPieces := by
  obtain ⟨j, hj, rfl⟩ := hp
  have hs := t.fileStart_add_length_le h.index_lt
  have hlen := fileBytes_eq h.index_lt
  apply t.div_lt_numPieces
  unfold requested at hj
  unfold pos
  rw [hlen] at hj
  omega

/-- The pass as a whole. -/
theorem pass_ends (h : Reading t (fr.start lt) i) (sh : Session ι) :
    ∃ (n : Nat) (fr' : Frame) (sh' : Session ι) (m : Nat),
      (alone lt me)^[n] (sh, ⟨fr, .entry⟩) = (sh', ⟨fr', .lock⟩) ∧
      Pass t sh.downloaded sh.priority (fr.start lt) i (passLength t fr i) m sh' := by
  have hlength : (fr.start lt).wanted.toNat = passLength t fr i :=
    h.wanted_toNat ⟨rfl, rfl, rfl, rfl, rfl⟩
  have hbefore : ¬ (fr.offset : Int) ≥ (fr.start lt).file_total_size := by
    rw [h.total]
    exact not_le_of_gt h.before_end
  have hentry : alone lt me (sh, ⟨fr, .entry⟩) = (sh, ⟨(fr.start lt).passed 0, .prioHead⟩) := by
    simp only [alone, Reader.step, hbefore, if_false, h.restart, Reader.orCrash]
  obtain ⟨n, fr', sh', m, hrun, hp⟩ := Pass.start.run lt me h (h.passed 0)
    (at_passed (Nat.zero_le _)) rfl rfl
  rw [hlength] at hp
  refine ⟨n + 1, fr', sh', m, ?_, hp⟩
  rw [Function.iterate_succ_apply, hentry, hrun]

/-- What has been missing ends at 7 where nothing sets it back. -/
theorem Pass.at_top {D : Finset Int} {f : Int → Int} {m p : Nat} {sh : Session ι}
    (h : Reading t fr i) (hp : Pass t D f fr i (passLength t fr i) m sh)
    (hnone : NoneSetBack t D fr i) (hreq : Overlaps t fr i (requested t fr i) p)
    (hmiss : (p : Int) ∉ D) : sh.priority p = 7 := by
  rw [hp.priority]
  by_cases hin : Overlaps t fr i (passLength t fr i) p
  · obtain ⟨hlow, hhigh⟩ := hp.overlaps_iff.mp hin
    obtain ⟨l, rfl⟩ := Nat.exists_eq_add_of_le hlow
    apply markPieces_top (by omega) hmiss
    intro hl hpos
    have hnext : Overlaps t fr i (passLength t fr i) (pieceAt t fr i 0 + l + 1) :=
      hp.overlaps_iff.mpr ⟨by omega, by omega⟩
    rcases hnone.gaps _ hpos hin hnext with hthere | hthere
    · exact absurd hthere hmiss
    · exact hthere
  · rcases hnone.rest p hreq hin with hthere | ⟨q, rfl, hq, hmissq⟩
    · exact absurd hthere hmiss
    · -- the piece behind the last one
      have hlt := requested_piece_lt h hreq
      obtain ⟨hlow, hhigh⟩ := hp.overlaps_iff.mp hq
      obtain ⟨l, rfl⟩ := Nat.exists_eq_add_of_le hlow
      have hm : m = l + 1 := by
        have hbeyond : ¬ pieceAt t fr i 0 + l + 1 < pieceAt t fr i 0 + m := fun hlt' =>
          hin (hp.overlaps_iff.mpr ⟨by omega, hlt'⟩)
        omega
      rw [hm]
      exact markPieces_behind hmissq hlt

/-- The other way round, from a session in which every priority is 0. -/
theorem Pass.noneSetBack {D : Finset Int} {m : Nat} {sh : Session ι}
    (hp : Pass t D (fun _ => 0) fr i (passLength t fr i) m sh)
    (htop : ∀ p, Overlaps t fr i (requested t fr i) p → (p : Int) ∉ D → sh.priority p = 7) :
    NoneSetBack t D fr i := by
  constructor
  · intro p hpos hin hnext
    by_contra hmiss
    rw [not_or] at hmiss
    obtain ⟨hlow, -⟩ := hp.overlaps_iff.mp hin
    obtain ⟨-, hhigh⟩ := hp.overlaps_iff.mp hnext
    obtain ⟨l, rfl⟩ := Nat.exists_eq_add_of_le hlow
    obtain ⟨j, hj, hpiece⟩ := hin
    have hreq := htop _ ⟨j, lt_of_lt_of_le hj passLength_le, hpiece⟩ hmiss.1
    rw [hp.priority, markPieces_back (by omega) hpos hmiss.2] at hreq
    omega
  · intro p hreq hin
    by_contra hnot
    rw [not_or, not_exists] at hnot
    obtain ⟨hmiss, hlast⟩ := hnot
    obtain ⟨j, hj, hpiece⟩ := hreq
    have hlow : pieceAt t fr i 0 ≤ p := hpiece ▸ pieceAt_mono (Nat.zero_le j)
    obtain ⟨l, rfl⟩ := Nat.exists_eq_add_of_le hlow
    have hbeyond : m ≤ l := by
      by_contra hlt
      exact hin (hp.overlaps_iff.mpr ⟨by omega, by omega⟩)
    have h7 := htop _ ⟨j, hj, hpiece⟩ hmiss
    rw [hp.priority] at h7
    rcases Nat.lt_or_eq_of_le hbeyond with hlt | rfl
    · rw [markPieces_beyond hlt] at h7
      omega
    · rw [markPieces_kept] at h7
      · omega
      · intro q hq
        by_contra hmissq
        exact hlast (pieceAt t fr i 0 + q)
          ⟨by omega, hp.overlaps_iff.mpr ⟨by omega, by omega⟩, hmissq⟩

/-- `size`, `offset` and the file are those of the call. -/
theorem noneSetBack_start {D : Finset Int} :
    NoneSetBack t D (fr.start lt) i ↔ NoneSetBack t D fr i :=
  ⟨fun h => ⟨h.gaps, h.rest⟩, fun h => ⟨h.gaps, h.rest⟩⟩

theorem start_total (hi : i < t.files.length) (hindex : getFileIndex t.files fr.filepath = i) :
    (fr.start lt).file_total_size = fileEnd t i := by
  change getFileSize lt.toFileStorage (getFileIndex t.files fr.filepath) = _
  rw [hindex, getFileSize_eq lt hi]

theorem noneSetBack_of_leavesAtTop {downloaded : Finset Int}
    (hopen : openFile (initBitfs t.files) fr.filepath = .ok ())
    (h : LeavesAtTop lt me downloaded fr) (hbefore : (fr.offset : Int) < fileEnd t (fr.index t)) :
    NoneSetBack t downloaded fr (fr.index t) := by
  obtain ⟨hi, hindex⟩ := Frame.index_of_opened hopen
  rw [← start_total lt hi hindex] at hbefore
  have hread := Frame.start_reading lt hi hindex hbefore
  obtain ⟨n, fr', sh', m, hrun, hp⟩ := pass_ends lt me hread
    ⟨downloaded, fun _ => 0, [], [], fun _ => none, none, []⟩
  exact (noneSetBack_start lt).mp (hp.noneSetBack ((h _ rfl hbefore).2 n sh' fr' hrun))

theorem leavesAtTop_of_noneSetBack {downloaded : Finset Int}
    (hopen : openFile (initBitfs t.files) fr.filepath = .ok ())
    (h : (fr.offset : Int) < fileEnd t (fr.index t) → NoneSetBack t downloaded fr (fr.index t)) :
    LeavesAtTop lt me downloaded fr := by
  obtain ⟨hi, hindex⟩ := Frame.index_of_opened hopen
  intro sh hdown hbefore
  have hnone := h (start_total lt hi hindex ▸ hbefore)
  have hread := Frame.start_reading lt hi hindex hbefore
  obtain ⟨n, fr', sh', m, hrun, hp⟩ := pass_ends lt me hread sh
  rw [hdown] at hp
  refine ⟨⟨n, sh', fr', hrun⟩, ?_⟩
  intro n1 sh1 fr1 hrun1 p hreq hmiss
  have hsame := iterate_past_unique lt me hrun1 trivial hrun trivial
  have htop : sh'.priority p = 7 :=
    hp.at_top hread ((noneSetBack_start lt).mpr hnone) hreq hmiss
  exact (congrFun hsame p).trans htop

/-- The pass leaves every missing piece of the request at priority 7 exactly where no round
sets a piece back and none of the request is left out. -/
theorem priority_pass_iff {downloaded : Finset Int}
    (hopen : openFile (initBitfs t.files) fr.filepath = .ok ()) :
    LeavesAtTop lt me downloaded fr ↔
      ((fr.offset : Int) < fileEnd t (fr.index t) → NoneSetBack t downloaded fr (fr.index t)) :=
  ⟨noneSetBack_of_leavesAtTop lt me hopen, leavesAtTop_of_noneSetBack lt me hopen⟩

end Request

/-- With piece 1 there, a call for all three pieces leaves the other two at the top. -/
theorem priority_pass_iff_threeBytes :
    LeavesAtTop (.reference threeBytes) () {1} threeBytesCall := by
  have hpass : passLength threeBytes threeBytesCall (threeBytesCall.index threeBytes) = 3 := by
    decide
  have hreq : requested threeBytes threeBytesCall (threeBytesCall.index threeBytes) = 3 := by
    decide
  have hpiece : ∀ j < 3, pieceAt threeBytes threeBytesCall (threeBytesCall.index threeBytes) j =
      j := by decide
  apply (priority_pass_iff (.reference threeBytes) () (by decide)).mpr
  intro _
  constructor
  · intro p hpos _ hnext
    rw [hpass] at hnext
    obtain ⟨j, hj, hpj⟩ := hnext
    rw [hpiece j hj] at hpj
    obtain rfl : p = 1 := by omega
    exact Or.inl (by decide)
  · intro p hin hout
    rw [hreq] at hin
    rw [hpass] at hout
    exact absurd hin hout

/-- With nothing downloaded the round of piece 2 sets piece 1 back. -/
theorem priority_pass_setBack : ¬ LeavesAtTop (.reference threeBytes) () ∅ threeBytesCall := by
  intro h
  have hnone := noneSetBack_of_leavesAtTop (.reference threeBytes) () (by decide) h (by decide)
  rcases hnone.gaps 1 le_rfl ⟨1, by decide, by decide⟩ ⟨2, by decide, by decide⟩ with hin | hin
  · exact absurd hin (Finset.notMem_empty _)
  · exact absurd hin (Finset.notMem_empty _)

end BitFS.Read
