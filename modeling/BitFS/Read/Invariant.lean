import BitFS.Read.Cursor

/-! # What holds between two steps

The first loop of every reader runs outside `fsmtx` and the second inside. The
invariant ties the pieces a reader has passed in the first loop to libtorrent's
priorities, and the bytes it has passed in the second to its buffer. Other
threads only add to what a reader relies on: pieces arrive, priorities rise,
buffers enter the map.
-/

namespace BitFS.Read

open MachineInt Memory BitFS.Tree

variable {ι : Type}

/-- A piece index of the torrent. -/
def Valid (t : Torrent) (p : Int) : Prop := 0 ≤ p ∧ p < t.numPieces

namespace Session

/-- The piece is there, or libtorrent is to fetch it. -/
def Asked (sh : Session ι) (p : Int) : Prop := p ∈ sh.downloaded ∨ 1 ≤ sh.priority p

/-- The buffer of the piece is in the map or under way. -/
def InFlight (sh : Session ι) (p : Int) : Prop :=
  (sh.piece_buffer_map p).isSome ∨ p ∈ sh.requests ∨
    ∃ failed buffer, Alert.read_piece_alert p failed buffer ∈ sh.alerts

/-- What readers rely on is never taken back. -/
structure Grows (sh sh' : Session ι) : Prop where
  asked : ∀ p, sh.Asked p → sh'.Asked p
  inFlight : ∀ p, sh.InFlight p → sh'.InFlight p
  cached : ∀ p, (sh.piece_buffer_map p).isSome → (sh'.piece_buffer_map p).isSome

/-- All piece indices are the torrent's, and buffers hold real pieces as long as
reads succeed. -/
structure Sound (t : Torrent) (genuine : Prop) (sh : Session ι) : Prop where
  calls : ∀ c ∈ sh.calls, Valid t c.piece
  requests : ∀ p ∈ sh.requests, Valid t p
  alerts : ∀ p failed buffer, Alert.read_piece_alert p failed buffer ∈ sh.alerts →
    Valid t p ∧ (genuine → buffer = t.pieceBytes p.toNat)
  cache : ∀ p buffer, sh.piece_buffer_map p = some buffer →
    Valid t p ∧ (genuine → buffer = t.pieceBytes p.toNat)

/-- All that one step of a thread or of libtorrent does to the session. -/
inductive Change (t : Torrent) (genuine : Prop) (sh : Session ι) : Option ι → Session ι → Prop
  | keep (who : Option ι) : Change t genuine sh who sh
  | havePiece (me : ι) {p : Int} (hp : Valid t p) : Change t genuine sh (some me) (sh.havePiece p)
  | piecePriority (me : ι) {p prio : Int} (hp : Valid t p) (hprio : 1 ≤ prio) :
      Change t genuine sh (some me) (sh.piecePriority p prio)
  | readPiece (me : ι) {p : Int} (hp : Valid t p) : Change t genuine sh (some me) (sh.readPiece p)
  | getPieceBuffers (me : ι) : Change t genuine sh (some me) sh.getPieceBuffers
  | lock (me : ι) (hfree : sh.fsmtx = none) :
      Change t genuine sh (some me) { sh with fsmtx := some me }
  | unlock (me : ι) (hheld : sh.fsmtx = some me) :
      Change t genuine sh (some me) { sh with fsmtx := none }
  | complete (p : Int) :
      Change t genuine sh none { sh with downloaded := insert p sh.downloaded }
  | answer {k : Nat} {p : Int} {failed : Bool} {buffer : List UInt8}
      (hk : sh.requests[k]? = some p) (hbuf : genuine → buffer = t.pieceBytes p.toNat) :
      Change t genuine sh none { sh with
        requests := sh.requests.eraseIdx k
        alerts := sh.alerts ++ [.read_piece_alert p failed buffer] }
  | post : Change t genuine sh none { sh with alerts := sh.alerts ++ [.other] }

/-! ## The map after a batch of alerts -/

theorem storeAlert_isSome (m : Int → Option (List UInt8)) (a : Alert) (p : Int)
    (h : (m p).isSome) : (storeAlert m a p).isSome := by
  cases a with
  | read_piece_alert q failed buffer =>
      by_cases hq : p = q
      · simp [storeAlert, hq]
      · simpa [storeAlert, Function.update_of_ne hq] using h
  | other => exact h

theorem foldl_storeAlert_isSome (as : List Alert) (m : Int → Option (List UInt8)) (p : Int)
    (h : (m p).isSome ∨ ∃ failed buffer, Alert.read_piece_alert p failed buffer ∈ as) :
    (as.foldl storeAlert m p).isSome := by
  induction as generalizing m with
  | nil => simpa using h
  | cons a as ih =>
      refine ih _ ?_
      rcases h with h | ⟨failed, buffer, h⟩
      · exact Or.inl (storeAlert_isSome m a p h)
      · rcases List.mem_cons.mp h with rfl | h
        · simp [storeAlert]
        · exact Or.inr ⟨failed, buffer, h⟩

/-- An entry of the map was there before, or comes with an alert of the batch. -/
theorem foldl_storeAlert_eq (as : List Alert) (m : Int → Option (List UInt8)) {p : Int}
    {buffer : List UInt8} (h : as.foldl storeAlert m p = some buffer) :
    m p = some buffer ∨ ∃ failed, Alert.read_piece_alert p failed buffer ∈ as := by
  induction as generalizing m with
  | nil => exact Or.inl h
  | cons a as ih =>
      rcases ih _ h with hm | ⟨failed, hmem⟩
      · cases a with
        | read_piece_alert q failed b =>
            by_cases hq : p = q
            · subst hq
              simp only [storeAlert, Function.update_self, Option.some.injEq] at hm
              exact Or.inr ⟨failed, by simp [hm]⟩
            · exact Or.inl (by simpa [storeAlert, Function.update_of_ne hq] using hm)
        | other => exact Or.inl hm
      · exact Or.inr ⟨failed, List.mem_cons_of_mem _ hmem⟩

/-! ## Every change keeps the session sound and what readers rely on -/

variable {t : Torrent} {genuine : Prop} {sh sh' : Session ι} {who : Option ι}

theorem Sound.getPieceBuffers (h : sh.Sound t genuine) : sh.getPieceBuffers.Sound t genuine := by
  refine { h with alerts := by simp [Session.getPieceBuffers], cache := ?_ }
  intro p buffer hp
  rcases foldl_storeAlert_eq _ _ hp with hm | ⟨failed, hmem⟩
  · exact h.cache p buffer hm
  · exact h.alerts p failed buffer hmem

theorem Change.sound (h : Change t genuine sh who sh') (hs : sh.Sound t genuine) :
    sh'.Sound t genuine := by
  cases h with
  | keep => exact hs
  | havePiece me hp => exact { hs with calls := List.forall_mem_cons.mpr ⟨hp, hs.calls⟩ }
  | piecePriority me hp _ => exact { hs with calls := List.forall_mem_cons.mpr ⟨hp, hs.calls⟩ }
  | readPiece me hp =>
      refine { hs with calls := List.forall_mem_cons.mpr ⟨hp, hs.calls⟩, requests := ?_ }
      intro q hq
      rcases List.mem_append.mp hq with hq | hq
      · exact hs.requests q hq
      · rwa [List.mem_singleton.mp hq]
  | getPieceBuffers me => exact hs.getPieceBuffers
  | lock me _ => exact { hs with }
  | unlock me _ => exact { hs with }
  | complete p => exact { hs with }
  | @answer k p failed buffer hk hbuf =>
      refine { hs with requests := ?_, alerts := ?_ }
      · exact fun q hq => hs.requests q (List.mem_of_mem_eraseIdx hq)
      · intro q fl b hmem
        rcases List.mem_append.mp hmem with hmem | hmem
        · exact hs.alerts q fl b hmem
        · obtain ⟨rfl, -, rfl⟩ := Alert.read_piece_alert.inj (List.mem_singleton.mp hmem)
          exact ⟨hs.requests q (List.mem_of_getElem? hk), hbuf⟩
  | post =>
      refine { hs with alerts := ?_ }
      intro q fl b hmem
      rcases List.mem_append.mp hmem with hmem | hmem
      · exact hs.alerts q fl b hmem
      · simp at hmem

theorem Grows.refl (sh : Session ι) : sh.Grows sh :=
  ⟨fun _ h => h, fun _ h => h, fun _ h => h⟩

theorem asked_piecePriority {p prio q : Int} (hprio : 1 ≤ prio) (h : sh.Asked q) :
    (sh.piecePriority p prio).Asked q := by
  rcases h with h | h
  · exact Or.inl h
  · refine Or.inr ?_
    by_cases hq : q = p
    · simpa [Session.piecePriority, hq] using hprio
    · simpa [Session.piecePriority, Function.update_of_ne hq] using h

theorem asked_piecePriority_self {p prio : Int} (hprio : 1 ≤ prio) :
    (sh.piecePriority p prio).Asked p := Or.inr (by simpa [Session.piecePriority] using hprio)

theorem inFlight_readPiece_self (p : Int) : (sh.readPiece p).InFlight p :=
  Or.inr (Or.inl (by simp [Session.readPiece]))

/-- A reader that pops the alerts of another leaves their buffers in the map. -/
theorem grows_getPieceBuffers (sh : Session ι) : sh.Grows sh.getPieceBuffers := by
  refine ⟨fun _ h => h, ?_, fun p h => foldl_storeAlert_isSome _ _ p (Or.inl h)⟩
  rintro p (h | h | h)
  · exact Or.inl (foldl_storeAlert_isSome _ _ p (Or.inl h))
  · exact Or.inr (Or.inl h)
  · exact Or.inl (foldl_storeAlert_isSome _ _ p (Or.inr h))

/-- An answer moves its piece from the requests to the alerts. -/
theorem inFlight_answer {k : Nat} {p q : Int} {failed : Bool} {buffer : List UInt8}
    (hk : sh.requests[k]? = some p) (h : sh.InFlight q) :
    Session.InFlight { sh with
      requests := sh.requests.eraseIdx k
      alerts := sh.alerts ++ [.read_piece_alert p failed buffer] } q := by
  rcases h with h | h | ⟨fl, b, h⟩
  · exact Or.inl h
  · by_cases hq : q = p
    · exact Or.inr (Or.inr ⟨failed, buffer, by simp [hq]⟩)
    · refine Or.inr (Or.inl (List.mem_eraseIdx_iff_getElem?.mpr ?_))
      obtain ⟨j, hj⟩ := List.mem_iff_getElem?.mp h
      refine ⟨j, ?_, hj⟩
      rintro rfl
      exact hq (Option.some.inj (hj.symm.trans hk))
  · exact Or.inr (Or.inr ⟨fl, b, List.mem_append_left _ h⟩)

theorem Change.grows (h : Change t genuine sh who sh') : sh.Grows sh' := by
  cases h with
  | keep => exact .refl sh
  | havePiece me _ => exact { Grows.refl sh with }
  | piecePriority me _ hprio =>
      exact { Grows.refl sh with asked := fun _ h => asked_piecePriority hprio h }
  | readPiece me _ =>
      refine { Grows.refl sh with inFlight := ?_ }
      rintro q (h | h | h)
      · exact Or.inl h
      · exact Or.inr (Or.inl (List.mem_append_left _ h))
      · exact Or.inr (Or.inr h)
  | getPieceBuffers me => exact grows_getPieceBuffers sh
  | lock me _ => exact { Grows.refl sh with }
  | unlock me _ => exact { Grows.refl sh with }
  | complete p =>
      refine { Grows.refl sh with asked := ?_ }
      rintro q (h | h)
      · exact Or.inl (Finset.mem_insert_of_mem h)
      · exact Or.inr h
  | answer hk _ => exact { Grows.refl sh with inFlight := fun _ h => inFlight_answer hk h }
  | post =>
      refine { Grows.refl sh with inFlight := ?_ }
      rintro q (h | h | ⟨fl, b, h⟩)
      · exact Or.inl h
      · exact Or.inr (Or.inl h)
      · exact Or.inr (Or.inr ⟨fl, b, List.mem_append_left _ h⟩)

theorem Change.downloaded (h : Change t genuine sh who sh') : sh.downloaded ⊆ sh'.downloaded := by
  cases h with
  | complete p => exact Finset.subset_insert _ _
  | _ => exact Finset.Subset.refl _

/-- A step takes or gives back `fsmtx` for its own thread only. -/
theorem Change.fsmtx (h : Change t genuine sh who sh') {r : ι} (hr : who ≠ some r) :
    sh'.fsmtx = some r ↔ sh.fsmtx = some r := by
  cases h with
  | lock me hfree =>
      have hne : me ≠ r := fun he => hr (by rw [he])
      simp [hfree, hne]
  | unlock me hheld =>
      have hne : me ≠ r := fun he => hr (by rw [he])
      simp [hheld, hne]
  | _ => exact Iff.rfl

end Session

end BitFS.Read
