import BitFS.Client.Reading
import Mathlib.Data.List.DropRight

/-! # The numbers of the metainfo

`length` and `piece length` are stored in `int`s wherever their keys come up, one over the
other, and the number of pieces is taken from them at the end of every `info` branch.
-/

namespace BitFS.Client

open MachineInt Memory Bencode Decimal

/-! ## The numbers that a run reads -/

/-- What is stored for the number of an entry. -/
def numberOf (v : Value) : Int := toInt32 (intOf v)

def Step.isEntry : Step → Bool
  | .entry _ _ => true
  | .infoEnd => false

/-- The steps up to the last end of an `info` branch. -/
def upToInfoEnd (steps : List Step) : List Step := steps.rdropWhile Step.isEntry

section Fields

variable {m : Metainfo} {steps : List Step}

theorem file_length_foldl (h : m.file_length = none) :
    (steps.foldl Metainfo.step m).file_length = (lastUnder lengthKey steps).map numberOf :=
  field_foldl Metainfo.file_length Metainfo.store_file_length (fun _ => rfl) h steps

theorem piece_length_foldl (h : m.piece_length = none) :
    (steps.foldl Metainfo.step m).piece_length =
      (lastUnder pieceLengthKey steps).map numberOf :=
  field_foldl Metainfo.piece_length Metainfo.store_piece_length (fun _ => rfl) h steps

/-- The number of pieces is that at the last end of an `info` branch. -/
theorem num_pieces_foldl (hlength : m.file_length = none) (hpiece : m.piece_length = none)
    (hpieces : m.num_pieces = none) :
    (steps.foldl Metainfo.step m).num_pieces =
      ceilPieces ((lastUnder lengthKey (upToInfoEnd steps)).map numberOf)
        ((lastUnder pieceLengthKey (upToInfoEnd steps)).map numberOf) := by
  induction steps using List.reverseRecOn with
  | nil => exact hpieces
  | append_singleton steps s ih =>
      rw [List.foldl_append]
      unfold upToInfoEnd at ih ⊢
      cases s with
      | entry k v =>
          rw [List.rdropWhile_concat_pos _ _ _ rfl, ← ih]
          exact Metainfo.store_num_pieces _ _ _
      | infoEnd =>
          have hstop : ¬ Step.infoEnd.isEntry = true := Bool.false_ne_true
          rw [List.rdropWhile_concat_neg _ _ _ hstop, lastUnder_infoEnd, lastUnder_infoEnd,
            ← file_length_foldl hlength, ← piece_length_foldl hpiece]
          rfl

end Fields

/-! ## The numbers of a single-file torrent -/

/-- A torrent whose info dictionary has a length and a piece length, among any other entries. -/
structure SingleFile where
  pre : List (List UInt8 × Value)
  info : List (List UInt8 × Value)
  post : List (List UInt8 × Value)
  n : Int
  p : Int
  length_mem : (lengthKey, .int n) ∈ info
  pieceLength_mem : (pieceLengthKey, .int p) ∈ info
  n_nonneg : 0 ≤ n
  n_le : n ≤ 9223372036854775807
  p_pos : 1 ≤ p
  p_le : p ≤ 9223372036854775807

def SingleFile.entries (t : SingleFile) : List (List UInt8 × Value) :=
  t.pre ++ (infoKey, .dict t.info) :: t.post

def SingleFile.bytes (t : SingleFile) : List UInt8 := encode (.dict t.entries)

/-- The last numbers that are read are the two, and so is their quotient at the last end of an
`info` branch. -/
structure LastNumbers (n p : Int) (steps : List Step) : Prop where
  length : (lastUnder lengthKey steps).map numberOf = some n
  pieceLength : (lastUnder pieceLengthKey steps).map numberOf = some p
  pieces : ceilPieces ((lastUnder lengthKey (upToInfoEnd steps)).map numberOf)
    ((lastUnder pieceLengthKey (upToInfoEnd steps)).map numberOf) = some (numPieces n p)

section Torrent

variable {sha1 : List UInt8 → List UInt8} {n p : Int} {es : List (List UInt8 × Value)}
  {reads : List (List UInt8)}

/-- The fields after the steps, by the last numbers. -/
theorem lastNumbers_iff {st : ParseState} {steps : List Step}
    (h : st.fields = steps.foldl Metainfo.step ParseState.init.fields) :
    LastNumbers n p steps ↔ st.file_length = some n ∧ st.piece_length = some p ∧
      st.num_pieces = some (numPieces n p) := by
  have hlength : st.file_length = (lastUnder lengthKey steps).map numberOf := by
    rw [← file_length_foldl (m := ParseState.init.fields) rfl, ← h]
    rfl
  have hpiece : st.piece_length = (lastUnder pieceLengthKey steps).map numberOf := by
    rw [← piece_length_foldl (m := ParseState.init.fields) rfl, ← h]
    rfl
  have hpieces : st.num_pieces =
      ceilPieces ((lastUnder lengthKey (upToInfoEnd steps)).map numberOf)
        ((lastUnder pieceLengthKey (upToInfoEnd steps)).map numberOf) := by
    rw [← num_pieces_foldl (m := ParseState.init.fields) rfl rfl rfl, ← h]
    rfl
  rw [hlength, hpiece, hpieces]
  constructor
  · intro hlast
    exact ⟨hlast.length, hlast.pieceLength, hlast.pieces⟩
  · intro hfields
    exact ⟨hfields.1, hfields.2.1, hfields.2.2⟩

theorem upToInfoEnd_entries (steps : List Step) (es : List (List UInt8 × Value)) :
    upToInfoEnd (steps ++ .infoEnd :: es.map entryStep) = steps ++ [.infoEnd] := by
  have hstop : ¬ Step.infoEnd.isEntry = true := Bool.false_ne_true
  unfold upToInfoEnd
  induction es using List.reverseRecOn with
  | nil => exact List.rdropWhile_concat_neg _ _ _ hstop
  | append_singleton es e ih =>
      rw [List.map_append, List.map_singleton, ← List.cons_append, ← List.append_assoc,
        List.rdropWhile_concat_pos _ _ _ rfl, ih]

theorem ceilPieces_some {n p : Int} (hn : 0 ≤ n) (hfits : n ≤ 2147483647) (hp : 1 ≤ p) :
    ceilPieces (some n) (some p) = some (numPieces n p) := by
  obtain ⟨n, rfl⟩ := Int.eq_ofNat_of_zero_le hn
  obtain ⟨p, rfl⟩ := Int.eq_ofNat_of_zero_le (show 0 ≤ p by omega)
  have hnonneg : 0 ≤ numPieces (n : Int) (p : Int) := numPieces_nonneg (by omega)
  have hle : numPieces (n : Int) (p : Int) ≤ (n : Int) := numPieces_le (by omega)
  exact if_pos ⟨by omega, by omega, by omega⟩

/-- Every entry whose key passes for `length` or `piece length` holds the one number. -/
structure SingleFile.NoneTwice (t : SingleFile) : Prop where
  fits : ∀ e ∈ t.pre ++ (t.info ++ t.post), Fits (cstr e.1) e.2 ∧ ¬ IsInfo e
  length : ∀ e ∈ t.pre ++ (t.info ++ t.post), cstr e.1 = lengthKey → e.2 = .int t.n
  pieceLength : ∀ e ∈ t.pre ++ (t.info ++ t.post), cstr e.1 = pieceLengthKey → e.2 = .int t.p

/-- The steps over such a torrent. -/
def SingleFile.steps (t : SingleFile) : List Step := torrentSteps t.pre t.info t.post

/-- The last number under a key of the info dictionary, at the end and at that of the info
dictionary. -/
theorem SingleFile.lastUnder_steps (t : SingleFile) {key : List UInt8} {i : Int} (hi : Fits32 i)
    (hkey : cstr key = key) (hmem : (key, .int i) ∈ t.info)
    (h : ∀ e ∈ t.pre ++ (t.info ++ t.post), cstr e.1 = key → e.2 = .int i) :
    (lastUnder key t.steps).map numberOf = some i ∧
      (lastUnder key (upToInfoEnd t.steps)).map numberOf = some i := by
  have hnumber : numberOf (.int i) = i := by
    rw [numberOf, intOf, toInt64_of_fits32 hi, toInt32_of_fits hi]
  have hinfo : ∀ e ∈ t.pre ++ t.info, cstr e.1 = key → e.2 = .int i := by
    intro e he
    rw [← List.append_assoc] at h
    exact h e (List.mem_append_left _ he)
  constructor
  · rw [SingleFile.steps, lastUnder_torrentSteps hkey
      (List.mem_append_right _ (List.mem_append_left _ hmem)) h]
    exact congrArg some hnumber
  · rw [SingleFile.steps, torrentSteps, ← List.append_assoc, upToInfoEnd_entries,
      lastUnder_infoEnd, ← List.map_append,
      lastUnder_map_entryStep hkey (List.mem_append_right _ hmem) hinfo]
    exact congrArg some hnumber

theorem SingleFile.lastNumbers (t : SingleFile) (h : t.NoneTwice) (hn : t.n ≤ 2147483647)
    (hp : t.p ≤ 2147483647) : LastNumbers t.n t.p t.steps := by
  have hnonneg := t.n_nonneg
  have hpos := t.p_pos
  obtain ⟨hlength, hlength'⟩ := t.lastUnder_steps ⟨by omega, hn⟩ rfl t.length_mem h.length
  obtain ⟨hpiece, hpiece'⟩ := t.lastUnder_steps ⟨by omega, hp⟩ rfl t.pieceLength_mem h.pieceLength
  refine ⟨hlength, hpiece, ?_⟩
  rw [hlength', hpiece']
  exact ceilPieces_some hnonneg hn hpos

end Torrent

end BitFS.Client
