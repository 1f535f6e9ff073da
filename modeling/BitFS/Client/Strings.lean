import BitFS.Client.Reading

/-! # The strings of the metainfo

Strings are copied with `strncpy` to blocks of their length: bytes behind a 0 byte are lost,
there is no room for a terminator, and that of `announce` is written behind the block.
-/

namespace BitFS.Client

open MachineInt Memory Bencode Decimal

/-! ## Blocks -/

/-- As a C string: up to the first 0 that was written. -/
def Block.Reads (b : Block) (s : List UInt8) : Prop := 0 ∈ b.cells ∧ cstr b.cells = s

/-- Nothing was written behind the block. -/
def Block.Inside (b : Block) : Prop := (b.cells.length : Int) ≤ b.size

theorem padded_length (s : List UInt8) : (padded s).length = s.length := by
  have hle : (cstr s).length ≤ s.length := (List.takeWhile_sublist _).length_le
  rw [padded, List.length_append, List.length_replicate]
  omega

/-- A copy is faithful where all bytes behind the first 0 are 0. -/
theorem padded_eq_self_iff (s : List UInt8) :
    padded s = s ↔ ∀ c ∈ s.drop (cstr s).length, c = 0 := by
  have hsplit : cstr s ++ s.drop (cstr s).length = s :=
    List.prefix_iff_eq_append.mp (List.takeWhile_prefix _)
  have hcopy : padded s = s ↔
      List.replicate (s.length - (cstr s).length) 0 = s.drop (cstr s).length := by
    rw [padded]
    constructor
    · intro h
      exact List.append_cancel_left (h.trans hsplit.symm)
    · intro h
      rw [h, hsplit]
  rw [hcopy, eq_comm, List.eq_replicate_iff, List.length_drop]
  exact and_iff_right rfl

/-! ## The strings of a single-file torrent -/

/-- A torrent with the three strings, among any other entries. -/
structure StringsFile where
  pre : List (List UInt8 × Value)
  info : List (List UInt8 × Value)
  post : List (List UInt8 × Value)
  a : List UInt8
  h : List UInt8
  f : List UInt8
  announce_mem : (announceKey, .str a) ∈ pre ++ post
  pieces_mem : (piecesKey, .str h) ∈ info
  name_mem : (nameKey, .str f) ∈ info
  a_nul : 0 ∉ a
  f_nul : 0 ∉ f

def StringsFile.entries (t : StringsFile) : List (List UInt8 × Value) :=
  t.pre ++ (infoKey, .dict t.info) :: t.post

def StringsFile.bytes (t : StringsFile) : List UInt8 := encode (.dict t.entries)

/-- The fields hold the strings, and nothing was written behind their blocks. -/
structure HoldsStrings (a h f : List UInt8) (m : Metainfo) : Prop where
  announce : ∃ b, m.announce = some b ∧ b.Reads a ∧ b.Inside
  pieces : ∃ b, m.piece_hashes = some b ∧ h <+: b.cells ∧ b.Inside
  name : ∃ b, m.filename = some b ∧ b.Reads f ∧ b.Inside

/-- After enough steps they do. -/
def KeepsStrings (sha1 : List UInt8 → List UInt8) (a h f : List UInt8) (st_size : Nat)
    (reads : List (List UInt8)) : Prop :=
  ∃ N, ∀ fuel ≥ N, ∃ st, parseMetainfoFile sha1 fuel st_size reads = .ok st ∧
    HoldsStrings a h f st.toMetainfo

section Torrent

variable {sha1 : List UInt8 → List UInt8} {a h f : List UInt8}
  {es : List (List UInt8 × Value)} {reads : List (List UInt8)}

/-- Whatever is stored for `announce`, one byte of it is behind the block. -/
theorem announce_past {st : ParseState} {steps : List Step} {b : Block}
    (hfields : st.fields = steps.foldl Metainfo.step ParseState.init.fields)
    (hb : st.announce = some b) : ¬ b.Inside := by
  have hlast := field_foldl Metainfo.announce Metainfo.store_announce (fun _ => rfl)
    (m := ParseState.init.fields) rfl steps
  rw [← hfields, show st.fields.announce = st.announce from rfl, hb] at hlast
  obtain ⟨v, -, rfl⟩ := Option.map_eq_some_iff.mp hlast.symm
  intro hinside
  dsimp only [Block.Inside] at hinside
  rw [List.length_append, padded_length, List.length_singleton] at hinside
  omega

theorem not_keepsStrings (hfile : reads.flatten = encode (.dict es)) :
    ¬ KeepsStrings sha1 a h f (encode (.dict es)).length reads := by
  intro ⟨N, hN⟩
  obtain ⟨st, hok, hholds⟩ := hN (N + (2 * (encode (.dict es)).length + 2)) (by omega)
  have hlen : (encode (.dict es)).length ≤ 2147483646 := by
    obtain ⟨⟨buf, len⟩, hload, -⟩ := bind_eq_ok.mp hok
    exact loadFile_le hfile hload
  have hrun := parseMetainfoFile_follows sha1 es hfile hlen
    (show 2 * (encode (.dict es)).length + 2 ≤ N + (2 * (encode (.dict es)).length + 2) by omega)
  cases hsteps : entrySteps es with
  | none =>
      rw [hsteps] at hrun
      exact hrun st hok
  | some steps =>
      rw [hsteps] at hrun
      obtain ⟨st', hok', hfields⟩ := hrun
      rw [hok] at hok'
      cases hok'
      obtain ⟨b, hb, -, hinside⟩ := hholds.announce
      exact announce_past hfields hb hinside

/-! ## What is stored -/

/-- Every entry whose key passes for one of the three holds the one string. -/
structure StringsFile.NoneTwice (t : StringsFile) : Prop where
  fits : ∀ e ∈ t.pre ++ (t.info ++ t.post), Fits (cstr e.1) e.2 ∧ ¬ IsInfo e
  announce : ∀ e ∈ t.pre ++ (t.info ++ t.post), cstr e.1 = announceKey → e.2 = .str t.a
  pieces : ∀ e ∈ t.pre ++ (t.info ++ t.post), cstr e.1 = piecesKey → e.2 = .str t.h
  name : ∀ e ∈ t.pre ++ (t.info ++ t.post), cstr e.1 = nameKey → e.2 = .str t.f

/-- The pieces up to a 0, a name without a terminator, and an announce with one behind its
block. -/
theorem strings_stored (sha1 : List UInt8 → List UInt8) (t : StringsFile) (ht : t.NoneTwice)
    (hfile : reads.flatten = t.bytes) (hlen : t.bytes.length ≤ 2147483646) {fuel : Nat}
    (hfuel : 2 * t.bytes.length + 2 ≤ fuel) :
    ∃ st, parseMetainfoFile sha1 fuel t.bytes.length reads = .ok st ∧
      st.announce = some ⟨t.a.length, t.a ++ [0]⟩ ∧
      st.piece_hashes = some ⟨t.h.length, padded t.h⟩ ∧
      st.filename = some ⟨t.f.length, t.f⟩ := by
  have hrun := parseMetainfoFile_follows sha1 t.entries hfile hlen hfuel
  rw [show entrySteps t.entries = _ from entrySteps_torrent ht.fits] at hrun
  obtain ⟨st, hok, hfields⟩ := hrun
  have hannounce := field_foldl Metainfo.announce Metainfo.store_announce (fun _ => rfl)
    (m := ParseState.init.fields) rfl (torrentSteps t.pre t.info t.post)
  have hpieces := field_foldl Metainfo.piece_hashes Metainfo.store_piece_hashes (fun _ => rfl)
    (m := ParseState.init.fields) rfl (torrentSteps t.pre t.info t.post)
  have hname := field_foldl Metainfo.filename Metainfo.store_filename (fun _ => rfl)
    (m := ParseState.init.fields) rfl (torrentSteps t.pre t.info t.post)
  have hmem : (announceKey, .str t.a) ∈ t.pre ++ (t.info ++ t.post) := by
    have hpart := t.announce_mem
    rw [List.mem_append] at hpart
    rw [List.mem_append, List.mem_append]
    exact hpart.imp_right Or.inr
  have hinfo : ∀ e ∈ t.info, e ∈ t.pre ++ (t.info ++ t.post) := fun e he =>
    List.mem_append_right _ (List.mem_append_left _ he)
  rw [← hfields, lastUnder_torrentSteps rfl hmem ht.announce] at hannounce
  rw [← hfields, lastUnder_torrentSteps rfl (hinfo _ t.pieces_mem) ht.pieces] at hpieces
  rw [← hfields, lastUnder_torrentSteps rfl (hinfo _ t.name_mem) ht.name] at hname
  refine ⟨st, hok, hannounce.trans ?_, hpieces, hname.trans ?_⟩
  · rw [Option.map_some, bytesOf, padded_eq_self t.a_nul]
  · rw [Option.map_some, bytesOf, padded_eq_self t.f_nul]

/-- A string without a 0 that fills its block does not end. -/
theorem Block.not_reads {s s' : List UInt8} (h : 0 ∉ s) : ¬ Block.Reads ⟨s.length, s⟩ s' :=
  fun hreads => h hreads.1

theorem Block.reads_terminated {s : List UInt8} (h : 0 ∉ s) :
    Block.Reads ⟨s.length, s ++ [0]⟩ s := by
  constructor
  · exact List.mem_append_right _ List.mem_cons_self
  · rw [cstr_append h]
    exact List.append_nil s

/-- Which of the strings can be read back, and which copies stay inside of their blocks. -/
theorem strings_parts (sha1 : List UInt8 → List UInt8) (t : StringsFile) (ht : t.NoneTwice)
    (hfile : reads.flatten = t.bytes) (hlen : t.bytes.length ≤ 2147483646) {fuel : Nat}
    (hfuel : 2 * t.bytes.length + 2 ≤ fuel) :
    ∃ st, parseMetainfoFile sha1 fuel t.bytes.length reads = .ok st ∧
      (∃ b, st.announce = some b ∧ b.Reads t.a ∧ ¬ b.Inside) ∧
      (∃ b, st.piece_hashes = some b ∧ b.Inside ∧
        (t.h <+: b.cells ↔ ∀ c ∈ t.h.drop (cstr t.h).length, c = 0)) ∧
      ∃ b, st.filename = some b ∧ b.Inside ∧ ¬ b.Reads t.f := by
  obtain ⟨st, hok, hannounce, hpieces, hname⟩ := strings_stored sha1 t ht hfile hlen hfuel
  refine ⟨st, hok, ⟨_, hannounce, ?_, ?_⟩, ⟨_, hpieces, ?_, ?_⟩, ⟨_, hname, ?_, ?_⟩⟩
  · exact Block.reads_terminated t.a_nul
  · intro hinside
    dsimp only [Block.Inside] at hinside
    rw [List.length_append, List.length_singleton] at hinside
    omega
  · dsimp only [Block.Inside]
    rw [padded_length]
  · rw [← padded_eq_self_iff]
    constructor
    · intro hsub
      exact (hsub.eq_of_length (padded_length t.h).symm).symm
    · intro hsame
      exact List.prefix_iff_eq_append.mpr (by rw [hsame, List.drop_length, List.append_nil])
  · exact le_rfl
  · exact Block.not_reads t.f_nul

theorem strings_never_kept (sha1 : List UInt8 → List UInt8) (t : StringsFile)
    (hfile : reads.flatten = t.bytes) :
    ¬ KeepsStrings sha1 t.a t.h t.f t.bytes.length reads :=
  not_keepsStrings hfile

end Torrent

/-- An announce of two bytes, the hash of one piece, and a name. -/
def onePieceStrings : StringsFile where
  pre := [(announceKey, .str [104, 116])]
  info := [(nameKey, .str [115]), (piecesKey, .str (List.replicate 20 1))]
  post := []
  a := [104, 116]
  h := List.replicate 20 1
  f := [115]
  announce_mem := List.mem_cons_self
  pieces_mem := List.mem_cons_of_mem _ List.mem_cons_self
  name_mem := List.mem_cons_self
  a_nul := by decide
  f_nul := by decide

theorem strings_never_kept_onePiece :
    ¬ KeepsStrings id [104, 116] (List.replicate 20 1) [115] onePieceStrings.bytes.length
      [onePieceStrings.bytes] :=
  strings_never_kept id onePieceStrings (by simp)

/-- Hashes with a 0 byte: the 2 behind it is lost, `b` does not end, and the 0 behind `a` is
written past its block. -/
theorem strings_kept_not :
    ¬ KeepsStrings id [97] [1, 0, 2] [98]
      (encode (.dict [(announceKey, .str [97]),
        (infoKey, .dict [(piecesKey, .str [1, 0, 2]), (nameKey, .str [98])])])).length
      [encode (.dict [(announceKey, .str [97]),
        (infoKey, .dict [(piecesKey, .str [1, 0, 2]), (nameKey, .str [98])])])] :=
  not_keepsStrings (by simp)

end BitFS.Client
