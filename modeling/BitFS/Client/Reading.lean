import BitFS.Client.Entries
import Mathlib.Data.List.Induction

/-! # The entries that the parser comes to

The loops of the parser go by the position in the file. Under `info` they take a string for
the first key of a dictionary, so that keys and values change places from there on. The
steps of a run tell which entries it comes to, and in which order.
-/

namespace BitFS.Client

open MachineInt Memory Bencode Decimal

/-! ## Steps -/

instance : DecidablePred IsStr
  | .str _ => isTrue trivial
  | .int _ | .list _ | .dict _ => isFalse id

instance : DecidablePred IntReadable
  | .int _ => isTrue trivial
  | .str s => inferInstanceAs (Decidable (s.length < 10))
  | .list [] => isTrue trivial
  | .list (.str _ :: _) => isFalse id
  | .list (.int _ :: _) => isTrue trivial
  | .list (.list _ :: _) => isTrue trivial
  | .list (.dict _ :: _) => isTrue trivial
  | .dict [] => isTrue rfl
  | .dict (_ :: _) => isFalse (List.cons_ne_nil _ _)

instance (key : List UInt8) (v : Value) : Decidable (Fits key v) :=
  inferInstanceAs (Decidable (_ ∧ _))

/-- An entry outside of an `info` branch with its key as a C string, or the end of an `info`
branch. -/
inductive Step where
  | entry (key : List UInt8) (v : Value)
  | infoEnd

/-- The steps of one part of a run and of the rest. -/
def andThen (first rest : Option (List Step)) : Option (List Step) :=
  first.bind fun steps => rest.map (steps ++ ·)

theorem andThen_none (first : Option (List Step)) : andThen first none = none := by
  cases first <;> rfl

def closeInfo (steps : Option (List Step)) : Option (List Step) := steps.map (· ++ [.infoEnd])

def otherSteps (key : List UInt8) (v : Value) : Option (List Step) :=
  if Fits key v then some [.entry key v] else none

mutual

/-- The steps over the entries of a dictionary, if the parser gets over them. -/
def entrySteps : List (List UInt8 × Value) → Option (List Step)
  | [] => some []
  | (k, v) :: es =>
    andThen (if cstr k = infoKey then closeInfo (stepsAt v es) else otherSteps (cstr k) v)
      (entrySteps es)
termination_by es => SizeOf.sizeOf es

/-- The steps of a loop at a value that the entries `es` follow. -/
def stepsAt : Value → List (List UInt8 × Value) → Option (List Step)
  | .dict es', _ => entrySteps es'
  -- the string passes for a key, and the next key for its value
  | .str s, (k, v) :: es =>
    andThen (if cstr s = infoKey then closeInfo (entrySteps ((k, v) :: es))
      else otherSteps (cstr s) (.str k)) (stepsAt v es)
  | .str _, [] => none
  | .int _, _ => none
  | .list _, _ => none
termination_by v es => SizeOf.sizeOf v + SizeOf.sizeOf es

end

/-- What a step does to the fields. -/
def Metainfo.step (m : Metainfo) : Step → Metainfo
  | .entry key v => m.store key v
  | .infoEnd => { m with num_pieces := ceilPieces m.file_length m.piece_length }

/-- The values that are stored under a key, in the order of the steps. -/
def valuesUnder (key : List UInt8) (steps : List Step) : List Value :=
  steps.filterMap fun
    | .entry k v => if k = key then some v else none
    | .infoEnd => none

def lastUnder (key : List UInt8) (steps : List Step) : Option Value :=
  (valuesUnder key steps).getLast?

/-- The fields but for the hash. -/
def ParseState.fields (st : ParseState) : Metainfo := { st.toMetainfo with infohash := none }

@[simp] theorem ParseState.visit_fields (st : ParseState) (branch : Option Nat)
    (key : List UInt8) : (st.visit branch key).fields = st.fields := by
  cases branch <;> rfl

theorem ParseState.store_fields (st : ParseState) (key : List UInt8) (v : Value) :
    ParseState.fields { st with toMetainfo := st.toMetainfo.store key v } =
      st.fields.step (.entry key v) := by
  dsimp only [ParseState.fields, Metainfo.step]
  unfold Metainfo.store
  split_ifs <;> rfl

/-! ## The last value under a key -/

theorem valuesUnder_append (key : List UInt8) (steps steps' : List Step) :
    valuesUnder key (steps ++ steps') = valuesUnder key steps ++ valuesUnder key steps' :=
  List.filterMap_append

theorem lastUnder_entry (key k : List UInt8) (v : Value) (steps : List Step) :
    lastUnder key (steps ++ [.entry k v]) = if k = key then some v else lastUnder key steps := by
  unfold lastUnder
  rw [valuesUnder_append]
  by_cases hkey : k = key
  · have hone : valuesUnder key [.entry k v] = [v] := by
      simp [valuesUnder, hkey]
    rw [if_pos hkey, hone, List.getLast?_concat]
  · have hnone : valuesUnder key [.entry k v] = [] := by
      simp [valuesUnder, hkey]
    rw [if_neg hkey, hnone, List.append_nil]

theorem lastUnder_infoEnd (key : List UInt8) (steps : List Step) :
    lastUnder key (steps ++ [.infoEnd]) = lastUnder key steps := by
  unfold lastUnder
  rw [valuesUnder_append]
  exact congrArg List.getLast? (List.append_nil _)

/-- A field that one key writes ends up with the last value under this key. -/
theorem field_foldl {α : Type} (get : Metainfo → Option α) {f : Value → α} {key : List UInt8}
    (hstore : ∀ m k v, get (m.store k v) = if k = key then some (f v) else get m)
    (hend : ∀ m, get (m.step .infoEnd) = get m) {m : Metainfo} (h : get m = none)
    (steps : List Step) : get (steps.foldl Metainfo.step m) = (lastUnder key steps).map f := by
  induction steps using List.reverseRecOn with
  | nil => exact h
  | append_singleton steps s ih =>
      rw [List.foldl_append, List.foldl_cons, List.foldl_nil]
      cases s with
      | entry k v =>
          rw [lastUnder_entry, apply_ite (Option.map f), ← ih]
          exact hstore _ _ _
      | infoEnd =>
          rw [lastUnder_infoEnd, ← ih]
          exact hend _

section Stores

variable (m : Metainfo) (key : List UInt8) (v : Value)

theorem Metainfo.store_announce :
    (m.store key v).announce = if key = announceKey then
      some ⟨(bytesOf v).length, padded (bytesOf v) ++ [0]⟩ else m.announce := by
  by_cases hkey : key = announceKey
  · rw [if_pos hkey, Metainfo.store, if_pos hkey]
  · rw [if_neg hkey, Metainfo.store, if_neg hkey]
    split_ifs <;> rfl

theorem Metainfo.store_piece_length :
    (m.store key v).piece_length = if key = pieceLengthKey then
      some (toInt32 (intOf v)) else m.piece_length := by
  by_cases hkey : key = pieceLengthKey
  · subst hkey
    rfl
  · rw [if_neg hkey, Metainfo.store, if_neg hkey]
    split_ifs <;> rfl

theorem Metainfo.store_piece_hashes :
    (m.store key v).piece_hashes = if key = piecesKey then
      some ⟨(bytesOf v).length, padded (bytesOf v)⟩ else m.piece_hashes := by
  by_cases hkey : key = piecesKey
  · subst hkey
    rfl
  · rw [if_neg hkey, Metainfo.store, if_neg hkey]
    split_ifs <;> rfl

theorem Metainfo.store_filename :
    (m.store key v).filename = if key = nameKey then
      some ⟨(bytesOf v).length, padded (bytesOf v)⟩ else m.filename := by
  by_cases hkey : key = nameKey
  · subst hkey
    rfl
  · rw [if_neg hkey, Metainfo.store, if_neg hkey]
    split_ifs <;> rfl

theorem Metainfo.store_file_length :
    (m.store key v).file_length = if key = lengthKey then
      some (toInt32 (intOf v)) else m.file_length := by
  by_cases hkey : key = lengthKey
  · subst hkey
    rfl
  · rw [if_neg hkey, Metainfo.store, if_neg hkey]
    split_ifs <;> rfl

theorem Metainfo.store_num_pieces : (m.store key v).num_pieces = m.num_pieces := by
  unfold Metainfo.store
  split_ifs <;> rfl

end Stores

/-! ## Runs that follow steps -/

/-- A run does what the steps do; where there are none, it does not come to an end. -/
def Follows (m : Metainfo) (result : Except Halt ParseState) : Option (List Step) → Prop
  | some steps => ∃ st', result = .ok st' ∧ st'.fields = steps.foldl Metainfo.step m
  | none => ∀ st', result ≠ .ok st'

theorem Follows.bind {m : Metainfo} {result : Except Halt ParseState}
    {next : ParseState → Except Halt ParseState} {first rest : Option (List Step)}
    (h : Follows m result first)
    (hnext : ∀ st', result = .ok st' → Follows st'.fields (next st') rest) :
    Follows m (result >>= next) (andThen first rest) := by
  cases first with
  | none =>
      intro st' hrun
      obtain ⟨st1, hone, -⟩ := bind_eq_ok.mp hrun
      exact h st1 hone
  | some steps =>
      obtain ⟨st1, hone, hfields⟩ := h
      have htail := hnext st1 hone
      rw [hone, ok_bind]
      cases rest with
      | none => exact htail
      | some steps' =>
          obtain ⟨st2, htwo, hfields'⟩ := htail
          refine ⟨st2, htwo, ?_⟩
          rw [hfields', hfields, List.foldl_append]

theorem Stores.follows {st : ParseState} {key : List UInt8} {v : Value}
    {result : Except Halt ParseState} (h : Stores st key v result) :
    Follows st.fields result (otherSteps key v) := by
  unfold otherSteps
  rcases h with ⟨hfits, hrun⟩ | ⟨hfits, hrun⟩
  · rw [if_pos hfits]
    exact ⟨_, hrun, ParseState.store_fields st key v⟩
  · rw [if_neg hfits, hrun]
    intro st' hok
    cases hok

/-! ## The info branch -/

section Info

variable {buf : List UInt8} {n : Nat} {sha1 : List UInt8 → List UInt8} {st : ParseState}
  {value be : BencodeT} {p fuel : Nat}

/-- The walk of the copied cursor ends inside of the file, or there is no way over the value. -/
def WalkEnds (buf : List UInt8) (n fuel : Nat) (value : BencodeT) (p : Nat)
    (steps : Option (List Step)) : Prop :=
  (∃ ben e, walkDict buf fuel value = .ok ben ∧ ben.str = some e ∧ p ≤ e ∧ e < n) ∨
    (steps = none ∧ ∀ ben, walkDict buf fuel value = .ok ben → ben.str = none)

theorem parseMetainfo_info_follows (hn : n ≤ 2147483647) (hbuf : n ≤ buf.length)
    (h : value.str = some p) {steps : Option (List Step)}
    (hwalk : WalkEnds buf n fuel value p steps)
    (hloop : ∀ (branch : Option Nat) (st : ParseState),
      Follows st.fields (parseEntries sha1 buf fuel branch st value) steps) :
    Follows st.fields (parseMetainfo sha1 buf (fuel + 1) st value infoKey) (closeInfo steps) := by
  rw [parseMetainfo_info, bencodeDictGetStartAndLen]
  rcases hwalk with ⟨ben, e, hwalk, hend, hpe, hen⟩ | ⟨rfl, hwalk⟩
  · have hlen : toInt32 ((e : Int) - p + 1) = (e : Int) - p + 1 :=
      toInt32_of_fits ⟨by omega, by omega⟩
    have hcopy : copyDict buf p ((e : Int) - p + 1) =
        .ok (slice buf p ((e : Int) - p + 1).toNat) := if_pos ⟨by omega, by omega⟩
    simp only [hwalk, ok_bind, h, hend, deref, pure_eq_ok, hlen, hcopy]
    have hrun := hloop (some st.visited.length)
      (st.begin (sha1 (slice buf p ((e : Int) - p + 1).toNat)))
    cases steps with
    | none =>
        intro st' hok
        obtain ⟨st1, hone, -⟩ := bind_eq_ok.mp hok
        exact hrun st1 hone
    | some steps =>
        obtain ⟨st1, hone, hfields⟩ := hrun
        refine ⟨st1.close, ?_, ?_⟩
        · rw [hone, ok_bind]
        · have hsame : st1.fields = steps.foldl Metainfo.step st.fields := hfields
          rw [List.foldl_append, ← hsame]
          rfl
  · intro st' hok
    obtain ⟨x, hx, -⟩ := bind_eq_ok.mp hok
    obtain ⟨ben, hben, hderef⟩ := bind_eq_ok.mp hx
    rw [h, hwalk ben hben] at hderef
    cases hderef

/-- At a string in the place of a dictionary: the key behind it passes for its value. -/
theorem holds_shifted {r : Nat} {s k : List UInt8} {v : Value} {es : List (List UInt8 × Value)}
    (h : Holds buf r (encode (.str s) ++ (encodeDict ((k, v) :: es) ++ [101]))) :
    Holds buf r (encodeStr s) ∧
      Holds buf (r + (encodeStr s).length) (encode (.str k)) ∧
      Holds buf (r + (encodeStr s).length) (encodeDict ((k, v) :: es) ++ [101]) ∧
      Holds buf (r + (encodeStr s).length + (encodeStr k).length)
        (encode v ++ (encodeDict es ++ [101])) := by
  rw [encode] at h
  obtain ⟨hs, hentries⟩ := holds_append_iff.mp h
  have htail := hentries
  rw [encodeDict, List.append_assoc, List.append_assoc] at htail
  obtain ⟨hk, hrest⟩ := holds_append_iff.mp htail
  rw [encode]
  exact ⟨hs, hk, hentries, hrest⟩

/-- A dictionary is walked to its end. -/
theorem walkEnds_entries (hn : n ≤ 2147483647) {es : List (List UInt8 × Value)} {q r : Nat}
    (h : CursorAt n value r) (hp : p ≤ r) (hat : AtKey buf r q)
    (hes : Holds buf q (encodeDict es ++ [101])) (hend : q + (encodeDict es).length < n)
    (hfuel : 2 * (encodeDict es).length + 2 ≤ fuel) (steps : Option (List Step)) :
    WalkEnds buf n fuel value p steps := by
  have hrq := hat.le
  left
  by_cases hnil : es = []
  · subst hnil
    obtain ⟨fuel, rfl⟩ := Nat.exists_eq_add_of_le' (show 1 ≤ fuel by omega)
    have hlast := dictHasNext_last h.str hat (peek_head hes)
    refine ⟨value, r, ?_, h.str, hp, by omega⟩
    simp only [walkDict, hlast, ok_bind, Bool.false_eq_true, if_false, pure_eq_ok]
  · have hat' : if es = [] then q = r else AtKey buf r q := by
      rw [if_neg hnil]
      exact hat
    have hwalk := walkDict_of_dictToEnd fuel (dictToEnd_spec hn es hfuel h hat' hes hend)
    exact ⟨_, _, hwalk, rfl, by omega, hend⟩

/-- From a string on the walk goes over keys for values, up to the next dictionary. -/
theorem walkEnds_stepsAt (hn : n ≤ 2147483647) (v : Value) (es : List (List UInt8 × Value))
    {fuel r : Nat} {value : BencodeT} (h : CursorAt n value r) (hp : p ≤ r)
    (hv : Holds buf r (encode v ++ (encodeDict es ++ [101])))
    (hend : r + (encode v).length + (encodeDict es).length < n)
    (hfuel : 2 * ((encode v).length + (encodeDict es).length) + 2 ≤ fuel) :
    WalkEnds buf n fuel value p (stepsAt v es) := by
  have h2 := two_le_encode v
  obtain ⟨fuel, rfl⟩ := Nat.exists_eq_add_of_le' (show 3 ≤ fuel by omega)
  match v, es with
  | .dict es', es =>
      have hlen := encode_dict_length es'
      obtain ⟨hat, hdict⟩ := Holds.dict (holds_append_iff.mp hv).1
      exact walkEnds_entries hn h hp hat hdict (by omega) (by omega) _
  | .str s, [] =>
      right
      rw [stepsAt]
      rw [encode, encodeDict, List.nil_append] at hv
      rw [encode, encodeDict, List.length_nil] at hend
      rw [encode] at h2
      have hs := (holds_append_iff.mp hv).1
      have hhas := dictHasNext_true h (Or.inl rfl) hs (by omega)
      have hnext : bencodeDictGetNext buf (fuel + 2) value =
          .ok ({ value with str := none }, none) := dictGetNext_last hn h hv (by omega)
      have hwalk : walkDict buf (fuel + 3) value = .ok { value with str := none } := by
        simp only [walkDict, hhas, ok_bind, if_true, hnext]
        simp only [bencodeDictHasNext, pure_eq_ok, ok_bind, Bool.false_eq_true, if_false]
      refine ⟨rfl, ?_⟩
      intro ben hben
      rw [hwalk] at hben
      cases hben
      rfl
  | .str s, (k, v) :: es =>
      obtain ⟨hs, hk, -, hrest⟩ := holds_shifted hv
      rw [encode, encodeDict_cons_length] at hend hfuel
      rw [encode] at h2
      have h2k := two_le_encodeStr k
      have h2v := two_le_encode v
      have hnext := iterate_spec hn (.str k)
        (show 2 * (encode (.str k)).length ≤ fuel + 1 by rw [encode]; omega) h
        (show r ≤ r + (encodeStr s).length by omega) hk (by rw [encode]; omega)
      obtain ⟨item, -, -, hget⟩ := dictGetNext_spec hn h (Or.inl rfl) hs (by omega) hnext
      have hhas := dictHasNext_true h (Or.inl rfl) hs (by omega)
      have hmove := h.move (r := r + (encodeStr s).length + (encode (.str k)).length) (by omega)
      rw [encode] at hmove hget
      have hwalk : walkDict buf (fuel + 3) value = walkDict buf (fuel + 2)
          { value with str := some (r + (encodeStr s).length + (encodeStr k).length) } := by
        rw [walkDict, hhas, ok_bind, if_pos rfl, hget, ok_bind]
      have hrec := walkEnds_stepsAt hn v es hmove (by omega) hrest (by omega)
        (show 2 * ((encode v).length + (encodeDict es).length) + 2 ≤ fuel + 2 by omega)
      unfold WalkEnds
      rw [hwalk, stepsAt]
      rcases hrec with hrec | ⟨hnone, hrec⟩
      · exact Or.inl hrec
      · right
        refine ⟨?_, hrec⟩
        rw [hnone]
        exact andThen_none _
  | .int i, es =>
      rw [encode] at hv
      have hwalk : walkDict buf (fuel + 3) value = .error .assertion :=
        walkDict_other h (peek_head hv) (Or.inl rfl) (by omega)
      right
      rw [stepsAt, hwalk]
      constructor
      · rfl
      · intro ben hben
        cases hben
  | .list vs, es =>
      rw [encode] at hv
      have hwalk : walkDict buf (fuel + 3) value = .error .assertion :=
        walkDict_other h (peek_head hv) (Or.inr rfl) (by omega)
      right
      rw [stepsAt, hwalk]
      constructor
      · rfl
      · intro ben hben
        cases hben

/-! ## Runs -/

theorem parseEntries_next {branch : Option Nat} {be1 : BencodeT} {item : Item} {key : List UInt8}
    (h : nextEntry buf fuel be = .ok (some (be1, item, key))) :
    parseEntries sha1 buf (fuel + 1) branch st be =
      (parseMetainfo sha1 buf fuel (st.visit branch (slice buf item.key item.klen.toNat)) item.value
        key >>= fun st => parseEntries sha1 buf fuel branch st be1) := by
  rw [parseEntries, h]
  rfl

end Info

section Runs

variable {buf : List UInt8} {n fuel p q : Nat} {be : BencodeT} {k s : List UInt8} {v : Value}
  {es : List (List UInt8 × Value)}

/-- A round of the loop over a dictionary: its next entry, and where the cursors go. -/
theorem nextEntry_entry (hn : n ≤ 2147483647) (h : CursorAt n be p) (hat : AtKey buf p q)
    (hes : Holds buf q (encodeDict ((k, v) :: es) ++ [101]))
    (hend : q + (encodeDict ((k, v) :: es)).length < n)
    (hfuel : 2 * (encodeDict ((k, v) :: es)).length ≤ fuel) :
    ∃ item be1, nextEntry buf fuel be = .ok (some (be1, item, cstr k)) ∧
      slice buf item.key item.klen.toNat = k ∧
      CursorAt n item.value (q + (encodeStr k).length) ∧
      Holds buf (q + (encodeStr k).length) (encode v ++ (encodeDict es ++ [101])) ∧
      CursorAt n be1 (q + (encodeStr k).length + (encode v).length) ∧
      Holds buf (q + (encodeStr k).length + (encode v).length) (encodeDict es ++ [101]) := by
  rw [encodeDict, List.append_assoc, List.append_assoc] at hes
  rw [encodeDict_cons_length] at hend hfuel
  obtain ⟨hk, hvalue⟩ := holds_append_iff.mp hes
  obtain ⟨hv, hrest⟩ := holds_append_iff.mp hvalue
  have h2k := two_le_encodeStr k
  have hpq := hat.le
  obtain ⟨item, hitem, -, hkey, hnext⟩ := nextEntry_spec hn h hat hk hv (by omega)
    (show 2 * (encode v).length < fuel by omega)
  exact ⟨item, _, hnext, hkey, hitem, hvalue, h.move (by omega), hrest⟩

/-- A round of a loop at a string in the place of a dictionary. -/
theorem nextEntry_shifted (hn : n ≤ 2147483647) (h : CursorAt n be p)
    (hv : Holds buf p (encode (.str s) ++ (encodeDict ((k, v) :: es) ++ [101])))
    (hend : p + (encode (.str s)).length + (encodeDict ((k, v) :: es)).length < n)
    (hfuel : 2 * (encodeDict ((k, v) :: es)).length ≤ fuel) :
    ∃ item be1, nextEntry buf fuel be = .ok (some (be1, item, cstr s)) ∧
      slice buf item.key item.klen.toNat = s ∧
      CursorAt n item.value (p + (encodeStr s).length) ∧
      CursorAt n be1 (p + (encodeStr s).length + (encodeStr k).length) := by
  obtain ⟨hs, hk, -, -⟩ := holds_shifted hv
  rw [encodeDict_cons_length] at hend hfuel
  have hstr (s : List UInt8) : encode (.str s) = encodeStr s := by rw [encode]
  have h2 := two_le_encode v
  obtain ⟨item, hitem, -, hkey, hnext⟩ := nextEntry_spec hn h (Or.inl rfl) hs hk
    (by rw [hstr] at hend ⊢; omega) (show 2 * (encode (.str k)).length < fuel by rw [hstr]; omega)
  rw [hstr] at hnext
  exact ⟨item, _, hnext, hkey, hitem, h.move (by omega)⟩

/-- A string with nothing behind it has no value. -/
theorem nextEntry_lastStr (hn : n ≤ 2147483647) (h : CursorAt n be p)
    (hv : Holds buf p (encode (.str s) ++ (encodeDict [] ++ [101])))
    (hend : p + (encode (.str s)).length + (encodeDict []).length < n) :
    nextEntry buf (fuel + 2) be = .error .memory := by
  rw [encode, encodeDict, List.nil_append] at hv
  rw [encode, encodeDict, List.length_nil] at hend
  have h2 := two_le_encodeStr s
  have hhas := dictHasNext_true h (Or.inl rfl) (holds_append_iff.mp hv).1 (by omega)
  have hget : bencodeDictGetNext buf (fuel + 2) be = .ok ({ be with str := none }, none) :=
    dictGetNext_last hn h hv (by omega)
  rw [nextEntry, hhas, ok_bind, if_pos rfl, hget]
  rfl

mutual

/-- A run over a dictionary follows the steps of its entries. -/
theorem parseEntries_follows (sha1 : List UInt8 → List UInt8) (hn : n ≤ 2147483647)
    (hbuf : n ≤ buf.length) (branch : Option Nat) (es : List (List UInt8 × Value)) (st : ParseState)
    {fuel : Nat} {be : BencodeT} {p q : Nat} (h : CursorAt n be p) (hat : AtKey buf p q)
    (hes : Holds buf q (encodeDict es ++ [101])) (hend : q + (encodeDict es).length < n)
    (hfuel : 2 * (encodeDict es).length + 2 ≤ fuel) :
    Follows st.fields (parseEntries sha1 buf fuel branch st be) (entrySteps es) := by
  match es with
  | [] =>
      rw [entrySteps]
      obtain ⟨fuel, rfl⟩ := Nat.exists_eq_add_of_le' (show 1 ≤ fuel by omega)
      exact ⟨st, parseEntries_end h hat (peek_head hes), rfl⟩
  | (k, v) :: es =>
      have h2 := two_le_encode v
      have h2k := two_le_encodeStr k
      have hlen := encodeDict_cons_length k v es
      obtain ⟨fuel, rfl⟩ := Nat.exists_eq_add_of_le' (show 3 ≤ fuel by omega)
      obtain ⟨item, be1, hnext, -, hitem, hvalue, hmove, hrest⟩ :=
        nextEntry_entry hn h hat hes hend (show _ ≤ fuel + 2 by omega)
      have hv := (holds_append_iff.mp hvalue).1
      rw [entrySteps]
      rw [parseEntries_next hnext]
      apply Follows.bind
      · rw [← ParseState.visit_fields st branch]
        by_cases hi : cstr k = infoKey
        · rw [if_pos hi, hi]
          apply parseMetainfo_info_follows hn hbuf hitem.str
          · exact walkEnds_stepsAt hn v es hitem le_rfl hvalue (by omega) (by omega)
          · intro branch' st1
            exact parseEntries_stepsAt sha1 hn hbuf branch' v es st1 hitem hvalue (by omega)
              (by omega)
        · rw [if_neg hi]
          exact (parseMetainfo_other sha1 _ (fuel + 1) hn hitem hv (by omega) hi).follows
      · intro st1 _
        exact parseEntries_follows sha1 hn hbuf branch es st1 hmove (Or.inl rfl) hrest (by omega)
          (by omega)
termination_by SizeOf.sizeOf es

theorem parseEntries_stepsAt (sha1 : List UInt8 → List UInt8) (hn : n ≤ 2147483647)
    (hbuf : n ≤ buf.length) (branch : Option Nat) (v : Value) (es : List (List UInt8 × Value))
    (st : ParseState) {fuel : Nat} {be : BencodeT} {p : Nat} (h : CursorAt n be p)
    (hv : Holds buf p (encode v ++ (encodeDict es ++ [101])))
    (hend : p + (encode v).length + (encodeDict es).length < n)
    (hfuel : 2 * ((encode v).length + (encodeDict es).length) + 2 ≤ fuel) :
    Follows st.fields (parseEntries sha1 buf fuel branch st be) (stepsAt v es) := by
  have h2 := two_le_encode v
  obtain ⟨fuel, rfl⟩ := Nat.exists_eq_add_of_le' (show 4 ≤ fuel by omega)
  match hval : v, hrest : es with
  | .dict es', es =>
      have hlen := encode_dict_length es'
      obtain ⟨hat, hdict⟩ := Holds.dict (holds_append_iff.mp hv).1
      rw [stepsAt]
      exact parseEntries_follows sha1 hn hbuf branch es' st h hat hdict (by omega) (by omega)
  | .str s, [] =>
      rw [stepsAt, parseEntries, nextEntry_lastStr hn h hv hend]
      exact fun st' => nofun
  | .str s, (k, v) :: es =>
      obtain ⟨-, hk, hall, hafter⟩ := holds_shifted hv
      have hlen := encodeDict_cons_length k v es
      have h2k := two_le_encodeStr k
      have h2v := two_le_encode v
      obtain ⟨item, be1, hnext, -, hitem, hmove⟩ :=
        nextEntry_shifted hn h hv hend (show _ ≤ fuel + 3 by omega)
      rw [encode] at h2 hend hfuel
      rw [stepsAt, parseEntries_next hnext]
      apply Follows.bind
      · rw [← ParseState.visit_fields st branch]
        by_cases hi : cstr s = infoKey
        · have hfuel' : 2 * (encodeDict ((k, v) :: es)).length + 2 ≤ fuel + 2 := by omega
          rw [if_pos hi, hi]
          apply parseMetainfo_info_follows hn hbuf hitem.str
          · exact walkEnds_entries hn hitem le_rfl (Or.inl rfl) hall hend hfuel' _
          · intro branch' st1
            exact parseEntries_follows sha1 hn hbuf branch' ((k, v) :: es) st1 hitem (Or.inl rfl)
              hall hend hfuel'
        · rw [if_neg hi]
          have hother := parseMetainfo_other sha1 (st.visit branch (slice buf item.key
            item.klen.toNat)) (fuel + 2) hn hitem hk (by rw [encode]; omega) hi
          exact hother.follows
      · intro st1 _
        exact parseEntries_stepsAt sha1 hn hbuf branch v es st1 hmove hafter (by omega) (by omega)
  | .int i, es =>
      rw [encode] at hv
      rw [stepsAt, parseEntries, nextEntry_other h (peek_head hv) (Or.inl rfl) (by omega)]
      exact fun st' => nofun
  | .list vs, es =>
      rw [encode] at hv
      rw [stepsAt, parseEntries, nextEntry_other h (peek_head hv) (Or.inr rfl) (by omega)]
      exact fun st' => nofun
termination_by SizeOf.sizeOf v + SizeOf.sizeOf es
decreasing_by
  all_goals simp only [hval, hrest]
  all_goals simp
  all_goals omega

end

/-- The file as a whole. -/
theorem parseMetainfoFile_follows (sha1 : List UInt8 → List UInt8)
    (es : List (List UInt8 × Value)) {reads : List (List UInt8)}
    (hfile : reads.flatten = encode (.dict es)) (hlen : (encode (.dict es)).length ≤ 2147483646)
    {fuel : Nat} (hfuel : 2 * (encode (.dict es)).length + 2 ≤ fuel) :
    Follows ParseState.init.fields (parseMetainfoFile sha1 fuel (encode (.dict es)).length reads)
      (entrySteps es) := by
  obtain ⟨hat, hcur, hholds, hsize⟩ := dictFile_spec es
  rw [parseMetainfoFile_eq hfile hlen]
  apply parseEntries_follows sha1 (by omega) _ none es .init hcur hat hholds (by omega) (by omega)
  rw [List.length_append]
  exact Nat.le_add_right _ _

end Runs

/-! ## Where no key passes for another -/

def IsInfo (e : List UInt8 × Value) : Prop := cstr e.1 = infoKey

instance (e : List UInt8 × Value) : Decidable (IsInfo e) := inferInstanceAs (Decidable (_ = _))

def entryStep (e : List UInt8 × Value) : Step := .entry (cstr e.1) e.2

theorem entrySteps_cons {e : List UInt8 × Value} (hfits : Fits (cstr e.1) e.2)
    (hinfo : ¬ IsInfo e) (es : List (List UInt8 × Value)) :
    entrySteps (e :: es) = (entrySteps es).map (entryStep e :: ·) := by
  have hkey : ¬ cstr e.1 = infoKey := hinfo
  rw [entrySteps, if_neg hkey, otherSteps, if_pos hfits]
  rfl

theorem entrySteps_of_fits {es : List (List UInt8 × Value)}
    (h : ∀ e ∈ es, Fits (cstr e.1) e.2 ∧ ¬ IsInfo e) :
    entrySteps es = some (es.map entryStep) := by
  induction es with
  | nil => exact entrySteps.eq_1
  | cons e es ih =>
      obtain ⟨hfits, hinfo⟩ := h e List.mem_cons_self
      rw [entrySteps_cons hfits hinfo, ih fun e he => h e (List.mem_cons_of_mem _ he)]
      rfl

/-- The entries of a torrent, with those of the info dictionary in its place. -/
def torrentSteps (pre info post : List (List UInt8 × Value)) : List Step :=
  pre.map entryStep ++ (info.map entryStep ++ .infoEnd :: post.map entryStep)

theorem entrySteps_torrent {pre info post : List (List UInt8 × Value)}
    (h : ∀ e ∈ pre ++ (info ++ post), Fits (cstr e.1) e.2 ∧ ¬ IsInfo e) :
    entrySteps (pre ++ (infoKey, .dict info) :: post) = some (torrentSteps pre info post) := by
  induction pre with
  | nil =>
      rw [List.nil_append] at h
      have hinfo := entrySteps_of_fits fun e he => h e (List.mem_append_left post he)
      have hpost := entrySteps_of_fits fun e he => h e (List.mem_append_right info he)
      have hkey : cstr infoKey = infoKey := rfl
      rw [List.nil_append, entrySteps, if_pos hkey, stepsAt, hinfo, hpost]
      exact congrArg some (List.append_assoc _ _ _)
  | cons e pre ih =>
      obtain ⟨hfits, hinfo⟩ := h e List.mem_cons_self
      rw [List.cons_append, entrySteps_cons hfits hinfo,
        ih fun e he => h e (List.mem_cons_of_mem _ he)]
      rfl

theorem mem_valuesUnder {key : List UInt8} {v : Value} {es : List (List UInt8 × Value)}
    (hkey : cstr key = key) (hmem : (key, v) ∈ es) : v ∈ valuesUnder key (es.map entryStep) := by
  apply List.mem_filterMap.mpr
  refine ⟨entryStep (key, v), List.mem_map_of_mem hmem, ?_⟩
  dsimp only [entryStep]
  rw [if_pos hkey]

/-- The one value under a key is the last one. -/
theorem lastUnder_map_entryStep {key : List UInt8} {v : Value} {es : List (List UInt8 × Value)}
    (hkey : cstr key = key) (hmem : (key, v) ∈ es) (h : ∀ e ∈ es, cstr e.1 = key → e.2 = v) :
    lastUnder key (es.map entryStep) = some v := by
  have hall : ∀ x ∈ valuesUnder key (es.map entryStep), x = v := by
    intro x hx
    obtain ⟨s, hs, hvalue⟩ := List.mem_filterMap.mp hx
    obtain ⟨e, he, rfl⟩ := List.mem_map.mp hs
    dsimp only [entryStep] at hvalue
    split at hvalue
    · rename_i hkey
      rw [← h e he hkey]
      exact (Option.some.inj hvalue).symm
    · cases hvalue
  have hne : valuesUnder key (es.map entryStep) ≠ [] :=
    List.ne_nil_of_mem (mem_valuesUnder hkey hmem)
  rw [lastUnder, List.getLast?_eq_some_getLast hne]
  exact congrArg some (hall _ (List.getLast_mem hne))

/-- The end of an `info` branch reads nothing. -/
theorem lastUnder_infoEnd_mid (key : List UInt8) (steps steps' : List Step) :
    lastUnder key (steps ++ .infoEnd :: steps') = lastUnder key (steps ++ steps') := by
  unfold lastUnder
  rw [valuesUnder_append, valuesUnder_append]
  rfl

theorem lastUnder_torrentSteps {pre info post : List (List UInt8 × Value)} {key : List UInt8}
    {v : Value} (hkey : cstr key = key) (hmem : (key, v) ∈ pre ++ (info ++ post))
    (h : ∀ e ∈ pre ++ (info ++ post), cstr e.1 = key → e.2 = v) :
    lastUnder key (torrentSteps pre info post) = some v := by
  rw [torrentSteps, ← List.append_assoc, lastUnder_infoEnd_mid, List.append_assoc,
    ← List.map_append, ← List.map_append]
  exact lastUnder_map_entryStep hkey hmem h

/-- What is stored under a key that an entry has. -/
theorem exists_lastUnder_torrentSteps {pre info post : List (List UInt8 × Value)}
    {key : List UInt8} {v : Value} (hkey : cstr key = key)
    (hmem : (key, v) ∈ pre ++ (info ++ post)) :
    ∃ w, lastUnder key (torrentSteps pre info post) = some w := by
  have hne : valuesUnder key ((pre ++ (info ++ post)).map entryStep) ≠ [] :=
    List.ne_nil_of_mem (mem_valuesUnder hkey hmem)
  rw [torrentSteps, ← List.append_assoc, lastUnder_infoEnd_mid, List.append_assoc,
    ← List.map_append, ← List.map_append, lastUnder, List.getLast?_eq_some_getLast hne]
  exact ⟨_, rfl⟩

end BitFS.Client
