import BitFS.Client.Reading

/-! # The infohash

A key is compared as a C string, so that a key with a 0 byte in it can pass for `info` and
begin another `info` branch. Every branch writes the hash anew, and the last one counts.
-/

namespace BitFS.Client

open MachineInt Memory Bencode Decimal

/-! ## The branches of a run -/

/-- An `info` branch: on a dictionary, or on a string, with the keys that its loop comes to. -/
inductive InfoBranch where
  | dict (es : List (List UInt8 × Value))
  | str (keys : List (List UInt8))

/-- The keys that the branch goes over itself. -/
def InfoBranch.keys : InfoBranch → List (List UInt8)
  | dict es => es.map Prod.fst
  | str keys => keys

/-- What the branch hashes: of an empty dictionary only the first byte, and from a string on at
least its first digit. -/
def InfoBranch.Hashes : InfoBranch → List UInt8 → Prop
  | dict [], bytes => bytes = [100]
  | dict es, bytes => bytes = encode (.dict es)
  | str _, bytes => ∃ c cs, bytes = c :: cs ∧ isDigit c = true

/-- The keys that a loop at a value comes to, where the entries `es` follow the value. -/
def loopKeys : Value → List (List UInt8 × Value) → List (List UInt8)
  | .dict es', _ => es'.map Prod.fst
  | .str s, (_, v) :: es => s :: loopKeys v es
  | _, _ => []

/-- The branch on a value that the entries `es` follow. -/
def branchAt : Value → List (List UInt8 × Value) → InfoBranch
  | .dict es', _ => .dict es'
  | v, es => .str (loopKeys v es)

theorem branchAt_keys (v : Value) (es : List (List UInt8 × Value)) :
    (branchAt v es).keys = loopKeys v es := by
  cases v with
  | dict es' => rw [branchAt, InfoBranch.keys, loopKeys]
  | int | str | list => rfl

mutual

/-- The `info` branches of a loop over the entries, in the order in which they begin. -/
def infoBranches : List (List UInt8 × Value) → List InfoBranch
  | [] => []
  | (k, v) :: es =>
    (if cstr k = infoKey then branchAt v es :: infoBranchesAt v es else []) ++ infoBranches es
termination_by es => SizeOf.sizeOf es

/-- The ones of a loop at a value that the entries `es` follow. -/
def infoBranchesAt : Value → List (List UInt8 × Value) → List InfoBranch
  | .dict es', _ => infoBranches es'
  -- the string passes for a key, and the next key for its value
  | .str s, (k, v) :: es =>
    (if cstr s = infoKey then .str (k :: es.map Prod.fst) :: infoBranches ((k, v) :: es) else []) ++
      infoBranchesAt v es
  | .str _, [] => []
  | .int _, _ => []
  | .list _, _ => []
termination_by v es => SizeOf.sizeOf v + SizeOf.sizeOf es

end

/-! ## What a run leaves of its branches -/

section Begun

variable {sha1 : List UInt8 → List UInt8} {branch : Option Nat} {keys keys' : List (List UInt8)}
  {bs bs' : List InfoBranch} {st st1 st' : ParseState}

/-- The visits after some more keys of one branch. -/
def noted (branch : Option Nat) (keys : List (List UInt8)) (visited : List (List (List UInt8))) :
    List (List (List UInt8)) :=
  match branch with
  | none => visited
  | some i => visited.modify i (· ++ keys)

theorem noted_nil (branch : Option Nat) (visited : List (List (List UInt8))) :
    noted branch [] visited = visited := by
  cases branch with
  | none => rfl
  | some i =>
      simp only [noted, List.append_nil]
      exact List.modify_id i visited

theorem noted_noted (branch : Option Nat) (visited : List (List (List UInt8))) :
    noted branch keys' (noted branch keys visited) = noted branch (keys ++ keys') visited := by
  cases branch with
  | none => rfl
  | some i =>
      rw [noted, noted, noted, List.modify_modify_eq]
      congr 1
      funext l
      exact List.append_assoc _ _ _

theorem noted_length (branch : Option Nat) (visited : List (List (List UInt8))) :
    (noted branch keys visited).length = visited.length := by
  cases branch with
  | none => rfl
  | some i => exact List.length_modify _ _ _

/-- Branches that begin later do not matter to those that have begun. -/
theorem noted_append {visited : List (List (List UInt8))} (h : ∀ i ∈ branch, i < visited.length)
    (later : List (List (List UInt8))) :
    noted branch keys (visited ++ later) = noted branch keys visited ++ later := by
  cases branch with
  | none => rfl
  | some i =>
      have hi := h i rfl
      rw [noted, noted, List.modify_eq_take_drop, List.modify_eq_take_drop,
        List.take_append_of_le_length hi.le, List.drop_append_of_le_length hi.le, List.append_assoc]
      congr 1
      obtain ⟨l, ls, hcons⟩ := List.exists_cons_of_ne_nil
        (List.ne_nil_of_length_pos (l := visited.drop i) (by rw [List.length_drop]; omega))
      rw [hcons]
      rfl

theorem visit_eq (st : ParseState) (branch : Option Nat) (key : List UInt8) :
    st.visit branch key = { st with visited := noted branch [key] st.visited } := by
  cases branch <;> rfl

/-- The hash after some branches is that of the last of them. -/
def LastHash (sha1 : List UInt8 → List UInt8) (bs : List InfoBranch)
    (hash hash' : Option (List UInt8)) : Prop :=
  match bs.getLast? with
  | none => hash' = hash
  | some b => ∃ bytes, b.Hashes bytes ∧ hash' = some (sha1 bytes)

theorem LastHash.append {hash hash1 hash' : Option (List UInt8)}
    (h : LastHash sha1 bs hash hash1) (h' : LastHash sha1 bs' hash1 hash') :
    LastHash sha1 (bs ++ bs') hash hash' := by
  unfold LastHash at h h' ⊢
  rw [List.getLast?_append]
  cases hlast : bs'.getLast? with
  | none =>
      rw [hlast] at h'
      rw [Option.none_or, show hash' = hash1 from h']
      exact h
  | some b =>
      rw [hlast] at h'
      exact h'

/-- A run has gone over `keys` itself, as branch `branch`, and has begun the branches `bs`, each of
which has come to its end. -/
structure Begun (sha1 : List UInt8 → List UInt8) (branch : Option Nat)
    (keys : List (List UInt8)) (bs : List InfoBranch) (st st' : ParseState) : Prop where
  visited : st'.visited = noted branch keys st.visited ++ bs.map InfoBranch.keys
  infohash : LastHash sha1 bs st.infohash st'.infohash

theorem Begun.refl (st : ParseState) : Begun sha1 branch [] [] st st where
  visited := by rw [noted_nil, List.map_nil, List.append_nil]
  infohash := rfl

theorem Begun.trans (hbranch : ∀ i ∈ branch, i < st.visited.length)
    (h : Begun sha1 branch keys bs st st1) (h' : Begun sha1 branch keys' bs' st1 st') :
    Begun sha1 branch (keys ++ keys') (bs ++ bs') st st' := by
  constructor
  · have hnoted : ∀ i ∈ branch, i < (noted branch keys st.visited).length := by
      rwa [noted_length]
    rw [h'.visited, h.visited, noted_append hnoted, noted_noted, List.map_append,
      List.append_assoc]
  · exact h.infohash.append h'.infohash

theorem Begun.le (h : Begun sha1 branch keys bs st st') :
    st.visited.length ≤ st'.visited.length := by
  rw [h.visited, List.length_append, noted_length]
  exact Nat.le_add_right _ _

/-- A key, and what the branch for it does. -/
theorem Begun.visit {key : List UInt8} (hbranch : ∀ i ∈ branch, i < st.visited.length)
    (h : Begun sha1 none [] bs (st.visit branch key) st') :
    Begun sha1 branch [key] bs st st' := by
  have hkey : Begun sha1 branch [key] [] st (st.visit branch key) := by
    rw [visit_eq]
    exact ⟨(List.append_nil _).symm, rfl⟩
  have hnext : Begun sha1 branch [] bs (st.visit branch key) st' := by
    constructor
    · rw [noted_nil]
      exact h.visited
    · exact h.infohash
  exact hkey.trans hbranch hnext

/-- A whole `info` branch. -/
theorem Begun.close {b : InfoBranch} {bytes : List UInt8} (hbytes : b.Hashes bytes)
    (h : Begun sha1 (some st.visited.length) b.keys bs (st.begin (sha1 bytes)) st1) :
    Begun sha1 none [] (b :: bs) st st1.close := by
  constructor
  · have hlast : noted (some st.visited.length) b.keys (st.visited ++ [[]]) =
        st.visited ++ [b.keys] := by
      simp [noted, List.modify_eq_take_drop]
    have hvisited := h.visited
    rw [ParseState.begin, hlast, List.append_assoc] at hvisited
    exact hvisited
  · have hfirst : LastHash sha1 [b] st.infohash (st.begin (sha1 bytes)).infohash :=
      ⟨bytes, hbytes, rfl⟩
    exact hfirst.append h.infohash

theorem Stores.begun {key : List UInt8} {v : Value} {result : Except Halt ParseState}
    (h : Stores st key v result) (hok : result = .ok st') : Begun sha1 none [] [] st st' := by
  rcases h with ⟨-, hrun⟩ | ⟨-, hrun⟩
  · rw [hrun] at hok
    cases hok
    refine ⟨(List.append_nil _).symm, ?_⟩
    exact Metainfo.store_infohash _ _ _
  · rw [hrun] at hok
    cases hok

end Begun

/-! ## Runs that come to an end -/

section Runs

variable {buf : List UInt8} {n : Nat} {sha1 : List UInt8 → List UInt8} {st st' : ParseState}
  {value : BencodeT} {fuel p : Nat}

/-- What an `info` branch on a dictionary hashes. -/
theorem hashes_dict (hn : n ≤ 2147483647) (h : CursorAt n value p)
    {es : List (List UInt8 × Value)} (hes : Holds buf p (encode (.dict es)))
    (hend : p + (encode (.dict es)).length ≤ n) (hfuel : 2 * (encode (.dict es)).length ≤ fuel + 1)
    {span : Nat × Int} {bytes : List UInt8}
    (hspan : bencodeDictGetStartAndLen buf (fuel + 1) value = .ok span)
    (hcopy : copyDict buf span.1 span.2 = .ok bytes) : (InfoBranch.dict es).Hashes bytes := by
  cases es with
  | nil =>
      have hd : Holds buf p ([100] : List UInt8) := (holds_append_iff (b := [101]).mp hes).1
      rw [getStartAndLen_empty h.str hes] at hspan
      cases hspan
      have hone : copyDict buf p 1 = .ok [100] := copyDict_spec hd (List.cons_ne_nil _ _)
      exact Except.ok.inj (hcopy.symm.trans hone)
  | cons e es =>
      have h2 := two_le_encode (.dict (e :: es))
      rw [getStartAndLen_spec hn (List.cons_ne_nil e es) hfuel h hes hend] at hspan
      cases hspan
      have hall := copyDict_spec hes (List.ne_nil_of_length_pos (by omega))
      exact Except.ok.inj (hcopy.symm.trans hall)

/-- What it hashes from a string on, if the walk comes to an end. -/
theorem hashes_str (h : value.str = some p) {s : List UInt8} (hs : Holds buf p (encodeStr s))
    (hn : n ≤ 2147483647) {steps : Option (List Step)} (hwalk : WalkEnds buf n fuel value p steps)
    {keys : List (List UInt8)} {span : Nat × Int} {bytes : List UInt8}
    (hspan : bencodeDictGetStartAndLen buf fuel value = .ok span)
    (hcopy : copyDict buf span.1 span.2 = .ok bytes) : (InfoBranch.str keys).Hashes bytes := by
  rw [bencodeDictGetStartAndLen] at hspan
  obtain ⟨ben, hben, hderef⟩ := bind_eq_ok.mp hspan
  rcases hwalk with ⟨ben', e, hwalk, hstr, hpe, hen⟩ | ⟨-, hnone⟩
  · rw [hwalk] at hben
    cases hben
    have hlen : toInt32 ((e : Int) - p + 1) = (e : Int) - p + 1 :=
      toInt32_of_fits ⟨by omega, by omega⟩
    simp only [h, hstr, deref, ok_bind, hlen, pure_eq_ok] at hderef
    cases hderef
    unfold copyDict at hcopy
    split at hcopy
    · cases hcopy
      obtain ⟨c, cs, hcons, hdigit⟩ := exists_decimal s.length
      rw [encodeStr, hcons, List.cons_append] at hs
      have hlt := hs.head
      refine ⟨c, (buf.drop (p + 1)).take ((e : Int) - p).toNat, ?_, hdigit⟩
      obtain ⟨hp, hc⟩ := List.getElem?_eq_some_iff.mp hlt
      rw [slice, List.drop_eq_getElem_cons hp, hc,
        show ((e : Int) - p + 1).toNat = ((e : Int) - p).toNat + 1 by omega, List.take_succ_cons]
    · cases hcopy
  · rw [h, hnone ben hben] at hderef
    cases hderef

/-- An `info` branch that comes to an end, from what its loop does. -/
theorem parseMetainfo_begun {b : InfoBranch} {bs : List InfoBranch}
    (hhash : ∀ span bytes, bencodeDictGetStartAndLen buf fuel value = .ok span →
      copyDict buf span.1 span.2 = .ok bytes → b.Hashes bytes)
    (hloop : ∀ (i : Nat) (st st1 : ParseState), i < st.visited.length →
      parseEntries sha1 buf fuel (some i) st value = .ok st1 →
      Begun sha1 (some i) b.keys bs st st1)
    (hrun : parseMetainfo sha1 buf (fuel + 1) st value infoKey = .ok st') :
    Begun sha1 none [] (b :: bs) st st' := by
  obtain ⟨span, bytes, st1, hspan, hcopy, hentries, rfl⟩ := parseMetainfo_info_ok hrun
  have hroom : st.visited.length < (st.begin (sha1 bytes)).visited.length := by
    show st.visited.length < (st.visited ++ [[]]).length
    rw [List.length_append]
    exact Nat.lt_succ_self _
  exact (hloop _ _ _ hroom hentries).close (hhash span bytes hspan hcopy)

theorem nextEntry_of_run {branch : Option Nat} {be be1 : BencodeT} {item : Item}
    {key : List UInt8} (hnext : nextEntry buf fuel be = .ok (some (be1, item, key)))
    (hrun : parseEntries sha1 buf (fuel + 1) branch st be = .ok st') :
    ∃ st1, parseMetainfo sha1 buf fuel (st.visit branch (slice buf item.key item.klen.toNat))
        item.value key = .ok st1 ∧ parseEntries sha1 buf fuel branch st1 be1 = .ok st' := by
  rw [parseEntries_next hnext] at hrun
  exact bind_eq_ok.mp hrun

mutual

/-- A run over a dictionary goes over its keys, and begins the branches of its entries. -/
theorem parseEntries_begun (hn : n ≤ 2147483647) (branch : Option Nat)
    (es : List (List UInt8 × Value)) {fuel : Nat} {st st' : ParseState} {be : BencodeT}
    {p q : Nat} (h : CursorAt n be p) (hat : AtKey buf p q)
    (hes : Holds buf q (encodeDict es ++ [101])) (hend : q + (encodeDict es).length < n)
    (hfuel : 2 * (encodeDict es).length + 2 ≤ fuel)
    (hbranch : ∀ i ∈ branch, i < st.visited.length)
    (hrun : parseEntries sha1 buf fuel branch st be = .ok st') :
    Begun sha1 branch (es.map Prod.fst) (infoBranches es) st st' := by
  match es with
  | [] =>
      obtain ⟨fuel, rfl⟩ := Nat.exists_eq_add_of_le' (show 1 ≤ fuel by omega)
      rw [parseEntries_end h hat (peek_head hes), Except.ok.injEq] at hrun
      rw [infoBranches, ← hrun]
      exact .refl st
  | (k, v) :: es =>
      have h2 := two_le_encode v
      have h2k := two_le_encodeStr k
      have hlen := encodeDict_cons_length k v es
      obtain ⟨fuel, rfl⟩ := Nat.exists_eq_add_of_le' (show 3 ≤ fuel by omega)
      obtain ⟨item, be1, hnext, hkey, hitem, hvalue, hmove, hrest⟩ :=
        nextEntry_entry hn h hat hes hend (show _ ≤ fuel + 2 by omega)
      have hv := (holds_append_iff.mp hvalue).1
      obtain ⟨st1, hone, hloop⟩ := nextEntry_of_run hnext hrun
      rw [hkey] at hone
      have hfirst : Begun sha1 branch [k]
          (if cstr k = infoKey then branchAt v es :: infoBranchesAt v es else []) st st1 := by
        apply Begun.visit hbranch
        by_cases hi : cstr k = infoKey
        · rw [if_pos hi]
          rw [hi] at hone
          exact parseMetainfo_begunAt hn v es hitem hvalue (by omega) (by omega) hone
        · rw [if_neg hi]
          exact (parseMetainfo_other sha1 _ (fuel + 1) hn hitem hv (by omega) hi).begun hone
      have hlater := parseEntries_begun hn branch es hmove (Or.inl rfl) hrest (by omega) (by omega)
        (fun i hi => (hbranch i hi).trans_le hfirst.le) hloop
      rw [infoBranches]
      exact hfirst.trans hbranch hlater
termination_by 2 * SizeOf.sizeOf es

theorem parseMetainfo_begunAt (hn : n ≤ 2147483647) (v : Value) (es : List (List UInt8 × Value))
    {fuel : Nat} {st st' : ParseState} {value : BencodeT} {p : Nat} (h : CursorAt n value p)
    (hv : Holds buf p (encode v ++ (encodeDict es ++ [101])))
    (hend : p + (encode v).length + (encodeDict es).length < n)
    (hfuel : 2 * ((encode v).length + (encodeDict es).length) + 2 ≤ fuel)
    (hrun : parseMetainfo sha1 buf (fuel + 1) st value infoKey = .ok st') :
    Begun sha1 none [] (branchAt v es :: infoBranchesAt v es) st st' := by
  have h2 := two_le_encode v
  obtain ⟨fuel, rfl⟩ := Nat.exists_eq_add_of_le' (show 3 ≤ fuel by omega)
  have hwalk := walkEnds_stepsAt hn v es h le_rfl hv hend hfuel
  match hval : v with
  | .dict es' =>
      have hlen := encode_dict_length es'
      have hdict := (holds_append_iff.mp hv).1
      obtain ⟨hat, hes'⟩ := Holds.dict hdict
      rw [branchAt, infoBranchesAt]
      apply parseMetainfo_begun (fun span bytes => hashes_dict hn h hdict (by omega) (by omega))
        _ hrun
      intro i st st1 hi hloop
      exact parseEntries_begun hn (some i) es' h hat hes' (by omega) (by omega)
        (fun j hj => by cases hj; exact hi) hloop
  | .str s =>
      have hs := (holds_append_iff.mp hv).1
      rw [encode] at hs
      apply parseMetainfo_begun (fun span bytes => hashes_str h.str hs hn hwalk) _ hrun
      intro i st st1 hi hloop
      exact parseEntries_begunAt hn (some i) (.str s) es h hv hend hfuel
        (fun j hj => by cases hj; exact hi) hloop
  | .int i =>
      rw [encode] at hv
      have hother : walkDict buf (fuel + 3) value = .error .assertion :=
        walkDict_other h (peek_head hv) (Or.inl rfl) (by omega)
      obtain ⟨span, -, -, hspan, -⟩ := parseMetainfo_info_ok hrun
      rw [bencodeDictGetStartAndLen, hother, error_bind] at hspan
      cases hspan
  | .list vs =>
      rw [encode] at hv
      have hother : walkDict buf (fuel + 3) value = .error .assertion :=
        walkDict_other h (peek_head hv) (Or.inr rfl) (by omega)
      obtain ⟨span, -, -, hspan, -⟩ := parseMetainfo_info_ok hrun
      rw [bencodeDictGetStartAndLen, hother, error_bind] at hspan
      cases hspan
termination_by 2 * (SizeOf.sizeOf v + SizeOf.sizeOf es) + 1

theorem parseEntries_begunAt (hn : n ≤ 2147483647) (branch : Option Nat) (v : Value)
    (es : List (List UInt8 × Value)) {fuel : Nat} {st st' : ParseState} {be : BencodeT} {p : Nat}
    (h : CursorAt n be p) (hv : Holds buf p (encode v ++ (encodeDict es ++ [101])))
    (hend : p + (encode v).length + (encodeDict es).length < n)
    (hfuel : 2 * ((encode v).length + (encodeDict es).length) + 2 ≤ fuel)
    (hbranch : ∀ i ∈ branch, i < st.visited.length)
    (hrun : parseEntries sha1 buf fuel branch st be = .ok st') :
    Begun sha1 branch (branchAt v es).keys (infoBranchesAt v es) st st' := by
  have h2 := two_le_encode v
  obtain ⟨fuel, rfl⟩ := Nat.exists_eq_add_of_le' (show 4 ≤ fuel by omega)
  match hval : v, hrest : es with
  | .dict es', es =>
      have hlen := encode_dict_length es'
      obtain ⟨hat, hdict⟩ := Holds.dict (holds_append_iff.mp hv).1
      rw [branchAt, infoBranchesAt]
      exact parseEntries_begun hn branch es' h hat hdict (by omega) (by omega) hbranch hrun
  | .str s, [] =>
      rw [parseEntries, nextEntry_lastStr hn h hv hend] at hrun
      cases hrun
  | .str s, (k, v) :: es =>
      obtain ⟨-, hk, hall, hafter⟩ := holds_shifted hv
      have hlen := encodeDict_cons_length k v es
      have h2k := two_le_encodeStr k
      have h2v := two_le_encode v
      obtain ⟨item, be1, hnext, hkey, hitem, hmove⟩ :=
        nextEntry_shifted hn h hv hend (show _ ≤ fuel + 3 by omega)
      rw [encode] at h2 hend hfuel
      obtain ⟨st1, hone, hloop⟩ := nextEntry_of_run hnext hrun
      rw [hkey] at hone
      have hfirst : Begun sha1 branch [s] (if cstr s = infoKey then
          .str (k :: es.map Prod.fst) :: infoBranches ((k, v) :: es) else []) st st1 := by
        apply Begun.visit hbranch
        by_cases hi : cstr s = infoKey
        · have hfuel' : 2 * (encodeDict ((k, v) :: es)).length + 2 ≤ fuel + 2 := by omega
          rw [if_pos hi]
          rw [hi] at hone
          have hwalk : WalkEnds buf n (fuel + 2) item.value (p + (encodeStr s).length) none :=
            walkEnds_entries hn hitem le_rfl (Or.inl rfl) hall hend hfuel' none
          rw [encode] at hk
          apply parseMetainfo_begun (fun span bytes => hashes_str hitem.str hk hn hwalk) _ hone
          intro i st st1 hi hloop
          exact parseEntries_begun hn (some i) ((k, v) :: es) hitem (Or.inl rfl) hall hend hfuel'
            (fun j hj => by cases hj; exact hi) hloop
        · rw [if_neg hi]
          have hother := parseMetainfo_other sha1 (st.visit branch s) (fuel + 2) hn hitem hk
            (by rw [encode]; omega) hi
          exact hother.begun hone
      have hlater := parseEntries_begunAt hn branch v es hmove hafter (by omega) (by omega)
        (fun i hi => (hbranch i hi).trans_le hfirst.le) hloop
      rw [infoBranchesAt, branchAt_keys, loopKeys, ← branchAt_keys]
      exact hfirst.trans hbranch hlater
  | .int i, es =>
      rw [encode] at hv
      rw [parseEntries, nextEntry_other h (peek_head hv) (Or.inl rfl) (by omega)] at hrun
      cases hrun
  | .list vs, es =>
      rw [encode] at hv
      rw [parseEntries, nextEntry_other h (peek_head hv) (Or.inr rfl) (by omega)] at hrun
      cases hrun
termination_by 2 * (SizeOf.sizeOf v + SizeOf.sizeOf es)
decreasing_by
  all_goals simp only [hval, hrest]
  all_goals simp
  all_goals omega

end

end Runs

/-! ## The info dictionary of a file -/

/-- After enough steps the hash is that of the dictionary, and the branch that it is from has gone
over the keys of the dictionary, each once and in their order. -/
def HashesInfo (sha1 : List UInt8 → List UInt8) (info : List (List UInt8 × Value))
    (st_size : Nat) (reads : List (List UInt8)) : Prop :=
  ∃ N, ∀ fuel ≥ N, ∃ st, parseMetainfoFile sha1 fuel st_size reads = .ok st ∧
    st.infohash = some (sha1 (encode (.dict info))) ∧
    st.visited.getLast? = some (info.map Prod.fst)

/-- The parser gets over all entries that it comes to, and the last `info` branch that begins is on
this dictionary. -/
structure InfoComesLast (info es : List (List UInt8 × Value)) : Prop where
  parses : (entrySteps es).isSome = true
  last : (infoBranches es).getLast? = some (.dict info)

section File

variable {sha1 : List UInt8 → List UInt8} {info es : List (List UInt8 × Value)}
  {reads : List (List UInt8)}

theorem parseMetainfoFile_begun (hfile : reads.flatten = encode (.dict es))
    (hlen : (encode (.dict es)).length ≤ 2147483646) {fuel : Nat}
    (hfuel : 2 * (encode (.dict es)).length + 2 ≤ fuel) {st : ParseState}
    (hrun : parseMetainfoFile sha1 fuel (encode (.dict es)).length reads = .ok st) :
    Begun sha1 none (es.map Prod.fst) (infoBranches es) .init st := by
  obtain ⟨hat, hcur, hholds, hsize⟩ := dictFile_spec es
  rw [parseMetainfoFile_eq hfile hlen] at hrun
  exact parseEntries_begun (by omega) none es hcur hat hholds (by omega) (by omega)
    (fun i hi => by cases hi) hrun

/-- What a run has hashed and visited last. -/
theorem Begun.last {keys : List (List UInt8)} {bs : List InfoBranch} {b : InfoBranch}
    {st : ParseState} (h : Begun sha1 none keys bs .init st) (hb : bs.getLast? = some b) :
    (∃ bytes, b.Hashes bytes ∧ st.infohash = some (sha1 bytes)) ∧
      st.visited.getLast? = some b.keys := by
  constructor
  · have hhash := h.infohash
    unfold LastHash at hhash
    rwa [hb] at hhash
  · have hnone : noted none keys ParseState.init.visited = [] := rfl
    rw [h.visited, hnone, List.nil_append, List.getLast?_map, hb]
    rfl

theorem hashesInfo_of_comesLast (hne : info ≠ []) (hfile : reads.flatten = encode (.dict es))
    (hlen : (encode (.dict es)).length ≤ 2147483646) (h : InfoComesLast info es) :
    HashesInfo sha1 info (encode (.dict es)).length reads := by
  refine ⟨2 * (encode (.dict es)).length + 2, ?_⟩
  intro fuel hfuel
  obtain ⟨steps, hsteps⟩ := Option.isSome_iff_exists.mp h.parses
  have hrun := parseMetainfoFile_follows sha1 es hfile hlen hfuel
  rw [hsteps] at hrun
  obtain ⟨st, hok, -⟩ := hrun
  obtain ⟨⟨bytes, hbytes, hhash⟩, hvisited⟩ :=
    (parseMetainfoFile_begun hfile hlen hfuel hok).last h.last
  obtain ⟨e, es', rfl⟩ := List.exists_cons_of_ne_nil hne
  rw [show bytes = encode (.dict (e :: es')) from hbytes] at hhash
  exact ⟨st, hok, hhash, hvisited⟩

end File

/-! ## Where no other key passes for `info` -/

section Alone

variable {pre info post es : List (List UInt8 × Value)}

theorem infoBranches_of_none (h : ∀ e ∈ pre, ¬ IsInfo e) :
    infoBranches (pre ++ es) = infoBranches es := by
  induction pre with
  | nil => rfl
  | cons e pre ih =>
      have hkey : ¬ cstr e.1 = infoKey := h e List.mem_cons_self
      rw [List.cons_append, infoBranches, if_neg hkey, List.nil_append]
      exact ih fun e he => h e (List.mem_cons_of_mem _ he)

theorem infoBranches_alone (h : ∀ e ∈ es, ¬ IsInfo e) : infoBranches es = [] := by
  have hnone : infoBranches (es ++ []) = infoBranches [] := infoBranches_of_none h
  rwa [List.append_nil, infoBranches.eq_1] at hnone

/-- A key that passes for `info`, bound to a dictionary in which none does. -/
theorem infoBranches_dict {k : List UInt8} (hk : cstr k = infoKey) (h : ∀ e ∈ info, ¬ IsInfo e) :
    infoBranches ((k, .dict info) :: es) = .dict info :: infoBranches es := by
  rw [infoBranches, if_pos hk, branchAt, infoBranchesAt, infoBranches_alone h]
  rfl

theorem comesLast_of_alone
    (h : ∀ e ∈ pre ++ (info ++ post), Fits (cstr e.1) e.2 ∧ ¬ IsInfo e) :
    InfoComesLast info (pre ++ (infoKey, .dict info) :: post) := by
  have hinfo : ∀ e ∈ info, ¬ IsInfo e := fun e he =>
    (h e (List.mem_append_right _ (List.mem_append_left post he))).2
  have hpost : ∀ e ∈ post, ¬ IsInfo e := fun e he =>
    (h e (List.mem_append_right _ (List.mem_append_right info he))).2
  constructor
  · rw [entrySteps_torrent h]
    rfl
  · rw [infoBranches_of_none fun e he => (h e (List.mem_append_left _ he)).2,
      infoBranches_dict rfl hinfo, infoBranches_alone hpost]
    rfl

end Alone

/-! ## The torrent file -/

section Torrent

variable {pre info post : List (List UInt8 × Value)} {reads : List (List UInt8)}

/-- The top-level dictionary. -/
def torrent (pre info post : List (List UInt8 × Value)) : List UInt8 :=
  encode (.dict (pre ++ (infoKey, .dict info) :: post))

end Torrent

end BitFS.Client
