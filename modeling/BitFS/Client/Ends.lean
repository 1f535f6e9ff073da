import BitFS.Bencode.Ends
import BitFS.Client.Defects

/-! # The parser ends

Whatever bytes a torrent file has, guarded or not: each of the nested loops moves ahead, stops,
or comes to a call after which nothing can be said.
-/

namespace BitFS.Client

open MachineInt Memory Bencode Fuel

variable {buf : List UInt8} {n : Nat}

/-! ## More fuel -/

theorem walkDict_mono (buf : List UInt8) (fuel : Nat) (ben : BencodeT) :
    Approx .fuel (walkDict buf fuel ben) (walkDict buf (fuel + 1) ben) := by
  induction fuel generalizing ben with
  | zero => exact approx_out _
  | succ fuel ih =>
      rw [walkDict, walkDict]
      apply Approx.bind (Approx.refl _)
      intro more
      apply approx_ite _ (Approx.refl _)
      apply Approx.bind ((mono buf fuel).2.2.2.1 ben)
      intro next
      exact ih next.1

theorem getStartAndLen_mono (buf : List UInt8) (fuel : Nat) (be : BencodeT) :
    Approx .fuel (bencodeDictGetStartAndLen buf fuel be)
      (bencodeDictGetStartAndLen buf (fuel + 1) be) :=
  (walkDict_mono buf fuel be).bind fun _ => Approx.refl _

theorem nextEntry_mono (buf : List UInt8) (fuel : Nat) (be : BencodeT) :
    Approx .fuel (nextEntry buf fuel be) (nextEntry buf (fuel + 1) be) := by
  unfold nextEntry
  apply Approx.bind (Approx.refl _)
  intro more
  apply approx_ite _ (Approx.refl _)
  apply Approx.bind ((mono buf fuel).2.2.2.1 be)
  intro next
  exact Approx.refl _

def EntriesMono (sha1 : List UInt8 → List UInt8) (buf : List UInt8) (fuel : Nat) : Prop :=
  ∀ branch st be, Approx .fuel (parseEntries sha1 buf fuel branch st be)
    (parseEntries sha1 buf (fuel + 1) branch st be)

def MetainfoMono (sha1 : List UInt8 → List UInt8) (buf : List UInt8) (fuel : Nat) : Prop :=
  ∀ st value key, Approx .fuel (parseMetainfo sha1 buf fuel st value key)
    (parseMetainfo sha1 buf (fuel + 1) st value key)

theorem metainfoMono_succ {sha1 : List UInt8 → List UInt8} {fuel : Nat}
    (hentries : EntriesMono sha1 buf fuel) : MetainfoMono sha1 buf (fuel + 1) := by
  intro st value key
  rw [parseMetainfo, parseMetainfo]
  apply approx_ite (Approx.refl _)
  apply approx_ite
  · apply Approx.bind (getStartAndLen_mono buf fuel value)
    intro span
    apply Approx.bind (Approx.refl _)
    intro dict_str
    apply Approx.bind (hentries _ _ _)
    intro st
    exact Approx.refl _
  · exact Approx.refl _

theorem entriesMono_succ {sha1 : List UInt8 → List UInt8} {fuel : Nat}
    (hmetainfo : MetainfoMono sha1 buf fuel) (hentries : EntriesMono sha1 buf fuel) :
    EntriesMono sha1 buf (fuel + 1) := by
  intro branch st be
  rw [parseEntries, parseEntries]
  apply Approx.bind (nextEntry_mono buf fuel be)
  intro next
  cases next with
  | none => exact Approx.refl _
  | some entry =>
      apply Approx.bind (hmetainfo _ _ _)
      intro st
      exact hentries _ _ _

theorem parse_mono (sha1 : List UInt8 → List UInt8) (buf : List UInt8) (fuel : Nat) :
    MetainfoMono sha1 buf fuel ∧ EntriesMono sha1 buf fuel := by
  induction fuel with
  | zero =>
      constructor
      · intro st value key
        exact approx_out _
      · intro branch st be
        exact approx_out _
  | succ fuel ih =>
      obtain ⟨hmetainfo, hentries⟩ := ih
      exact ⟨metainfoMono_succ hentries, entriesMono_succ hmetainfo hentries⟩

/-! ## What moves ahead -/

/-- Where `bencode_dict_get_next` returns 0 the cursor is gone. -/
theorem dictGetNext_none (hin : Input buf n) {fuel p : Nat} {be be' : BencodeT}
    (hstr : be.str = some p) (hmore : bencodeDictHasNext buf be = .ok true)
    (h : bencodeDictGetNext buf fuel be = .ok (be', none)) : be'.str = none := by
  obtain ⟨c, hc, hgo⟩ := (dictHasNext_true_iff hin hstr).mp hmore
  cases fuel with
  | zero => cases h
  | succ fuel =>
      rw [bencodeDictGetNext, hstr, deref, ok_bind, peek_ok_iff.mpr hc, ok_bind] at h
      split at h
      · cases h
      · rename_i hend
        obtain ⟨d, hd, h⟩ := bind_eq_ok.mp h
        split at h
        · -- the loop stops before an empty dictionary
          rename_i hclose
          rw [hclose, peek_ok_iff] at hd
          exfalso
          apply hgo
          by_cases hdict : c = 100
          · rw [if_pos hdict] at hd
            exact Or.inr (Or.inr (Or.inr (Or.inl ⟨hdict, hd⟩)))
          · rw [if_neg hdict, hc] at hd
            exact Or.inl (Option.some.inj hd)
        · obtain ⟨read, hread, h⟩ := bind_eq_ok.mp h
          cases read with
          | none => cases h
          | some read =>
              obtain ⟨carried, hcarried, h⟩ := bind_eq_ok.mp h
              obtain ⟨next, hnext, h⟩ := bind_eq_ok.mp h
              cases next with
              | none =>
                  cases h
                  rfl
              | some next => cases h

/-- An entry of a loop: enough fuel for it, and where the loop goes on. -/
theorem dictGetNext_ends (hin : Input buf n) {fuel p : Nat} {be : BencodeT} (h : CursorAt n be p)
    (hmore : bencodeDictHasNext buf be = .ok true) (hfuel : 4 * (n + 2 - p) ≤ fuel + 1) :
    Ends .fuel (bencodeDictGetNext buf fuel be) ∧ p < n := by
  obtain ⟨c, hc, hgo⟩ := (dictHasNext_true_iff hin h.str).mp hmore
  have hlt : p < n := hin.lt hc fun h0 => hgo (Or.inr (Or.inl h0))
  obtain ⟨m, rfl⟩ := Nat.exists_eq_add_one_of_ne_zero (show fuel ≠ 0 by omega)
  exact ⟨ends_dictGetNext (ends_of_bound hin m).1 h (by omega), hlt⟩

/-- Without a cursor there is no next entry. -/
theorem walkDict_gone {fuel : Nat} {ben : BencodeT} (h : ben.str = none) :
    walkDict buf (fuel + 1) ben = .ok ben := by
  simp only [walkDict, bencodeDictHasNext, h, pure_eq_ok, ok_bind, Bool.false_eq_true, if_false]

theorem walkDict_ends (hin : Input buf n) (fuel : Nat) :
    ∀ ben p, CursorAt n ben p → 4 * (n + 2 - p) ≤ fuel → 0 < fuel →
      Ends .fuel (walkDict buf fuel ben) := by
  induction fuel with
  | zero =>
      intro ben p h hfuel hpos
      exact absurd hpos (lt_irrefl 0)
  | succ fuel ih =>
      intro ben p h hfuel hpos
      rw [walkDict]
      apply (ends_dictHasNext ben).bind
      intro more hmore
      cases more with
      | false => exact ends_ok _
      | true =>
          obtain ⟨hnext, hlt⟩ := dictGetNext_ends hin h hmore hfuel
          rw [if_pos rfl]
          apply hnext.bind
          intro next hget
          obtain ⟨ben', item⟩ := next
          obtain ⟨m, rfl⟩ := Nat.exists_eq_add_one_of_ne_zero (show fuel ≠ 0 by omega)
          dsimp only
          cases item with
          | none =>
              rw [walkDict_gone (dictGetNext_none hin h.str hmore hget)]
              exact ends_ok _
          | some item =>
              obtain ⟨q, str, len, r, hkey, hitem, rfl, -⟩ :=
                (reads_of_run hin (m + 1)).2.1 ben p ben' item h hmore hget
              have hpos' := hkey.lt
              have hle := hitem.le
              exact ih _ r (h.move (by omega)) (by omega) (by omega)

theorem ends_strncpy (src m : Nat) : Ends .fuel (strncpy buf src m) := by
  unfold strncpy
  exact ends_ite (ends_ok _) (ends_error (by decide))

theorem ends_copyString (value : BencodeT) : Ends .fuel (copyString buf value) := by
  apply ends_bind (ends_stringValue value)
  intro read
  cases read with
  | none => exact ends_error (by decide)
  | some read => exact ends_bind (ends_strncpy _ _) fun _ => ends_ok _

theorem Branch.ends_any {value : BencodeT} {key : List UInt8} {st : ParseState}
    {result : Except Halt ParseState} (h : Branch buf value key st result) :
    Ends .fuel result := by
  cases h with
  | string hkey save hsave => exact ends_bind (ends_copyString value) fun _ => ends_ok _
  | int hkey save hsave => exact ends_bind (ends_intValue value) fun _ => ends_ok _
  | skip hfits hstore => exact ends_ok st

def EntriesEnd (sha1 : List UInt8 → List UInt8) (buf : List UInt8) (n fuel : Nat) : Prop :=
  ∀ branch st be p, CursorAt n be p → 4 * (n + 2 - p) ≤ fuel → 0 < fuel →
    Ends .fuel (parseEntries sha1 buf fuel branch st be)

theorem parseMetainfo_ends (hin : Input buf n) {sha1 : List UInt8 → List UInt8} {fuel v : Nat}
    (hentries : EntriesEnd sha1 buf n fuel) {value : BencodeT} (hvalue : CursorAt n value v)
    (hfuel : 4 * (n + 2 - v) ≤ fuel) (hpos : 0 < fuel) (st : ParseState) (key : List UInt8) :
    Ends .fuel (parseMetainfo sha1 buf (fuel + 1) st value key) := by
  by_cases hinfo : key = infoKey
  · rw [hinfo, parseMetainfo_info]
    have hspan : Ends .fuel (bencodeDictGetStartAndLen buf fuel value) := by
      apply (walkDict_ends hin fuel value v hvalue hfuel hpos).bind
      intro ben hben
      apply ends_bind (ends_deref _)
      intro start
      exact ends_bind (ends_deref _) fun _ => ends_ok _
    apply ends_bind hspan
    intro span
    apply ends_bind
    · unfold copyDict
      exact ends_ite (ends_ok _) (ends_error (by decide))
    · intro dict_str
      exact ends_bind (hentries _ _ value v hvalue hfuel hpos) fun _ => ends_ok _
  · exact (parseMetainfo_branch sha1 st value fuel hinfo).ends_any

/-- The fuel bounds the nested loops together, for each goes over what is behind its start. -/
theorem parseEntries_ends (hin : Input buf n) (sha1 : List UInt8 → List UInt8) (fuel : Nat) :
    EntriesEnd sha1 buf n fuel := by
  induction fuel using Nat.strong_induction_on with
  | _ fuel ih =>
      intro branch st be p h hfuel hpos
      obtain ⟨fuel, rfl⟩ := Nat.exists_eq_add_one_of_ne_zero hpos.ne'
      rw [parseEntries]
      have hnext : Ends .fuel (nextEntry buf fuel be) := by
        apply (ends_dictHasNext be).bind
        intro more hmore
        cases more with
        | false => exact ends_ok _
        | true =>
            rw [if_pos rfl]
            apply ends_bind (dictGetNext_ends hin h hmore hfuel).1
            intro next
            obtain ⟨be', item⟩ := next
            cases item with
            | none => exact ends_error (by decide)
            | some item => exact ends_bind (ends_strncpy _ _) fun _ => ends_ok _
      apply hnext.bind
      intro next hentry
      cases next with
      | none => exact ends_ok st
      | some entry =>
          obtain ⟨be', item, keybuf⟩ := entry
          obtain ⟨more, hmore, hentry⟩ := bind_eq_ok.mp hentry
          cases more with
          | false => cases hentry
          | true =>
              rw [if_pos rfl] at hentry
              obtain ⟨⟨be1, item1⟩, hget, hentry⟩ := bind_eq_ok.mp hentry
              cases item1 with
              | none => cases hentry
              | some item1 =>
                  obtain ⟨copy, hcopy, hentry⟩ := bind_eq_ok.mp hentry
                  cases hentry
                  obtain ⟨q, str, len, r, hkey, hitem, rfl, rfl⟩ :=
                    (reads_of_run hin fuel).2.1 be p _ _ h hmore hget
                  obtain ⟨hvalue, hlt⟩ := h.value hin hkey hitem
                  have hstr := hkey.lt
                  have hle := hitem.le
                  obtain ⟨m, rfl⟩ :=
                    Nat.exists_eq_add_one_of_ne_zero (show fuel ≠ 0 by omega)
                  apply ends_bind
                  · exact parseMetainfo_ends hin (ih m (by omega)) hvalue (by omega) (by omega) _ _
                  · intro st'
                    exact ih (m + 1) (Nat.lt_succ_self _) branch st' _ r (h.move (by omega))
                      (by omega) (by omega)

/-! ## The file -/

theorem ends_readFile (reads : List (List UInt8)) (buf : List (Option UInt8)) (len : Int) :
    Ends .fuel (readFile reads buf len) := by
  induction reads generalizing buf len with
  | nil => exact ends_ok _
  | cons r reads ih =>
      rw [readFile]
      split
      · exact ih _ _
      · exact ends_error (by decide)

theorem ends_loadFile (st_size : Nat) (reads : List (List UInt8)) :
    Ends .fuel (loadFile st_size reads) := by
  apply ends_bind (ends_readFile _ _ _)
  intro loaded
  dsimp only
  split
  · exact ends_error (by decide)
  · split
    · exact ends_error (by decide)
    · exact ends_ok _

theorem parseMetainfoFile_mono (sha1 : List UInt8 → List UInt8) (st_size : Nat)
    (reads : List (List UInt8)) (fuel : Nat) :
    Approx .fuel (parseMetainfoFile sha1 fuel st_size reads)
      (parseMetainfoFile sha1 (fuel + 1) st_size reads) := by
  unfold parseMetainfoFile
  apply Approx.bind (Approx.refl _)
  intro loaded
  exact (parse_mono sha1 loaded.1 fuel).2 none .init _

/-- Whatever the file holds, the parser ends, fails an assertion or does what C leaves open, and
fuel in proportion to the file decides which. -/
theorem parseMetainfoFile_ends (sha1 : List UInt8 → List UInt8) (reads : List (List UInt8))
    {file : List UInt8} (hfile : reads.flatten = file) {fuel : Nat}
    (hfuel : 4 * file.length + 8 ≤ fuel) :
    parseMetainfoFile sha1 fuel file.length reads ≠ .error .fuel ∧
      parseMetainfoFile sha1 fuel file.length reads =
        parseMetainfoFile sha1 (4 * file.length + 8) file.length reads := by
  have hends (k : Nat) (hk : 4 * file.length + 8 ≤ k) :
      Ends .fuel (parseMetainfoFile sha1 k file.length reads) := by
    apply (ends_loadFile _ _).bind
    intro loaded hload
    obtain ⟨buf, len⟩ := loaded
    have hle := loadFile_le hfile hload
    rw [loadFile_spec hfile hle] at hload
    cases hload
    have hin : Input (file ++ [0]) file.length := ⟨by simp, by simp, by omega⟩
    exact parseEntries_ends hin sha1 k none _ _ 0 (cursorAt_init _) (by omega) (by omega)
  refine ⟨hends fuel hfuel, ?_⟩
  exact (approx_of_le (parseMetainfoFile_mono sha1 file.length reads) hfuel (hends _ le_rfl)).symm

/-- A string that is longer than the file, read in two parts. -/
theorem parseMetainfoFile_ends_cut :
    parseMetainfoFile id 20 ([100, 57, 58] : List UInt8).length [[100, 57], [58]] ≠ .error .fuel ∧
      parseMetainfoFile id 20 ([100, 57, 58] : List UInt8).length [[100, 57], [58]] =
        parseMetainfoFile id (4 * ([100, 57, 58] : List UInt8).length + 8)
          ([100, 57, 58] : List UInt8).length [[100, 57], [58]] :=
  parseMetainfoFile_ends id [[100, 57], [58]] rfl (by decide)

end BitFS.Client
