import BitFS.Bencode.Ends

/-! # Validation

`bencode_validate` goes over the first item of a buffer and over every item inside of it
once more. It accepts exactly what the reader gets over, whatever stands behind it.
-/

namespace BitFS.Bencode

open MachineInt Memory Decimal Fuel

variable (buf : List UInt8)

/-- `bencode_list_get_next` with a `be_item`: what it stores there too, when it does. -/
def bencodeListGetNextItem (fuel : Nat) (be : BencodeT) :
    Except Halt (Int × BencodeT × Option BencodeT) :=
  match be.str with
  | none => pure (0, be, none)
  | some sp => do
    let c ← peek buf sp
    if c = 101 then pure (0, be, none)
    else
      let sp := if c = 108 ∧ be.start = sp then sp + 1 else sp
      if (← peek buf sp) = 101 then pure (0, { be with str := some sp }, none)
      else
        let item := bencodeInit sp (← carryLength be sp)
        match ← iterateToNextStringPos buf fuel be sp with
        | none => pure (-1, { be with str := none }, some item)
        | some next => pure (1, { be with str := some next }, some item)

mutual

/-- `__validate` -/
def validate (fuel : Nat) (ben : BencodeT) : Except Halt Int :=
  match fuel with
  | 0 => .error .fuel
  | fuel + 1 => do
    if ← bencodeIsDict buf ben then validateDict fuel ben
    else if ← bencodeIsList buf ben then validateList fuel ben
    else if ← bencodeIsString buf ben then
      match ← bencodeStringValue buf ben with
      | none => pure (-1)
      | some _ => pure 0
    else if ← bencodeIsInt buf ben then
      let (_, ret) ← bencodeIntValue buf ben
      pure (if ret then 0 else -1)
    else pure (-1)

/-- The loop over the entries of a dictionary. -/
def validateDict (fuel : Nat) (ben : BencodeT) : Except Halt Int :=
  match fuel with
  | 0 => .error .fuel
  | fuel + 1 => do
    if ← bencodeDictHasNext buf ben then
      match ← bencodeDictGetNext buf fuel ben with
      | (_, none) => pure (-1)
      | (ben, some item) =>
        let ret ← validate fuel item.value
        if ret = 0 then validateDict fuel ben else pure ret
    else pure 0

/-- The loop over the items of a list. -/
def validateList (fuel : Nat) (ben : BencodeT) : Except Halt Int :=
  match fuel with
  | 0 => .error .fuel
  | fuel + 1 => do
    match ← bencodeListHasNext buf ben with
    | (false, _) => pure 0
    | (true, ben) =>
      match ← bencodeListGetNextItem buf fuel ben with
      | (-1, _, _) => pure (-1)
      -- the item is not initialised where the call stores none
      | (_, _, none) => .error .memory
      | (_, ben, some item) =>
        let ret ← validate fuel item
        if ret = 0 then validateList fuel ben else pure ret

end

def bencodeValidate (fuel : Nat) (len : Int) : Except Halt Int :=
  if len = 0 then pure 0 else validate buf fuel (bencodeInit 0 len)

variable {buf}

/-! ## One step -/

/-- At an item the call stores it, and moves as it does without. -/
theorem ItemAt.listGetNextItem {be : BencodeT} {p q : Nat} (h : ItemAt buf be.start p q)
    (hstr : be.str = some p) (fuel : Nat) :
    bencodeListGetNextItem buf fuel be = (do
      let len ← carryLength be q
      let next ← iterateToNextStringPos buf fuel be q
      pure (next.elim (-1, { be with str := none }, some (bencodeInit q len))
        fun next => (1, { be with str := some next }, some (bencodeInit q len)))) := by
  obtain ⟨c, hc, hne, hq⟩ := h.cursor
  obtain ⟨d, hd, hitem⟩ := h.item
  rcases hq with ⟨rfl, hstart, rfl⟩ | ⟨hinner, rfl⟩
  · simp only [bencodeListGetNextItem, hstr, peek_of_getElem? hc, ok_bind, if_neg hne, true_and,
      if_pos hstart.symm, peek_of_getElem? hd, if_neg hitem]
    congr 1
    funext len
    congr 1
    funext next
    cases next <;> rfl
  · have hpos : ¬ (c = 108 ∧ be.start = q) := fun h => hinner ⟨h.1, h.2.symm⟩
    simp only [bencodeListGetNextItem, hstr, peek_of_getElem? hc, ok_bind, if_neg hne, if_neg hpos]
    congr 1
    funext len
    congr 1
    funext next
    cases next <;> rfl

/-- What the call returns at an item. -/
theorem ItemAt.getNextItem_cases {be be1 : BencodeT} {p q fuel : Nat} {ret : Int}
    {item : Option BencodeT} (h : ItemAt buf be.start p q) (hstr : be.str = some p)
    (hget : bencodeListGetNextItem buf fuel be = .ok (ret, be1, item)) :
    ret = -1 ∨ ∃ r len, carryLength be q = .ok len ∧
      iterateToNextStringPos buf fuel be q = .ok (some r) ∧ ret = 1 ∧
      be1 = { be with str := some r } ∧ item = some (bencodeInit q len) := by
  rw [h.listGetNextItem hstr] at hget
  obtain ⟨len, hcarry, hrest⟩ := bind_eq_ok.mp hget
  obtain ⟨next, hnext, hret⟩ := bind_eq_ok.mp hrest
  cases next with
  | none =>
      cases hret
      exact Or.inl rfl
  | some r =>
      cases hret
      exact Or.inr ⟨r, len, hcarry, hnext, rfl, rfl, rfl⟩

section Kinds

variable {n q fuel : Nat} {be : BencodeT}

theorem validate_dict (hstr : be.str = some q) (hd : buf[q]? = some 100) :
    validate buf (fuel + 1) be = validateDict buf fuel be := by
  have hdict : isKind buf 100 be = .ok true := isKind_spec hstr (peek_of_getElem? hd)
  rw [validate, bencodeIsDict, hdict, ok_bind, if_pos rfl]

theorem validate_list (hstr : be.str = some q) (hl : buf[q]? = some 108) :
    validate buf (fuel + 1) be = validateList buf fuel be := by
  have hdict : isKind buf 100 be = .ok false := isKind_spec hstr (peek_of_getElem? hl)
  have hlist : isKind buf 108 be = .ok true := isKind_spec hstr (peek_of_getElem? hl)
  rw [validate, bencodeIsDict, hdict, ok_bind, if_neg Bool.false_ne_true, bencodeIsList, hlist,
    ok_bind, if_pos rfl]

/-- Neither a dictionary nor a list. -/
theorem validate_leaf {c : UInt8} (hstr : be.str = some q) (hc : buf[q]? = some c) (hd : c ≠ 100)
    (hl : c ≠ 108) : validate buf (fuel + 1) be = (do
      if ← bencodeIsString buf be then
        match ← bencodeStringValue buf be with
        | none => pure (-1)
        | some _ => pure 0
      else if ← bencodeIsInt buf be then
        let (_, ret) ← bencodeIntValue buf be
        pure (if ret then 0 else -1)
      else pure (-1)) := by
  have hdict : isKind buf 100 be = .ok false := by
    rw [isKind_spec hstr (peek_of_getElem? hc), beq_eq_false_iff_ne.mpr hd]
  have hlist : isKind buf 108 be = .ok false := by
    rw [isKind_spec hstr (peek_of_getElem? hc), beq_eq_false_iff_ne.mpr hl]
  rw [validate, bencodeIsDict, hdict, ok_bind, if_neg Bool.false_ne_true, bencodeIsList, hlist,
    ok_bind, if_neg Bool.false_ne_true]

theorem intValue_of_integerAt {e : Nat} (hstr : be.str = some q) (hint : IntegerAt buf (q + 1) e) :
    ∃ val, bencodeIntValue buf be = .ok (val, true) := by
  obtain ⟨val, hread, he⟩ := readStringInt_of_integerAt hint
  refine ⟨val, ?_⟩
  simp only [bencodeIntValue, hstr, deref, ok_bind, hread, he, if_true, pure_eq_ok]

theorem integerAt_of_intValue {val : Int} (hstr : be.str = some q)
    (h : bencodeIntValue buf be = .ok (val, true)) : ∃ e, IntegerAt buf (q + 1) e := by
  rw [bencodeIntValue, hstr, deref, ok_bind] at h
  obtain ⟨⟨v, fin⟩, hread, hrest⟩ := bind_eq_ok.mp h
  cases fin with
  | none => cases hrest
  | some e =>
      obtain ⟨c, hc, hend⟩ := bind_eq_ok.mp hrest
      split at hend
      · rename_i he
        subst he
        exact ⟨e, integerAt_of_readStringInt hread hc⟩
      · cases hend

end Kinds

/-! ## What is accepted is in the language -/

section Back

variable {n : Nat}

/-- The entries of a dictionary that is accepted. -/
theorem entries_of_validateDict (hin : Input buf n) {fuel p : Nat} {be : BencodeT}
    (h : CursorAt n be p) (hrun : validateDict buf fuel be = .ok 0) :
    ∃ s, Reads buf (.entries be.start) be.len p s := by
  induction fuel generalizing be p with
  | zero => cases hrun
  | succ fuel ih =>
      rw [validateDict] at hrun
      obtain ⟨more, hmore, hrest⟩ := bind_eq_ok.mp hrun
      cases more with
      | false => exact ⟨p, .lastEntry ((dictHasNext_false_iff hin h.str).mp hmore)⟩
      | true =>
          rw [if_pos rfl] at hrest
          obtain ⟨⟨be1, item⟩, hget, hloop⟩ := bind_eq_ok.mp hrest
          cases item with
          | none => cases hloop
          | some item =>
              obtain ⟨q, str, len, r, hkey, hitem, rfl, -⟩ :=
                (reads_of_run hin fuel).2.1 be p be1 item h hmore hget
              have hpos := hkey.lt
              have hle := hitem.le
              obtain ⟨ret, -, hend⟩ := bind_eq_ok.mp hloop
              split at hend
              · obtain ⟨s, hentries⟩ := ih (h.move (show p ≤ r by omega)) hend
                exact ⟨s, .nextEntry hkey hitem hentries⟩
              · rename_i hret
                exact absurd (Except.ok.inj hend) hret

/-- The items of a list that is accepted, from its start or from a later item on. -/
theorem items_of_validateList (hin : Input buf n) {fuel p : Nat} {be : BencodeT}
    (h : CursorAt n be p) (hrun : validateList buf fuel be = .ok 0) :
    ∃ s, (be.start < p → Reads buf .items be.len p s) ∧
      (be.start = p → buf[p]? = some 108 → Reads buf .item be.len p (s + 1)) := by
  induction fuel generalizing be p with
  | zero => cases hrun
  | succ fuel ih =>
      rw [validateList] at hrun
      obtain ⟨⟨more, be1⟩, hhas, hrest⟩ := bind_eq_ok.mp hrun
      cases more with
      | false =>
          obtain ⟨c, hc, hcases⟩ := listHasNext_cases h.str hhas
          rcases hcases with ⟨rfl, hstart, he, -, -⟩ | ⟨-, -, -, hmore, -⟩ | ⟨hinner, hmore, -⟩
          · exact ⟨p + 1, fun hlt => absurd hstart (by omega), fun _ _ => .emptyList hc he⟩
          · cases hmore
          · have he : c = 101 := by simpa using hmore
            subst he
            refine ⟨p, fun _ => .lastItem hc, ?_⟩
            intro hstart hl
            rw [hc] at hl
            cases hl
      | true =>
          obtain ⟨rfl, q, hat⟩ := itemAt_of_listHasNext h.str hhas
          dsimp only at hrest
          obtain ⟨⟨ret, be2, item⟩, hget, hloop⟩ := bind_eq_ok.mp hrest
          rcases hat.getNextItem_cases h.str hget with rfl | ⟨r, len, -, hnext, rfl, rfl, rfl⟩
          · cases hloop
          · have hitem := (reads_of_run hin fuel).1 be1 p q r h hat.le hnext
            have hlt := hitem.lt
            have hle := hat.le
            have hstart := h.start
            obtain ⟨ret, -, hend⟩ := bind_eq_ok.mp hloop
            split at hend
            · obtain ⟨s, hitems, -⟩ := ih (h.move (show p ≤ r by omega)) hend
              have hrest := hitems (show be1.start < r by omega)
              obtain ⟨c, hc, hne, hq⟩ := hat.cursor
              obtain ⟨d, hd, hd'⟩ := hat.item
              have he : buf[q]? ≠ some 101 := by
                rw [hd]
                exact fun heq => hd' (Option.some.inj heq)
              refine ⟨s, ?_, ?_⟩
              · intro hinner
                obtain ⟨-, rfl⟩ : ¬ (c = 108 ∧ p = be1.start) ∧ q = p := by
                  rcases hq with ⟨-, hpos, -⟩ | hpos
                  · omega
                  · exact hpos
                rw [sub_self, sub_zero] at hitem
                exact .nextItem he hitem hrest
              · intro hfirst hl
                obtain rfl : q = p + 1 := by
                  rcases hq with ⟨-, -, hpos⟩ | ⟨hpos, -⟩
                  · exact hpos
                  · rw [hc] at hl
                    exact absurd ⟨Option.some.inj hl, hfirst.symm⟩ hpos
                have hlen : be1.len - (((p + 1 : Nat) : Int) - p) = be1.len - 1 := by
                  push_cast
                  omega
                rw [hlen] at hitem
                exact .list hl he hitem hrest
            · rename_i hret
              exact absurd (Except.ok.inj hend) hret

/-- An item that is accepted. -/
theorem reads_of_validate (hin : Input buf n) {fuel q : Nat} {be : BencodeT} (h : CursorAt n be q)
    (hstart : be.start = q) (hrun : validate buf fuel be = .ok 0) :
    ∃ r, Reads buf .item be.len q r := by
  cases fuel with
  | zero => cases hrun
  | succ fuel =>
      have hfirst : ∃ c, buf[q]? = some c := by
        rw [validate] at hrun
        obtain ⟨isDict, hdict, -⟩ := bind_eq_ok.mp hrun
        rw [bencodeIsDict, isKind, h.str] at hdict
        obtain ⟨c, hc, -⟩ := bind_eq_ok.mp hdict
        exact ⟨c, peek_ok_iff.mp hc⟩
      obtain ⟨c, hc⟩ := hfirst
      by_cases hd : c = 100
      · subst hd
        rw [validate_dict h.str hc] at hrun
        obtain ⟨s, hentries⟩ := entries_of_validateDict hin h hrun
        rw [hstart] at hentries
        exact ⟨behind buf s, .dict hc hentries⟩
      · by_cases hl : c = 108
        · subst hl
          rw [validate_list h.str hc] at hrun
          obtain ⟨s, -, hlist⟩ := items_of_validateList hin h hrun
          exact ⟨s + 1, hlist hstart hc⟩
        · rw [validate_leaf h.str hc hd hl] at hrun
          obtain ⟨isStr, hisStr, hrest⟩ := bind_eq_ok.mp hrun
          cases isStr with
          | true =>
              rw [if_pos rfl] at hrest
              obtain ⟨value, hvalue, hend⟩ := bind_eq_ok.mp hrest
              cases value with
              | none => cases hend
              | some value =>
                  obtain ⟨str, slen⟩ := value
                  obtain ⟨m, rfl, hat, hfits⟩ := stringAt_of_stringValue h.str hvalue
                  rw [hstart] at hfits
                  exact ⟨str + m, .str hat hfits⟩
          | false =>
              rw [if_neg Bool.false_ne_true] at hrest
              obtain ⟨isInt, hisInt, hint⟩ := bind_eq_ok.mp hrest
              cases isInt with
              | false => cases hint
              | true =>
                  obtain ⟨⟨val, ret⟩, hvalue, hend⟩ := bind_eq_ok.mp hint
                  rw [bencodeIsInt, isKind_spec h.str (peek_of_getElem? hc)] at hisInt
                  have hi : c = 105 := by simpa using hisInt
                  subst hi
                  cases ret with
                  | false => cases hend
                  | true =>
                      obtain ⟨e, he⟩ := integerAt_of_intValue h.str hvalue
                      exact ⟨e + 1, .int hc he⟩

end Back

/-! ## What is in the language is accepted -/

section Forward

variable {n : Nat}

/-- With enough fuel. -/
def ValidBy (buf : List UInt8) (n : Nat) : Part → Int → Nat → Prop
  | .item, len, q => ∀ be, CursorAt n be q → be.start = q → be.len = len →
      ∃ N, ∀ fuel ≥ N, validate buf fuel be = .ok 0
  | .items, len, p => ∀ be, CursorAt n be p → be.start < p → be.len = len →
      ∃ N, ∀ fuel ≥ N, validateList buf fuel be = .ok 0
  | .entries start, len, p => ∀ be, CursorAt n be p → be.start = start → be.len = len →
      ∃ N, ∀ fuel ≥ N, validateDict buf fuel be = .ok 0

theorem validBy_int {len : Int} {q e : Nat} (hi : buf[q]? = some 105)
    (hint : IntegerAt buf (q + 1) e) : ValidBy buf n .item len q := by
  intro be h hstart hlen
  obtain ⟨val, hvalue⟩ := intValue_of_integerAt h.str hint
  have hp := peek_of_getElem? hi
  have hstr : bencodeIsString buf be = .ok false := isString_other h.str hp rfl
  have hkind : isKind buf 105 be = .ok true := isKind_spec h.str hp
  apply enough_of_add 1
  intro fuel
  simp only [validate_leaf h.str hi (by decide) (by decide), hstr, ok_bind, bencodeIsInt, hkind,
    hvalue, Bool.false_eq_true, if_false, if_true, pure_eq_ok]

theorem validBy_str {len : Int} {q str m : Nat} (hstr : StringAt buf q str m)
    (hfits : (str + m : Int) ≤ q + len) : ValidBy buf n .item len q := by
  intro be h hstart hlen
  obtain ⟨d, hd, hdigit⟩ := hstr.head
  have hlt := hstr.lt
  have hvalue := stringValue_of_stringAt h.str (show 0 < be.len by omega) hstr (by omega)
  obtain ⟨ds, hds, -, -⟩ := hstr
  have hisStr := isString_of_digitsAt h.str hds
  apply enough_of_add 1
  intro fuel
  simp only [validate_leaf h.str hd (isDigit_ne hdigit rfl) (isDigit_ne hdigit rfl), hisStr,
    ok_bind, if_true, hvalue, pure_eq_ok]

theorem validBy_emptyList {len : Int} {q : Nat} (hl : buf[q]? = some 108)
    (he : buf[q + 1]? = some 101) : ValidBy buf n .item len q := by
  intro be h hstart hlen
  have hlast := listHasNext_empty h.str hstart.symm (peek_of_getElem? hl) (peek_of_getElem? he)
  apply enough_of_add 2
  intro fuel
  rw [validate_list h.str hl, validateList, hlast, ok_bind]
  rfl

/-- One item of a list that is accepted, and the loop over the rest. -/
theorem validateList_next {be : BencodeT} {p q r fuel : Nat} {len : Int}
    (hat : ItemAt buf be.start p q) (hstr : be.str = some p)
    (hhas : bencodeListHasNext buf be = .ok (true, be)) (hcarry : carryLength be q = .ok len)
    (hnext : iterateToNextStringPos buf fuel be q = .ok (some r))
    (hitem : validate buf fuel (bencodeInit q len) = .ok 0) :
    validateList buf (fuel + 1) be = validateList buf fuel { be with str := some r } := by
  have hget := hat.listGetNextItem hstr fuel
  rw [hcarry, ok_bind, hnext, ok_bind] at hget
  rw [validateList, hhas, ok_bind]
  dsimp only
  rw [hget, pure_eq_ok, ok_bind]
  change (validate buf fuel (bencodeInit q len) >>= fun ret =>
    if ret = 0 then validateList buf fuel { be with str := some r } else pure ret) = _
  rw [hitem, ok_bind, if_pos rfl]

theorem validBy_list (hin : Input buf n) {len : Int} {q r : Nat} (hl : buf[q]? = some 108)
    (hitem : Reads buf .item (len - 1) (q + 1) r) (ih : ValidBy buf n .item (len - 1) (q + 1))
    (ih' : ValidBy buf n .items len r) : ValidBy buf n .item len q := by
  intro be h hstart hlen
  have hlt := hitem.lt
  obtain ⟨d, hd, h0, hne⟩ := hitem.head rfl
  have hhas := listHasNext_start h.str hl hstart.symm hd hne
  have hat : ItemAt buf be.start q (q + 1) :=
    ⟨⟨108, hl, by decide, Or.inl ⟨rfl, hstart.symm, rfl⟩⟩, d, hd, hne⟩
  obtain ⟨hcarry, hiter⟩ := h.carryLength_eq hin (Nat.le_succ q) (hin.lt hd h0)
  have hcarried : be.len - (((q + 1 : Nat) : Int) - q) = len - 1 := by
    push_cast
    omega
  rw [hcarried] at hcarry hiter
  have hnext := readBy_of_reads hin hitem be q h (Nat.le_succ q) hcarried
  have hfirst := ih _ hiter rfl rfl
  have hrest := ih' _ (h.move (show q ≤ r by omega)) (show be.start < r by omega) hlen
  apply enough_add 2 (enough_and hnext (enough_and hfirst hrest))
  intro fuel hrun
  obtain ⟨hnext, hfirst, hrest⟩ := hrun
  rw [validate_list h.str hl, validateList_next hat h.str hhas hcarry hnext hfirst]
  exact hrest

theorem validBy_dict {len : Int} {q : Nat} (hd : buf[q]? = some 100)
    (ih : ValidBy buf n (.entries q) len q) : ValidBy buf n .item len q := by
  intro be h hstart hlen
  apply enough_add 1 (ih be h hstart hlen)
  intro fuel hloop
  rw [validate_dict h.str hd]
  exact hloop

theorem validBy_lastItem {len : Int} {p : Nat} (he : buf[p]? = some 101) :
    ValidBy buf n .items len p := by
  intro be h hstart hlen
  have hlast := listHasNext_end h.str (peek_of_getElem? he)
  apply enough_of_add 1
  intro fuel
  rw [validateList, hlast, ok_bind]
  rfl

theorem validBy_nextItem (hin : Input buf n) {len : Int} {p r : Nat}
    (hitem : Reads buf .item len p r) (ih : ValidBy buf n .item len p)
    (ih' : ValidBy buf n .items len r) : ValidBy buf n .items len p := by
  intro be h hstart hlen
  have hlt := hitem.lt
  obtain ⟨d, hd, h0, hne⟩ := hitem.head rfl
  have hhas := listHasNext_inner h.str hd (show p ≠ be.start by omega)
  rw [bne_iff_ne.mpr hne] at hhas
  have hinner : ¬ (d = 108 ∧ p = be.start) := fun hboth => absurd hboth.2 (by omega)
  have hat : ItemAt buf be.start p p := ⟨⟨d, hd, hne, Or.inr ⟨hinner, rfl⟩⟩, d, hd, hne⟩
  obtain ⟨hcarry, hiter⟩ := h.carryLength_eq hin le_rfl (hin.lt hd h0)
  have hcarried : be.len - ((p : Int) - p) = len := by omega
  rw [hcarried] at hcarry hiter
  have hnext := readBy_of_reads hin hitem be p h le_rfl hcarried
  have hfirst := ih _ hiter rfl rfl
  have hrest := ih' _ (h.move hlt.le) (show be.start < r by omega) hlen
  apply enough_add 1 (enough_and hnext (enough_and hfirst hrest))
  intro fuel hrun
  obtain ⟨hnext, hfirst, hrest⟩ := hrun
  rw [validateList_next hat h.str hhas hcarry hnext hfirst]
  exact hrest

theorem validBy_lastEntry (hin : Input buf n) {len : Int} {start p : Nat}
    (hstop : StopsAt buf (start + len) p) : ValidBy buf n (.entries start) len p := by
  intro be h hstart hlen
  have hlast : bencodeDictHasNext buf be = .ok false := by
    rw [dictHasNext_false_iff hin h.str, hstart, hlen]
    exact hstop
  apply enough_of_add 1
  intro fuel
  rw [validateDict, hlast, ok_bind, if_neg Bool.false_ne_true, pure_eq_ok]

theorem validBy_nextEntry (hin : Input buf n) {len : Int} {start p q str m r : Nat}
    (hkey : KeyAt buf (start + len) p q str m)
    (hitem : Reads buf .item (len - (((str + m : Nat) : Int) - p)) (str + m) r)
    (ih : ValidBy buf n .item (len - (((str + m : Nat) : Int) - p)) (str + m))
    (ih' : ValidBy buf n (.entries start) len r) : ValidBy buf n (.entries start) len p := by
  intro be h hstart hlen
  have hlt := hkey.lt
  have hle := hitem.le
  subst hstart hlen
  have hhas := (dictHasNext_true_iff hin h.str).mpr hkey.more
  obtain ⟨hvalue, -⟩ := h.value hin hkey hitem
  have hnext := readBy_of_reads hin hitem be p h (by omega) rfl
  have hfirst := ih _ hvalue rfl rfl
  have hrest := ih' _ (h.move (show p ≤ r by omega)) rfl rfl
  apply enough_add 2 (enough_and hnext (enough_and (enough_shift 1 hfirst) (enough_shift 1 hrest)))
  intro fuel hrun
  obtain ⟨hnext, hfirst, hrest⟩ := hrun
  rw [validateDict, hhas, ok_bind, if_pos rfl, dictGetNext_of_keyAt hin h hkey hnext, ok_bind]
  dsimp only
  rw [hfirst, ok_bind, if_pos rfl]
  exact hrest

theorem validBy_of_reads (hin : Input buf n) {part : Part} {len : Int} {q r : Nat}
    (h : Reads buf part len q r) : ValidBy buf n part len q := by
  induction h with
  | int hi hint => exact validBy_int hi hint
  | str hstr hfits => exact validBy_str hstr hfits
  | emptyList hl he => exact validBy_emptyList hl he
  | list hl he hitem hitems ih ih' => exact validBy_list hin hl hitem ih ih'
  | dict hd hentries ih => exact validBy_dict hd ih
  | lastItem he => exact validBy_lastItem he
  | nextItem he hitem hitems ih ih' => exact validBy_nextItem hin hitem ih ih'
  | lastEntry hstop => exact validBy_lastEntry hin hstop
  | nextEntry hkey hitem hentries ih ih' => exact validBy_nextEntry hin hkey hitem ih ih'

end Forward

/-! ## Enough fuel -/

def ValidateMono (buf : List UInt8) (fuel : Nat) : Prop :=
  (∀ ben, Approx .fuel (validate buf fuel ben) (validate buf (fuel + 1) ben)) ∧
    (∀ ben, Approx .fuel (validateDict buf fuel ben) (validateDict buf (fuel + 1) ben)) ∧
    ∀ ben, Approx .fuel (validateList buf fuel ben) (validateList buf (fuel + 1) ben)

theorem approx_getNextItem (buf : List UInt8) (fuel : Nat) (be : BencodeT) :
    Approx .fuel (bencodeListGetNextItem buf fuel be)
      (bencodeListGetNextItem buf (fuel + 1) be) := by
  unfold bencodeListGetNextItem
  cases be.str with
  | none => exact Approx.refl _
  | some sp =>
      apply Approx.bind (Approx.refl _)
      intro c
      apply approx_ite (Approx.refl _)
      apply Approx.bind (Approx.refl _)
      intro c'
      apply approx_ite (Approx.refl _)
      apply Approx.bind (Approx.refl _)
      intro len
      apply Approx.bind ((mono buf fuel).1 _ _)
      intro next
      exact Approx.refl _

theorem validateMono (buf : List UInt8) (fuel : Nat) : ValidateMono buf fuel := by
  induction fuel with
  | zero =>
      refine ⟨?_, ?_, ?_⟩
      · intro ben
        exact approx_out _
      · intro ben
        exact approx_out _
      · intro ben
        exact approx_out _
  | succ fuel ih =>
      obtain ⟨hval, hdict, hlist⟩ := ih
      refine ⟨?_, ?_, ?_⟩
      · intro ben
        rw [validate, validate]
        apply Approx.bind (Approx.refl _)
        intro isDict
        apply approx_ite (hdict ben)
        apply Approx.bind (Approx.refl _)
        intro isList
        exact approx_ite (hlist ben) (Approx.refl _)
      · intro ben
        rw [validateDict, validateDict]
        apply Approx.bind (Approx.refl _)
        intro more
        apply approx_ite _ (Approx.refl _)
        apply Approx.bind ((mono buf fuel).2.2.2.1 ben)
        intro next
        obtain ⟨ben', item⟩ := next
        cases item with
        | none => exact Approx.refl _
        | some item =>
            apply Approx.bind (hval _)
            intro ret
            exact approx_ite (hdict ben') (Approx.refl _)
      · intro ben
        rw [validateList, validateList]
        apply Approx.bind (Approx.refl _)
        intro has
        obtain ⟨more, ben'⟩ := has
        cases more with
        | false => exact Approx.refl _
        | true =>
            apply Approx.bind (approx_getNextItem buf fuel ben')
            intro next
            obtain ⟨ret, ben'', item⟩ := next
            split
            · exact Approx.refl _
            · exact Approx.refl _
            · apply Approx.bind (hval _)
              intro ret
              exact approx_ite (hlist _) (Approx.refl _)

section Bound

variable {n : Nat}

structure ValidateEnds (buf : List UInt8) (n fuel : Nat) : Prop where
  item : ∀ be q, CursorAt n be q → be.start = q → 4 * (n + 2 - q) + 1 ≤ fuel →
    Ends .fuel (validate buf fuel be)
  dict : ∀ be p, CursorAt n be p → 4 * (n + 2 - p) ≤ fuel → 0 < fuel →
    Ends .fuel (validateDict buf fuel be)
  list : ∀ be p, CursorAt n be p → ListBound buf n fuel be p → 0 < fuel →
    Ends .fuel (validateList buf fuel be)

theorem ends_validate (hin : Input buf n) {fuel q : Nat} {be : BencodeT}
    (ih : ValidateEnds buf n fuel) (h : CursorAt n be q) (hstart : be.start = q)
    (hfuel : 4 * (n + 2 - q) + 1 ≤ fuel + 1) : Ends .fuel (validate buf (fuel + 1) be) := by
  cases hc : buf[q]? with
  | none =>
      have hpeek : peek buf q = .error .memory := by
        simp only [peek, hc]
      have hdict : bencodeIsDict buf be = .error .memory := by
        rw [bencodeIsDict, isKind, h.str]
        dsimp only
        rw [hpeek, error_bind]
      rw [validate, hdict, error_bind]
      exact ends_error (by decide)
  | some c =>
      by_cases hd : c = 100
      · subst hd
        have hlt := hin.lt hc (by decide)
        rw [validate_dict h.str hc]
        exact ih.dict be q h (by omega) (by omega)
      · by_cases hl : c = 108
        · subst hl
          have hlt := hin.lt hc (by decide)
          rw [validate_list h.str hc]
          exact ih.list be q h (Or.inl ⟨hstart, hc, by omega⟩) (by omega)
        · rw [validate_leaf h.str hc hd hl]
          apply ends_bind (ends_isString _)
          intro isStr
          apply ends_ite
          · apply ends_bind (ends_stringValue _)
            intro value
            cases value with
            | none => exact ends_ok _
            | some value => exact ends_ok _
          · apply ends_bind (ends_isKind 105 _)
            intro isInt
            apply ends_ite
            · exact ends_bind (ends_intValue _) fun _ => ends_ok _
            · exact ends_ok _

theorem ends_validateDict (hin : Input buf n) {fuel p : Nat} {be : BencodeT}
    (ih : ValidateEnds buf n fuel) (h : CursorAt n be p) (hfuel : 4 * (n + 2 - p) ≤ fuel + 1) :
    Ends .fuel (validateDict buf (fuel + 1) be) := by
  rw [validateDict]
  apply (ends_dictHasNext be).bind
  intro more hmore
  cases more with
  | false => exact ends_ok _
  | true =>
      obtain ⟨c, hc, hgo⟩ := (dictHasNext_true_iff hin h.str).mp hmore
      have hlt : p < n := hin.lt hc fun h0 => hgo (Or.inr (Or.inl h0))
      obtain ⟨m, rfl⟩ := Nat.exists_eq_add_one_of_ne_zero (show fuel ≠ 0 by omega)
      rw [if_pos rfl]
      apply (ends_dictGetNext (ends_of_bound hin m).1 h (by omega)).bind
      intro next hnext
      obtain ⟨be', item⟩ := next
      cases item with
      | none => exact ends_ok _
      | some item =>
          obtain ⟨q, str, len, r, hkey, hitem, rfl, rfl⟩ :=
            (reads_of_run hin (m + 1)).2.1 be p be' item h hmore hnext
          have hstr := hkey.lt
          have hle := hitem.le
          obtain ⟨hvalue, -⟩ := h.value hin hkey hitem
          apply ends_bind (ih.item _ _ hvalue rfl (by omega))
          intro ret
          exact ends_ite (ih.dict _ r (h.move (by omega)) (by omega) (by omega)) (ends_ok _)

theorem ends_validateList (hin : Input buf n) {fuel p : Nat} {be : BencodeT}
    (ih : ValidateEnds buf n fuel) (h : CursorAt n be p)
    (hbound : ListBound buf n (fuel + 1) be p) :
    Ends .fuel (validateList buf (fuel + 1) be) := by
  rw [validateList]
  apply (ends_listHasNext be).bind
  intro has hhas
  obtain ⟨more, be1⟩ := has
  cases more with
  | false => exact ends_ok _
  | true =>
      obtain ⟨rfl, q, hat⟩ := itemAt_of_listHasNext h.str hhas
      have hpq := hat.le
      have hfits := hat.lt_length
      rw [hin.length] at hfits
      have hfuel := hbound.item hat hfits
      dsimp only
      apply Ends.bind
      · rw [hat.listGetNextItem h.str]
        apply ends_bind (ends_carryLength _ _)
        intro len
        apply ends_bind ((ends_of_bound hin fuel).1 be1 p q h hpq (by omega))
        intro next
        exact ends_ok _
      · intro next hnext
        obtain ⟨ret, be2, item⟩ := next
        rcases hat.getNextItem_cases h.str hnext with rfl | ⟨r, len, hcarry, hr, rfl, rfl, rfl⟩
        · exact ends_ok _
        · have hitem := (reads_of_run hin fuel).1 be1 p q r h hpq hr
          have hlt := hitem.lt
          have hstart := h.start
          obtain ⟨hlt', -⟩ := iterate_lt hin hr
          obtain ⟨hcarry', hiter⟩ := h.carryLength_eq hin hpq hlt'
          rw [hcarry] at hcarry'
          rw [← Except.ok.inj hcarry'] at hiter
          apply ends_bind (ih.item _ q hiter rfl (by omega))
          intro ret
          have hbound' : ListBound buf n fuel { be1 with str := some r } r :=
            Or.inr ⟨show be1.start < r by omega, by omega⟩
          exact ends_ite (ih.list _ r (h.move (by omega)) hbound' (by omega)) (ends_ok _)

theorem validateEnds (hin : Input buf n) (fuel : Nat) : ValidateEnds buf n fuel := by
  induction fuel with
  | zero =>
      refine ⟨?_, ?_, ?_⟩
      · intro be q h hstart hfuel
        exact absurd hfuel (Nat.not_succ_le_zero _)
      · intro be p h hfuel hpos
        exact absurd hpos (lt_irrefl 0)
      · intro be p h hbound hpos
        exact absurd hpos (lt_irrefl 0)
  | succ fuel ih =>
      refine ⟨?_, ?_, ?_⟩
      · intro be q h hstart hfuel
        exact ends_validate hin ih h hstart hfuel
      · intro be p h hfuel hpos
        exact ends_validateDict hin ih h hfuel
      · intro be p h hbound hpos
        exact ends_validateList hin ih h hbound

end Bound

/-! ## Validation -/

section Main

variable {n : Nat}

/-- Whatever the input is, validation ends. -/
theorem bencodeValidate_ends (hin : Input buf n) {fuel : Nat} (hfuel : 4 * n + 9 ≤ fuel) :
    bencodeValidate buf fuel n ≠ .error .fuel := by
  unfold bencodeValidate
  apply ends_ite (ends_ok _)
  exact (validateEnds hin fuel).item _ 0 (cursorAt_init n) rfl (by omega)

theorem bencodeValidate_of_reads (hin : Input buf n) {fuel r : Nat} (hfuel : 4 * n + 9 ≤ fuel)
    (h : Reads buf .item n 0 r) : bencodeValidate buf fuel n = .ok 0 := by
  have hends := (validateEnds hin fuel).item _ 0 (cursorAt_init n) rfl (by omega)
  unfold bencodeValidate
  split
  · rfl
  · exact eq_of_enough (fun fuel => (validateMono buf fuel).1 _)
      (validBy_of_reads hin h _ (cursorAt_init n) rfl rfl) hends

/-- Validation accepts what the reader gets over, and nothing else. -/
theorem bencodeValidate_iff (hin : Input buf n) {fuel : Nat} (hfuel : 4 * n + 9 ≤ fuel) :
    bencodeValidate buf fuel n = .ok 0 ↔ n = 0 ∨ ∃ r, Reads buf .item n 0 r := by
  constructor
  · intro hrun
    by_cases hn : n = 0
    · exact Or.inl hn
    · have hn' : ¬ (n : Int) = 0 := by omega
      unfold bencodeValidate at hrun
      rw [if_neg hn'] at hrun
      exact Or.inr (reads_of_validate hin (cursorAt_init n) rfl hrun)
  · intro h
    rcases h with rfl | ⟨r, hread⟩
    · exact if_pos rfl
    · exact bencodeValidate_of_reads hin hfuel hread

/-- `li-5e1:ae` -/
def integerAndString : List UInt8 := [108, 105, 45, 53, 101, 49, 58, 97, 101, 0]

theorem integerAndString_ends :
    bencodeValidate integerAndString 45 (9 : Nat) ≠ .error .fuel :=
  bencodeValidate_ends ⟨rfl, rfl, by decide⟩ (by decide)

theorem integerAndString_iff : bencodeValidate integerAndString 45 (9 : Nat) = .ok 0 ↔
    9 = 0 ∨ ∃ r, Reads integerAndString .item (9 : Nat) 0 r :=
  bencodeValidate_iff ⟨rfl, rfl, by decide⟩ (by decide)

/-- The reader gets over a value that is encoded in the input. -/
theorem reads_encode (hin : Input buf n) (v : Value) {p : Nat} (hv : Holds buf p (encode v))
    (hend : p + (encode v).length ≤ n) {be : BencodeT} (h : CursorAt n be p) :
    Reads buf .item be.len p (p + (encode v).length) := by
  have hrun := iterate_spec hin.fits v le_rfl h le_rfl hv hend
  have hread := (reads_of_run hin _).1 be p p _ h le_rfl hrun
  rwa [sub_self, sub_zero] at hread

section Encoded

variable (v : Value) (rest : List UInt8)

theorem input_encode (hlen : (encode v ++ rest).length ≤ 2147483647) :
    Input (encode v ++ rest ++ [0]) (encode v ++ rest).length :=
  ⟨by rw [List.length_append, List.length_singleton],
    by rw [List.getElem?_append_right le_rfl, Nat.sub_self]; rfl, hlen⟩

theorem holds_encode : Holds (encode v ++ rest ++ [0]) 0 (encode v) := by
  have hmid := holds_middle [] (encode v) (rest ++ [0])
  rwa [List.nil_append, ← List.append_assoc] at hmid

theorem encode_le : 0 + (encode v).length ≤ (encode v ++ rest).length := by
  rw [List.length_append]
  omega

/-- Every encoded value is accepted, whatever follows. -/
theorem bencodeValidate_encode (hlen : (encode v ++ rest).length ≤ 2147483647) {fuel : Nat}
    (hfuel : 4 * (encode v ++ rest).length + 9 ≤ fuel) :
    bencodeValidate (encode v ++ rest ++ [0]) fuel (encode v ++ rest).length = .ok 0 :=
  bencodeValidate_of_reads (input_encode v rest hlen) hfuel
    (reads_encode (input_encode v rest hlen) v (holds_encode v rest) (encode_le v rest)
      (cursorAt_init _))

end Encoded

/-- A list in a dictionary, with other bytes behind. -/
theorem nested_accepted :
    bencodeValidate (encode (.dict [([97], .list [.int (-5), .str []])]) ++ [120] ++ [0]) 80
      (encode (.dict [([97], .list [.int (-5), .str []])]) ++ [120]).length = .ok 0 := by
  apply bencodeValidate_encode
  · simp [encode, encodeDict, encodeList, encodeStr, decimal, digits]
  · simp [encode, encodeDict, encodeList, encodeStr, decimal, digits]

end Main

end BitFS.Bencode
