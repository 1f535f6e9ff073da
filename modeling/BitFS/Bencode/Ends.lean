import BitFS.Bencode.Language

/-! # The reader ends

On every input the loops of the reader move ahead until they stop, read outside of the
buffer or fail an assertion, so that fuel in proportion to the input is enough. More fuel does
not change a result.
-/

namespace BitFS.Bencode

open MachineInt Memory Decimal Fuel

variable {buf : List UInt8}

/-! ## More fuel -/

def IterateMono (buf : List UInt8) (fuel : Nat) : Prop :=
  ∀ be sp, Approx .fuel (iterateToNextStringPos buf fuel be sp)
    (iterateToNextStringPos buf (fuel + 1) be sp)

def DictMono (buf : List UInt8) (fuel : Nat) : Prop :=
  ∀ iter, Approx .fuel (dictToEnd buf fuel iter) (dictToEnd buf (fuel + 1) iter)

def ListMono (buf : List UInt8) (fuel : Nat) : Prop :=
  ∀ iter, Approx .fuel (listToEnd buf fuel iter) (listToEnd buf (fuel + 1) iter)

def DictNextMono (buf : List UInt8) (fuel : Nat) : Prop :=
  ∀ be, Approx .fuel (bencodeDictGetNext buf fuel be) (bencodeDictGetNext buf (fuel + 1) be)

def ListNextMono (buf : List UInt8) (fuel : Nat) : Prop :=
  ∀ be, Approx .fuel (bencodeListGetNext buf fuel be) (bencodeListGetNext buf (fuel + 1) be)

theorem approx_ite {α : Type} {c : Prop} [Decidable c] {x x' y y' : Except Halt α}
    (hx : Approx .fuel x x') (hy : Approx .fuel y y') :
    Approx .fuel (if c then x else y) (if c then x' else y') := by
  split
  · exact hx
  · exact hy

theorem iterateMono_succ {fuel : Nat} (hdict : DictMono buf fuel) (hlist : ListMono buf fuel) :
    IterateMono buf (fuel + 1) := by
  intro be sp
  rw [iterateToNextStringPos, iterateToNextStringPos]
  apply Approx.bind (Approx.refl _)
  intro len
  apply Approx.bind (Approx.refl _)
  intro isDict
  apply approx_ite
  · apply Approx.bind (hdict _)
    intro iter
    exact Approx.refl _
  · apply Approx.bind (Approx.refl _)
    intro isList
    apply approx_ite
    · apply Approx.bind (hlist _)
      intro iter
      exact Approx.refl _
    · exact Approx.refl _

theorem dictMono_succ {fuel : Nat} (hnext : DictNextMono buf fuel) (hdict : DictMono buf fuel) :
    DictMono buf (fuel + 1) := by
  intro iter
  rw [dictToEnd, dictToEnd]
  apply Approx.bind (Approx.refl _)
  intro more
  apply approx_ite
  · apply Approx.bind (hnext iter)
    intro next
    obtain ⟨iter', item⟩ := next
    cases item with
    | none => exact Approx.refl _
    | some item => exact hdict iter'
  · exact Approx.refl _

theorem listMono_succ {fuel : Nat} (hnext : ListNextMono buf fuel) (hlist : ListMono buf fuel) :
    ListMono buf (fuel + 1) := by
  intro iter
  rw [listToEnd, listToEnd]
  apply Approx.bind (Approx.refl _)
  intro has
  obtain ⟨more, iter'⟩ := has
  cases more with
  | false => exact Approx.refl _
  | true =>
      apply Approx.bind (hnext iter')
      intro next
      obtain ⟨ret, iter''⟩ := next
      split
      · exact Approx.refl _
      · exact hlist _

theorem dictNextMono_succ {fuel : Nat} (hiter : IterateMono buf fuel) :
    DictNextMono buf (fuel + 1) := by
  intro be
  rw [bencodeDictGetNext, bencodeDictGetNext]
  apply Approx.bind (Approx.refl _)
  intro sp
  apply Approx.bind (Approx.refl _)
  intro c
  apply approx_ite (Approx.refl _)
  apply Approx.bind (Approx.refl _)
  intro c'
  apply approx_ite (Approx.refl _)
  apply Approx.bind (Approx.refl _)
  intro read
  cases read with
  | none => exact Approx.refl _
  | some read =>
      apply Approx.bind (Approx.refl _)
      intro len
      apply Approx.bind (hiter _ _)
      intro next
      exact Approx.refl _

theorem listNextMono_succ {fuel : Nat} (hiter : IterateMono buf fuel) :
    ListNextMono buf (fuel + 1) := by
  intro be
  rw [bencodeListGetNext, bencodeListGetNext]
  cases be.str with
  | none => exact Approx.refl _
  | some sp =>
      apply Approx.bind (Approx.refl _)
      intro c
      apply approx_ite (Approx.refl _)
      apply Approx.bind (Approx.refl _)
      intro c'
      apply approx_ite (Approx.refl _)
      apply Approx.bind (hiter _ _)
      intro next
      exact Approx.refl _

/-- No function of the reader changes a result when it has more fuel. -/
theorem mono (buf : List UInt8) (fuel : Nat) :
    IterateMono buf fuel ∧ DictMono buf fuel ∧ ListMono buf fuel ∧ DictNextMono buf fuel ∧
      ListNextMono buf fuel := by
  induction fuel with
  | zero =>
      refine ⟨?_, ?_, ?_, ?_, ?_⟩
      · intro be sp
        exact approx_out _
      · intro iter
        exact approx_out _
      · intro iter
        exact approx_out _
      · intro be
        exact approx_out _
      · intro be
        exact approx_out _
  | succ fuel ih =>
      obtain ⟨hiter, hdict, hlist, hdictNext, hlistNext⟩ := ih
      exact ⟨iterateMono_succ hdict hlist, dictMono_succ hdictNext hdict,
        listMono_succ hlistNext hlist, dictNextMono_succ hiter, listNextMono_succ hiter⟩

/-! ## What runs without fuel -/

theorem ends_bind {α β : Type} {x : Except Halt α} {f : α → Except Halt β} (hx : Ends .fuel x)
    (hf : ∀ a, Ends .fuel (f a)) : Ends .fuel (x >>= f) := hx.bind fun a _ => hf a

theorem ends_ite {α : Type} {c : Prop} [Decidable c] {x y : Except Halt α} (hx : Ends .fuel x)
    (hy : Ends .fuel y) : Ends .fuel (if c then x else y) := by
  split
  · exact hx
  · exact hy

theorem ends_assertion {α : Type} : Ends .fuel (.error .assertion : Except Halt α) :=
  ends_error (by decide)

theorem ends_peek (p : Nat) : Ends .fuel (peek buf p) := by
  unfold peek
  cases buf[p]? with
  | none => exact ends_error (by decide)
  | some c => exact ends_ok c

theorem ends_deref (p : Option Nat) : Ends .fuel (deref p) := by
  cases p with
  | none => exact ends_error (by decide)
  | some p => exact ends_ok p

theorem ends_readDigits (m : Nat) (bytes : List UInt8) (val : Int) (sp : Nat) :
    Ends .fuel (readDigits m bytes val sp) := by
  induction bytes generalizing val sp with
  | nil => exact ends_error (by decide)
  | cons c cs ih =>
      rw [readDigits]
      exact ends_ite (ih _ _) (ends_ok _)

theorem ends_readStringInt (sp : Nat) : Ends .fuel (readStringInt buf sp) := by
  apply ends_bind (ends_peek sp)
  intro c
  apply ends_bind (ends_peek _)
  intro c'
  apply ends_ite
  · exact ends_bind (ends_readDigits _ _ _ _) fun _ => ends_ok _
  · exact ends_ok _

theorem ends_readStringLen (sp : Nat) : Ends .fuel (readStringLen buf sp) := by
  apply ends_bind (ends_peek sp)
  intro c
  apply ends_ite
  · apply ends_bind (ends_readDigits _ _ _ _)
    intro read
    apply ends_bind (ends_peek _)
    intro c'
    exact ends_ite (ends_ok _) ends_assertion
  · exact ends_ok _

theorem ends_carryLength (be : BencodeT) (pos : Nat) : Ends .fuel (carryLength be pos) := by
  apply ends_bind (ends_deref _)
  intro sp
  exact ends_ite (ends_ok _) ends_assertion

theorem ends_isKind (c : UInt8) (be : BencodeT) : Ends .fuel (isKind buf c be) := by
  unfold isKind
  cases be.str with
  | none => exact ends_ok _
  | some sp => exact ends_bind (ends_peek sp) fun _ => ends_ok _

theorem ends_isString (be : BencodeT) : Ends .fuel (bencodeIsString buf be) := by
  unfold bencodeIsString
  cases be.str with
  | none => exact ends_assertion
  | some sp =>
      apply ends_bind (ends_peek sp)
      intro c
      apply ends_ite
      · apply ends_bind (ends_readDigits _ _ _ _)
        intro read
        exact ends_bind (ends_peek _) fun _ => ends_ok _
      · exact ends_ok _

theorem ends_intValue (be : BencodeT) : Ends .fuel (bencodeIntValue buf be) := by
  apply ends_bind (ends_deref _)
  intro sp
  apply ends_bind (ends_readStringInt _)
  intro read
  obtain ⟨val, fin⟩ := read
  cases fin with
  | none => exact ends_ok _
  | some fin =>
      apply ends_bind (ends_peek _)
      intro c
      exact ends_ite (ends_ok _) ends_assertion

theorem ends_stringValue (be : BencodeT) : Ends .fuel (bencodeStringValue buf be) := by
  apply ends_bind (ends_isString be)
  intro isStr
  apply ends_ite
  · apply ends_bind (ends_deref _)
    intro sp
    apply ends_bind (ends_readStringLen _)
    intro read
    cases read with
    | none => exact ends_assertion
    | some read => exact ends_ite ends_assertion (ends_ite (ends_ok _) (ends_ok _))
  · exact ends_assertion

theorem ends_dictHasNext (be : BencodeT) : Ends .fuel (bencodeDictHasNext buf be) := by
  unfold bencodeDictHasNext
  cases be.str with
  | none => exact ends_ok _
  | some sp =>
      apply ends_bind (ends_peek sp)
      intro c
      apply ends_ite (ends_ok _)
      apply ends_ite
      · apply ends_bind (ends_peek _)
        intro c'
        exact ends_ite (ends_ok _) (ends_ok _)
      · exact ends_ok _

theorem ends_listHasNext (be : BencodeT) : Ends .fuel (bencodeListHasNext buf be) := by
  apply ends_bind (ends_deref _)
  intro sp
  apply ends_bind (ends_peek sp)
  intro c
  apply ends_ite
  · apply ends_bind (ends_peek _)
    intro c'
    exact ends_ite (ends_ok _) (ends_ok _)
  · exact ends_ok _

/-! ## What moves ahead -/

theorem StringAt.lt {q str len : Nat} (h : StringAt buf q str len) : q < str := by
  obtain ⟨ds, -, rfl, -⟩ := h
  omega

/-- Over an item the reader moves ahead. -/
theorem Reads.lt {len : Int} {q r : Nat} (h : Reads buf .item len q r) : q < r := by
  cases h with
  | int hi hint =>
      obtain ⟨p, ds, hp, -, rfl⟩ := hint
      omega
  | str hstr hfits =>
      have := hstr.lt
      omega
  | emptyList hl he => omega
  | list hl he hitem hitems =>
      have := hitem.le
      have := hitems.le
      omega
  | dict hd hentries =>
      have := hentries.le
      unfold behind
      split <;> omega

/-- The next item of a list is at `q`: behind the start of the list, or right at the cursor. -/
structure ItemAt (buf : List UInt8) (start p q : Nat) : Prop where
  cursor : ∃ c, buf[p]? = some c ∧ c ≠ 101 ∧
    ((c = 108 ∧ p = start ∧ q = p + 1) ∨ (¬ (c = 108 ∧ p = start) ∧ q = p))
  item : ∃ d, buf[q]? = some d ∧ d ≠ 101

section ItemAt

variable {be be1 : BencodeT} {p q : Nat}

theorem ItemAt.le {start : Nat} (h : ItemAt buf start p q) : p ≤ q := by
  obtain ⟨c, -, -, hq⟩ := h.cursor
  omega

theorem ItemAt.lt_length {start : Nat} (h : ItemAt buf start p q) : q < buf.length := by
  obtain ⟨d, hd, -⟩ := h.item
  exact (List.getElem?_eq_some_iff.mp hd).1

theorem itemAt_of_listHasNext (hstr : be.str = some p)
    (h : bencodeListHasNext buf be = .ok (true, be1)) :
    be1 = be ∧ ∃ q, ItemAt buf be.start p q := by
  obtain ⟨c, hc, hcases⟩ := listHasNext_cases hstr h
  rcases hcases with ⟨-, -, -, hmore, -⟩ | ⟨rfl, hstart, hd, -, hbe⟩ | ⟨hinner, hmore, hbe⟩
  · cases hmore
  · exact ⟨hbe, p + 1, ⟨108, hc, by decide, Or.inl ⟨rfl, hstart, rfl⟩⟩, hd⟩
  · have hne : c ≠ 101 := bne_iff_ne.mp hmore.symm
    exact ⟨hbe, p, ⟨c, hc, hne, Or.inr ⟨hinner, rfl⟩⟩, c, hc, hne⟩

theorem ItemAt.listGetNext (h : ItemAt buf be.start p q) (hstr : be.str = some p) (fuel : Nat) :
    bencodeListGetNext buf (fuel + 1) be =
      (iterateToNextStringPos buf fuel be q >>= fun next => pure (next.elim
        (-1, { be with str := none }) fun next => (1, { be with str := some next }))) := by
  obtain ⟨c, hc, hne, hq⟩ := h.cursor
  obtain ⟨d, hd, hitem⟩ := h.item
  exact listGetNext_eq hstr hc hne hq hd hitem

end ItemAt

section Bound

variable {n : Nat}

def IterateEnds (buf : List UInt8) (n fuel : Nat) : Prop :=
  ∀ be p q, CursorAt n be p → p ≤ q → 4 * (n + 2 - q) + 1 ≤ fuel →
    Ends .fuel (iterateToNextStringPos buf fuel be q)

def DictEnds (buf : List UInt8) (n fuel : Nat) : Prop :=
  ∀ be p, CursorAt n be p → 4 * (n + 2 - p) ≤ fuel → 0 < fuel → Ends .fuel (dictToEnd buf fuel be)

/-- At its start a list has one position less to go. -/
def ListBound (buf : List UInt8) (n fuel : Nat) (be : BencodeT) (p : Nat) : Prop :=
  (be.start = p ∧ buf[p]? = some 108 ∧ 4 * (n + 2 - p) ≤ fuel) ∨
    (be.start < p ∧ 4 * (n + 2 - p) + 3 ≤ fuel)

theorem ListBound.item {fuel p q : Nat} {be : BencodeT} (h : ListBound buf n fuel be p)
    (hat : ItemAt buf be.start p q) (hq : q < n + 1) : 4 * (n + 2 - q) + 3 ≤ fuel := by
  obtain ⟨c, hc, -, hpos⟩ := hat.cursor
  rcases h with ⟨hstart, hl, hfuel⟩ | ⟨hlt, hfuel⟩
  · rw [hc] at hl
    have hl := Option.some.inj hl
    rcases hpos with ⟨-, -, rfl⟩ | ⟨hinner, -⟩
    · omega
    · exact absurd ⟨hl, hstart.symm⟩ hinner
  · rcases hpos with ⟨-, hstart, -⟩ | ⟨-, rfl⟩
    · omega
    · exact hfuel

def ListEnds (buf : List UInt8) (n fuel : Nat) : Prop :=
  ∀ be p, CursorAt n be p → ListBound buf n fuel be p → 0 < fuel →
    Ends .fuel (listToEnd buf fuel be)

theorem ends_dictGetNext {fuel p : Nat} {be : BencodeT} (hiter : IterateEnds buf n fuel)
    (h : CursorAt n be p) (hfuel : 4 * (n + 1 - p) + 1 ≤ fuel) :
    Ends .fuel (bencodeDictGetNext buf (fuel + 1) be) := by
  rw [bencodeDictGetNext, h.str, deref, ok_bind]
  apply ends_bind (ends_peek p)
  intro c
  apply ends_ite ends_assertion
  have hpos : p ≤ if c = 100 then p + 1 else p := by
    split <;> omega
  generalize (if c = 100 then p + 1 else p) = q at hpos ⊢
  apply ends_bind (ends_peek q)
  intro c'
  apply ends_ite (ends_ok _)
  apply (ends_readStringLen q).bind
  intro read hread
  cases read with
  | none => exact ends_assertion
  | some read =>
      obtain ⟨slen, str⟩ := read
      obtain ⟨len, rfl, hstr⟩ := stringAt_of_readStringLen hread
      have hlt := hstr.lt
      apply ends_bind (ends_carryLength _ _)
      intro carried
      apply ends_bind (hiter be p _ h (by omega) (by omega))
      intro next
      cases next with
      | none => exact ends_ok _
      | some next => exact ends_ok _

theorem dictEnds_succ (hin : Input buf n) {fuel : Nat} (hiter : ∀ m < fuel, IterateEnds buf n m)
    (hdict : DictEnds buf n fuel) : DictEnds buf n (fuel + 1) := by
  intro be p h hfuel hpos
  rw [dictToEnd]
  apply (ends_dictHasNext be).bind
  intro more hmore
  cases more with
  | false => exact ends_ok _
  | true =>
      obtain ⟨c, hc, hgo⟩ := (dictHasNext_true_iff hin h.str).mp hmore
      have hlt : p < n := hin.lt hc fun h0 => hgo (Or.inr (Or.inl h0))
      obtain ⟨m, rfl⟩ := Nat.exists_eq_add_one_of_ne_zero (show fuel ≠ 0 by omega)
      rw [if_pos rfl]
      apply (ends_dictGetNext (hiter m (Nat.lt_succ_self m)) h (by omega)).bind
      intro next hnext
      obtain ⟨be', item⟩ := next
      cases item with
      | none => exact ends_ok _
      | some item =>
          obtain ⟨q, str, len, r, hkey, hitem, rfl, -⟩ :=
            (reads_of_run hin (m + 1)).2.1 be p be' item h hmore hnext
          have hstr := hkey.lt
          have hle := hitem.le
          exact hdict _ r (h.move (by omega)) (by omega) (by omega)

theorem listEnds_succ (hin : Input buf n) {fuel : Nat} (hiter : ∀ m < fuel, IterateEnds buf n m)
    (hlist : ListEnds buf n fuel) : ListEnds buf n (fuel + 1) := by
  intro be p h hbound hpos
  rw [listToEnd]
  apply (ends_listHasNext be).bind
  intro has hhas
  obtain ⟨more, be1⟩ := has
  cases more with
  | false => exact ends_ok _
  | true =>
      obtain ⟨rfl, q, hat⟩ := itemAt_of_listHasNext h.str hhas
      have hpq := hat.le
      have hfits := hat.lt_length
      rw [hin.length] at hfits
      have hfuel := hbound.item hat hfits
      obtain ⟨m, rfl⟩ := Nat.exists_eq_add_one_of_ne_zero (show fuel ≠ 0 by omega)
      dsimp only
      rw [hat.listGetNext h.str]
      apply Ends.bind
      · apply ends_bind (hiter m (Nat.lt_succ_self m) be1 p q h hpq (by omega))
        intro next
        exact ends_ok _
      · intro next hnext
        obtain ⟨r, hr, hret⟩ := bind_eq_ok.mp hnext
        cases r with
        | none =>
            cases hret
            exact ends_ok _
        | some r =>
            cases hret
            have hitem := (reads_of_run hin m).1 be1 p q r h hpq hr
            have hlt := hitem.lt
            have hstart := h.start
            exact hlist _ r (h.move (by omega))
              (Or.inr ⟨show be1.start < r by omega, by omega⟩) (by omega)

theorem iterateEnds_succ (hin : Input buf n) {fuel : Nat} (hdict : DictEnds buf n fuel)
    (hlist : ListEnds buf n fuel) : IterateEnds buf n (fuel + 1) := by
  intro be p q h hpq hfuel
  rw [iterateToNextStringPos]
  apply (ends_carryLength be q).bind
  intro len hcarry
  apply (ends_isKind 100 _).bind
  intro isDict hisDict
  -- inside of the input the item has a cursor of its own
  have hcursor : ∀ {c : UInt8}, isKind buf c (bencodeInit q len) = .ok true → c ≠ 0 →
      buf[q]? = some c ∧ q < n ∧ CursorAt n (bencodeInit q len) q := by
    intro c hkind hne
    obtain ⟨d, hd, hdc⟩ := bind_eq_ok.mp (show (peek buf q >>= _) = Except.ok true from hkind)
    have hdc : d = c := by simpa using hdc
    subst hdc
    have hlt := hin.lt (peek_ok_iff.mp hd) hne
    obtain ⟨hcarry', hiter⟩ := h.carryLength_eq hin hpq hlt
    rw [hcarry] at hcarry'
    rw [← Except.ok.inj hcarry'] at hiter
    exact ⟨peek_ok_iff.mp hd, hlt, hiter⟩
  cases isDict with
  | true =>
      obtain ⟨-, hlt, hiter⟩ := hcursor hisDict (by decide)
      rw [if_pos rfl]
      apply ends_bind (hdict _ q hiter (by omega) (by omega))
      intro iter
      cases iter with
      | none => exact ends_ok _
      | some iter =>
          apply ends_bind (ends_deref _)
          intro sp
          apply ends_bind (ends_peek sp)
          intro c
          apply ends_ite
          · apply ends_bind (ends_peek _)
            intro c'
            exact ends_ite (ends_ok _) (ends_ok _)
          · exact ends_ok _
  | false =>
      rw [if_neg Bool.false_ne_true]
      apply (ends_isKind 108 _).bind
      intro isList hisList
      cases isList with
      | true =>
          obtain ⟨hl, hlt, hiter⟩ := hcursor hisList (by decide)
          rw [if_pos rfl]
          apply ends_bind (hlist _ q hiter (Or.inl ⟨rfl, hl, by omega⟩) (by omega))
          intro iter
          cases iter with
          | none => exact ends_ok _
          | some iter =>
              apply ends_bind (ends_deref _)
              intro sp
              exact ends_ok _
      | false =>
          rw [if_neg Bool.false_ne_true]
          apply ends_bind (ends_isString _)
          intro isStr
          apply ends_ite
          · apply ends_bind (ends_stringValue _)
            intro value
            cases value with
            | none => exact ends_ok _
            | some value => exact ends_ok _
          · apply ends_bind (ends_isKind 105 _)
            intro isInt
            apply ends_ite
            · apply ends_bind (ends_readStringInt _)
              intro read
              obtain ⟨val, fin⟩ := read
              cases fin with
              | none => exact ends_ok _
              | some fin =>
                  apply ends_bind (ends_peek _)
                  intro c
                  exact ends_ite (ends_ok _) ends_assertion
            · exact ends_ok _

theorem ends_of_bound (hin : Input buf n) (fuel : Nat) :
    IterateEnds buf n fuel ∧ DictEnds buf n fuel ∧ ListEnds buf n fuel := by
  induction fuel using Nat.strong_induction_on with
  | _ fuel ih =>
      cases fuel with
      | zero =>
          refine ⟨?_, ?_, ?_⟩
          · intro be p q h hpq hfuel
            exact absurd hfuel (Nat.not_succ_le_zero _)
          · intro be p h hfuel hpos
            exact absurd hpos (lt_irrefl 0)
          · intro be p h hbound hpos
            exact absurd hpos (lt_irrefl 0)
      | succ fuel =>
          obtain ⟨-, hdict, hlist⟩ := ih fuel (Nat.lt_succ_self fuel)
          have hiter : ∀ m < fuel, IterateEnds buf n m := fun m hm => (ih m (by omega)).1
          exact ⟨iterateEnds_succ hin hdict hlist, dictEnds_succ hin hiter hdict,
            listEnds_succ hin hiter hlist⟩

end Bound

end BitFS.Bencode
