import TreeCorpus.Proofs.Number.ReadBack
import TreeCorpus.Toml.Scalar
import TreeCorpus.Toml.Writer

/-!
# Numbers that are written are read

No date or time starts with the text of a number (`skipMoment?_eq_none`), so its sign, its digits
and its fraction are taken one after the other up to what ends the value (`takeDecimal_chars`). An
integer that is written fits (`takeNumeric_integerText`), and a float is read as the number that it
is the text of (`takeNumeric_floatText`).
-/

namespace TreeCorpus.Toml

open Number
open Json (Parts)

variable {w ds cs rest : List Char}

/-- What may follow a value: nothing, the end of its line, or the end of an item. -/
def EndsValue (rest : List Char) : Prop := ∀ c ∈ rest.head?, c = '\n' ∨ c = ',' ∨ c = ']'

theorem endsValue_cons {c : Char} (h : c = '\n' ∨ c = ',' ∨ c = ']') (rest : List Char) :
    EndsValue (c :: rest) := by
  intro d hd
  obtain rfl := Option.some.inj hd
  exact h

/-! ## Neither a date nor a time -/

/-- The character after a field of digits is one of the text or the one after it. -/
theorem skipChar?_of_takeField {width low high n : Nat} {sep : Char} (hw : sep ∉ w)
    (hrest : EndsValue rest) (hsep : sep = '-' ∨ sep = ':')
    (h : takeField width low high (w ++ rest) = some (n, cs)) : skipChar? sep cs = none := by
  unfold takeField at h
  dsimp only at h
  split at h
  · rename_i hfield
    obtain ⟨hlength, hdigits, -⟩ := hfield
    obtain ⟨-, rfl⟩ := Prod.mk.inj (Option.some.inj h)
    have hdrop : ∀ c ∈ ((w ++ rest).drop width).head?, c ≠ sep := by
      rcases Nat.lt_or_ge w.length width with hlt | hge
      · -- the field goes on after the text, where no digit is
        rw [List.take_append, List.all_append, Bool.and_eq_true, List.all_eq_true,
          List.all_eq_true] at hdigits
        rw [List.take_append, List.length_append, List.length_take, List.length_take] at hlength
        cases rest with
        | nil => simp at hlength; omega
        | cons d rest =>
          have hd := hdigits.2 d (by
            obtain ⟨k, hk⟩ : ∃ k, width - w.length = k + 1 := ⟨width - w.length - 1, by omega⟩
            rw [hk]
            exact List.mem_cons_self)
          rcases hrest d rfl with rfl | rfl | rfl <;> exact absurd hd (by decide)
      · rw [List.drop_append_of_le_length hge]
        intro c hc
        cases hdropped : w.drop width with
        | nil =>
          rw [hdropped] at hc
          rcases hrest c hc with rfl | rfl | rfl <;> rcases hsep with rfl | rfl <;> decide
        | cons d ds =>
          rw [hdropped] at hc
          obtain rfl := Option.some.inj hc
          have hmem : d ∈ w := List.mem_of_mem_drop (hdropped ▸ List.mem_cons_self)
          exact fun heq => hw (heq ▸ hmem)
    cases hcs : (w ++ rest).drop width with
    | nil => rfl
    | cons c cs =>
      rw [hcs] at hdrop
      exact if_neg (hdrop c rfl)
  · exact absurd h (by simp)

/-- A text without the marks of dates and times starts neither. -/
theorem skipMoment?_eq_none (hw : '-' ∉ w ∧ ':' ∉ w) (hrest : EndsValue rest) :
    skipMoment? (w ++ rest) = none := by
  have hdate : skipDate? (w ++ rest) = none := by
    unfold skipDate?
    cases h : takeField 4 0 9999 (w ++ rest) with
    | none => rfl
    | some r =>
      have hskip := skipChar?_of_takeField hw.1 hrest (.inl rfl) h
      simp [hskip]
  have htime : skipTime? (w ++ rest) = none := by
    unfold skipTime?
    cases h : takeField 2 0 23 (w ++ rest) with
    | none => rfl
    | some r =>
      have hskip := skipChar?_of_takeField hw.2 hrest (.inr rfl) h
      simp [hskip]
  unfold skipMoment?
  rw [hdate]
  exact htime

theorem skipMoment?_minus (cs : List Char) : skipMoment? ('-' :: cs) = none := by
  have hfield (width low high : Nat) :
      takeField (width + 1) low high ('-' :: cs) = none := by
    unfold takeField
    have hdigit : Char.isDigit '-' = false := by decide
    simp [hdigit]
  unfold skipMoment? skipDate? skipTime?
  rw [hfield, hfield]
  rfl

/-- What is no date and no time and has no mark of a base is a decimal number. -/
theorem takeNumeric_eq (hw : ∀ c ∈ ['-', ':', 'x', 'o', 'b'], c ∉ w) (hrest : EndsValue rest)
    (negative : Bool) :
    takeNumeric ((if negative then ['-'] else []) ++ (w ++ rest)) =
      takeDecimal ((if negative then ['-'] else []) ++ (w ++ rest)) := by
  cases negative with
  | true =>
    have hmoment := skipMoment?_minus (w ++ rest)
    simp [takeNumeric, hmoment]
  | false =>
    have hmoment : skipMoment? (w ++ rest) = none :=
      skipMoment?_eq_none ⟨hw '-' (by decide), hw ':' (by decide)⟩ hrest
    have hmark : ∀ c ∈ ['x', 'o', 'b'], ∀ cs, w ++ rest ≠ '0' :: c :: cs := by
      intro c hc cs heq
      rcases w with _ | ⟨d, _ | ⟨e, w⟩⟩
      · rcases hrest '0' (by rw [show rest = _ from heq]; rfl) with h | h | h <;>
          exact absurd h (by decide)
      · obtain ⟨-, hcs⟩ := List.cons.inj heq
        rcases hrest c (by rw [show rest = _ from hcs]; rfl) with rfl | rfl | rfl <;>
          exact absurd hc (by decide)
      · obtain ⟨-, hcs⟩ := List.cons.inj heq
        obtain ⟨rfl, -⟩ := List.cons.inj hcs
        have hmem : e ∈ ['-', ':', 'x', 'o', 'b'] := by
          simp only [List.mem_cons, List.not_mem_nil, or_false] at hc ⊢
          exact .inr (.inr hc)
        exact hw e hmem (by simp)
    show takeNumeric (w ++ rest) = takeDecimal (w ++ rest)
    unfold takeNumeric
    rw [hmoment]
    dsimp only
    split
    · rename_i heq
      exact absurd heq (hmark 'x' (by decide) _)
    · rename_i heq
      exact absurd heq (hmark 'o' (by decide) _)
    · rename_i heq
      exact absurd heq (hmark 'b' (by decide) _)
    · rfl

/-! ## Decimal numbers -/

/-- After a digit string neither a digit nor an underscore follows. -/
theorem takeGrouped_append (hrest : ∀ c ∈ rest.head?, c.isDigit = false ∧ c ≠ '_') :
    ∀ (ds acc : List Char), (∀ c ∈ ds, c.isDigit = true) → acc ≠ [] ∨ ds ≠ [] →
      takeGrouped Char.isDigit acc (ds ++ rest) = some (acc.reverse ++ ds, rest)
  | [], acc, _, hne => by
    have hacc : acc ≠ [] := hne.resolve_right fun h => h rfl
    cases rest with
    | nil => simp [takeGrouped, hacc]
    | cons c rest =>
      obtain ⟨hdigit, hc⟩ := hrest c rfl
      simp [takeGrouped, hdigit, hacc, hc]
  | d :: ds, acc, hds, _ => by
    have hd := hds d List.mem_cons_self
    have hne : d ≠ '_' := by
      rintro rfl
      exact absurd hd (by decide)
    have ih := takeGrouped_append hrest ds (d :: acc)
      (fun c hc => hds c (List.mem_cons_of_mem d hc)) (.inl (List.cons_ne_nil d acc))
    rw [List.reverse_cons, List.append_assoc, List.singleton_append] at ih
    rw [← ih]
    simp [takeGrouped, hd, hne]

theorem EndsValue.noGrouped (h : EndsValue rest) :
    ∀ c ∈ rest.head?, c.isDigit = false ∧ c ≠ '_' := by
  intro c hc
  rcases h c hc with rfl | rfl | rfl <;> decide

theorem EndsValue.noPart (h : EndsValue rest) :
    ∀ c ∈ rest.head?, c ≠ '.' ∧ c ≠ 'e' ∧ c ≠ 'E' := by
  intro c hc
  rcases h c hc with rfl | rfl | rfl <;> decide

section Parts

variable {p : Parts}

theorem takeSign_chars (h : p.Valid) (hexponent : p.exponent = none) (rest : List Char) :
    takeSign (p.chars ++ rest) = (p.signChars, p.whole ++ (p.fractionChars ++ rest)) := by
  obtain ⟨d, ds, hwhole, hminus, hplus⟩ := h.exists_whole_cons
  have hnone : p.exponentChars = [] := by
    unfold Parts.exponentChars
    rw [hexponent]
  unfold Parts.chars Parts.signChars
  rw [hnone, hwhole]
  cases p.negative <;> simp [takeSign, hminus, hplus]

theorem takeSpecial_whole (h : p.Valid) (negative : Bool) (rest : List Char) :
    takeSpecial negative (p.whole ++ rest) = none := by
  obtain ⟨d, ds, hwhole⟩ := List.exists_cons_of_ne_nil h.whole_ne_nil
  have hd := h.whole_digits d (by rw [hwhole]; exact List.mem_cons_self)
  have hletters : d ≠ 'i' ∧ d ≠ 'n' := by
    constructor <;>
    · rintro rfl
      exact absurd hd (by decide)
  simp [hwhole, takeSpecial, hletters]

theorem takeWhole_chars (h : p.Valid)
    (hrest : ∀ c ∈ rest.head?, c.isDigit = false ∧ c ≠ '_') :
    takeWhole (p.whole ++ rest) = some (p.whole, rest) := by
  have hgrouped := takeGrouped_append hrest p.whole [] h.whole_digits (.inr h.whole_ne_nil)
  obtain ⟨d, ds, hwhole⟩ := List.exists_cons_of_ne_nil h.whole_ne_nil
  by_cases hd : d = '0'
  · have hzero : p.whole = ['0'] := h.whole_head (by rw [hwhole, hd]; rfl)
    rw [hzero]
    rfl
  · rw [hwhole] at hgrouped ⊢
    simpa [takeWhole, hd] using hgrouped

theorem takeFraction_chars (h : p.Valid) (hrest : EndsValue rest) :
    takeFraction (p.fractionChars ++ rest) = some (p.fractionChars, rest) := by
  unfold Parts.fractionChars
  split
  · cases rest with
    | nil => rfl
    | cons c rest =>
      have hc := (hrest.noPart c rfl).1
      simp [takeFraction, hc]
  · rename_i hne
    have hgrouped := takeGrouped_append hrest.noGrouped p.fraction [] h.fraction_digits (.inr hne)
    simp [takeFraction, hgrouped]

theorem takeExponent_eq (hrest : EndsValue rest) : takeExponent rest = some ([], rest) := by
  cases rest with
  | nil => rfl
  | cons c rest =>
    obtain ⟨-, hsmall, hbig⟩ := hrest.noPart c rfl
    simp [takeExponent, hsmall, hbig]

/-- A number with valid parts and no exponent is read up to its end: without a fraction it is an
integer. -/
theorem takeDecimal_chars (h : p.Valid) (hexponent : p.exponent = none) (hrest : EndsValue rest) :
    takeDecimal (p.chars ++ rest) =
      (if p.fraction = [] then integer? p.negative (ofDigits p.whole) else float? p.chars).map
        (·, rest) := by
  have hnone : p.exponentChars = [] := by
    unfold Parts.exponentChars
    rw [hexponent]
  have hpoint : ∀ c ∈ (p.fractionChars ++ rest).head?, c.isDigit = false ∧ c ≠ '_' := by
    unfold Parts.fractionChars
    split
    · exact hrest.noGrouped
    · intro c hc
      obtain rfl : '.' = c := Option.some.inj hc
      decide
  have hnegative : decide (p.signChars = ['-']) = p.negative := by
    unfold Parts.signChars
    cases p.negative <;> decide
  have hfraction : p.fractionChars = [] ↔ p.fraction = [] := by
    unfold Parts.fractionChars
    split <;> simp_all
  unfold takeDecimal
  simp only [takeSign_chars h hexponent, takeSpecial_whole h, takeWhole_chars h hpoint,
    takeFraction_chars h hrest, takeExponent_eq hrest, hnegative, hfraction, Option.bind_eq_bind,
    Option.bind_some, and_true, List.append_nil]
  unfold Parts.chars
  rw [hnone, List.append_nil, List.append_assoc]
  split
  · cases integer? p.negative (ofDigits p.whole) <;> rfl
  · cases float? (p.signChars ++ (p.whole ++ p.fractionChars)) <;> rfl

end Parts

/-! ## Integers -/

/-- The parts of an integer. -/
def integerParts (n : Int) : Parts := ⟨decide (n < 0), Nat.toDigits 10 n.natAbs, [], none⟩

theorem valid_integerParts (n : Int) : (integerParts n).Valid where
  whole_ne_nil := Nat.toDigits_ne_nil
  whole_digits := isDigit_of_mem_toDigits
  whole_head := fun h => by
    have hzero : n.natAbs = 0 := head?_toDigits _ h
    show Nat.toDigits 10 n.natAbs = ['0']
    rw [hzero]
    rfl
  fraction_digits := fun _ hc => absurd hc List.not_mem_nil
  exponent_digits := fun _ he => absurd he (by simp [integerParts])

theorem notMem_of_isDigit (hds : ∀ c ∈ ds, c.isDigit = true ∨ c = '.') :
    ∀ c ∈ ['-', ':', 'x', 'o', 'b'], c ∉ ds := by
  intro c hc hmem
  have hc' : ∀ c ∈ ['-', ':', 'x', 'o', 'b'], ¬ (c.isDigit = true ∨ c = '.') := by
    simp only [List.mem_cons, List.not_mem_nil, or_false, forall_eq_or_imp, forall_eq]
    decide
  exact hc' c hc (hds c hmem)

/-- An integer that is written is read. -/
theorem takeNumeric_integerText {n : Int} (h : integerText? n = some cs) (hrest : EndsValue rest) :
    takeNumeric (cs ++ rest) = some (.integer n, rest) := by
  unfold integerText? at h
  split at h
  · rename_i hfits
    obtain rfl := Option.some.inj h
    have hchars : (integerParts n).chars =
        (if n < 0 then ['-'] else []) ++ Nat.toDigits 10 n.natAbs := by
      simp [Parts.chars, Parts.signChars, Parts.fractionChars, Parts.exponentChars, integerParts]
    have hvalue : (if decide (n < 0) = true then -(n.natAbs : Int) else n.natAbs) = n := by
      simp only [decide_eq_true_eq]
      split <;> omega
    have hnumeric := takeNumeric_eq (w := Nat.toDigits 10 n.natAbs)
      (notMem_of_isDigit fun c hc => .inl (isDigit_of_mem_toDigits c hc)) hrest (decide (n < 0))
    have hdecimal := takeDecimal_chars (valid_integerParts n) rfl hrest
    have hdigits : ofDigits (Nat.toDigits 10 n.natAbs) = n.natAbs := Nat.ofDigitChars_ten_toDigits
    rw [hchars] at hdecimal
    rw [List.append_assoc] at hdecimal ⊢
    simp only [decide_eq_true_eq] at hnumeric
    rw [hnumeric, hdecimal]
    simp only [integerParts, if_true, hdigits, integer?, hvalue, hfits, Option.map_some]
  · exact absurd h (by simp)

/-! ## Floats -/

variable {x : Double}

/-- A number without a text is a NaN or an infinity. -/
theorem isNaN_or_of_plainText? (h : Double.plainText? x = none) :
    x.isNaN = true ∨ x = Binary.infinity x.negative := by
  have hfinite : ¬ x.isFinite = true := by
    intro hfinite
    obtain ⟨m, q, hkind⟩ := isFinite_iff.1 hfinite
    unfold Double.plainText? Binary.write at h
    rw [hkind] at h
    exact absurd h (by simp)
  unfold Binary.isFinite at hfinite
  rw [decide_eq_true_iff, Nat.not_lt] at hfinite
  rcases Nat.lt_or_eq_of_le hfinite with hlt | heq
  · exact .inl (decide_eq_true hlt)
  · refine .inr ?_
    unfold Binary.infinity
    rw [heq, ofParts_magnitude]

theorem isFinite_of_plainText? {s : String} (h : Double.plainText? x = some s) :
    x.isFinite = true := by
  refine isFinite_iff.2 ?_
  unfold Double.plainText? Binary.write at h
  split at h
  · rename_i m q hkind
    exact ⟨m, q, hkind⟩
  · exact absurd h (by simp)

theorem not_isFinite_of_isNaN (h : x.isNaN = true) : x.isFinite = false := by
  unfold Binary.isNaN at h
  unfold Binary.isFinite
  rw [decide_eq_true_iff] at h
  exact decide_eq_false (Nat.not_lt.2 (Nat.le_of_lt h))

/-- All NaNs have one text. -/
theorem floatText_of_isNaN (h : x.isNaN = true) : floatText x = ['n', 'a', 'n'] := by
  unfold floatText
  cases htext : Double.plainText? x with
  | none => exact if_pos h
  | some s =>
    have hfinite := isFinite_of_plainText? htext
    rw [not_isFinite_of_isNaN h] at hfinite
    exact absurd hfinite (by decide)

/-- The text of a finite number is read as the number. -/
theorem takeNumeric_plainText {s : String} (h : Double.plainText? x = some s)
    (hrest : EndsValue rest) : takeNumeric (s.toList ++ rest) = some (.float x, rest) := by
  obtain ⟨p, hvalid, -, hchars, -, hfull⟩ := exists_parts_of_write Format.regular_double h
  obtain ⟨hexponent, hfraction⟩ := hfull rfl
  have hread : Binary.ofText? s = some x := ofText?_of_write Format.regular_double h
  have hx : x ≠ Binary.infinity false := by
    rintro rfl
    exact absurd (isFinite_of_plainText? h) (by decide)
  have hfloat : float? p.chars = some (.float x) := by
    unfold float?
    rw [← hchars, String.ofList_toList, hread]
    exact if_neg hx
  have hmarks : ∀ c ∈ ['-', ':', 'x', 'o', 'b'], c ∉ p.whole ++ p.fractionChars := by
    refine notMem_of_isDigit fun c hc => ?_
    rcases List.mem_append.1 hc with hc | hc
    · exact .inl (hvalid.whole_digits c hc)
    · unfold Parts.fractionChars at hc
      rw [if_neg hfraction] at hc
      rcases List.mem_cons.1 hc with rfl | hc
      · exact .inr rfl
      · exact .inl (hvalid.fraction_digits c hc)
  have hnone : p.exponentChars = [] := by
    unfold Parts.exponentChars
    rw [hexponent]
  have hsplit : p.chars ++ rest =
      (if p.negative then ['-'] else []) ++ ((p.whole ++ p.fractionChars) ++ rest) := by
    unfold Parts.chars Parts.signChars
    rw [hnone, List.append_nil, List.append_assoc]
  have hdecimal := takeDecimal_chars hvalid hexponent hrest
  rw [if_neg hfraction, hfloat, hsplit] at hdecimal
  rw [hchars, hsplit, takeNumeric_eq hmarks hrest, hdecimal]
  rfl

theorem takeNumeric_special {v : Value} (negative : Bool)
    (hw : ∀ c ∈ ['-', ':', 'x', 'o', 'b'], c ∉ w) (hrest : EndsValue rest)
    (hsign : takeSign ((if negative then ['-'] else []) ++ (w ++ rest)) =
      (if negative then ['-'] else [], w ++ rest))
    (hspecial : takeSpecial negative (w ++ rest) = some (v, rest)) :
    takeNumeric ((if negative then ['-'] else []) ++ (w ++ rest)) = some (v, rest) := by
  have hnegative : decide ((if negative = true then ['-'] else []) = ['-']) = negative := by
    cases negative <;> decide
  rw [takeNumeric_eq hw hrest]
  unfold takeDecimal
  simp only [hsign, hnegative, hspecial]
  rfl

/-- A float is read as itself, and any NaN as the one without a sign. -/
theorem takeNumeric_floatText (hx : x.isNaN = true → x = Binary.nan false)
    (hrest : EndsValue rest) : takeNumeric (floatText x ++ rest) = some (.float x, rest) := by
  unfold floatText
  cases htext : Double.plainText? x with
  | some s => exact takeNumeric_plainText htext hrest
  | none =>
    dsimp only
    by_cases hnan : x.isNaN = true
    · rw [if_pos hnan, hx hnan]
      exact takeNumeric_special (w := ['n', 'a', 'n']) false (by simp) hrest rfl rfl
    · have hinfinite := (isNaN_or_of_plainText? htext).resolve_left hnan
      rw [if_neg hnan]
      cases hnegative : x.negative with
      | true =>
        rw [hnegative] at hinfinite
        rw [if_pos rfl, hinfinite]
        exact takeNumeric_special (w := ['i', 'n', 'f']) true (by simp) hrest rfl rfl
      | false =>
        rw [hnegative] at hinfinite
        rw [if_neg (by decide), hinfinite]
        exact takeNumeric_special (w := ['i', 'n', 'f']) false (by simp) hrest rfl rfl

end TreeCorpus.Toml
