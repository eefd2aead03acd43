import TreeCorpus.Json.Decode

/-!
# Spellings that are read back

A quoted text is one string token and unquotes to the text (`takeString_quote`, `unquote?_quote`).
A number that is written with the parts the format allows is one number token, and these are the
parts that are read (`Parts.takeNumber_chars`, `Parts.ofChars_chars`).
-/

namespace TreeCorpus.Json

open Number

/-! ## Strings -/

theorem hexValue?_hexDigit : ∀ n < 16, hexValue? (hexDigit n) = some n := by decide

/-- The escape of a control character stands for its code point. -/
theorem hexUnit?_hexDigit {n : Nat} (h : n < 32) :
    hexUnit? '0' '0' (hexDigit (n / 16)) (hexDigit (n % 16)) = some n := by
  have h0 : hexValue? '0' = some 0 := by decide
  simp only [hexUnit?, h0, hexValue?_hexDigit (n / 16) (by omega),
    hexValue?_hexDigit (n % 16) (by omega), Option.bind_eq_bind, Option.bind_some, Option.pure_def,
    Option.some.injEq]
  omega

/-- A character is spelled by a letter after a backslash, by its code point or as it is. -/
inductive QuotedAs (c : Char) : List Char → Prop where
  | letter (e : Char) : e ≠ 'u' → escaped? e = some c → QuotedAs c ['\\', e]
  | unit (a b : Char) : hexUnit? '0' '0' a b = some c.toNat → c.toNat < 0x20 →
      QuotedAs c ['\\', 'u', '0', '0', a, b]
  | plain : c ≠ '"' → c ≠ '\\' → ¬ c.toNat < 0x20 → QuotedAs c [c]

theorem quotedAs_quoteChar (c : Char) : QuotedAs c (quoteChar c) := by
  unfold quoteChar
  by_cases h₁ : c = '"'
  · subst h₁
    exact .letter '"' (by decide) (by decide)
  by_cases h₂ : c = '\\'
  · subst h₂
    exact .letter '\\' (by decide) (by decide)
  by_cases h₃ : c = '\x08'
  · subst h₃
    exact .letter 'b' (by decide) (by decide)
  by_cases h₄ : c = '\x0c'
  · subst h₄
    exact .letter 'f' (by decide) (by decide)
  by_cases h₅ : c = '\n'
  · subst h₅
    exact .letter 'n' (by decide) (by decide)
  by_cases h₆ : c = '\r'
  · subst h₆
    exact .letter 'r' (by decide) (by decide)
  by_cases h₇ : c = '\t'
  · subst h₇
    exact .letter 't' (by decide) (by decide)
  rw [if_neg h₁, if_neg h₂, if_neg h₃, if_neg h₄, if_neg h₅, if_neg h₆, if_neg h₇]
  by_cases h₈ : c.toNat < 0x20
  · rw [if_pos h₈]
    exact .unit _ _ (hexUnit?_hexDigit h₈) h₈
  · rw [if_neg h₈]
    exact .plain h₁ h₂ h₈

/-- The spelling of a character stands inside a string. -/
theorem QuotedAs.takeString {c : Char} {s : List Char} (h : QuotedAs c s) (acc rest : List Char) :
    takeString acc (s ++ rest) = takeString (s.reverse ++ acc) rest := by
  cases h with
  | letter e hu he => simp [Json.takeString, hu, he]
  | unit a b hab _ => simp [Json.takeString, hab]
  | plain hq hb hc => simp [Json.takeString, hb, hc]

/-- The spelling of a character reads as the character. -/
theorem QuotedAs.unquoteFrom {c : Char} {s : List Char} (h : QuotedAs c s) (acc rest : List Char) :
    unquoteFrom acc (s ++ rest) = unquoteFrom (c :: acc) rest := by
  cases h with
  | letter e hu he => simp [Json.unquoteFrom, hu, he]
  | unit a b hab hlt =>
    have h₁ : ¬ (0xDC00 ≤ c.toNat ∧ c.toNat ≤ 0xDFFF) := by omega
    have h₂ : ¬ (0xD800 ≤ c.toNat ∧ c.toNat ≤ 0xDBFF) := by omega
    simp [Json.unquoteFrom, hab, h₁, h₂, Char.ofNat_toNat]
  | plain hq hb hc => simp [Json.unquoteFrom, hb]

theorem quote_cons (c : Char) (cs : List Char) : quote (c :: cs) = quoteChar c ++ quote cs := rfl

/-- A quoted text ends at the quote after it. -/
theorem takeString_quote (acc cs rest : List Char) :
    takeString acc (quote cs ++ '"' :: rest) = some (acc.reverse ++ quote cs, rest) := by
  induction cs generalizing acc with
  | nil => simp [quote, takeString]
  | cons c cs ih =>
    rw [quote_cons, List.append_assoc, (quotedAs_quoteChar c).takeString, ih]
    simp

theorem unquoteFrom_quote (acc cs : List Char) :
    unquoteFrom acc (quote cs) = some (acc.reverse ++ cs) := by
  induction cs generalizing acc with
  | nil => simp [quote, unquoteFrom]
  | cons c cs ih =>
    rw [quote_cons, (quotedAs_quoteChar c).unquoteFrom, ih]
    simp

/-- A quoted text unquotes to the text. -/
theorem unquote?_quote (cs : List Char) : unquote? (quote cs) = some cs :=
  unquoteFrom_quote [] cs

theorem QuotedAs.newline_notMem {c : Char} {s : List Char} (h : QuotedAs c s) : '\n' ∉ s := by
  have hhex : hexValue? '\n' = none := by decide
  cases h with
  | letter e _ he =>
    have hne : e ≠ '\n' := by
      rintro rfl
      exact absurd (show none = some c from he) (by simp)
    simp [Ne.symm hne]
  | unit a b hab _ =>
    have ha : a ≠ '\n' := by
      rintro rfl
      simp [hexUnit?, hhex] at hab
    have hb : b ≠ '\n' := by
      rintro rfl
      simp [hexUnit?, hhex] at hab
    simp [Ne.symm ha, Ne.symm hb]
  | plain _ _ hc =>
    rw [List.mem_singleton]
    rintro rfl
    exact hc (by decide)

theorem newline_notMem_quote (cs : List Char) : '\n' ∉ quote cs := by
  unfold quote
  rw [List.mem_flatMap]
  rintro ⟨c, -, hc⟩
  exact (quotedAs_quoteChar c).newline_notMem hc

/-! ## Numbers -/

/-- What follows does not start with a digit. -/
def NoDigit (rest : List Char) : Prop := ∀ c ∈ rest.head?, c.isDigit = false

theorem takeWhile_isDigit {ds rest : List Char} (hd : ∀ c ∈ ds, c.isDigit = true)
    (hr : NoDigit rest) : (ds ++ rest).takeWhile Char.isDigit = ds := by
  rw [List.takeWhile_append_of_pos hd]
  cases rest with
  | nil => simp
  | cons c rest => simp [hr c rfl]

theorem dropWhile_isDigit {ds rest : List Char} (hd : ∀ c ∈ ds, c.isDigit = true)
    (hr : NoDigit rest) : (ds ++ rest).dropWhile Char.isDigit = rest := by
  rw [List.dropWhile_append_of_pos hd]
  cases rest with
  | nil => rfl
  | cons c rest => simp [hr c rfl]

theorem takeDigits_append {ds rest : List Char} (hne : ds ≠ []) (hd : ∀ c ∈ ds, c.isDigit = true)
    (hr : NoDigit rest) : takeDigits (ds ++ rest) = some (ds, rest) := by
  unfold takeDigits
  rw [takeWhile_isDigit hd hr, dropWhile_isDigit hd hr]
  cases ds with
  | nil => exact absurd rfl hne
  | cons c ds => rfl

/-- The parts of a number that is written: no point without a fraction, and an exponent as its sign
and its digits. -/
structure Parts where
  negative : Bool
  whole : List Char
  fraction : List Char
  exponent : Option (Bool × List Char)

namespace Parts

def signChars (p : Parts) : List Char := if p.negative then ['-'] else []

def fractionChars (p : Parts) : List Char := if p.fraction = [] then [] else '.' :: p.fraction

def exponentChars (p : Parts) : List Char :=
  match p.exponent with
  | none => []
  | some (negative, ds) => 'e' :: (if negative then '-' else '+') :: ds

def chars (p : Parts) : List Char :=
  p.signChars ++ (p.whole ++ (p.fractionChars ++ p.exponentChars))

/-- The parts are digits, with at least one before the point and in the exponent, and no needless
zero in front. -/
structure Valid (p : Parts) : Prop where
  whole_ne_nil : p.whole ≠ []
  whole_digits : ∀ c ∈ p.whole, c.isDigit = true
  whole_head : p.whole.head? = some '0' → p.whole = ['0']
  fraction_digits : ∀ c ∈ p.fraction, c.isDigit = true
  exponent_digits : ∀ e ∈ p.exponent, e.2 ≠ [] ∧ ∀ c ∈ e.2, c.isDigit = true

/-- What may follow a number: nothing, or a character that ends a value. -/
def Ends (rest : List Char) : Prop := ∀ c ∈ rest.head?, c = ',' ∨ c = ']' ∨ c = '}'

variable {p : Parts} {rest : List Char}

theorem ends_cons {c : Char} (h : c = ',' ∨ c = ']' ∨ c = '}') (rest : List Char) :
    Ends (c :: rest) := by
  intro d hd
  obtain rfl := Option.some.inj hd
  exact h

theorem Ends.noDigit (h : Ends rest) : NoDigit rest := by
  intro c hc
  rcases h c hc with rfl | rfl | rfl <;> decide

/-- After the fraction neither a digit nor a point follows. -/
theorem head_exponentChars (h : Ends rest) :
    ∀ c ∈ (p.exponentChars ++ rest).head?, c.isDigit = false ∧ c ≠ '.' := by
  unfold exponentChars
  rcases p.exponent with _ | ⟨negative, ds⟩
  · intro c hc
    rcases h c hc with rfl | rfl | rfl <;> decide
  · intro c hc
    obtain rfl : 'e' = c := Option.some.inj hc
    decide

theorem noDigit_exponentChars (h : Ends rest) : NoDigit (p.exponentChars ++ rest) :=
  fun c hc => (head_exponentChars h c hc).1

theorem noDigit_fractionChars (h : NoDigit rest) : NoDigit (p.fractionChars ++ rest) := by
  unfold fractionChars
  split
  · exact h
  · intro c hc
    obtain rfl : '.' = c := Option.some.inj hc
    decide

theorem takeExponent_chars (h : p.Valid) (hr : Ends rest) :
    takeExponent (p.exponentChars ++ rest) = some (p.exponentChars, rest) := by
  unfold exponentChars
  rcases he : p.exponent with _ | ⟨negative, ds⟩
  · cases rest with
    | nil => rfl
    | cons c rest =>
      have hc : ¬ (c = 'e' ∨ c = 'E') := by
        rcases hr c rfl with rfl | rfl | rfl <;> decide
      show takeExponent (c :: rest) = _
      rw [takeExponent, if_neg hc]
  · obtain ⟨hne, hds⟩ := h.exponent_digits _ he
    cases negative <;>
      simp [takeExponent, takeExponentSign, takeDigits_append hne hds hr.noDigit]

theorem takeFraction_chars (h : p.Valid) (hr : Ends rest) :
    takeFraction (p.fractionChars ++ (p.exponentChars ++ rest)) =
      some (p.fractionChars, p.exponentChars ++ rest) := by
  unfold fractionChars
  split
  · rw [List.nil_append]
    unfold takeFraction
    split
    · rename_i cs he
      exact absurd rfl (head_exponentChars hr '.' (by rw [he]; rfl)).2
    · rfl
  · rename_i hf
    show (takeDigits (p.fraction ++ (p.exponentChars ++ rest))).map _ = _
    rw [takeDigits_append hf h.fraction_digits (noDigit_exponentChars hr)]
    rfl

theorem takeWhole_chars (h : p.Valid) (hr : NoDigit rest) :
    takeWhole (p.whole ++ rest) = some (p.whole, rest) := by
  unfold takeWhole
  rw [takeDigits_append h.whole_ne_nil h.whole_digits hr]
  split
  · rename_i c cs rest' heq
    obtain ⟨hw, -⟩ := Prod.mk.inj (Option.some.inj heq)
    have := h.whole_head (by rw [hw]; rfl)
    rw [hw] at this
    exact absurd this (by simp)
  · rfl

/-- The first digit of the whole part is no sign. -/
theorem Valid.exists_whole_cons (h : p.Valid) :
    ∃ d ds, p.whole = d :: ds ∧ d ≠ '-' ∧ d ≠ '+' := by
  obtain ⟨d, ds, hw⟩ := List.exists_cons_of_ne_nil h.whole_ne_nil
  have hd := h.whole_digits d (by rw [hw]; exact List.mem_cons_self)
  refine ⟨d, ds, hw, ?_, ?_⟩
  all_goals
    rintro rfl
    exact absurd hd (by decide)

/-- A number with valid parts is one number token. -/
theorem takeNumber_chars (h : p.Valid) (hr : Ends rest) :
    takeNumber (p.chars ++ rest) = some (p.chars, rest) := by
  have hwhole := takeWhole_chars h
    (noDigit_fractionChars (p := p) (noDigit_exponentChars (p := p) hr))
  have hfraction := takeFraction_chars h hr
  have hexponent := takeExponent_chars h hr
  obtain ⟨d, ds, hw, hminus, -⟩ := h.exists_whole_cons
  unfold takeNumber chars signChars
  cases p.negative with
  | true => simp [hwhole, hfraction, hexponent]
  | false =>
    rw [hw] at hwhole
    simp only [List.cons_append] at hwhole
    simp [hw, hminus, hwhole, hfraction, hexponent]

/-- The value of an exponent with its sign. -/
def exponentValue (e : Bool × List Char) : Int :=
  if e.1 then -(ofDigits e.2 : Int) else ofDigits e.2

theorem takeSign_chars (h : p.Valid) :
    Literal.takeSign p.chars = (p.negative, p.whole ++ (p.fractionChars ++ p.exponentChars)) := by
  obtain ⟨d, ds, hw, hminus, hplus⟩ := h.exists_whole_cons
  unfold chars signChars
  cases p.negative with
  | true => rfl
  | false => simp [Literal.takeSign, hw, hminus, hplus]

theorem exponent?_chars (h : p.Valid) :
    (if p.exponentChars = [] then none else Literal.exponent? p.exponentChars) =
      p.exponent.map exponentValue := by
  unfold exponentChars
  rcases he : p.exponent with _ | ⟨negative, ds⟩
  · rfl
  · obtain ⟨hne, hds⟩ := h.exponent_digits _ he
    have hall : ds ≠ [] ∧ ds.all Char.isDigit = true := ⟨hne, List.all_eq_true.2 hds⟩
    cases negative with
    | true => exact if_pos hall
    | false => exact if_pos hall

/-- The parts that are read are those that were written. -/
theorem ofChars_chars (h : p.Valid) :
    Spelling.ofChars p.chars =
      ⟨p.negative, p.whole, p.fraction, p.exponent.map exponentValue, p.fraction ≠ []⟩ := by
  have hends : Ends [] := fun c hc => by simp at hc
  have hexp : NoDigit p.exponentChars := by
    have := noDigit_exponentChars (p := p) hends
    rwa [List.append_nil] at this
  have hfrac := noDigit_fractionChars (p := p) hexp
  unfold Spelling.ofChars
  simp only [takeSign_chars h, takeWhile_isDigit h.whole_digits hfrac,
    dropWhile_isDigit h.whole_digits hfrac]
  rw [← exponent?_chars h]
  by_cases hf : p.fraction = []
  · have hpoint : ∀ cs, p.exponentChars ≠ '.' :: cs := by
      intro cs he
      have := head_exponentChars (p := p) hends '.' (by rw [he]; rfl)
      exact absurd rfl this.2
    have hchars : p.fractionChars ++ p.exponentChars = p.exponentChars := by
      rw [fractionChars, if_pos hf, List.nil_append]
    rw [hchars]
    split
    · rename_i cs he
      exact absurd he (hpoint cs)
    · simp [hf]
  · have hchars : p.fractionChars ++ p.exponentChars = '.' :: (p.fraction ++ p.exponentChars) := by
      rw [fractionChars, if_neg hf, List.cons_append]
    rw [hchars]
    simp [takeWhile_isDigit h.fraction_digits hexp, dropWhile_isDigit h.fraction_digits hexp, hf]

end Parts

end TreeCorpus.Json
