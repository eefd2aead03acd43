import TreeCorpus.Json.Reader
import TreeCorpus.Proofs.Json.Spelling

/-!
# Values that are read back

A value is spelled when its numbers have valid parts and its strings are quoted texts. The text of a
spelled value is cut into its tokens (`lexes_compact`), and the reader goes from a place where a
value is expected to the place after it, on any stack (`foldlM_tokens`). So the text of a spelled
value reads as the value (`ofText?_write`), and it stays on one line (`newline_notMem_compact`).
-/

namespace TreeCorpus.Json

/-! ## Tokens of a value -/

mutual

/-- Numbers have valid parts; strings and keys are quoted texts. -/
def Spelled : Json → Prop
  | null => True
  | bool _ => True
  | number s => ∃ p : Parts, p.Valid ∧ s = p.chars
  | string s => ∃ cs, s = quote cs
  | array items => SpelledItems items
  | object members => SpelledMembers members

def SpelledItems : List Json → Prop
  | [] => True
  | v :: vs => Spelled v ∧ SpelledItems vs

def SpelledMembers : List (List Char × Json) → Prop
  | [] => True
  | (k, v) :: ms => (∃ cs, k = quote cs) ∧ Spelled v ∧ SpelledMembers ms

end

/-- Lists of tokens with a comma between any two. -/
def commas : List (List Token) → List Token
  | [] => []
  | p :: ps => p ++ ps.flatMap (.comma :: ·)

mutual

/-- The tokens of the text of a value. -/
def tokens : Json → List Token
  | null => [.null]
  | bool b => [.bool b]
  | number s => [.number s]
  | string s => [.string s]
  | array items => .openArray :: (commas (itemTokens items) ++ [.closeArray])
  | object members => .openObject :: (commas (memberTokens members) ++ [.closeObject])

def itemTokens : List Json → List (List Token)
  | [] => []
  | v :: vs => tokens v :: itemTokens vs

def memberTokens : List (List Char × Json) → List (List Token)
  | [] => []
  | (k, v) :: ms => (.string k :: .colon :: tokens v) :: memberTokens ms

end

/-! ## Cutting a text into tokens -/

/-- A text that is cut into tokens, one after the other. -/
inductive Lexes : List Char → List Token → Prop where
  | nil : Lexes [] []
  | cons {c : Char} {cs rest : List Char} {t : Token} {ts : List Token} :
      isSpace c = false → takeToken (c :: cs ++ rest) = some (t, rest) → Lexes rest ts →
      Lexes (c :: cs ++ rest) (t :: ts)

theorem Lexes.tokensWithin {cs : List Char} {ts : List Token} (h : Lexes cs ts) (acc : List Token)
    {n : Nat} (hn : cs.length ≤ n) : tokensWithin acc n cs = some (acc.reverse ++ ts) := by
  induction h generalizing acc n with
  | nil => cases n <;> simp [Json.tokensWithin]
  | @cons c cs rest t ts hc ht _ ih =>
    rw [List.cons_append] at hn ht ⊢
    rw [List.length_cons, List.length_append] at hn
    obtain ⟨n, rfl⟩ : ∃ m, n = m + 1 := ⟨n - 1, by omega⟩
    have hrest := ih (t :: acc) (n := n) (by omega)
    simp only [Json.tokensWithin, hc, Bool.false_eq_true, if_false, ht, hrest, List.reverse_cons,
      List.append_assoc, List.cons_append, List.nil_append]

theorem Lexes.tokens? {cs : List Char} {ts : List Token} (h : Lexes cs ts) :
    tokens? cs = some ts :=
  h.tokensWithin [] (Nat.le_refl _)

section Lexing

variable {c : Char} {rest : List Char} {t : Token} {ts : List Token}

/-- A token of one character. -/
theorem Lexes.char (hc : isSpace c = false) (ht : takeToken (c :: rest) = some (t, rest))
    (h : Lexes rest ts) : Lexes (c :: rest) (t :: ts) :=
  @Lexes.cons c [] rest t ts hc ht h

theorem lexes_string (cs : List Char) (h : Lexes rest ts) :
    Lexes ('"' :: (quote cs ++ '"' :: rest)) (.string (quote cs) :: ts) := by
  have ht : takeToken ('"' :: (quote cs ++ ['"']) ++ rest) = some (.string (quote cs), rest) := by
    rw [List.cons_append, List.append_assoc]
    show (takeString [] (quote cs ++ '"' :: rest)).map _ = _
    rw [takeString_quote]
    rfl
  have := Lexes.cons (by decide) ht h
  rwa [List.cons_append, List.append_assoc] at this

theorem isSpace_of_isDigit (h : c.isDigit = true) : isSpace c = false := by
  have hne (s : Char) (hs : s.isDigit = false) : c ≠ s := by
    rintro rfl
    exact absurd h (by simp [hs])
  simp [isSpace, hne ' ' (by decide), hne '\n' (by decide), hne '\t' (by decide),
    hne '\r' (by decide)]

/-- The first character of a number starts no other token. -/
theorem takeToken_of_isDigit {cs : List Char} (h : c = '-' ∨ c.isDigit = true) :
    takeToken (c :: cs) = (takeNumber (c :: cs)).map fun r => (.number r.1, r.2) := by
  unfold takeToken
  split
  case h_11 => rfl
  all_goals
    rename_i heq
    obtain ⟨rfl, -⟩ := List.cons.inj heq
    exact absurd h (by decide)

theorem lexes_number {p : Parts} (hp : p.Valid) (hr : Parts.Ends rest) (h : Lexes rest ts) :
    Lexes (p.chars ++ rest) (.number p.chars :: ts) := by
  have ht := Parts.takeNumber_chars hp hr
  obtain ⟨c, cs, hc, hd⟩ : ∃ c cs, p.chars = c :: cs ∧ (c = '-' ∨ c.isDigit = true) := by
    obtain ⟨d, ds, hw, -⟩ := hp.exists_whole_cons
    unfold Parts.chars Parts.signChars
    cases p.negative with
    | true => exact ⟨_, _, rfl, Or.inl rfl⟩
    | false =>
      rw [hw]
      exact ⟨d, _, rfl, Or.inr (hp.whole_digits d (by rw [hw]; exact List.mem_cons_self))⟩
  rw [hc] at ht ⊢
  refine .cons ?_ ?_ h
  · rcases hd with rfl | hd
    · decide
    · exact isSpace_of_isDigit hd
  · rw [List.cons_append, takeToken_of_isDigit hd, ← List.cons_append, ht]
    rfl

/-- After the first of several parts comes a comma or what follows them all. -/
theorem ends_flatMap (ps : List (List Char)) (h : Parts.Ends rest) :
    Parts.Ends (ps.flatMap ([','] ++ ·) ++ rest) := by
  cases ps with
  | nil => exact h
  | cons p ps => exact Parts.ends_cons (Or.inl rfl) _

end Lexing

theorem separate_cons (sep p : List Char) (ps : List (List Char)) :
    separate sep (p :: ps) = p ++ ps.flatMap (sep ++ ·) := by
  induction ps generalizing p with
  | nil => simp [separate]
  | cons q ps ih =>
    rw [separate, ih q, List.flatMap_cons, List.append_assoc, List.append_assoc]
    simp

mutual

/-- The text of a spelled value is cut into its tokens, whatever follows. -/
theorem lexes_compact {rest : List Char} {ts : List Token} :
    ∀ {v : Json}, Spelled v → Parts.Ends rest → Lexes rest ts →
      Lexes (compact v ++ rest) (tokens v ++ ts)
  | null, _, _, h => .cons (by decide) (by rfl) h
  | bool true, _, _, h => .cons (by decide) (by rfl) h
  | bool false, _, _, h => .cons (by decide) (by rfl) h
  | number s, ⟨p, hp, hs⟩, hr, h => by
    subst hs
    exact lexes_number hp hr h
  | string s, ⟨cs, hs⟩, _, h => by
    subst hs
    simpa [compact, tokens] using lexes_string cs h
  | array [], _, _, h => .char (by decide) rfl (.char (by decide) rfl h)
  | array (v :: vs), ⟨hv, hvs⟩, _, h => by
    have hend : Lexes (']' :: rest) (.closeArray :: ts) := .char (by decide) rfl h
    have hr := Parts.ends_cons (Or.inr (Or.inl rfl)) rest
    have hitems := lexes_compact hv (ends_flatMap _ hr) (lexes_items hvs hr hend)
    have hopen := Lexes.char (c := '[') (by decide) rfl hitems
    simpa [compact, tokens, compactItems, itemTokens, separate_cons, commas] using hopen
  | object [], _, _, h => .char (by decide) rfl (.char (by decide) rfl h)
  | object ((k, v) :: ms), ⟨⟨cs, hk⟩, hv, hms⟩, _, h => by
    subst hk
    have hend : Lexes ('}' :: rest) (.closeObject :: ts) := .char (by decide) rfl h
    have hr := Parts.ends_cons (Or.inr (Or.inr rfl)) rest
    have hvalue := lexes_compact hv (ends_flatMap _ hr) (lexes_members hms hr hend)
    have hcolon := Lexes.char (c := ':') (by decide) rfl hvalue
    have hopen := Lexes.char (c := '{') (by decide) rfl (lexes_string cs hcolon)
    simpa [compact, tokens, compactMembers, memberTokens, separate_cons, commas] using hopen

theorem lexes_items {rest : List Char} {ts : List Token} :
    ∀ {vs : List Json}, SpelledItems vs → Parts.Ends rest → Lexes rest ts →
      Lexes ((compactItems vs).flatMap ([','] ++ ·) ++ rest)
        ((itemTokens vs).flatMap (.comma :: ·) ++ ts)
  | [], _, _, h => h
  | v :: vs, ⟨hv, hvs⟩, hr, h => by
    have hvalue := lexes_compact hv (ends_flatMap _ hr) (lexes_items hvs hr h)
    have hcomma := Lexes.char (c := ',') (by decide) rfl hvalue
    simpa [compactItems, itemTokens] using hcomma

theorem lexes_members {rest : List Char} {ts : List Token} :
    ∀ {ms : List (List Char × Json)}, SpelledMembers ms → Parts.Ends rest → Lexes rest ts →
      Lexes ((compactMembers ms).flatMap ([','] ++ ·) ++ rest)
        ((memberTokens ms).flatMap (.comma :: ·) ++ ts)
  | [], _, _, h => h
  | (k, v) :: ms, ⟨⟨cs, hk⟩, hv, hms⟩, hr, h => by
    subst hk
    have hvalue := lexes_compact hv (ends_flatMap _ hr) (lexes_members hms hr h)
    have hcolon := Lexes.char (c := ':') (by decide) rfl hvalue
    have hcomma := Lexes.char (c := ',') (by decide) rfl (lexes_string cs hcolon)
    simpa [compactMembers, memberTokens] using hcomma

end

/-! ## Reading the tokens -/

namespace Reader

variable {stack : List Frame} {ts : List Token}

/-- The first token of a value closes nothing. -/
theorem exists_tokens_cons : ∀ v : Json, ∃ t ts, tokens v = t :: ts ∧ t ≠ .closeArray
  | null | bool _ | number _ | string _ => ⟨_, _, rfl, by simp⟩
  | array _ | object _ => ⟨_, _, by simp only [tokens]; rfl, by simp⟩

/-- After the bracket of an array a value is read as anywhere else. -/
theorem foldlM_valueOrEnd (v : Json) :
    (tokens v ++ ts).foldlM step (reading stack .valueOrEnd) =
      (tokens v ++ ts).foldlM step (reading stack .value) := by
  obtain ⟨t, ts', ht, hne⟩ := exists_tokens_cons v
  rw [ht, List.cons_append, List.foldlM_cons, List.foldlM_cons]
  simp only [step, if_neg hne]

theorem foldlM_cons_of_step {r r' : Reader} {t : Token} (h : step r t = some r') :
    (t :: ts).foldlM step r = ts.foldlM step r' := by
  rw [List.foldlM_cons, h]
  rfl

mutual

/-- The tokens of a value lead from where a value is expected to where it is complete. -/
theorem foldlM_tokens (stack : List Frame) (ts : List Token) : ∀ v : Json,
    (tokens v ++ ts).foldlM step (reading stack .value) = ts.foldlM step (complete v stack)
  | null | bool _ | number _ | string _ => rfl
  | array [] | object [] => rfl
  | array (v :: vs) => by
    have hvalue := foldlM_tokens (.array [] :: stack)
      ((itemTokens vs).flatMap (.comma :: ·) ++ .closeArray :: ts) v
    simp only [tokens, itemTokens, commas, List.cons_append, List.append_assoc, List.nil_append]
    rw [foldlM_cons_of_step rfl, foldlM_valueOrEnd, hvalue]
    exact foldlM_items stack ts [v] vs
  | object ((k, v) :: ms) => by
    have hvalue := foldlM_tokens (.object [] k :: stack)
      ((memberTokens ms).flatMap (.comma :: ·) ++ .closeObject :: ts) v
    simp only [tokens, memberTokens, commas, List.cons_append, List.append_assoc, List.nil_append]
    rw [foldlM_cons_of_step rfl, foldlM_cons_of_step rfl, foldlM_cons_of_step rfl, hvalue]
    exact foldlM_members stack ts [(k, v)] ms

/-- After some items the rest of an array is read. -/
theorem foldlM_items (stack : List Frame) (ts : List Token) (done : List Json) :
    ∀ vs : List Json,
      ((itemTokens vs).flatMap (.comma :: ·) ++ .closeArray :: ts).foldlM step
        (reading (.array done :: stack) .commaOrEnd) =
      ts.foldlM step (complete (.array (done.reverse ++ vs)) stack)
  | [] => by
    rw [List.append_nil]
    rfl
  | v :: vs => by
    have hvalue := foldlM_tokens (.array done :: stack)
      ((itemTokens vs).flatMap (.comma :: ·) ++ .closeArray :: ts) v
    have hrest := foldlM_items stack ts (v :: done) vs
    simp only [itemTokens, List.flatMap_cons, List.cons_append, List.append_assoc]
    rw [List.reverse_cons, List.append_assoc] at hrest
    rw [foldlM_cons_of_step rfl, hvalue]
    exact hrest

/-- After some members the rest of an object is read. -/
theorem foldlM_members (stack : List Frame) (ts : List Token) (done : List (List Char × Json)) :
    ∀ ms : List (List Char × Json),
      ((memberTokens ms).flatMap (.comma :: ·) ++ .closeObject :: ts).foldlM step
        (reading (.object done [] :: stack) .commaOrEnd) =
      ts.foldlM step (complete (.object (done.reverse ++ ms)) stack)
  | [] => by
    rw [List.append_nil]
    rfl
  | (k, v) :: ms => by
    have hvalue := foldlM_tokens (.object done k :: stack)
      ((memberTokens ms).flatMap (.comma :: ·) ++ .closeObject :: ts) v
    have hrest := foldlM_members stack ts ((k, v) :: done) ms
    simp only [memberTokens, List.flatMap_cons, List.cons_append, List.append_assoc]
    rw [List.reverse_cons, List.append_assoc] at hrest
    rw [foldlM_cons_of_step rfl, foldlM_cons_of_step rfl, foldlM_cons_of_step rfl, hvalue]
    exact hrest

end

end Reader

/-- The text of a spelled value reads as the value. -/
theorem ofText?_write {v : Json} (h : Spelled v) : ofText? v.write = some v := by
  have hlex : Lexes v.compact (tokens v) := by
    have := lexes_compact h (fun c hc => by simp at hc) Lexes.nil
    rwa [List.append_nil, List.append_nil] at this
  have hread := Reader.foldlM_tokens [] [] v
  rw [List.append_nil] at hread
  unfold ofText? write ofTokens?
  rw [String.toList_ofList, hlex.tokens?, Option.bind_some, hread]
  rfl

/-! ## One line -/

theorem newline_notMem_chars {p : Parts} (h : p.Valid) : '\n' ∉ p.chars := by
  have hdigits {ds : List Char} (hd : ∀ c ∈ ds, c.isDigit = true) : '\n' ∉ ds :=
    fun hn => absurd (hd _ hn) (by decide)
  have hexp : '\n' ∉ p.exponentChars := by
    unfold Parts.exponentChars
    rcases he : p.exponent with _ | ⟨negative, ds⟩
    · exact List.not_mem_nil
    · have := hdigits (h.exponent_digits _ he).2
      cases negative <;> simp [this]
  have hsign : '\n' ∉ p.signChars := by
    unfold Parts.signChars
    split <;> simp
  have hfrac : '\n' ∉ p.fractionChars := by
    have := hdigits h.fraction_digits
    unfold Parts.fractionChars
    split <;> simp [this]
  unfold Parts.chars
  simp [hsign, hdigits h.whole_digits, hfrac, hexp]

theorem newline_notMem_separate {ps : List (List Char)} (h : ∀ p ∈ ps, '\n' ∉ p) :
    '\n' ∉ separate [','] ps := by
  cases ps with
  | nil => exact List.not_mem_nil
  | cons p ps =>
    rw [separate_cons, List.mem_append, List.mem_flatMap]
    rintro (hp | ⟨q, hq, hn⟩)
    · exact h p List.mem_cons_self hp
    · rcases List.mem_append.1 hn with hn | hn
      · exact absurd hn (by decide)
      · exact h q (List.mem_cons_of_mem p hq) hn

mutual

/-- The text of a spelled value holds no line break. -/
theorem newline_notMem_compact : ∀ {v : Json}, Spelled v → '\n' ∉ compact v
  | null, _ => by decide
  | bool true, _ => by decide
  | bool false, _ => by decide
  | number s, ⟨p, hp, hs⟩ => by
    subst hs
    exact newline_notMem_chars hp
  | string s, ⟨cs, hs⟩ => by
    subst hs
    simp [compact, newline_notMem_quote]
  | array items, h => by
    have := newline_notMem_separate (newline_notMem_compactItems h)
    simp [compact, this]
  | object members, h => by
    have := newline_notMem_separate (newline_notMem_compactMembers h)
    simp [compact, this]

theorem newline_notMem_compactItems :
    ∀ {vs : List Json}, SpelledItems vs → ∀ p ∈ compactItems vs, '\n' ∉ p
  | [], _, p, hp => absurd hp List.not_mem_nil
  | v :: vs, ⟨hv, hvs⟩, p, hp => by
    rcases List.mem_cons.1 hp with rfl | hp
    · exact newline_notMem_compact hv
    · exact newline_notMem_compactItems hvs p hp

theorem newline_notMem_compactMembers :
    ∀ {ms : List (List Char × Json)}, SpelledMembers ms → ∀ p ∈ compactMembers ms, '\n' ∉ p
  | [], _, p, hp => absurd hp List.not_mem_nil
  | (k, v) :: ms, ⟨⟨cs, hk⟩, hv, hms⟩, p, hp => by
    subst hk
    rcases List.mem_cons.1 hp with rfl | hp
    · simp [newline_notMem_quote, newline_notMem_compact hv]
    · exact newline_notMem_compactMembers hms p hp

end

end TreeCorpus.Json
