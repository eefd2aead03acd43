import TreeCorpus.Proofs.Json.Decode
import TreeCorpus.Proofs.Toml.Numbers
import TreeCorpus.Proofs.Toml.Strings
import TreeCorpus.Toml.Reader

/-!
# Values that are written are read

A section is written with scalars and arrays of scalars (`IsWritten`). The text of a scalar is read
up to its end, whatever number of steps and levels is left (`Reads`); an array takes one more step
an item. Nothing is skipped before a text that starts with neither a blank nor a comment nor a line
break (`Solid`). Only an integer that does not fit has no text (`valueText?_eq_none_iff`).
-/

namespace TreeCorpus.Toml

open Number

variable {t cs rest : List Char} {v : Value} {n depth : Nat}

/-- Nothing is skipped at the start of the text. -/
def Solid (cs : List Char) : Prop :=
  ∃ c ds, cs = c :: ds ∧ isSpace c = false ∧ c ≠ '#' ∧ c ≠ '\n' ∧ c ≠ '\r'

theorem solid_cons {c : Char} (hspace : isSpace c = false) (hc : c ∉ ['#', '\n', '\r'])
    (cs : List Char) : Solid (c :: cs) := by
  simp only [List.mem_cons, List.not_mem_nil, or_false, not_or] at hc
  exact ⟨c, cs, rfl, hspace, hc⟩

theorem Solid.append (h : Solid t) (rest : List Char) : Solid (t ++ rest) := by
  obtain ⟨c, ds, rfl, hc⟩ := h
  exact ⟨c, ds ++ rest, rfl, hc⟩

theorem Solid.skipSpace (h : Solid cs) : skipSpace cs = cs := by
  obtain ⟨c, ds, rfl, hspace, -⟩ := h
  simp [Toml.skipSpace, hspace]

theorem Solid.skipBreak?_skipComment (h : Solid cs) : skipBreak? (skipComment cs) = none := by
  obtain ⟨c, ds, rfl, -, hcomment, hbreak, hreturn⟩ := h
  simp [skipComment, hcomment, skipBreak?, hbreak, hreturn]

theorem Solid.skipLines (h : Solid cs) (n : Nat) : skipLines n cs = cs := by
  cases n with
  | zero => rfl
  | succ n => rw [Toml.skipLines, h.skipSpace, h.skipBreak?_skipComment]

/-- A line break and the blanks after it are skipped. -/
theorem Solid.skipLines_break (h : Solid cs) (n blanks : Nat) :
    Toml.skipLines (n + 2) ('\n' :: (List.replicate blanks ' ' ++ cs)) = cs := by
  have hfirst : Toml.skipLines (n + 2) ('\n' :: (List.replicate blanks ' ' ++ cs)) =
      Toml.skipLines (n + 1) (List.replicate blanks ' ' ++ cs) := rfl
  have hblanks : Toml.skipSpace (List.replicate blanks ' ' ++ cs) = cs := by
    unfold Toml.skipSpace
    rw [List.dropWhile_append_of_pos fun c hc => by
      obtain rfl := List.eq_of_mem_replicate hc
      rfl]
    exact h.skipSpace
  rw [hfirst, Toml.skipLines, hblanks, h.skipBreak?_skipComment]

/-! ## Scalars -/

/-- A scalar that is read as it was written: of the NaNs only the one without a sign is. -/
inductive IsScalar : Value → Prop
  | string (s : String) : IsScalar (.string s)
  | integer (n : Int) : IsScalar (.integer n)
  | float {x : Double} (hx : x.isNaN = true → x = Binary.nan false) : IsScalar (.float x)
  | boolean (b : Bool) : IsScalar (.boolean b)

/-- A value that a section is written with. -/
inductive IsWritten : Value → Prop
  | scalar {v : Value} (hv : IsScalar v) : IsWritten v
  | array {vs : List Value} (hvs : ∀ v ∈ vs, IsScalar v) : IsWritten (.array vs)

/-- The text is read as the value, up to what ends a value. -/
structure Reads (t : List Char) (v : Value) : Prop where
  solid : Solid t
  not_closing : ∀ cs, t ≠ ']' :: cs
  read : ∀ (n depth : Nat) (rest : List Char), EndsValue rest →
    value? (n + 1) depth (t ++ rest) = some (v, rest)

theorem value?_mark (q : Quote) (n depth : Nat) (cs : List Char) :
    value? (n + 1) depth (q.mark :: cs) =
      (string? (q.mark :: cs)).map fun r => (.string r.1, r.2) := by
  cases q <;> rfl

theorem exists_mark_quoteText (s : String) :
    ∃ (q : Quote) (cs : List Char), quoteText s = q.mark :: cs := by
  unfold quoteText
  dsimp only
  split
  · exact ⟨.basic, _, rfl⟩
  · exact ⟨.literal, _, rfl⟩
  · exact ⟨.basic, _, rfl⟩
  · exact ⟨.literal, _, rfl⟩

theorem reads_quoteText (s : String) : Reads (quoteText s) (.string s) := by
  obtain ⟨q, cs, hcs⟩ := exists_mark_quoteText s
  refine ⟨?_, ?_, ?_⟩
  · rw [hcs]
    cases q <;> exact solid_cons rfl (by decide) cs
  · rw [hcs]
    intro ds heq
    have hmark := (List.cons.inj heq).1
    cases q <;> exact absurd hmark (by decide)
  · intro n depth rest hrest
    have hread : string? (quoteText s ++ rest) = some (s, rest) := by
      refine string?_quoteText s fun c hc => ?_
      rcases hrest c hc with rfl | rfl | rfl <;> decide
    rw [hcs, List.cons_append] at hread ⊢
    rw [value?_mark, hread]
    rfl

/-- The text starts with a sign, a digit or one of the words. -/
def StartsNumber (t : List Char) : Prop :=
  ∃ c cs, t = c :: cs ∧ (c = '-' ∨ c = 'i' ∨ c = 'n' ∨ c.isDigit = true)

theorem startsNumber_digits (hne : t ≠ []) (ht : ∀ c ∈ t, c.isDigit = true) (rest : List Char) :
    StartsNumber (t ++ rest) := by
  obtain ⟨c, cs, rfl⟩ := List.exists_cons_of_ne_nil hne
  exact ⟨c, cs ++ rest, rfl, .inr (.inr (.inr (ht c List.mem_cons_self)))⟩

theorem StartsNumber.sign (h : StartsNumber t) (p : Prop) [Decidable p] :
    StartsNumber ((if p then ['-'] else []) ++ t) := by
  split
  · exact ⟨'-', t, rfl, .inl rfl⟩
  · exact h

theorem startsNumber_integerText {k : Int} (h : integerText? k = some t) : StartsNumber t := by
  unfold integerText? at h
  split at h
  · obtain rfl := Option.some.inj h
    have hdigits := startsNumber_digits (t := Nat.toDigits 10 k.natAbs) Nat.toDigits_ne_nil
      isDigit_of_mem_toDigits []
    rw [List.append_nil] at hdigits
    exact hdigits.sign (k < 0)
  · exact absurd h (by simp)

theorem startsNumber_floatText (x : Double) : StartsNumber (floatText x) := by
  unfold floatText
  split
  · rename_i s htext
    obtain ⟨p, hvalid, -, hchars, -⟩ := exists_parts_of_write Format.regular_double htext
    rw [hchars]
    exact (startsNumber_digits hvalid.whole_ne_nil hvalid.whole_digits _).sign (p.negative = true)
  · split
    · exact ⟨'n', _, rfl, .inr (.inr (.inl rfl))⟩
    split
    · exact ⟨'-', _, rfl, .inl rfl⟩
    · exact ⟨'i', _, rfl, .inr (.inl rfl)⟩

/-- A text that starts like a number and is taken as one is read so. -/
theorem StartsNumber.reads (h : StartsNumber t)
    (hread : ∀ rest, EndsValue rest → takeNumeric (t ++ rest) = some (v, rest)) : Reads t v := by
  obtain ⟨c, cs, rfl, hc⟩ := h
  have hne : ∀ d ∈ ['[', '{', 't', 'f', '"', '\'', ']', '#', '\n', '\r', ' ', '\t'], c ≠ d := by
    rintro d hd rfl
    have hnone : ∀ d ∈ ['[', '{', 't', 'f', '"', '\'', ']', '#', '\n', '\r', ' ', '\t'],
        ¬ (d = '-' ∨ d = 'i' ∨ d = 'n' ∨ d.isDigit = true) := by
      simp only [List.mem_cons, List.not_mem_nil, or_false, forall_eq_or_imp, forall_eq]
      decide
    exact hnone c hd hc
  simp only [List.mem_cons, List.not_mem_nil, or_false, forall_eq_or_imp, forall_eq] at hne
  obtain ⟨hbracket, hbrace, htrue, hfalse, hquote, hmark, hclosing, hcomment, hbreak, hreturn,
    hblank, htab⟩ := hne
  refine ⟨⟨c, cs, rfl, by simp [isSpace, hblank, htab], hcomment, hbreak, hreturn⟩,
    fun ds heq => hclosing (List.cons.inj heq).1, fun n depth rest hrest => ?_⟩
  rw [← hread rest hrest]
  simp [value?, hbracket, hbrace, htrue, hfalse, hquote, hmark]

/-- The text of a scalar is read as the scalar. -/
theorem reads_scalarText (hv : IsScalar v) (h : scalarText? v = some t) : Reads t v := by
  cases hv with
  | string s =>
    obtain rfl := Option.some.inj h
    exact reads_quoteText s
  | integer k =>
    exact (startsNumber_integerText h).reads fun rest hrest => takeNumeric_integerText h hrest
  | float hx =>
    obtain rfl := Option.some.inj h
    exact (startsNumber_floatText _).reads fun rest hrest => takeNumeric_floatText hx hrest
  | boolean b =>
    cases b <;>
    · obtain rfl := Option.some.inj h
      exact ⟨solid_cons rfl (by decide) _, by simp, fun n depth rest hrest => rfl⟩

/-! ## Arrays -/

/-- What holds of each item and its result holds of the items and the results in their order. -/
theorem forall₂_of_mapM {α β : Type} {f : α → Option β} {R : β → α → Prop} {bs : List β} :
    ∀ {as : List α}, (∀ a ∈ as, ∀ b, f a = some b → R b a) → as.mapM f = some bs →
      List.Forall₂ R bs as
  | [], _, h => by
    obtain rfl := Option.some.inj h
    exact .nil
  | a :: as, hR, h => by
    rw [List.mapM_cons] at h
    obtain ⟨b, hb, h⟩ := Option.bind_eq_some_iff.1 h
    obtain ⟨bs', hbs, h⟩ := Option.bind_eq_some_iff.1 h
    obtain rfl := Option.some.inj h
    exact .cons (hR a List.mem_cons_self b hb)
      (forall₂_of_mapM (fun c hc => hR c (List.mem_cons_of_mem a hc)) hbs)

/-- An item with a comma after it is read in one step. -/
theorem items?_comma (h : Reads t v) (n depth : Nat) (acc : List Value) (rest : List Char) :
    items? (n + 2) depth acc (t ++ ',' :: rest) =
      items? (n + 1) depth (v :: acc) (skipLines rest.length rest) := by
  have hread := h.read n depth (',' :: rest) (endsValue_cons (.inr (.inl rfl)) rest)
  have hcomma : Solid (',' :: rest) := solid_cons rfl (by decide) rest
  obtain ⟨c, cs, rfl, -⟩ := h.solid
  have hclosing : c ≠ ']' := fun hc => h.not_closing cs (by rw [hc])
  rw [List.cons_append] at hread ⊢
  rw [items?, hread]
  · simp only [hcomma.skipLines]
  · exact fun ds heq => hclosing (List.cons.inj heq).1

/-- The last item ends at the closing bracket. -/
theorem items?_closing (h : Reads t v) (n depth : Nat) (acc : List Value) (rest : List Char) :
    items? (n + 2) depth acc (t ++ ']' :: rest) = some (.array (v :: acc).reverse, rest) := by
  have hread := h.read n depth (']' :: rest) (endsValue_cons (.inr (.inr rfl)) rest)
  have hbracket : Solid (']' :: rest) := solid_cons rfl (by decide) rest
  obtain ⟨c, cs, rfl, -⟩ := h.solid
  have hclosing : c ≠ ']' := fun hc => h.not_closing cs (by rw [hc])
  rw [List.cons_append] at hread ⊢
  rw [items?, hread]
  · simp only [hbracket.skipLines]
  · exact fun ds heq => hclosing (List.cons.inj heq).1

/-- The items of an array of several items, each on a line of its own. -/
def itemLines (ts : List (List Char)) : List Char :=
  ts.flatMap fun item => List.replicate 4 ' ' ++ item ++ [',', '\n']

/-- Items on lines of their own are read one after the other, each in one step. -/
theorem items?_itemLines {ts : List (List Char)} {vs : List Value} (h : List.Forall₂ Reads ts vs)
    (depth : Nat) (rest : List Char) :
    ∀ (acc : List Value) (n k : Nat), vs.length < n →
      items? n depth acc (skipLines (k + 2) ('\n' :: (itemLines ts ++ ']' :: rest))) =
        some (.array (acc.reverse ++ vs), rest) := by
  induction h with
  | nil =>
    intro acc n k hn
    obtain ⟨n, rfl⟩ := Nat.exists_eq_succ_of_ne_zero (Nat.ne_of_gt hn)
    have hclosing : Solid (']' :: rest) := solid_cons rfl (by decide) rest
    have hskip := hclosing.skipLines_break k 0
    rw [show '\n' :: (itemLines [] ++ ']' :: rest) = '\n' :: (List.replicate 0 ' ' ++ ']' :: rest)
      from rfl, hskip, items?, List.append_nil]
  | @cons t v ts vs ht hts ih =>
    intro acc n k hn
    obtain ⟨n, rfl⟩ : ∃ m, n = m + 2 := ⟨n - 2, by rw [List.length_cons] at hn; omega⟩
    have htext : '\n' :: (itemLines (t :: ts) ++ ']' :: rest) = '\n' ::
        (List.replicate 4 ' ' ++ (t ++ ',' :: '\n' :: (itemLines ts ++ ']' :: rest))) := by
      simp [itemLines]
    have hlength : ('\n' :: (itemLines ts ++ ']' :: rest)).length =
        (itemLines ts).length + rest.length + 2 := by
      simp only [List.length_cons, List.length_append]
      omega
    rw [htext, (ht.solid.append _).skipLines_break, items?_comma ht, hlength,
      ih (v :: acc) (n + 1) _ (Nat.lt_of_succ_lt_succ hn), List.reverse_cons, List.append_assoc]
    rfl

theorem length_le_itemLines (ts : List (List Char)) : ts.length ≤ (itemLines ts).length := by
  induction ts with
  | nil => exact Nat.zero_le _
  | cons t ts ih =>
    have hcons :
        itemLines (t :: ts) = (List.replicate 4 ' ' ++ t ++ [',', '\n']) ++ itemLines ts := rfl
    rw [hcons, List.length_cons, List.length_append, List.length_append]
    simp only [List.length_cons, List.length_nil]
    omega

/-- An array of scalars is read up to its closing bracket. -/
theorem value?_arrayText {ts : List (List Char)} {vs : List Value} (h : List.Forall₂ Reads ts vs)
    (hn : (arrayText ts).length < n) (rest : List Char) :
    value? n (depth + 1) (arrayText ts ++ rest) = some (.array vs, rest) := by
  obtain ⟨n, rfl⟩ := Nat.exists_eq_succ_of_ne_zero (Nat.ne_of_gt (Nat.zero_lt_of_lt hn))
  have hopen (cs : List Char) : value? (n + 1) (depth + 1) ('[' :: cs) =
      items? n depth [] (skipLines cs.length cs) := by
    rw [value?]
  cases h with
  | nil =>
    have hclosing : Solid (']' :: rest) := solid_cons rfl (by decide) rest
    obtain ⟨n, rfl⟩ : ∃ m, n = m + 1 := ⟨n - 1, by simp [arrayText] at hn; omega⟩
    show value? (n + 2) (depth + 1) ('[' :: ']' :: rest) = _
    rw [hopen, hclosing.skipLines, items?]
    rfl
  | @cons t v ts vs ht hts =>
    cases hts with
    | nil =>
      obtain ⟨n, rfl⟩ : ∃ m, n = m + 2 := ⟨n - 2, by simp [arrayText] at hn; omega⟩
      have htext : arrayText [t] ++ rest = '[' :: (t ++ ']' :: rest) := by
        simp [arrayText]
      rw [htext, hopen, (ht.solid.append _).skipLines, items?_closing ht]
      rfl
    | @cons t' v' ts vs ht' hts =>
      have harray : arrayText (t :: t' :: ts) =
          '[' :: '\n' :: (itemLines (t :: t' :: ts) ++ [']']) := rfl
      have hitems := List.Forall₂.cons ht (List.Forall₂.cons ht' hts)
      have hsame := hitems.length_eq
      generalize t :: t' :: ts = ts at *
      generalize v :: v' :: vs = vs at *
      have htext : arrayText ts ++ rest = '[' :: '\n' :: (itemLines ts ++ ']' :: rest) := by
        simp [harray]
      have hlength : ('\n' :: (itemLines ts ++ ']' :: rest)).length =
          (itemLines ts).length + rest.length + 2 := by
        simp only [List.length_cons, List.length_append]
        omega
      have hle := length_le_itemLines ts
      rw [harray, List.length_cons, List.length_cons, List.length_append] at hn
      rw [htext, hopen, hlength, items?_itemLines hitems depth rest [] n _ (by omega)]
      rfl

theorem forall₂_reads {ts : List (List Char)} {vs : List Value} (hvs : ∀ v ∈ vs, IsScalar v)
    (h : vs.mapM scalarText? = some ts) : List.Forall₂ Reads ts vs :=
  forall₂_of_mapM (fun v hv _ ht => reads_scalarText (hvs v hv) ht) h

theorem IsScalar.valueText?_eq (h : IsScalar v) : valueText? v = scalarText? v := by
  cases h <;> rfl

theorem solid_valueText (hv : IsWritten v) (h : valueText? v = some t) : Solid t := by
  cases hv with
  | scalar hv => exact (reads_scalarText hv (hv.valueText?_eq ▸ h)).solid
  | array hvs =>
    obtain ⟨ts, -, rfl⟩ := Option.map_eq_some_iff.1 h
    have hopen : ∃ cs, arrayText ts = '[' :: cs := by
      rcases ts with _ | ⟨_, _ | ⟨_, _⟩⟩ <;> exact ⟨_, rfl⟩
    obtain ⟨cs, hcs⟩ := hopen
    rw [hcs]
    exact solid_cons rfl (by decide) cs

/-- The text of a value is read as the value, up to what ends it. -/
theorem value?_valueText (hv : IsWritten v) (h : valueText? v = some t) (hrest : EndsValue rest)
    (hn : t.length < n) : value? n (depth + 1) (t ++ rest) = some (v, rest) := by
  cases hv with
  | scalar hv =>
    obtain ⟨n, rfl⟩ := Nat.exists_eq_succ_of_ne_zero (Nat.ne_of_gt (Nat.zero_lt_of_lt hn))
    rw [hv.valueText?_eq] at h
    exact (reads_scalarText hv h).read n (depth + 1) rest hrest
  | array hvs =>
    obtain ⟨ts, hts, rfl⟩ := Option.map_eq_some_iff.1 h
    exact value?_arrayText (forall₂_reads hvs hts) hn rest

/-! ## Integers that do not fit -/

/-- The integer is the value or one of its items. -/
def Value.Holds (v : Value) (k : Int) : Prop :=
  v = .integer k ∨ ∃ vs, v = .array vs ∧ .integer k ∈ vs

theorem scalarText?_eq_none_iff (hv : IsScalar v) :
    scalarText? v = none ↔ ∃ k, v = .integer k ∧ fitsSigned k = false := by
  cases hv with
  | integer k =>
    show integerText? k = none ↔ _
    unfold integerText?
    split <;> simp_all
  | boolean b => cases b <;> simp [scalarText?]
  | string s => simp [scalarText?]
  | float _ => simp [scalarText?]

theorem mapM_eq_none_iff {α β : Type} {f : α → Option β} {as : List α} :
    as.mapM f = none ↔ ∃ a ∈ as, f a = none := by
  constructor
  · intro h
    by_contra hall
    push Not at hall
    obtain ⟨bs, hbs, -⟩ := Json.exists_mapM fun a ha => Option.ne_none_iff_exists'.1 (hall a ha)
    exact absurd (h.symm.trans hbs) (by simp)
  · rintro ⟨a, ha, hnone⟩
    exact Json.mapM_eq_none ha hnone

/-- A value has no text exactly when it holds an integer that does not fit. -/
theorem valueText?_eq_none_iff (hv : IsWritten v) :
    valueText? v = none ↔ ∃ k, v.Holds k ∧ fitsSigned k = false := by
  cases hv with
  | scalar hv =>
    have harray (vs : List Value) : v ≠ .array vs := by
      rintro rfl
      cases hv
    rw [hv.valueText?_eq, scalarText?_eq_none_iff hv]
    simp [Value.Holds, harray]
  | @array vs hvs =>
    rw [show valueText? (.array vs) = (vs.mapM scalarText?).map arrayText from rfl,
      Option.map_eq_none_iff, mapM_eq_none_iff]
    constructor
    · rintro ⟨v, hv, hnone⟩
      obtain ⟨k, rfl, hk⟩ := (scalarText?_eq_none_iff (hvs v hv)).1 hnone
      exact ⟨k, .inr ⟨vs, rfl, hv⟩, hk⟩
    · rintro ⟨k, hholds | ⟨us, hus, hmem⟩, hk⟩
      · exact absurd hholds (by simp)
      · obtain rfl := Value.array.inj hus
        exact ⟨_, hmem, (scalarText?_eq_none_iff (hvs _ hmem)).2 ⟨k, rfl, hk⟩⟩

end TreeCorpus.Toml
