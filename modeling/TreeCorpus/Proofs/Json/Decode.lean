import TreeCorpus.Proofs.Json.RoundTrip
import TreeCorpus.Proofs.Number.Digits

/-!
# Decoding what was encoded

The text of a string decodes to the string, and the text of a size to the size, exactly when it is
one (`size?_ofNat`). A list decodes item by item (`list?_array`), and a record to the values of its
fields, whatever these are (`fields?_ofMembers`).
-/

namespace TreeCorpus.Json

open Number

/-! ## Digits of a number -/

/-- A natural number as the parts of its text. -/
def natParts (n : Nat) : Parts := ⟨false, Nat.toDigits 10 n, [], none⟩

theorem chars_natParts (n : Nat) : (natParts n).chars = Nat.toDigits 10 n := by
  simp [natParts, Parts.chars, Parts.signChars, Parts.fractionChars, Parts.exponentChars]

theorem valid_natParts (n : Nat) : (natParts n).Valid where
  whole_ne_nil := Nat.toDigits_ne_nil
  whole_digits := isDigit_of_mem_toDigits
  whole_head h := by
    obtain rfl := head?_toDigits n h
    rfl
  fraction_digits c hc := absurd hc List.not_mem_nil
  exponent_digits e he := by simp [natParts] at he

theorem le_ofDigitChars (ds : List Char) (n : Nat) : n ≤ Nat.ofDigitChars 10 ds n := by
  rw [Nat.ofDigitChars_eq_ofDigitChars_zero]
  have := Nat.pow_pos (n := ds.length) (show 0 < 10 by decide)
  have := Nat.le_mul_of_pos_left n this
  omega

/-- A digit string that spells a size is read to its end. -/
theorem leadingSize_of_lt {ds : List Char} {n : Nat}
    (h : Nat.ofDigitChars 10 ds n < sizeLimit) :
    leadingSize n ds = (Nat.ofDigitChars 10 ds n, 0) := by
  induction ds generalizing n with
  | nil => rfl
  | cons d ds ih =>
    rw [Nat.ofDigitChars_cons] at h ⊢
    have hle := le_ofDigitChars ds (10 * n + (d.toNat - '0'.toNat))
    rw [leadingSize]
    simp only [if_pos (Nat.lt_of_le_of_lt hle h)]
    exact ih h

/-- A digit string that spells no size is not read to its end. -/
theorem leadingSize_of_le {ds : List Char} {n : Nat} (hn : n < sizeLimit)
    (h : sizeLimit ≤ Nat.ofDigitChars 10 ds n) : (leadingSize n ds).2 ≠ 0 := by
  induction ds generalizing n with
  | nil =>
    rw [Nat.ofDigitChars_nil] at h
    omega
  | cons d ds ih =>
    rw [Nat.ofDigitChars_cons] at h
    rw [leadingSize]
    split
    · rename_i hm
      exact ih hm h
    · simp

theorem leadingSize_lt {n : Nat} (hn : n < sizeLimit) (ds : List Char) :
    (leadingSize n ds).1 < sizeLimit := by
  induction ds generalizing n with
  | nil => exact hn
  | cons d ds ih =>
    rw [leadingSize]
    split
    · rename_i hm
      exact ih hm
    · exact hn

/-- The number of written parts. -/
theorem numeral?_chars {p : Parts} (h : p.Valid) :
    (number p.chars).numeral? = Spelling.numeral?
      ⟨p.negative, p.whole, p.fraction, p.exponent.map Parts.exponentValue, p.fraction ≠ []⟩ := by
  rw [numeral?, Parts.ofChars_chars h]

/-! ## Sizes -/

/-- Scaling gives no integer. -/
theorem scale?_ne_integer (s : Spelling) (m : Nat) (shift n : Int) :
    s.scale? m shift ≠ some (.integer n) := by
  unfold Spelling.scale?
  dsimp only
  split
  · split <;> simp
  · simp

theorem numeral?_ofNat_of_lt {n : Nat} (h : n < sizeLimit) :
    (ofNat n).numeral? = some (.integer n) := by
  have hvalue : Nat.ofDigitChars 10 (Nat.toDigits 10 n) 0 = n := Nat.ofDigitChars_ten_toDigits
  have hlead : leadingSize 0 (Nat.toDigits 10 n) = (n, 0) := by
    rw [leadingSize_of_lt (by rw [hvalue]; exact h), hvalue]
  rw [ofNat, ← chars_natParts, numeral?_chars (valid_natParts n)]
  simp [Spelling.numeral?, natParts, hlead, integral]

theorem numeral?_ofNat_ne_integer {n : Nat} (h : sizeLimit ≤ n) (m : Int) :
    (ofNat n).numeral? ≠ some (.integer m) := by
  have hvalue : Nat.ofDigitChars 10 (Nat.toDigits 10 n) 0 = n := Nat.ofDigitChars_ten_toDigits
  have hlead : (leadingSize 0 (Nat.toDigits 10 n)).2 ≠ 0 :=
    leadingSize_of_le (by decide) (by rw [hvalue]; exact h)
  rw [ofNat, ← chars_natParts, numeral?_chars (valid_natParts n)]
  simp only [Spelling.numeral?, natParts, hlead, false_and, if_false]
  exact scale?_ne_integer _ _ _ m

/-- A natural number decodes as a size exactly when it is one. -/
theorem size?_ofNat (n : Nat) : (ofNat n).size? = if n < sizeLimit then some n else none := by
  unfold size?
  split
  · rename_i m hm
    by_cases h : n < sizeLimit
    · rw [numeral?_ofNat_of_lt h] at hm
      obtain rfl := Numeral.integer.inj (Option.some.inj hm)
      simp [h]
    · exact absurd hm (numeral?_ofNat_ne_integer (Nat.le_of_not_lt h) m)
  · rename_i hm
    rw [if_neg fun h => hm n (numeral?_ofNat_of_lt h)]

/-- A byte decodes to itself. -/
theorem byte?_ofNat (b : UInt8) : (ofNat b.toNat).byte? = some b := by
  have hlt : b.toNat < sizeLimit := Nat.lt_trans b.toNat_lt (by decide)
  unfold byte?
  rw [size?_ofNat, if_pos hlt]
  simp [b.toNat_lt]

/-! ## Texts and lists -/

/-- A text decodes to itself. -/
theorem text?_ofString (s : String) : (ofString s).text? = some s := by
  show (unquote? (quote s.toList)).map String.ofList = some s
  rw [unquote?_quote, Option.map_some, String.ofList_toList]

section Lists

variable {α β : Type} {item : α → Option β} {as : List α}

theorem mapM_eq_some (g : α → β) (h : ∀ a ∈ as, item a = some (g a)) :
    as.mapM item = some (as.map g) := by
  induction as with
  | nil => rfl
  | cons a as ih =>
    rw [List.mapM_cons, h a List.mem_cons_self, ih fun b hb => h b (List.mem_cons_of_mem a hb)]
    rfl

/-- One item that is not decoded is enough. -/
theorem mapM_eq_none {a : α} (ha : a ∈ as) (h : item a = none) : as.mapM item = none := by
  induction as with
  | nil => exact absurd ha List.not_mem_nil
  | cons b as ih =>
    rw [List.mapM_cons]
    rcases List.mem_cons.1 ha with rfl | ha
    · rw [h]
      rfl
    · rw [ih ha]
      cases item b <;> rfl

theorem exists_mapM (h : ∀ a ∈ as, ∃ b, item a = some b) :
    ∃ bs, as.mapM item = some bs ∧ bs.length = as.length := by
  induction as with
  | nil => exact ⟨[], rfl, rfl⟩
  | cons a as ih =>
    obtain ⟨b, hb⟩ := h a List.mem_cons_self
    obtain ⟨bs, hbs, hlen⟩ := ih fun c hc => h c (List.mem_cons_of_mem a hc)
    refine ⟨b :: bs, ?_, congrArg (· + 1) hlen⟩
    rw [List.mapM_cons, hb, hbs]
    rfl

/-- A list decodes item by item. -/
theorem list?_array (f : α → Json) (item : Json → Option β) (as : List α) :
    (array (as.map f)).list? item = as.mapM fun a => item (f a) := by
  show (as.map f).mapM item = _
  rw [List.mapM_map]
  rfl

/-- A list whose items decode to themselves does so. -/
theorem list?_array_of_eq {f : α → Json} {item : Json → Option α} (h : ∀ a, item (f a) = some a)
    (as : List α) :
    (array (as.map f)).list? item = some as := by
  rw [list?_array, mapM_eq_some id fun a _ => h a, List.map_id]

/-- A list of sizes decodes to itself. -/
theorem list?_sizes {ns : List Nat} (h : ∀ n ∈ ns, n < sizeLimit) :
    (array (ns.map ofNat)).list? size? = some ns := by
  rw [list?_array, mapM_eq_some id fun n hn => by rw [size?_ofNat, if_pos (h n hn)]; rfl,
    List.map_id]

end Lists

/-! ## Records -/

section Fields

variable {f : String} {fs gs : List String} {us vs : List Json}

/-- A member goes to the place of its field, past those that are filled. -/
theorem placeMember_append (h : f ∉ fs) (hlen : fs.length = us.length) (v : Json)
    (ps : List (Option Json)) :
    placeMember (fs ++ f :: gs) (us.map some ++ none :: ps) f v =
      some (us.map some ++ some v :: ps) := by
  induction fs generalizing us with
  | nil =>
    obtain rfl := List.length_eq_zero_iff.1 hlen.symm
    simp [placeMember]
  | cons g fs ih =>
    obtain ⟨u, us, rfl⟩ := List.exists_cons_of_length_eq_add_one hlen.symm
    rw [List.mem_cons, not_or] at h
    simp only [List.cons_append, List.map_cons, placeMember, if_neg (Ne.symm h.1),
      ih h.2 (Nat.succ.inj hlen), Option.map_some]

/-- The members of the last fields fill the places that are left. -/
theorem foldlM_placeMember (hnodup : (fs ++ gs).Nodup) (hfs : fs.length = us.length)
    (hgs : gs.length = vs.length) :
    ((gs.zip vs).map fun m => (quote m.1.toList, m.2)).foldlM
        (fun places m => do
          let name ← unquote? m.1
          placeMember (fs ++ gs) places (String.ofList name) m.2)
        (us.map some ++ gs.map fun _ => none) =
      some ((us ++ vs).map some) := by
  induction gs generalizing fs us vs with
  | nil =>
    obtain rfl := List.length_eq_zero_iff.1 hgs.symm
    simp
  | cons g gs ih =>
    obtain ⟨v, vs, rfl⟩ := List.exists_cons_of_length_eq_add_one hgs.symm
    have hg : g ∉ fs := fun h =>
      (List.nodup_append.1 hnodup).2.2 g h g List.mem_cons_self rfl
    have hnext := @ih (fs ++ [g]) (us ++ [v]) vs
      (by rwa [List.append_assoc]) (by simp [hfs]) (Nat.succ.inj hgs)
    simp only [List.append_assoc, List.cons_append, List.nil_append, List.map_append,
      List.map_cons, List.map_nil, Option.bind_eq_bind] at hnext
    simp only [List.zip_cons_cons, List.map_cons, List.foldlM_cons, unquote?_quote,
      Option.bind_eq_bind, Option.bind_some, String.ofList_toList,
      placeMember_append hg hfs]
    rw [hnext, List.map_append, List.map_cons]

/-- A record decodes to the values of its fields. -/
theorem fields?_ofMembers (hnodup : gs.Nodup) (hlen : gs.length = vs.length) :
    (ofMembers (gs.zip vs)).fields? gs = some vs := by
  have hplaces := @foldlM_placeMember [] gs [] vs hnodup rfl hlen
  simp only [List.map_nil, List.nil_append] at hplaces
  unfold ofMembers fields?
  dsimp only
  rw [hplaces]
  show (vs.map some).mapM id = some vs
  rw [List.mapM_map]
  exact (mapM_eq_some id fun v _ => rfl).trans (by rw [List.map_id])

end Fields

/-! ## Spelled values -/

theorem spelledItems_iff {vs : List Json} : SpelledItems vs ↔ ∀ v ∈ vs, v.Spelled := by
  induction vs with
  | nil => simp [SpelledItems]
  | cons v vs ih => simp [SpelledItems, ih]

theorem spelled_ofString (s : String) : (ofString s).Spelled := ⟨s.toList, rfl⟩

theorem spelled_ofNat (n : Nat) : (ofNat n).Spelled :=
  ⟨natParts n, valid_natParts n, (chars_natParts n).symm⟩

theorem spelled_array {α : Type} {f : α → Json} (h : ∀ a, (f a).Spelled) (as : List α) :
    (array (as.map f)).Spelled := by
  refine spelledItems_iff.2 fun v hv => ?_
  obtain ⟨a, -, rfl⟩ := List.mem_map.1 hv
  exact h a

/-- An object of spelled values is spelled, whatever its keys. -/
theorem spelled_ofMembers {ms : List (String × Json)} (h : ∀ m ∈ ms, m.2.Spelled) :
    (ofMembers ms).Spelled := by
  show SpelledMembers (ms.map fun m => (quote m.1.toList, m.2))
  induction ms with
  | nil => trivial
  | cons m ms ih =>
    exact ⟨⟨m.1.toList, rfl⟩, h m List.mem_cons_self,
      ih fun m' hm => h m' (List.mem_cons_of_mem m hm)⟩

end TreeCorpus.Json
