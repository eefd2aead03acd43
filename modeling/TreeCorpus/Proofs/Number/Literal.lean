import TreeCorpus.Number.Decimal
import TreeCorpus.Proofs.Text.Words

/-!
# Decimal texts are words

A text that reads as a number holds signs, digits, points and letters only, so it is one word
(`isWord_of_ofText?`).
-/

namespace TreeCorpus.Number

/-! ## Plain characters -/

/-- A character between the space and the next blank after it. -/
def IsPlain (c : Char) : Prop := 32 < c.toNat ∧ c.toNat < 133

instance (c : Char) : Decidable (IsPlain c) := inferInstanceAs (Decidable (_ ∧ _))

variable {c : Char} {cs : List Char}

theorem IsPlain.not_blank (h : IsPlain c) : Text.isBlank c = false := by
  obtain ⟨hlow, hhigh⟩ := h
  simp [Text.isBlank, Text.blankRanges]
  omega

theorem isPlain_of_isDigit (h : c.isDigit = true) : IsPlain c := by
  obtain ⟨hlow, hhigh⟩ := Char.isDigit_iff_toNat.1 h
  have h0 : '0'.toNat = 48 := rfl
  have h9 : '9'.toNat = 57 := rfl
  constructor <;> omega

/-- Only letters have another lower case. -/
theorem isPlain_of_toLower (h : IsPlain c.toLower) : IsPlain c := by
  unfold Char.toLower at h
  split at h
  · rename_i hletter
    have hlow : 65 ≤ c.toNat := hletter.1
    have hhigh : c.toNat ≤ 90 := hletter.2
    constructor <;> omega
  · exact h

/-! ## Literals -/

namespace Literal

theorem isPlain_of_takeSign (h : ∀ c ∈ (takeSign cs).2, IsPlain c) : ∀ c ∈ cs, IsPlain c := by
  unfold takeSign at h
  split at h
  · exact List.forall_mem_cons.2 ⟨by decide, h⟩
  · exact List.forall_mem_cons.2 ⟨by decide, h⟩
  · exact h

theorem isPlain_of_exponent? {e : Int} (h : exponent? cs = some e) : ∀ c ∈ cs, IsPlain c := by
  unfold exponent? at h
  split at h
  · exact fun c hc => absurd hc List.not_mem_nil
  · rename_i mark rest
    split at h
    · rename_i hmark
      dsimp only at h
      split at h
      · rename_i hdigits
        have hmark : IsPlain mark := by
          rcases hmark with rfl | rfl <;> decide
        refine List.forall_mem_cons.2 ⟨hmark, isPlain_of_takeSign fun c hc => ?_⟩
        exact isPlain_of_isDigit (List.all_eq_true.1 hdigits.2 c hc)
      · exact absurd h (by simp)
    · exact absurd h (by simp)

theorem isPlain_of_split (hrest : ∀ c ∈ cs.dropWhile Char.isDigit, IsPlain c) :
    ∀ c ∈ cs, IsPlain c := by
  intro c hc
  rw [← List.takeWhile_append_dropWhile (p := Char.isDigit) (l := cs)] at hc
  rcases List.mem_append.1 hc with hc | hc
  · exact isPlain_of_isDigit (List.all_eq_true.1 List.all_takeWhile c hc)
  · exact hrest c hc

theorem isPlain_of_unsigned? {negative : Bool} {l : Literal} (h : unsigned? negative cs = some l) :
    ∀ c ∈ cs, IsPlain c := by
  have htail {a b : Prop} [Decidable (a ∧ b)] {tail : List Char} {f : Int → Literal}
      (h : (if a ∧ b then none else (exponent? tail).map f) = some l) : ∀ c ∈ tail, IsPlain c := by
    split at h
    · exact absurd h (by simp)
    · obtain ⟨e, he, -⟩ := Option.map_eq_some_iff.1 h
      exact isPlain_of_exponent? he
  apply isPlain_of_split
  unfold unsigned? at h
  dsimp only at h
  split at h
  · rename_i ds hrest
    rw [hrest]
    exact List.forall_mem_cons.2 ⟨by decide, isPlain_of_split (htail h)⟩
  · exact htail h

theorem isPlain_of_ofChars? {l : Literal} (h : ofChars? cs = some l) : ∀ c ∈ cs, IsPlain c := by
  apply isPlain_of_takeSign
  have hword {word : List Char} (hw : word.all (fun c => decide (IsPlain c)) = true)
      (he : (takeSign cs).2.map Char.toLower = word) : ∀ c ∈ (takeSign cs).2, IsPlain c := by
    intro c hc
    apply isPlain_of_toLower
    have hmem : c.toLower ∈ word := he ▸ List.mem_map_of_mem hc
    exact of_decide_eq_true (List.all_eq_true.1 hw c.toLower hmem)
  unfold ofChars? at h
  dsimp only at h
  split at h
  · rename_i hinf
    rcases hinf with hinf | hinf
    · exact hword (by decide) hinf
    · exact hword (by decide) hinf
  · split at h
    · rename_i hnan
      exact hword (by decide) hnan
    · exact isPlain_of_unsigned? h

end Literal

/-- A text that reads as a number is a word. -/
theorem isWord_of_ofText? {f : Format} {s : String} {v : Binary f}
    (h : Binary.ofText? s = some v) : Text.IsWord s := by
  obtain ⟨l, hl, -⟩ := Option.map_eq_some_iff.1 h
  refine ⟨?_, fun c hc => (Literal.isPlain_of_ofChars? hl c hc).not_blank⟩
  intro hnil
  rw [hnil] at hl
  exact absurd hl (by simp [Literal.ofChars?, Literal.takeSign, Literal.unsigned?])

end TreeCorpus.Number
