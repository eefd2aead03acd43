import TreeCorpus.Number.Size

/-!
# Digit strings without a leading zero

A digit string that does not start with a zero is the decimal text of its value
(`toDigits_ofDigits`), and only the text of zero starts with one (`head?_toDigits`). So such strings
and the numbers above zero stand for each other.
-/

namespace TreeCorpus.Number

variable {ds : List Char} {d : Char}

theorem isDigit_of_mem_toDigits {n : Nat} : ∀ c ∈ Nat.toDigits 10 n, c.isDigit = true :=
  fun _ hc => Nat.isDigit_of_mem_toDigits (by decide) (by decide) hc

theorem toDigits_of_isDigit (h : d.isDigit = true) :
    d.toNat - '0'.toNat < 10 ∧ Nat.toDigits 10 (d.toNat - '0'.toNat) = [d] := by
  obtain ⟨hlow, hhigh⟩ := Char.isDigit_iff_toNat.1 h
  have h0 : '0'.toNat = 48 := rfl
  have h9 : '9'.toNat = 57 := rfl
  have hlt : d.toNat - '0'.toNat < 10 := by omega
  have hsame : (d.toNat - '0'.toNat).digitChar = d := by
    apply Char.toNat_inj.1
    have hvalue := Nat.toNat_digitChar_sub_48_of_lt_ten hlt
    have hdigit : ((d.toNat - '0'.toNat).digitChar).isDigit = true := by
      rw [Nat.isDigit_digitChar]
      exact decide_eq_true hlt
    obtain ⟨hlow', -⟩ := Char.isDigit_iff_toNat.1 hdigit
    omega
  rw [Nat.toDigits_of_lt_base hlt, hsame]
  exact ⟨hlt, rfl⟩

/-- Digits after those of a number above zero are read on from that number. -/
theorem toDigits_append_of_isDigit (hdigits : ∀ d ∈ ds, d.isDigit = true) {n : Nat} (hn : 0 < n) :
    Nat.toDigits 10 n ++ ds = Nat.toDigits 10 (Nat.ofDigitChars 10 ds n) := by
  induction ds generalizing n with
  | nil => rw [List.append_nil, Nat.ofDigitChars_nil]
  | cons d ds ih =>
    obtain ⟨hd, hds⟩ := List.forall_mem_cons.1 hdigits
    obtain ⟨hlt, hself⟩ := toDigits_of_isDigit hd
    calc Nat.toDigits 10 n ++ d :: ds
        = Nat.toDigits 10 n ++ Nat.toDigits 10 (d.toNat - '0'.toNat) ++ ds := by
          rw [hself, List.append_assoc]
          rfl
      _ = Nat.toDigits 10 (10 * n + (d.toNat - '0'.toNat)) ++ ds := by
          rw [Nat.toDigits_append_toDigits (by decide) hn hlt]
      _ = Nat.toDigits 10 (Nat.ofDigitChars 10 (d :: ds) n) := by
          rw [ih hds (by omega), Nat.ofDigitChars_cons]

theorem toDigits_ofDigits (hdigits : ∀ d ∈ ds, d.isDigit = true) (hne : ds ≠ [])
    (hhead : ds.head? ≠ some '0') : Nat.toDigits 10 (ofDigits ds) = ds := by
  obtain ⟨d, ds, rfl⟩ := List.exists_cons_of_ne_nil hne
  obtain ⟨hd, hds⟩ := List.forall_mem_cons.1 hdigits
  obtain ⟨-, hself⟩ := toDigits_of_isDigit hd
  have hpos : 0 < d.toNat - '0'.toNat := by
    apply Nat.pos_of_ne_zero
    intro h0
    rw [h0, Nat.toDigits_zero] at hself
    obtain rfl : '0' = d := List.head_eq_of_cons_eq hself
    exact hhead rfl
  have hvalue : ofDigits (d :: ds) = Nat.ofDigitChars 10 ds (d.toNat - '0'.toNat) := by
    show Nat.ofDigitChars 10 (d :: ds) 0 = _
    rw [Nat.ofDigitChars_cons, Nat.mul_zero, Nat.zero_add]
  rw [hvalue, ← toDigits_append_of_isDigit hds hpos, hself]
  rfl

/-- Only zero is written with a zero in front. -/
theorem head?_toDigits (n : Nat) (h : (Nat.toDigits 10 n).head? = some '0') : n = 0 := by
  have hdigit : ∀ d < 10, Nat.digitChar d = '0' → d = 0 := by decide
  induction n using Nat.strongRecOn with
  | ind n ih =>
    rw [Nat.toDigits_eq_if (by decide)] at h
    split at h
    · rename_i hlt
      exact hdigit n hlt (Option.some.inj h)
    · rename_i hge
      obtain ⟨c, cs, hc⟩ :=
        List.exists_cons_of_ne_nil (Nat.toDigits_ne_nil (n := n / 10) (b := 10))
      rw [hc] at h
      have := ih (n / 10) (by omega) (by rw [hc]; exact h)
      omega

/-- A digit string is read as a size if its value is one. -/
theorem sizeOfDigits?_eq_some_iff {n : Nat} :
    sizeOfDigits? ds = some n ↔
      ds ≠ [] ∧ (∀ c ∈ ds, c.isDigit = true) ∧ ofDigits ds = n ∧ n < sizeLimit := by
  unfold sizeOfDigits?
  by_cases hds : ds ≠ [] ∧ ds.all Char.isDigit
  · rw [if_pos hds]
    dsimp only
    by_cases hlt : ofDigits ds < sizeLimit
    · rw [if_pos hlt, Option.some.injEq]
      refine ⟨?_, fun h => h.2.2.1⟩
      rintro rfl
      exact ⟨hds.1, List.all_eq_true.1 hds.2, rfl, hlt⟩
    · rw [if_neg hlt]
      refine ⟨fun h => absurd h (by simp), ?_⟩
      rintro ⟨-, -, rfl, hn⟩
      exact absurd hn hlt
  · rw [if_neg hds]
    exact ⟨fun h => absurd h (by simp), fun h => absurd ⟨h.1, List.all_eq_true.2 h.2.1⟩ hds⟩

/-- A size that is read from digits without a leading zero has these digits. -/
theorem toDigits_of_sizeOfDigits? {n : Nat} (h : sizeOfDigits? ds = some n)
    (hhead : ds.head? ≠ some '0') : Nat.toDigits 10 n = ds := by
  obtain ⟨hne, hdigits, rfl, -⟩ := sizeOfDigits?_eq_some_iff.1 h
  exact toDigits_ofDigits hdigits hne hhead

/-- A size is read back from its decimal text. -/
theorem sizeOfDigits?_toDigits {n : Nat} (hn : n < sizeLimit) :
    sizeOfDigits? (Nat.toDigits 10 n) = some n :=
  sizeOfDigits?_eq_some_iff.2
    ⟨Nat.toDigits_ne_nil, isDigit_of_mem_toDigits, Nat.ofDigitChars_ten_toDigits, hn⟩

end TreeCorpus.Number
