import TreeCorpus.Toml.Text
import TreeCorpus.Toml.Writer

/-!
# Strings that are written are read

A string is read character by character, as it is spelled (`Spells`). Only in a string of several
lines the marks of its own kind are taken as runs: up to two of them stand for themselves, and those
at the end are read with the closing ones (`SpellsLines`). So every text is read back from the form
that is chosen for it (`string?_quoteText`).
-/

namespace TreeCorpus.Toml

open Number

variable {q : Quote} {c : Char} {s cs ss acc rest : List Char}

/-! ## Characters -/

theorem Quote.of?_mark (q : Quote) : Quote.of? q.mark = some q := by
  cases q <;> rfl

theorem Quote.mark_ne_backslash (q : Quote) : q.mark ≠ '\\' := by
  cases q <;> decide

/-- How a character is spelled in a string. A line feed stands for itself in a string of several
lines. -/
inductive Spells (q : Quote) (lines : Bool) : Char → List Char → Prop
  | plain {c : Char} (hc : isPlain c = true) (hmark : c ≠ q.mark)
      (hbasic : q = .basic → c ≠ '\\') : Spells q lines c [c]
  | escape {c e : Char} {s : List Char} (hq : q = .basic) (hspace : isSpace e = false)
      (hbreak : e ≠ '\n') (hreturn : e ≠ '\r')
      (hread : ∀ rest, escape? (e :: s ++ rest) = some (c, rest)) :
      Spells q lines c ('\\' :: e :: s)
  | lineFeed (hlines : lines = true) : Spells q lines '\n' ['\n']

theorem hexNumber?_control : ∀ n < 128,
    hexNumber? ['0', '0', (hexDigit (n / 16)).toUpper, (hexDigit (n % 16)).toUpper] = some n := by
  decide

theorem escape?_control {n : Nat} (hn : n < 128) (hc : c.toNat = n) (rest : List Char) :
    escape? ('u' :: '0' :: '0' :: (hexDigit (n / 16)).toUpper :: (hexDigit (n % 16)).toUpper ::
      rest) = some (c, rest) := by
  have hvalid : n.isValidChar := Or.inl (by omega)
  have hchar : charOf? n = some c := by
    unfold charOf?
    rw [dif_pos hvalid]
    exact congrArg some (Char.ext (UInt32.toNat_inj.1 hc.symm))
  simp [escape?, codePoint?, hexNumber?_control n hn, hchar]

theorem isPlain_of_not_isControl (h : isControl c = false) (hbreak : c ≠ '\n') :
    isPlain c = true := by
  unfold isControl at h
  unfold isPlain
  by_cases htab : c = '\t'
  · simp [htab]
  · simp only [ne_eq, htab, not_false_eq_true, decide_true, hbreak, Bool.true_and,
      Bool.or_eq_false_iff, decide_eq_false_iff_not, Nat.not_lt] at h
    simp [h.1, h.2]

theorem isControl_lt (h : isControl c = true) : c.toNat < 128 := by
  unfold isControl at h
  simp only [Bool.and_eq_true, Bool.or_eq_true, decide_eq_true_eq] at h
  omega

/-- A character that is no quote is spelled as it is written with escapes. -/
theorem spells_escapeChar (lines : Bool) (hc : c ≠ '"') :
    Spells .basic lines c (escapeChar lines c) := by
  unfold escapeChar
  split
  · subst_vars
    exact .escape rfl rfl (by decide) (by decide) fun _ => rfl
  split
  · subst_vars
    exact .escape rfl rfl (by decide) (by decide) fun _ => rfl
  split
  · subst_vars
    cases lines with
    | true => exact .lineFeed rfl
    | false => exact .escape rfl rfl (by decide) (by decide) fun _ => rfl
  split
  · subst_vars
    exact .escape rfl rfl (by decide) (by decide) fun _ => rfl
  split
  · subst_vars
    exact .escape rfl rfl (by decide) (by decide) fun _ => rfl
  split
  · subst_vars
    exact .escape rfl rfl (by decide) (by decide) fun _ => rfl
  split
  · rename_i hcontrol
    exact .escape rfl rfl (by decide) (by decide) (escape?_control (isControl_lt hcontrol) rfl)
  · rename_i hbreak _ _ hslash hcontrol
    exact .plain (isPlain_of_not_isControl (by simpa using hcontrol) hbreak) hc fun _ => hslash

theorem spells_quote (lines : Bool) : Spells .basic lines '"' ['\\', '"'] :=
  .escape rfl rfl (by decide) (by decide) fun _ => rfl

theorem spells_self (hcontrol : isControl c = false) (hmark : c ≠ '\'') :
    Spells .literal true c [c] := by
  by_cases hbreak : c = '\n'
  · subst hbreak
    exact .lineFeed rfl
  · exact .plain (isPlain_of_not_isControl hcontrol hbreak) hmark fun h => absurd h (by decide)

/-- No spelling starts with a mark. -/
theorem Spells.exists_cons {lines : Bool} (h : Spells q lines c s) :
    ∃ d ds, s = d :: ds ∧ d ≠ q.mark := by
  cases h with
  | plain _ hmark _ => exact ⟨_, _, rfl, hmark⟩
  | escape _ _ _ _ _ => exact ⟨_, _, rfl, q.mark_ne_backslash.symm⟩
  | lineFeed _ => exact ⟨_, _, rfl, by cases q <;> decide⟩

/-! ## Strings of one line -/

/-- One step reads one character. -/
theorem Spells.takeLine (h : Spells q false c s) (n : Nat) :
    takeLine q acc (n + 1) (s ++ rest) = takeLine q (c :: acc) n rest := by
  cases h with
  | plain hc hmark hbasic =>
    have hescape : ¬ (c = '\\' ∧ q = .basic) := fun h => hbasic h.2 h.1
    simp [Toml.takeLine, hmark, hescape, hc]
  | @escape _ e s hq _ _ _ hread =>
    subst hq
    have hmark : '\\' ≠ Quote.basic.mark := by decide
    have hread' := hread rest
    rw [List.cons_append] at hread'
    simp [Toml.takeLine, hmark, hread']
  | lineFeed hlines => exact absurd hlines (by decide)

theorem takeLine_mark {n : Nat} :
    takeLine q acc (n + 1) (q.mark :: rest) = some (String.ofList acc.reverse, rest) := by
  rw [takeLine, if_pos rfl]

/-- A text with escapes for all quotes is read up to the closing quote. -/
theorem takeLine_escapeFrom (rest : List Char) :
    ∀ (cs acc : List Char) (n : Nat), cs.length < n →
      takeLine .basic acc n (escapeFrom false 0 0 cs ++ '"' :: rest) =
        some (String.ofList (acc.reverse ++ cs), rest)
  | [], acc, n + 1, _ => by
    rw [List.append_nil]
    exact takeLine_mark
  | c :: cs, acc, n + 1, h => by
    have ih := takeLine_escapeFrom rest cs (c :: acc) n (Nat.lt_of_succ_lt_succ h)
    rw [List.reverse_cons, List.append_assoc, List.singleton_append] at ih
    by_cases hc : c = '"'
    · subst hc
      exact ((spells_quote false).takeLine n).trans ih
    · rw [escapeFrom, if_neg hc, List.append_assoc, (spells_escapeChar false hc).takeLine n]
      exact ih

/-- A text of plain characters is read up to the closing mark. -/
theorem takeLine_plain (rest : List Char) :
    ∀ (cs acc : List Char) (n : Nat), (∀ c ∈ cs, isPlain c = true ∧ c ≠ '\'') → cs.length < n →
      takeLine .literal acc n (cs ++ '\'' :: rest) =
        some (String.ofList (acc.reverse ++ cs), rest)
  | [], acc, n + 1, _, _ => by
    rw [List.append_nil]
    exact takeLine_mark
  | c :: cs, acc, n + 1, hcs, h => by
    have hc := hcs c List.mem_cons_self
    have ih := takeLine_plain rest cs (c :: acc) n (fun d hd => hcs d (List.mem_cons_of_mem c hd))
      (Nat.lt_of_succ_lt_succ h)
    rw [List.reverse_cons, List.append_assoc, List.singleton_append] at ih
    have hspells : Spells .literal false c [c] := .plain hc.1 hc.2 fun h => absurd h (by decide)
    exact (hspells.takeLine n).trans ih

/-! ## Strings of several lines -/

/-- How a text is spelled between three marks. -/
inductive SpellsLines (q : Quote) : List Char → List Char → Prop
  /-- Marks at the end. -/
  | marks {r : Nat} (hr : r ≤ 2) :
      SpellsLines q (List.replicate r q.mark) (List.replicate r q.mark)
  /-- A character with the marks before it. -/
  | char {r : Nat} {c : Char} {s cs ss : List Char} (hr : r ≤ 2) (hc : Spells q true c s)
      (hcs : SpellsLines q cs ss) :
      SpellsLines q (List.replicate r q.mark ++ c :: cs) (List.replicate r q.mark ++ (s ++ ss))

theorem takeWhile_marks (hrest : ∀ c ∈ rest.head?, c ≠ q.mark) (r : Nat) :
    (List.replicate r q.mark ++ rest).takeWhile (· = q.mark) = List.replicate r q.mark := by
  rw [List.takeWhile_append_of_pos (by simp)]
  have hnil : rest.takeWhile (· = q.mark) = [] := by
    cases rest with
    | nil => rfl
    | cons c rest => simp [hrest c rfl]
  rw [hnil, List.append_nil]

/-- One step reads up to two marks. -/
theorem takeLines_marks {r n : Nat} (hr : r < 2) (hrest : ∀ c ∈ rest.head?, c ≠ q.mark) :
    takeLines q acc (n + 1) (List.replicate (r + 1) q.mark ++ rest) =
      takeLines q (List.replicate (r + 1) q.mark ++ acc) n rest := by
  have htake := takeWhile_marks hrest (r + 1)
  rw [List.replicate_succ, List.cons_append] at htake ⊢
  rw [takeLines, if_pos rfl, htake]
  have hlt : r + 1 < 3 := by omega
  simp [hlt, List.replicate_succ]

/-- Three marks with up to two before them close the string. -/
theorem takeLines_close {r n : Nat} (hr : r ≤ 2) (hrest : ∀ c ∈ rest.head?, c ≠ q.mark) :
    takeLines q acc (n + 1) (List.replicate (r + 3) q.mark ++ rest) =
      some (String.ofList (acc.reverse ++ List.replicate r q.mark), rest) := by
  have htake := takeWhile_marks hrest (r + 3)
  have hdrop : (List.replicate (r + 3) q.mark ++ rest).drop (r + 3) = rest := by
    rw [List.drop_left' (List.length_replicate)]
  rw [List.replicate_succ, List.cons_append] at htake hdrop ⊢
  rw [takeLines, if_pos rfl, htake]
  have hlt : r + 3 < 6 := by omega
  have hge : ¬ r + 3 < 3 := by omega
  simp only [List.length_cons, List.length_replicate, hge, if_false, hlt, if_true]
  rw [hdrop]
  rfl

theorem skipLineEnd?_eq_none {e : Char} (hspace : isSpace e = false) (hbreak : e ≠ '\n')
    (hreturn : e ≠ '\r') (cs : List Char) : skipLineEnd? (e :: cs) = none := by
  have hskip : skipSpace (e :: cs) = e :: cs := by
    simp [skipSpace, hspace]
  unfold skipLineEnd?
  rw [hskip]
  simp [skipBreak?, hbreak, hreturn]

theorem ne_return_of_isPlain (h : isPlain c = true) : c ≠ '\n' ∧ c ≠ '\r' := by
  constructor <;>
  · rintro rfl
    exact absurd h (by decide)

/-- One step reads one character. -/
theorem Spells.takeLines (h : Spells q true c s) (n : Nat) :
    takeLines q acc (n + 1) (s ++ rest) = takeLines q (c :: acc) n rest := by
  cases h with
  | plain hc hmark hbasic =>
    have hescape : ¬ (c = '\\' ∧ q = .basic) := fun h => hbasic h.2 h.1
    obtain ⟨hbreak, hreturn⟩ := ne_return_of_isPlain hc
    simp [Toml.takeLines, hmark, hescape, skipBreak?, hbreak, hreturn, hc]
  | @escape _ e s hq hspace hbreak hreturn hread =>
    subst hq
    have hmark : '\\' ≠ Quote.basic.mark := by decide
    have hread' := hread rest
    rw [List.cons_append] at hread'
    simp [Toml.takeLines, hmark, skipLineEnd?_eq_none hspace hbreak hreturn, hread']
  | lineFeed _ =>
    have hmark : '\n' ≠ q.mark := by cases q <;> decide
    simp [Toml.takeLines, hmark, skipBreak?]

/-- A text is read as it is spelled, up to the closing marks. -/
theorem takeLines_of_spells (h : SpellsLines q cs ss) (hrest : ∀ c ∈ rest.head?, c ≠ q.mark) :
    ∀ (acc : List Char) (n : Nat), cs.length < n →
      takeLines q acc n (ss ++ (List.replicate 3 q.mark ++ rest)) =
        some (String.ofList (acc.reverse ++ cs), rest) := by
  induction h with
  | @marks r hr =>
    intro acc n hn
    obtain ⟨n, rfl⟩ := Nat.exists_eq_succ_of_ne_zero (Nat.ne_of_gt (Nat.zero_lt_of_lt hn))
    rw [← List.append_assoc, List.replicate_append_replicate]
    exact takeLines_close hr hrest
  | @char r c s cs ss hr hc hcs ih =>
    intro acc n hn
    obtain ⟨d, ds, hs, hd⟩ := hc.exists_cons
    rw [List.length_append, List.length_replicate, List.length_cons] at hn
    have hmarks : (takeLines q acc n (List.replicate r q.mark ++
        (s ++ (ss ++ (List.replicate 3 q.mark ++ rest)))) = 
          takeLines q (List.replicate r q.mark ++ acc) (n - min r 1)
            (s ++ (ss ++ (List.replicate 3 q.mark ++ rest)))) := by
      cases r with
      | zero => rfl
      | succ r =>
        obtain ⟨n, rfl⟩ := Nat.exists_eq_succ_of_ne_zero (Nat.ne_of_gt (Nat.zero_lt_of_lt hn))
        have hmin : min (r + 1) 1 = 1 := by omega
        rw [takeLines_marks (by omega) (by rw [hs]; simpa using hd), hmin]
        rfl
    obtain ⟨m, hm⟩ : ∃ m, n - min r 1 = m + 1 := ⟨n - min r 1 - 1, by omega⟩
    rw [List.append_assoc, List.append_assoc, hmarks, hm, hc.takeLines m, ih _ m (by omega)]
    simp

/-- A text with escapes for all but two quotes in a row is spelled so. The induction carries the
quotes right before the text. -/
theorem spellsLines_escapeFrom :
    ∀ (cs : List Char) (run : Nat), run ≤ 2 →
      SpellsLines .basic (List.replicate run '"' ++ cs)
        (List.replicate run '"' ++ escapeFrom true 2 run cs)
  | [], run, h => by
    rw [escapeFrom, List.append_nil]
    exact .marks h
  | c :: cs, run, h => by
    rw [escapeFrom]
    by_cases hc : c = '"'
    · subst hc
      rw [if_pos rfl]
      by_cases hrun : run < 2
      · have hsucc (ds : List Char) :
            List.replicate run '"' ++ '"' :: ds = List.replicate (run + 1) '"' ++ ds := by
          rw [List.replicate_succ', List.append_assoc]
          rfl
        rw [if_pos hrun, hsucc, hsucc]
        exact spellsLines_escapeFrom cs (run + 1) hrun
      · rw [if_neg hrun]
        exact .char h (spells_quote true) (spellsLines_escapeFrom cs 0 (Nat.zero_le 2))
    · rw [if_neg hc]
      exact .char h (spells_escapeChar true hc) (spellsLines_escapeFrom cs 0 (Nat.zero_le 2))

theorem SpellsLines.length_le (h : SpellsLines q cs ss) : cs.length ≤ ss.length := by
  induction h with
  | marks hr => exact Nat.le_refl _
  | char hr hc hcs ih =>
    obtain ⟨d, ds, rfl, -⟩ := hc.exists_cons
    simp only [List.length_append, List.length_replicate, List.length_cons]
    omega

/-! ## The longest run of a mark -/

/-- The runs of a mark, counted on from the state of the count. -/
def runsFrom (c : Char) (r : Nat × Nat) (cs : List Char) : Nat × Nat :=
  cs.foldl
    (fun r d =>
      let run := if d = c then r.1 + 1 else 0
      (run, max run r.2))
    r

theorem runsFrom_cons (c d : Char) (r : Nat × Nat) (cs : List Char) :
    runsFrom c r (d :: cs) =
      runsFrom c (if d = c then r.1 + 1 else 0, max (if d = c then r.1 + 1 else 0) r.2) cs := rfl

theorem le_runsFrom : ∀ (cs : List Char) (r : Nat × Nat), r.2 ≤ (runsFrom c r cs).2
  | [], _ => Nat.le_refl _
  | _ :: cs, r => by
    rw [runsFrom_cons]
    refine Nat.le_trans ?_ (le_runsFrom cs _)
    exact Nat.le_max_right _ r.2

/-- A text without control characters and with at most two marks in a row stands for itself. The
induction carries the marks right before the text. -/
theorem spellsLines_self :
    ∀ (cs : List Char) (run most : Nat), (∀ c ∈ cs, isControl c = false) → run ≤ 2 →
      (runsFrom '\'' (run, most) cs).2 ≤ 2 →
      SpellsLines .literal (List.replicate run '\'' ++ cs) (List.replicate run '\'' ++ cs)
  | [], run, _, _, h, _ => by
    rw [List.append_nil]
    exact .marks h
  | c :: cs, run, most, hcs, h, hruns => by
    have hcs' := fun d hd => hcs d (List.mem_cons_of_mem c hd)
    by_cases hc : c = '\''
    · subst hc
      rw [runsFrom_cons, if_pos rfl] at hruns
      have hrun : run + 1 ≤ 2 :=
        Nat.le_trans (Nat.le_max_left _ most)
          (Nat.le_trans (le_runsFrom cs (run + 1, max (run + 1) most)) hruns)
      have hsucc : List.replicate run '\'' ++ '\'' :: cs = List.replicate (run + 1) '\'' ++ cs := by
        rw [List.replicate_succ', List.append_assoc]
        rfl
      rw [hsucc]
      exact spellsLines_self cs (run + 1) _ hcs' hrun hruns
    · rw [runsFrom_cons, if_neg hc] at hruns
      exact .char h (spells_self (hcs c List.mem_cons_self) hc)
        (spellsLines_self cs 0 _ hcs' (Nat.zero_le 2) hruns)

theorem notMem_of_longestRun (h : longestRun c cs = 0) : c ∉ cs := by
  suffices hruns : ∀ (cs : List Char) (r : Nat × Nat), (runsFrom c r cs).2 = 0 → c ∉ cs from
    hruns cs (0, 0) h
  intro cs
  induction cs with
  | nil => exact fun _ _ => List.not_mem_nil
  | cons d cs ih =>
    intro r hr hmem
    rcases List.mem_cons.1 hmem with rfl | hmem
    · rw [runsFrom_cons, if_pos rfl] at hr
      have hle := le_runsFrom (c := c) cs (r.1 + 1, max (r.1 + 1) r.2)
      rw [hr] at hle
      exact absurd (Nat.le_trans (Nat.le_max_left _ _) hle) (by simp)
    · exact ih _ hr hmem

/-! ## All forms -/

theorem string?_line (hcs : ¬ [q.mark, q.mark] <+: cs) :
    string? (q.mark :: cs) = takeLine q [] cs.length cs := by
  have hline : lineString? (q.mark :: cs) = takeLine q [] cs.length cs := by
    rw [lineString?, Quote.of?_mark]
  rcases cs with _ | ⟨d, _ | ⟨e, cs⟩⟩
  · exact hline
  · exact hline
  · have hde : ¬ (d = q.mark ∧ e = q.mark) := by
      rintro ⟨rfl, rfl⟩
      exact hcs ⟨cs, rfl⟩
    rw [string?, Quote.of?_mark]
    simp only [hde, if_false]
    exact hline

theorem string?_lines (q : Quote) (cs : List Char) :
    string? (q.mark :: q.mark :: q.mark :: cs) =
      takeLines q [] ((skipBreak? cs).getD cs).length ((skipBreak? cs).getD cs) := by
  rw [string?, Quote.of?_mark]
  simp

/-- The opening mark of a string of one line is not followed by two more. -/
theorem not_prefix_marks (hcs : q.mark ∉ cs ∨ ∃ d ds, cs = d :: ds ∧ d ≠ q.mark)
    (hrest : ∀ c ∈ rest.head?, c ≠ q.mark) : ¬ [q.mark, q.mark] <+: cs ++ q.mark :: rest := by
  rintro ⟨ds, hds⟩
  rcases cs with _ | ⟨d, cs⟩
  · obtain ⟨-, hrest'⟩ := List.cons.inj hds
    exact hrest q.mark (by rw [← hrest']; rfl) rfl
  · obtain ⟨hd, -⟩ := List.cons.inj hds
    rcases hcs with hcs | ⟨d', ds', hcs, hne⟩
    · exact hcs (hd ▸ List.mem_cons_self)
    · obtain ⟨rfl, -⟩ := List.cons.inj hcs
      exact hne hd.symm

theorem length_le_escapeFrom (lines : Bool) (allowed : Nat) :
    ∀ (cs : List Char) (run : Nat), cs.length ≤ (escapeFrom lines allowed run cs).length
  | [], _ => Nat.le_refl 0
  | c :: cs, run => by
    rw [escapeFrom]
    by_cases hc : c = '"'
    · rw [if_pos hc]
      split
      · exact Nat.succ_le_succ (length_le_escapeFrom lines allowed cs _)
      · exact Nat.le_succ_of_le (Nat.succ_le_succ (length_le_escapeFrom lines allowed cs 0))
    · obtain ⟨d, ds, hds, -⟩ := (spells_escapeChar lines hc).exists_cons
      have ih := length_le_escapeFrom lines allowed cs 0
      rw [if_neg hc, hds, List.length_append, List.length_cons, List.length_cons]
      omega

/-- A text with escapes between quotes is read. -/
theorem string?_escapeFrom (cs : List Char) (hrest : ∀ c ∈ rest.head?, c ≠ '"') :
    string? ('"' :: (escapeFrom false 0 0 cs ++ '"' :: rest)) =
      some (String.ofList cs, rest) := by
  have hhead : Quote.basic.mark ∉ escapeFrom false 0 0 cs ∨
      ∃ d ds, escapeFrom false 0 0 cs = d :: ds ∧ d ≠ Quote.basic.mark := by
    cases cs with
    | nil => exact .inl List.not_mem_nil
    | cons c cs =>
      right
      by_cases hc : c = '"'
      · subst hc
        exact ⟨_, _, rfl, by decide⟩
      · obtain ⟨d, ds, hds, hd⟩ := (spells_escapeChar false hc).exists_cons
        rw [escapeFrom, if_neg hc, hds]
        exact ⟨_, _, rfl, hd⟩
  have hlen := length_le_escapeFrom false 0 cs 0
  refine (string?_line (q := .basic) (not_prefix_marks hhead hrest)).trans ?_
  refine takeLine_escapeFrom rest cs [] _ ?_
  rw [List.length_append, List.length_cons]
  omega

/-- A text of plain characters between apostrophes is read. -/
theorem string?_plain (hcs : ∀ c ∈ cs, isPlain c = true ∧ c ≠ '\'')
    (hrest : ∀ c ∈ rest.head?, c ≠ '\'') :
    string? ('\'' :: (cs ++ '\'' :: rest)) = some (String.ofList cs, rest) := by
  have hmark : Quote.literal.mark ∉ cs := fun h => (hcs _ h).2 rfl
  refine (string?_line (q := .literal) (not_prefix_marks (.inl hmark) hrest)).trans ?_
  refine takeLine_plain rest cs [] _ hcs ?_
  rw [List.length_append, List.length_cons]
  omega

/-- A text that is spelled between three marks is read. The line break after the marks is one that
was put there. -/
theorem string?_betweenMarks {breaks : Bool} (h : SpellsLines q cs ss)
    (hbreaks : breaks = false → skipBreak? (ss ++ (List.replicate 3 q.mark ++ rest)) = none)
    (hrest : ∀ c ∈ rest.head?, c ≠ q.mark) :
    string? (betweenMarks q.mark breaks ss ++ rest) = some (String.ofList cs, rest) := by
  have hbody : (skipBreak? ((if breaks then ['\n'] else []) ++
      (ss ++ (List.replicate 3 q.mark ++ rest)))).getD ((if breaks then ['\n'] else []) ++
        (ss ++ (List.replicate 3 q.mark ++ rest))) = ss ++ (List.replicate 3 q.mark ++ rest) := by
    cases breaks with
    | true => rfl
    | false =>
      show (skipBreak? (ss ++ (List.replicate 3 q.mark ++ rest))).getD _ = _
      rw [hbreaks rfl]
      rfl
  have htext : betweenMarks q.mark breaks ss ++ rest = q.mark :: q.mark :: q.mark ::
      ((if breaks then ['\n'] else []) ++ (ss ++ (List.replicate 3 q.mark ++ rest))) := by
    simp [betweenMarks, List.replicate_succ]
  rw [htext, string?_lines, hbody]
  refine takeLines_of_spells h hrest [] _ ?_
  have hlen := h.length_le
  simp only [List.length_append, List.length_replicate]
  omega

/-- Only a line feed is spelled as a line break. -/
theorem Spells.skipBreak? {lines : Bool} (h : Spells q lines c s) (hc : c ≠ '\n')
    (rest : List Char) : skipBreak? (s ++ rest) = none := by
  cases h with
  | plain hplain _ _ =>
    have hreturn := (ne_return_of_isPlain hplain).2
    simp [Toml.skipBreak?, hc, hreturn]
  | escape _ _ _ _ _ => rfl
  | lineFeed _ => exact absurd rfl hc

theorem skipBreak?_escapeFrom (hcs : '\n' ∉ cs) (hrest : skipBreak? rest = none) :
    skipBreak? (escapeFrom true 2 0 cs ++ rest) = none := by
  cases cs with
  | nil => exact hrest
  | cons c cs =>
    by_cases hc : c = '"'
    · subst hc
      rfl
    · have hbreak : c ≠ '\n' := fun h => hcs (h ▸ List.mem_cons_self)
      rw [escapeFrom, if_neg hc, List.append_assoc]
      exact (spells_escapeChar true hc).skipBreak? hbreak _

theorem skipBreak?_self (hcontrol : ∀ c ∈ cs, isControl c = false) (hcs : '\n' ∉ cs)
    (hrest : skipBreak? rest = none) : skipBreak? (cs ++ rest) = none := by
  cases cs with
  | nil => exact hrest
  | cons c cs =>
    have hbreak : c ≠ '\n' := fun h => hcs (h ▸ List.mem_cons_self)
    by_cases hc : c = '\''
    · subst hc
      rfl
    · exact (spells_self (hcontrol c List.mem_cons_self) hc).skipBreak? hbreak _

/-- What the forms without escapes ask of a text. -/
theorem Form.of_eq_literal (h : Form.of cs = .literal) :
    (∀ c ∈ cs, isControl c = false) ∧ '\'' ∉ cs ∧ '\n' ∉ cs := by
  unfold Form.of at h
  dsimp only at h
  split at h
  · exact absurd h (by decide)
  split at h
  · rename_i hliteral
    simp only [Bool.and_eq_true, Bool.not_eq_true', decide_eq_true_eq, List.any_eq_false,
      Bool.not_eq_true, List.contains_eq_mem, decide_eq_false_iff_not] at hliteral
    exact ⟨hliteral.1.1, notMem_of_longestRun hliteral.1.2, hliteral.2⟩
  · split at h
    · exact absurd h (by decide)
    split at h
    · exact absurd h (by decide)
    split at h <;> exact absurd h (by decide)

theorem Form.of_eq_literalLines (h : Form.of cs = .literalLines) :
    (∀ c ∈ cs, isControl c = false) ∧ longestRun '\'' cs ≤ 2 := by
  unfold Form.of at h
  dsimp only at h
  split at h
  · exact absurd h (by decide)
  split at h
  · exact absurd h (by decide)
  split at h
  · exact absurd h (by decide)
  split at h
  · rename_i hliteral
    simp only [Bool.and_eq_true, Bool.not_eq_true', decide_eq_true_eq, List.any_eq_false,
      Bool.not_eq_true] at hliteral
    exact hliteral
  · split at h <;> exact absurd h (by decide)

/-- Every text is read back from the form that is chosen for it, if no mark follows. -/
theorem string?_quoteText (s : String) (hrest : ∀ c ∈ rest.head?, c ≠ '"' ∧ c ≠ '\'') :
    string? (quoteText s ++ rest) = some (s, rest) := by
  have hquote : ∀ c ∈ rest.head?, c ≠ Quote.basic.mark := fun c hc => (hrest c hc).1
  have hmark : ∀ c ∈ rest.head?, c ≠ Quote.literal.mark := fun c hc => (hrest c hc).2
  unfold quoteText
  dsimp only
  generalize hbreaks : s.toList.contains '\n' = breaks
  have hnone (h : breaks = false) : '\n' ∉ s.toList := by
    simpa [h] using hbreaks
  cases hform : Form.of s.toList with
  | basic =>
    have hread := string?_escapeFrom s.toList hquote
    rw [String.ofList_toList] at hread
    simpa using hread
  | literal =>
    obtain ⟨hcontrol, hapostrophe, hbreak⟩ := Form.of_eq_literal hform
    have hplain : ∀ c ∈ s.toList, isPlain c = true ∧ c ≠ '\'' := fun c hc =>
      ⟨isPlain_of_not_isControl (hcontrol c hc) fun h => hbreak (h ▸ hc),
        fun h => hapostrophe (h ▸ hc)⟩
    have hread := string?_plain hplain hmark
    rw [String.ofList_toList] at hread
    simpa using hread
  | basicLines =>
    have hspells : SpellsLines .basic s.toList (escapeFrom true 2 0 s.toList) :=
      spellsLines_escapeFrom s.toList 0 (Nat.zero_le 2)
    have hread := string?_betweenMarks hspells
      (fun h => skipBreak?_escapeFrom (hnone h) rfl) hquote
    rw [String.ofList_toList] at hread
    exact hread
  | literalLines =>
    obtain ⟨hcontrol, hruns⟩ := Form.of_eq_literalLines hform
    have hspells : SpellsLines .literal s.toList s.toList :=
      spellsLines_self s.toList 0 0 hcontrol (Nat.zero_le 2) hruns
    have hread := string?_betweenMarks hspells
      (fun h => skipBreak?_self hcontrol (hnone h) rfl) hmark
    rw [String.ofList_toList] at hread
    exact hread

end TreeCorpus.Toml
