import TreeCorpus.Proofs.Toml.Values

/-!
# Documents that are written are read

Each line of a document that is written is a statement (`Line`): the header of a section, or a key
with its value. So the statements are read one after the other (`statements?_documentText`). The
header opens a new table and its pairs are added to that table, so the entries that they set are the
sections (`entriesOfText?_documentText`).
-/

namespace TreeCorpus.Toml

variable {k : String} {t cs rest : List Char} {v : Value} {es : Entries}

/-! ## Statements -/

/-- A key that is written without quotes. -/
def IsBareKey (k : String) : Prop := k.toList ≠ [] ∧ k.toList.all isKeyChar = true

instance (k : String) : Decidable (IsBareKey k) :=
  inferInstanceAs (Decidable (k.toList ≠ [] ∧ k.toList.all isKeyChar = true))

/-- A bare key starts with none of the characters that mean something else before a statement. -/
theorem IsBareKey.exists_cons (h : IsBareKey k) :
    ∃ c ds, k.toList = c :: ds ∧ isKeyChar c = true ∧
      ∀ d ∈ ['[', '"', '\'', '#', '\n', '\r', ' ', '\t'], c ≠ d := by
  obtain ⟨c, ds, hk⟩ := List.exists_cons_of_ne_nil h.1
  have hc : isKeyChar c = true := List.all_eq_true.1 h.2 c (by rw [hk]; exact List.mem_cons_self)
  refine ⟨c, ds, hk, hc, ?_⟩
  rintro d hd rfl
  have hnone : ∀ d ∈ ['[', '"', '\'', '#', '\n', '\r', ' ', '\t'], isKeyChar d = false := by
    simp only [List.mem_cons, List.not_mem_nil, or_false, forall_eq_or_imp, forall_eq]
    decide
  exact absurd hc (by rw [hnone c hd]; decide)

theorem IsBareKey.solid (h : IsBareKey k) (rest : List Char) : Solid (k.toList ++ rest) := by
  obtain ⟨c, ds, hk, -, hc⟩ := h.exists_cons
  rw [hk]
  have hblank := hc ' ' (by decide)
  have htab := hc '\t' (by decide)
  exact ⟨c, ds ++ rest, rfl, by simp [isSpace, hblank, htab], hc '#' (by decide),
    hc '\n' (by decide), hc '\r' (by decide)⟩

/-- A bare key is taken up to the first character that is none of a key. -/
theorem keyPart?_bare (h : IsBareKey k) (hrest : ∀ c ∈ rest.head?, isKeyChar c = false) :
    keyPart? (k.toList ++ rest) = some (k, rest) := by
  obtain ⟨c, ds, hk, -, hc⟩ := h.exists_cons
  have hall := List.all_eq_true.1 h.2
  have hnone : rest.takeWhile isKeyChar = [] ∧ rest.dropWhile isKeyChar = rest := by
    cases rest with
    | nil => exact ⟨rfl, rfl⟩
    | cons d rest => simp [hrest d rfl]
  have htake : (k.toList ++ rest).takeWhile isKeyChar = k.toList := by
    rw [List.takeWhile_append_of_pos hall, hnone.1, List.append_nil]
  have hdrop : (k.toList ++ rest).dropWhile isKeyChar = rest := by
    rw [List.dropWhile_append_of_pos hall, hnone.2]
  have hname : String.ofList (c :: ds) = k := by
    rw [← hk, String.ofList_toList]
  have hquote := hc '"' (by decide)
  have hmark := hc '\'' (by decide)
  rw [hk, List.cons_append] at htake hdrop ⊢
  simp [keyPart?, hquote, hmark, htake, hdrop, hname]

/-- A bare key that no point follows is a key of one part. -/
theorem key?_bare (h : IsBareKey k) (hrest : ∀ c ∈ rest.head?, isKeyChar c = false)
    (hpoint : ∀ c ∈ (skipSpace rest).head?, c ≠ '.') :
    key? (k.toList ++ rest) = some ([k], skipSpace rest) := by
  have hpart := keyPart?_bare h hrest
  unfold key? depthLimit
  show keyParts [] (78 + 1) _ = _
  rw [keyParts, (h.solid rest).skipSpace, hpart]
  dsimp only
  split
  · rename_i hdot
    exact absurd rfl (hpoint '.' (by rw [hdot]; rfl))
  · rfl

theorem statement?_header (h : IsBareKey k) (rest : List Char) :
    statement? ('[' :: (k.toList ++ ']' :: '\n' :: rest)) = some (.table [k], rest) := by
  have hkey : key? (k.toList ++ ']' :: '\n' :: rest) = some ([k], ']' :: '\n' :: rest) :=
    key?_bare h (by simp; decide) (by simp [skipSpace, isSpace])
  have hheader : header? [']'] (k.toList ++ ']' :: '\n' :: rest) = some ([k], rest) := by
    unfold header?
    rw [hkey]
    rfl
  obtain ⟨c, ds, hk, -, hc⟩ := h.exists_cons
  have hbracket := hc '[' (by decide)
  rw [hk, List.cons_append] at hheader ⊢
  simp [statement?, hbracket, hheader]

theorem statement?_pair (h : IsBareKey k) (hv : IsWritten v) (ht : pairText? k v = some t)
    (rest : List Char) : statement? (t ++ rest) = some (.pair [k] v, rest) := by
  obtain ⟨u, hu, rfl⟩ := Option.map_eq_some_iff.1 ht
  have hsolid := (solid_valueText hv hu).append ('\n' :: rest)
  have htext : k.toList ++ ' ' :: '=' :: ' ' :: u ++ ['\n'] ++ rest =
      k.toList ++ ' ' :: '=' :: ' ' :: (u ++ '\n' :: rest) := by
    simp
  have hkey : key? (k.toList ++ ' ' :: '=' :: ' ' :: (u ++ '\n' :: rest)) =
      some ([k], '=' :: ' ' :: (u ++ '\n' :: rest)) :=
    key?_bare h (by simp; decide) (by simp [skipSpace, isSpace])
  have hbefore : keyBefore? (k.toList ++ ' ' :: '=' :: ' ' :: (u ++ '\n' :: rest)) =
      some ([k], u ++ '\n' :: rest) := by
    unfold keyBefore?
    rw [hkey]
    exact congrArg (fun cs => some ([k], cs)) hsolid.skipSpace
  have hvalue : value? (2 * (u ++ '\n' :: rest).length + 2) (depthLimit - 1) (u ++ '\n' :: rest) =
      some (v, '\n' :: rest) := by
    have hdepth : depthLimit - 1 = 78 + 1 := rfl
    rw [hdepth]
    refine value?_valueText hv hu (endsValue_cons (.inl rfl) rest) ?_
    rw [List.length_append]
    omega
  rw [List.length_append, List.length_cons] at hvalue
  obtain ⟨c, ds, hk, -, hc⟩ := h.exists_cons
  have hbracket := hc '[' (by decide)
  have hline : skipLine? ('\n' :: rest) = some rest := rfl
  rw [htext]
  rw [hk, List.cons_append] at hbefore ⊢
  simp [statement?, hbracket, hbefore, hvalue, hline]

/-- A line that is read as a statement, after line breaks that are skipped. -/
structure Line (t : List Char) (s : Statement) : Prop where
  ne_nil : t ≠ []
  read : ∀ rest : List Char, ∃ cs, skipLines (t ++ rest).length (t ++ rest) = cs ∧ Solid cs ∧
    statement? cs = some (s, rest)

theorem Line.of_solid {s : Statement} (hsolid : Solid t)
    (h : ∀ rest, statement? (t ++ rest) = some (s, rest)) : Line t s where
  ne_nil := by
    obtain ⟨c, ds, rfl, -⟩ := hsolid
    exact List.cons_ne_nil c ds
  read := fun rest => ⟨_, (hsolid.append rest).skipLines _, hsolid.append rest, h rest⟩

/-- A line break before a line is skipped. -/
theorem Line.break {s : Statement} (h : Line t s) : Line ('\n' :: t) s where
  ne_nil := List.cons_ne_nil _ t
  read := fun rest => by
    obtain ⟨cs, hskip, hcs⟩ := h.read rest
    exact ⟨cs, hskip, hcs⟩

/-- Lines are read one after the other, each in one step. -/
theorem statementsWithin_of_lines {ts : List (List Char)} {ss : List Statement}
    (h : List.Forall₂ Line ts ss) :
    ∀ (acc : List Statement) (n : Nat), ss.length ≤ n →
      statementsWithin acc n ts.flatten = some (acc.reverse ++ ss) := by
  induction h with
  | nil =>
    intro acc n _
    rw [List.flatten_nil, statementsWithin, List.append_nil]
  | @cons t s ts ss ht hts ih =>
    intro acc n hn
    obtain ⟨n, rfl⟩ := Nat.exists_eq_succ_of_ne_zero
      (Nat.ne_of_gt (Nat.lt_of_lt_of_le (Nat.succ_pos _) hn))
    obtain ⟨c, cs, hc⟩ := List.exists_cons_of_ne_nil ht.ne_nil
    obtain ⟨_, hskip, ⟨d, ds, rfl, -, hcomment, -⟩, hread⟩ := ht.read ts.flatten
    have ih' := ih (s :: acc) n (Nat.le_of_succ_le_succ hn)
    rw [List.flatten_cons]
    rw [hc, List.cons_append] at hskip ⊢
    rw [statementsWithin, hskip]
    · split
      · rename_i heq
        exact absurd heq (List.cons_ne_nil d ds)
      · rename_i heq
        exact absurd (List.cons.inj heq).1 hcomment
      · rw [hread]
        dsimp only
        rw [ih', List.reverse_cons, List.append_assoc]
        rfl
    · exact List.cons_ne_nil _ _

theorem length_le_flatten {ts : List (List Char)} {ss : List Statement}
    (h : List.Forall₂ Line ts ss) : ss.length ≤ ts.flatten.length := by
  induction h with
  | nil => exact Nat.zero_le _
  | cons ht _ ih =>
    have hpos := List.length_pos_iff.2 ht.ne_nil
    rw [List.length_cons, List.flatten_cons, List.length_append]
    omega

/-! ## Sections -/

/-- The statements of a section. -/
def sectionStatements (s : String × Entries) : List Statement :=
  .table [s.1] :: s.2.map fun e => .pair [e.1] e.2

/-- The name and the keys of a section are bare, each key is there once, and every value is one that
is read as it was written. -/
structure TidySection (s : String × Entries) : Prop where
  bare_name : IsBareKey s.1
  bare_key : ∀ e ∈ s.2, IsBareKey e.1
  nodup_keys : (s.2.map Prod.fst).Nodup
  written : ∀ e ∈ s.2, IsWritten e.2

/-- Sections with names of their own. -/
structure Tidy (sections : List (String × Entries)) : Prop where
  nodup_names : (sections.map Prod.fst).Nodup
  tidy : ∀ s ∈ sections, TidySection s

/-- The text of a tidy section. -/
def IsSectionText (t : List Char) (s : String × Entries) : Prop :=
  TidySection s ∧ sectionText? s.1 s.2 = some t

/-- The lines of a section. -/
theorem IsSectionText.exists_lines {s : String × Entries} (h : IsSectionText t s) :
    ∃ u us, List.Forall₂ Line (u :: us) (sectionStatements s) ∧ t = u ++ us.flatten := by
  obtain ⟨hs, htext⟩ := h
  obtain ⟨us, hus, rfl⟩ := Option.map_eq_some_iff.1 htext
  refine ⟨'[' :: s.1.toList ++ [']', '\n'], us, .cons ?_ ?_, rfl⟩
  · refine .of_solid ?_ fun rest => ?_
    · exact solid_cons rfl (by decide) _
    · have hheader := statement?_header hs.bare_name rest
      simpa using hheader
  · rw [List.forall₂_map_right_iff]
    refine forall₂_of_mapM (fun e he u hu => ?_) hus
    refine .of_solid ?_ (statement?_pair (hs.bare_key e he) (hs.written e he) hu)
    obtain ⟨w, -, rfl⟩ := Option.map_eq_some_iff.1 hu
    rw [List.append_assoc]
    exact (hs.bare_key e he).solid _

theorem IsSectionText.exists_cons {s : String × Entries} (h : IsSectionText t s) :
    ∃ cs, t = '[' :: cs := by
  obtain ⟨us, -, rfl⟩ := Option.map_eq_some_iff.1 h.2
  exact ⟨_, rfl⟩

section Texts

variable {sections : List (String × Entries)} {texts : List (List Char)}

/-- The lines of sections that each have a line break before them: it is skipped with the first of
the lines. -/
theorem exists_lines_after (h : List.Forall₂ IsSectionText texts sections) :
    ∃ ts, List.Forall₂ Line ts (sections.flatMap sectionStatements) ∧
      ts.flatten = texts.flatMap ('\n' :: ·) := by
  induction h with
  | nil => exact ⟨[], .nil, rfl⟩
  | cons ht _ ih =>
    obtain ⟨u, us, hlines, rfl⟩ := ht.exists_lines
    obtain ⟨ts, hts, hflat⟩ := ih
    obtain _ | ⟨hu, hus⟩ := hlines
    refine ⟨('\n' :: u) :: us ++ ts, List.rel_append (.cons hu.break hus) hts, ?_⟩
    rw [List.flatten_append, hflat]
    rfl

theorem intercalate_cons (c : Char) (t : List Char) (texts : List (List Char)) :
    [c].intercalate (t :: texts) = t ++ texts.flatMap (c :: ·) := by
  induction texts generalizing t with
  | nil => simp
  | cons u texts ih =>
    rw [List.intercalate_cons_cons, ih, List.append_assoc]
    rfl

/-- The lines of a document. -/
theorem exists_lines_of_texts (h : List.Forall₂ IsSectionText texts sections) :
    ∃ ts, List.Forall₂ Line ts (sections.flatMap sectionStatements) ∧
      ts.flatten = ['\n'].intercalate texts := by
  cases h with
  | nil => exact ⟨[], .nil, rfl⟩
  | cons ht hts =>
    obtain ⟨u, us, hlines, rfl⟩ := ht.exists_lines
    obtain ⟨ts, hts, hflat⟩ := exists_lines_after hts
    refine ⟨(u :: us) ++ ts, List.rel_append hlines hts, ?_⟩
    rw [intercalate_cons, List.flatten_append, hflat]
    rfl

/-- A document starts with the header of a section, so no mark is dropped. -/
theorem dropMark_intercalate (h : List.Forall₂ IsSectionText texts sections) :
    dropMark (['\n'].intercalate texts) = ['\n'].intercalate texts := by
  cases h with
  | nil => rfl
  | cons ht _ =>
    obtain ⟨cs, rfl⟩ := ht.exists_cons
    rw [intercalate_cons]
    rfl

end Texts

/-- A document has no text exactly when one of its values holds an integer that does not fit. -/
theorem documentText?_eq_none_iff {sections : List (String × Entries)}
    (hwritten : ∀ s ∈ sections, ∀ e ∈ s.2, IsWritten e.2) :
    documentText? sections = none ↔
      ∃ s ∈ sections, ∃ e ∈ s.2, ∃ n, e.2.Holds n ∧ Number.fitsSigned n = false := by
  unfold documentText? sectionText? pairText?
  simp only [Option.map_eq_none_iff, mapM_eq_none_iff]
  refine exists_congr fun s => and_congr_right fun hs => ?_
  exact exists_congr fun e => and_congr_right fun he => valueText?_eq_none_iff (hwritten s hs e he)

/-- The statements of a document are those of its sections. -/
theorem statements?_documentText {sections : List (String × Entries)} {s : String}
    (hs : Tidy sections) (h : documentText? sections = some s) :
    statements? s = some (sections.flatMap sectionStatements) := by
  obtain ⟨texts, htexts, rfl⟩ := Option.map_eq_some_iff.1 h
  have hsections : List.Forall₂ IsSectionText texts sections :=
    forall₂_of_mapM (fun r hr t ht => ⟨hs.tidy r hr, ht⟩) htexts
  obtain ⟨ts, hts, hflat⟩ := exists_lines_of_texts hsections
  unfold statements?
  rw [String.toList_ofList]
  simp only [dropMark_intercalate hsections]
  rw [← hflat]
  exact statementsWithin_of_lines hts [] _ (length_le_flatten hts)

/-! ## Entries -/

theorem lookup_eq_none (hk : k ∉ es.map Prod.fst) : es.lookup k = none := by
  rw [List.lookup_eq_none_iff]
  intro e he
  rw [bne_iff_ne]
  exact fun heq => hk (List.mem_map.2 ⟨e, he, heq.symm⟩)

theorem lookup_append_singleton (hk : k ∉ es.map Prod.fst) (v : Value) :
    (es ++ [(k, v)]).lookup k = some v := by
  rw [List.lookup_append, lookup_eq_none hk]
  simp

/-- The entry with a new key at the end is the one that is replaced. -/
theorem replace_append_singleton (hk : k ∉ es.map Prod.fst) (u v : Value) :
    Entries.replace k v (es ++ [(k, u)]) = es ++ [(k, v)] := by
  unfold Entries.replace
  have hsame : es.map (fun e => if e.1 = k then (k, v) else e) = es := by
    refine (List.map_congr_left fun e he => if_neg fun heq => ?_).trans (List.map_id es)
    exact hk (List.mem_map.2 ⟨e, he, heq⟩)
  rw [List.map_append, hsame]
  simp

/-- The header of a section opens a new table. -/
theorem step_table (hk : k ∉ es.map Prod.fst) (current : List String) :
    Document.step ⟨es, current⟩ (.table [k]) =
      some ⟨es ++ [(k, .table .header [])], [k]⟩ := by
  have hopen : Entries.openTable k es = some (es ++ [(k, .table .header [])]) := by
    unfold Entries.openTable
    rw [lookup_eq_none hk]
  show (Entries.openTable k es).map _ = _
  rw [hopen]
  rfl

/-- A pair is added to the table of the header before it. -/
theorem step_pair {name : String} {done : Entries} (hname : name ∉ es.map Prod.fst)
    (hk : k ∉ done.map Prod.fst) (v : Value) :
    Document.step ⟨es ++ [(name, .table .header done)], [name]⟩ (.pair [k] v) =
      some ⟨es ++ [(name, .table .header (done ++ [(k, v)]))], [name]⟩ := by
  have hdefine : Entries.define [k] v done = some (done ++ [(k, v)]) := by
    show Entries.add k v done = _
    unfold Entries.add
    rw [lookup_eq_none hk]
    rfl
  have halter : Entries.alter .implied (fun _ es => Entries.define [k] v es) [name] .header
      (es ++ [(name, .table .header done)]) =
        some (es ++ [(name, .table .header (done ++ [(k, v)]))]) := by
    rw [Entries.alter, lookup_append_singleton hname]
    show (Entries.define [k] v done).map _ = _
    rw [hdefine]
    exact congrArg some (replace_append_singleton hname _ _)
  show (Entries.alter .implied _ [name] .header _).map _ = _
  rw [halter]
  rfl

/-- The pairs of a section are added to its table one after the other. -/
theorem foldlM_pairs {name : String} (hname : name ∉ es.map Prod.fst) :
    ∀ (ps done : Entries), ((done ++ ps).map Prod.fst).Nodup →
      (ps.map fun e => Statement.pair [e.1] e.2).foldlM Document.step
          ⟨es ++ [(name, .table .header done)], [name]⟩ =
        some ⟨es ++ [(name, .table .header (done ++ ps))], [name]⟩
  | [], done, _ => by
    rw [List.append_nil]
    rfl
  | (k, v) :: ps, done, h => by
    have hk : k ∉ done.map Prod.fst := by
      rw [List.map_append] at h
      intro hmem
      exact (List.nodup_append.1 h).2.2 k hmem k List.mem_cons_self rfl
    have hsplit : done ++ (k, v) :: ps = (done ++ [(k, v)]) ++ ps := by
      rw [List.append_assoc]
      rfl
    rw [hsplit] at h ⊢
    rw [List.map_cons, List.foldlM_cons, step_pair hname hk v]
    exact foldlM_pairs hname ps (done ++ [(k, v)]) h

/-- The statements of a section add its table. -/
theorem foldlM_sectionStatements {s : String × Entries} (hname : s.1 ∉ es.map Prod.fst)
    (hkeys : (s.2.map Prod.fst).Nodup) (current : List String) :
    (sectionStatements s).foldlM Document.step ⟨es, current⟩ =
      some ⟨es ++ [(s.1, .table .header s.2)], [s.1]⟩ := by
  unfold sectionStatements
  rw [List.foldlM_cons, step_table hname]
  exact foldlM_pairs hname s.2 [] hkeys

/-- The statements of tidy sections add their tables one after the other. -/
theorem foldlM_sections :
    ∀ (sections : List (String × Entries)) (es : Entries) (current : List String),
      (es.map Prod.fst ++ sections.map Prod.fst).Nodup →
      (∀ s ∈ sections, (s.2.map Prod.fst).Nodup) →
      ((sections.flatMap sectionStatements).foldlM Document.step ⟨es, current⟩).map
          Document.entries =
        some (es ++ sections.map fun s => (s.1, .table .header s.2))
  | [], es, _, _, _ => by
    rw [List.map_nil, List.append_nil]
    rfl
  | s :: sections, es, current, hnames, hkeys => by
    have hname : s.1 ∉ es.map Prod.fst := fun hmem =>
      (List.nodup_append.1 hnames).2.2 s.1 hmem s.1 List.mem_cons_self rfl
    have ih := foldlM_sections sections (es ++ [(s.1, .table .header s.2)]) [s.1]
      (by simpa using hnames) fun r hr => hkeys r (List.mem_cons_of_mem s hr)
    rw [List.append_assoc] at ih
    rw [List.flatMap_cons, List.foldlM_append,
      foldlM_sectionStatements hname (hkeys s List.mem_cons_self)]
    exact ih

/-- The entries that a document sets are the tables of its sections. -/
theorem entriesOfText?_documentText {sections : List (String × Entries)} {s : String}
    (hs : Tidy sections) (h : documentText? sections = some s) :
    entriesOfText? s = some (sections.map fun s => (s.1, .table .header s.2)) := by
  unfold entriesOfText?
  rw [statements?_documentText hs h]
  exact foldlM_sections sections [] [] hs.nodup_names fun s hs' => (hs.tidy s hs').nodup_keys

end TreeCorpus.Toml
