import Mathlib.Algebra.BigOperators.Group.Finset.Basic
import Mathlib.Algebra.GroupWithZero.Nat
import TreeCorpus.Console.Report
import TreeCorpus.Proofs.Number.Digits

/-!
# The printed report of a batch

A tally counts each label of a list once and in order (`Tallies`). The failures that are shown are
picked in one pass that counts those seen of each kind, the others are counted from the tally, and
the samples and failures are split off the results in two further passes. All agree: every failure
is shown or counted once, the counts add up, and no result is lost (`Console.batchLines_account`).
The lines are spelled out (`skipLine`, `foldedLine`, `summaryLine`).
-/

namespace TreeCorpus

/-! ## Tallies -/

section Tallies

variable {k kind : String} {n : Nat} {ks : List String} {t : List (String × Nat)}

/-- The labels of a list, each once and in order, with how often it occurs. -/
structure Tallies (ks : List String) (t : List (String × Nat)) : Prop where
  pairwise : (t.map Prod.fst).Pairwise (· < ·)
  mem_keys_iff : ∀ k, k ∈ t.map Prod.fst ↔ k ∈ ks
  count_eq : ∀ e ∈ t, e.2 = ks.count e.1

theorem mem_keys_tallyInsert_iff :
    k ∈ (tallyInsert kind t).map Prod.fst ↔ k = kind ∨ k ∈ t.map Prod.fst := by
  fun_induction tallyInsert kind t with
  | case1 => simp
  | case2 n rest => simp
  | case3 k' n rest hne hlt => simp
  | case4 k' n rest hne hlt ih =>
    rw [List.map_cons, List.mem_cons, ih, List.map_cons, List.mem_cons]
    exact or_left_comm

theorem pairwise_tallyInsert (hs : (t.map Prod.fst).Pairwise (· < ·)) :
    ((tallyInsert kind t).map Prod.fst).Pairwise (· < ·) := by
  fun_induction tallyInsert kind t with
  | case1 => exact List.pairwise_singleton _ _
  | case2 n rest => exact hs
  | case3 k' n rest hne hlt =>
    refine List.pairwise_cons.2 ⟨fun k hk => ?_, hs⟩
    rcases List.mem_cons.1 hk with rfl | hk
    · exact hlt
    · exact String.lt_trans hlt ((List.pairwise_cons.1 hs).1 k hk)
  | case4 k' n rest hne hlt ih =>
    obtain ⟨hhead, hrest⟩ := List.pairwise_cons.1 hs
    refine List.pairwise_cons.2 ⟨fun k hk => ?_, ih hrest⟩
    rcases mem_keys_tallyInsert_iff.1 hk with rfl | hk
    · by_contra hge
      exact hne (String.le_antisymm (String.not_lt.1 hge) (String.not_lt.1 hlt))
    · exact hhead k hk

/-- The labels behind the first one of a tally are others. -/
theorem count_concat_of_pairwise (hs : (((kind, n) :: t).map Prod.fst).Pairwise (· < ·))
    (hc : ∀ e ∈ t, e.2 = ks.count e.1) : ∀ e ∈ t, e.2 = (ks ++ [kind]).count e.1 := by
  intro e he
  have hne : kind ≠ e.1 := by
    intro h
    have hlt := (List.pairwise_cons.1 hs).1 e.1 (List.mem_map_of_mem he)
    exact String.lt_irrefl _ (h ▸ hlt)
  rw [hc e he, List.count_append, List.count_singleton, if_neg (by simpa using hne), Nat.add_zero]

theorem count_of_mem_tallyInsert (hs : (t.map Prod.fst).Pairwise (· < ·))
    (hc : ∀ e ∈ t, e.2 = ks.count e.1) (hnew : kind ∉ t.map Prod.fst → kind ∉ ks) :
    ∀ e ∈ tallyInsert kind t, e.2 = (ks ++ [kind]).count e.1 := by
  have hone (h : kind ∉ ks) : 1 = (ks ++ [kind]).count kind := by
    rw [List.count_append, List.count_eq_zero.2 h, List.count_singleton_self]
  fun_induction tallyInsert kind t with
  | case1 =>
    rintro e he
    obtain rfl := List.mem_singleton.1 he
    exact hone (hnew List.not_mem_nil)
  | case2 n rest =>
    obtain ⟨hhead, hrest⟩ := List.forall_mem_cons.1 hc
    refine List.forall_mem_cons.2 ⟨?_, count_concat_of_pairwise hs hrest⟩
    rw [List.count_append, List.count_singleton_self, ← hhead]
  | case3 k' n rest hne hlt =>
    have hs' : (((kind, 1) :: (k', n) :: rest).map Prod.fst).Pairwise (· < ·) := by
      have hinsert : ((tallyInsert kind ((k', n) :: rest)).map Prod.fst).Pairwise (· < ·) :=
        pairwise_tallyInsert hs
      rwa [tallyInsert, if_neg hne, if_pos hlt] at hinsert
    refine List.forall_mem_cons.2 ⟨hone (hnew fun hmem => ?_), count_concat_of_pairwise hs' hc⟩
    exact String.lt_irrefl _ ((List.pairwise_cons.1 hs').1 kind hmem)
  | case4 k' n rest hne hlt ih =>
    obtain ⟨hhead, hrest⟩ := List.forall_mem_cons.1 hc
    refine List.forall_mem_cons.2 ⟨?_, ih (List.pairwise_cons.1 hs).2 hrest fun hmem => hnew ?_⟩
    · rw [List.count_append, List.count_singleton, if_neg (by simpa using hne), Nat.add_zero]
      exact hhead
    · simpa [hne] using hmem

namespace Tallies

theorem insert (ht : Tallies ks t) (kind : String) :
    Tallies (ks ++ [kind]) (tallyInsert kind t) where
  pairwise := pairwise_tallyInsert ht.pairwise
  mem_keys_iff k := by
    rw [mem_keys_tallyInsert_iff, ht.mem_keys_iff, List.mem_append, List.mem_singleton, or_comm]
  count_eq := count_of_mem_tallyInsert ht.pairwise ht.count_eq fun h hmem =>
    h ((ht.mem_keys_iff kind).2 hmem)

theorem nodup (ht : Tallies ks t) : (t.map Prod.fst).Nodup :=
  ht.pairwise.imp fun {a b} (hlt : a < b) (heq : a = b) => String.lt_irrefl b (heq ▸ hlt)

theorem mem_iff (ht : Tallies ks t) : (k, n) ∈ t ↔ 0 < n ∧ n = ks.count k := by
  constructor
  · intro he
    have hcount : n = ks.count k := ht.count_eq _ he
    exact ⟨hcount ▸ List.count_pos_iff.2 ((ht.mem_keys_iff k).1 (List.mem_map_of_mem he)), hcount⟩
  · rintro ⟨hpos, rfl⟩
    obtain ⟨⟨k', n⟩, he, rfl⟩ := List.mem_map.1 ((ht.mem_keys_iff k).2 (List.count_pos_iff.1 hpos))
    rwa [← ht.count_eq _ he]

/-- Sums along a tally are sums over the labels. -/
theorem sum_map (ht : Tallies ks t) (f : Nat → Nat) :
    (t.map fun e => f e.2).sum = ∑ k ∈ ks.toFinset, f (ks.count k) := by
  have hkeys : (t.map Prod.fst).toFinset = ks.toFinset := by
    ext k
    rw [List.mem_toFinset, List.mem_toFinset, ht.mem_keys_iff]
  rw [← hkeys, List.sum_toFinset _ ht.nodup, List.map_map]
  exact congrArg List.sum (List.map_congr_left fun e he => congrArg f (ht.count_eq e he))

end Tallies

end Tallies

/-! ## Samples and failures of a batch -/

namespace BatchReport

/-- The results are the samples and the failures, put together so that both keep their order. -/
inductive Interleaves :
    List (Nat × Except SampleFailure Sample) → List Sample → List SampleFailure → Prop where
  | nil : Interleaves [] [] []
  | sample {i : Nat} {s : Sample} {results : List (Nat × Except SampleFailure Sample)}
      {ss : List Sample} {fs : List SampleFailure} :
      Interleaves results ss fs → Interleaves ((i, .ok s) :: results) (s :: ss) fs
  | failure {i : Nat} {f : SampleFailure} {results : List (Nat × Except SampleFailure Sample)}
      {ss : List Sample} {fs : List SampleFailure} :
      Interleaves results ss fs → Interleaves ((i, .error f) :: results) ss (f :: fs)

variable {r : BatchReport} {results : List (Nat × Except SampleFailure Sample)} {ss : List Sample}
  {fs : List SampleFailure}

theorem interleaves_parts (r : BatchReport) : Interleaves r.results r.parts.1 r.parts.2 := by
  obtain ⟨results⟩ := r
  induction results with
  | nil => exact .nil
  | cons e results ih =>
    obtain ⟨i, f | s⟩ := e
    · exact .failure ih
    · exact .sample ih

theorem Interleaves.eq (h : Interleaves results ss fs) :
    (BatchReport.mk results).samples = ss ∧ (BatchReport.mk results).failures = fs := by
  induction h with
  | nil => exact ⟨rfl, rfl⟩
  | sample _ ih => exact ⟨congrArg (_ :: ·) ih.1, ih.2⟩
  | failure _ ih => exact ⟨ih.1, congrArg (_ :: ·) ih.2⟩

/-- The parts are the samples and the failures that are counted. -/
theorem parts_eq (r : BatchReport) : r.parts = (r.samples, r.failures) := by
  obtain ⟨hsamples, hfailures⟩ := (interleaves_parts r).eq
  exact Prod.ext hsamples.symm hfailures.symm

theorem tallies_tally (r : BatchReport) : Tallies (r.failures.map (·.cause.kind)) r.tally := by
  unfold tally
  generalize r.failures = fs
  induction fs using List.reverseRecOn with
  | nil => exact ⟨.nil, fun _ => Iff.rfl, fun _ he => absurd he List.not_mem_nil⟩
  | append_singleton fs f ih =>
    rw [List.foldl_append, List.map_append]
    exact ih.insert f.cause.kind

end BatchReport

namespace Console

variable {limit : Nat} {seen : List String} {fs shown : List SampleFailure} {kind : String}

/-! ## The failures that are shown -/

/-- The failure is of the kind. -/
def ofKind (kind : String) (f : SampleFailure) : Bool := f.cause.kind == kind

theorem ofKind_eq_true_iff {f : SampleFailure} : ofKind kind f = true ↔ f.cause.kind = kind :=
  beq_iff_eq

theorem count_map_kind (kind : String) (fs : List SampleFailure) :
    (fs.map (·.cause.kind)).count kind = fs.countP (ofKind kind) := by
  rw [List.count, List.countP_map]
  rfl

/-- Of each kind the first failures are shown, as long as fewer than the limit were seen. -/
theorem filter_shownFrom (limit : Nat) (seen : List String) (fs : List SampleFailure)
    (kind : String) : (shownFrom limit seen fs).filter (ofKind kind) =
      (fs.filter (ofKind kind)).take (limit - seen.count kind) := by
  induction fs generalizing seen with
  | nil => rw [shownFrom, List.filter_nil, List.take_nil]
  | cons f fs ih =>
    rw [shownFrom]
    by_cases hkind : ofKind kind f = true
    · obtain rfl := ofKind_eq_true_iff.1 hkind
      rw [List.filter_cons_of_pos hkind]
      split
      · rename_i hlt
        rw [List.filter_cons_of_pos hkind, ih, List.count_cons_self, ← List.take_succ_cons]
        congr 1
        omega
      · rename_i hle
        rw [ih, Nat.sub_eq_zero_of_le (Nat.le_of_not_lt hle), List.take_zero, List.take_zero]
    · rw [List.filter_cons_of_neg hkind]
      split
      · rw [List.filter_cons_of_neg hkind, ih,
          List.count_cons_of_ne (mt ofKind_eq_true_iff.2 hkind)]
      · exact ih seen

theorem filter_shownFailures (fs : List SampleFailure) (kind : String) :
    (shownFailures fs).filter (ofKind kind) = (fs.filter (ofKind kind)).take 5 :=
  filter_shownFrom 5 [] fs kind

theorem countP_shownFailures (fs : List SampleFailure) (kind : String) :
    (shownFailures fs).countP (ofKind kind) = min (fs.countP (ofKind kind)) 5 := by
  rw [List.countP_eq_length_filter, filter_shownFailures, List.length_take, Nat.min_comm,
    ← List.countP_eq_length_filter]

/-! ## The failures that are only counted -/

theorem hiddenCounts_eq (r : BatchReport) : hiddenCounts r =
    (r.tally.filter fun e => decide (5 < e.2)).map fun e => (e.1, e.2 - 5) := by
  unfold hiddenCounts shownPerKind
  induction r.tally with
  | nil => rfl
  | cons e t ih =>
    by_cases hlt : 5 < e.2
    · simp [hlt, ih]
    · simp [hlt, ih]

theorem mem_hiddenCounts_iff {r : BatchReport} {m : Nat} : (kind, m) ∈ hiddenCounts r ↔
    5 < r.failures.countP (ofKind kind) ∧ m = r.failures.countP (ofKind kind) - 5 := by
  have hmem {n : Nat} := (BatchReport.tallies_tally r).mem_iff (k := kind) (n := n)
  simp only [count_map_kind] at hmem
  rw [hiddenCounts_eq, List.mem_map]
  constructor
  · rintro ⟨⟨k, n⟩, he, heq⟩
    obtain ⟨he, hlt⟩ := List.mem_filter.1 he
    obtain ⟨hk, hm⟩ := Prod.mk.inj heq
    obtain rfl : k = kind := hk
    have hn := (hmem.1 he).2
    exact ⟨hn ▸ of_decide_eq_true hlt, hn ▸ hm.symm⟩
  · rintro ⟨hlt, rfl⟩
    exact ⟨(kind, _), List.mem_filter.2 ⟨hmem.2 ⟨by omega, rfl⟩, decide_eq_true hlt⟩, rfl⟩

/-- No kind has two lines for its failures that are not shown. -/
theorem pairwise_keys_hiddenCounts (r : BatchReport) :
    ((hiddenCounts r).map Prod.fst).Pairwise (· < ·) := by
  rw [hiddenCounts_eq, List.map_map]
  exact (BatchReport.tallies_tally r).pairwise.sublist (List.filter_sublist.map Prod.fst)

theorem sum_hiddenCounts (r : BatchReport) :
    ((hiddenCounts r).map Prod.snd).sum = (r.tally.map fun e => e.2 - 5).sum := by
  rw [hiddenCounts_eq, List.map_map]
  induction r.tally with
  | nil => rfl
  | cons e t ih =>
    rw [List.map_cons, List.sum_cons, ← ih]
    by_cases hlt : 5 < e.2
    · simp [hlt]
    · simp [hlt, Nat.sub_eq_zero_of_le (Nat.le_of_not_lt hlt)]

/-! ## The whole report -/

/-- The failures of a batch are shown or counted, each once: of every kind the first five are shown,
in the order of the batch, and the others make up one count. The tally has every kind once. -/
structure Accounts (failures shown : List SampleFailure) (folded tally : List (String × Nat)) :
    Prop where
  sublist : shown.Sublist failures
  filter_eq : ∀ kind, shown.filter (ofKind kind) = (failures.filter (ofKind kind)).take 5
  countP_eq : ∀ kind, shown.countP (ofKind kind) = min (failures.countP (ofKind kind)) 5
  mem_folded_iff : ∀ kind m, (kind, m) ∈ folded ↔
    5 < failures.countP (ofKind kind) ∧ m = failures.countP (ofKind kind) - 5
  pairwise_folded : (folded.map Prod.fst).Pairwise (· < ·)
  mem_tally_iff : ∀ kind n, (kind, n) ∈ tally ↔ 0 < n ∧ n = failures.countP (ofKind kind)
  pairwise_tally : (tally.map Prod.fst).Pairwise (· < ·)
  sum_tally : (tally.map Prod.snd).sum = failures.length
  /-- Every failure is shown or counted. -/
  length_add_sum : shown.length + (folded.map Prod.snd).sum = failures.length

/-- A list is as long as the counts of its labels add up to. -/
theorem sum_count_kind {labels : List String} (hsub : shown.map (·.cause.kind) ⊆ labels) :
    ∑ k ∈ labels.toFinset, (shown.map (·.cause.kind)).count k = shown.length := by
  have hmem : ∀ k ∈ (shown.map (·.cause.kind) : Multiset String), k ∈ labels.toFinset :=
    fun k hk => List.mem_toFinset.2 (hsub (Multiset.mem_coe.1 hk))
  have hsum := Multiset.sum_count_eq_card hmem
  simpa using hsum

theorem accounts (r : BatchReport) :
    Accounts r.failures (shownFailures r.failures) (hiddenCounts r) r.tally := by
  have ht := BatchReport.tallies_tally r
  have hsublist : (shownFailures r.failures).Sublist r.failures := shownFrom_sublist _ _ _
  have htally : (r.tally.map Prod.snd).sum = r.failures.length :=
    (ht.sum_map id).trans (sum_count_kind (List.Subset.refl _))
  refine ⟨hsublist, filter_shownFailures _, countP_shownFailures _, fun _ _ => mem_hiddenCounts_iff,
    pairwise_keys_hiddenCounts r, fun kind n => ?_, ht.pairwise, htally, ?_⟩
  · rw [ht.mem_iff, count_map_kind]
  · calc (shownFailures r.failures).length + ((hiddenCounts r).map Prod.snd).sum
        = ∑ k ∈ (r.failures.map (·.cause.kind)).toFinset,
            (((shownFailures r.failures).map (·.cause.kind)).count k +
              ((r.failures.map (·.cause.kind)).count k - 5)) := by
          rw [Finset.sum_add_distrib, sum_count_kind (hsublist.map _).subset, sum_hiddenCounts,
            ht.sum_map (· - 5)]
      _ = ∑ k ∈ (r.failures.map (·.cause.kind)).toFinset,
            (r.failures.map (·.cause.kind)).count k := by
          refine Finset.sum_congr rfl fun k _ => ?_
          rw [count_map_kind, count_map_kind, countP_shownFailures]
          omega
      _ = r.failures.length := sum_count_kind (List.Subset.refl _)

/-! ## The lines, spelled out -/

/-- A text between the codes of a style and the code that ends all styles, if colors are on. -/
def styled (colors : Bool) (codes text : String) : String :=
  if colors then "\x1b[" ++ codes ++ "m" ++ text ++ "\x1b[0m" else text

/-- The line of a shown failure: its index, where that stands in the catalog, and the cause. -/
def skipLine (colors : Bool) (f : SampleFailure) : String :=
  styled colors "33" "[SKIP]" ++ match f.solution with
    | some s => s!" index {f.index} ({s.category.name} #{s.number}, {s.path}): {f.cause.message}"
    | none => s!" index {f.index}: {f.cause.message}"

def foldedLine (colors : Bool) (kind : String) (n : Nat) : String :=
  let failures := if n = 1 then "failure" else "failures"
  "  " ++ styled colors "2" "..." ++ s!" {n} more {kind} {failures}"

/-- The line with how much was built, and how much failed if anything did. -/
def summaryLine (colors : Bool) (built failed : Nat) : String :=
  let samples := if built = 1 then "sample" else "samples"
  let failures := if failed = 1 then "failure" else "failures"
  if failed = 0 then styled colors "1;32" s!"[OK] Built {built} {samples}."
  else styled colors "1;33" s!"[WARN] Built {built} {samples}, {failed} {failures}."

theorem Style.restart_of_notMem {again cs : List Char} (h : '\x1b' ∉ cs) :
    restart again cs = cs := by
  fun_induction restart again cs with
  | case1 cs => exact absurd List.mem_cons_self h
  | case2 c cs _ ih => rw [ih fun hmem => h (List.mem_cons_of_mem c hmem)]
  | case3 => rfl

/-- A text that ends no style itself is painted by the codes around it. -/
theorem Style.paint_eq_styled {s : Style} {text : String} (h : '\x1b' ∉ text.toList)
    (colors : Bool) :
    s.paint colors text = styled colors (String.intercalate ";" s.codes) text := by
  unfold paint styled
  split
  · apply String.toList_inj.1
    rw [restart_of_notMem h]
    simp [start, reset]
  · rfl

theorem failureLine_eq (colors : Bool) (f : SampleFailure) :
    failureLine colors f = skipLine colors f := by
  have hskip : (plain .yellow).paint colors "[SKIP]" = styled colors "33" "[SKIP]" :=
    Style.paint_eq_styled (by decide) colors
  unfold failureLine skipLine SampleFailure.message
  rw [hskip]
  apply String.toList_inj.1
  cases f.solution with
  | none => simp [toString]
  | some s => simp [toString]

theorem hiddenLine_eq (colors : Bool) (kind : String) (n : Nat) :
    hiddenLine colors kind n = foldedLine colors kind n := by
  have hdots : faint.paint colors "..." = styled colors "2" "..." :=
    Style.paint_eq_styled (by decide) colors
  have hword : pluralize "failure" n = if n = 1 then "failure" else "failures" := rfl
  unfold hiddenLine foldedLine
  rw [hdots, hword]
  apply String.toList_inj.1
  simp [toString]

theorem notMem_toDigits (n : Nat) : '\x1b' ∉ Nat.toDigits 10 n :=
  fun h => absurd (Number.isDigit_of_mem_toDigits '\x1b' h) (by decide)

theorem notMem_pluralize {word : String} (h : '\x1b' ∉ word.toList) (n : Nat) :
    '\x1b' ∉ (pluralize word n).toList := by
  unfold pluralize
  split
  · exact h
  · split
    · rename_i stem hstem
      have hmem : '\x1b' ∉ stem.reverse := fun hc =>
        h (List.mem_reverse.1 (hstem ▸ List.mem_cons_of_mem _ (List.mem_reverse.1 hc)))
      rw [String.toList_append, String.toList_ofList, List.mem_append]
      exact not_or_intro hmem (by decide)
    · rw [String.toList_append, List.mem_append]
      exact not_or_intro h (by decide)

theorem notMem_counted {word : String} (h : '\x1b' ∉ word.toList) (n : Nat) :
    '\x1b' ∉ (counted word n).toList := by
  simp [counted, toString, notMem_toDigits, notMem_pluralize h]

theorem paint_built (colors : Bool) (built : Nat) :
    (bright .green).paint colors ("[OK] Built " ++ counted "sample" built ++ ".") =
      summaryLine colors built 0 := by
  have hword : pluralize "sample" built = if built = 1 then "sample" else "samples" := rfl
  have hsample : '\x1b' ∉ (counted "sample" built).toList := notMem_counted (by decide) built
  refine (Style.paint_eq_styled ?_ colors).trans (congrArg (styled colors "1;32") ?_)
  · simp [hsample]
  · simp [counted, hword, toString, String.append_assoc]

theorem paint_failed (colors : Bool) (built : Nat) {failed : Nat} (h : failed ≠ 0) :
    (bright .yellow).paint colors
        ("[WARN] Built " ++ counted "sample" built ++ ", " ++ counted "failure" failed ++ ".") =
      summaryLine colors built failed := by
  have hword : pluralize "sample" built = if built = 1 then "sample" else "samples" := rfl
  have hword' : pluralize "failure" failed = if failed = 1 then "failure" else "failures" := rfl
  have hsample : '\x1b' ∉ (counted "sample" built).toList := notMem_counted (by decide) built
  have hfailure : '\x1b' ∉ (counted "failure" failed).toList := notMem_counted (by decide) failed
  unfold summaryLine
  rw [if_neg h]
  refine (Style.paint_eq_styled ?_ colors).trans (congrArg (styled colors "1;33") ?_)
  · simp [hsample, hfailure]
  · simp [counted, hword, hword', toString, String.append_assoc]

theorem summaryLines_eq (colors : Bool) (r : BatchReport) : summaryLines colors r =
    summaryLine colors r.samples.length r.failures.length ::
      r.tally.map fun e => s!"  {e.1}: {e.2}" := by
  unfold summaryLines
  cases hf : r.failures with
  | nil =>
    have ht : r.tally = [] := by
      unfold BatchReport.tally
      rw [hf]
      rfl
    rw [ht]
    exact congrArg (· :: []) (paint_built colors _)
  | cons f fs => exact congrArg (· :: _) (paint_failed colors _ (Nat.succ_ne_zero _))

/-- A printed batch accounts for every result once. The failures that are shown come in the order of
the results, then one line for each kind of which more than five failed, then the summary and the
tally. The parts of the batch are its samples and its failures, in the order of the results. -/
theorem batchLines_account (colors : Bool) (r : BatchReport) :
    (∃ shown folded tally, Accounts r.failures shown folded tally ∧
      batchLines colors r = shown.map (skipLine colors) ++
        folded.map (fun e => foldedLine colors e.1 e.2) ++
        summaryLine colors r.samples.length r.failures.length ::
          tally.map fun e => s!"  {e.1}: {e.2}") ∧
    r.samples.length + r.failures.length = r.results.length ∧
    r.parts = (r.samples, r.failures) ∧
    BatchReport.Interleaves r.results r.samples r.failures := by
  have hparts := r.interleaves_parts
  rw [r.parts_eq] at hparts
  refine ⟨⟨_, _, _, accounts r, ?_⟩, r.length_samples_add_length_failures, r.parts_eq, hparts⟩
  unfold batchLines
  rw [summaryLines_eq, funext (failureLine_eq colors),
    funext fun e : String × Nat => hiddenLine_eq colors e.1 e.2]

end Console

end TreeCorpus
