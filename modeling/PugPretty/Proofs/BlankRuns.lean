import Mathlib.Data.List.SplitBy
import PugPretty.Proofs.Collapsing

/-!
# Runs of blanks

A text is cut wherever a blank and a solid character meet. `IsRuns` says so of the runs alone, and
there is one such cut (`isRuns_iff`). Collapsing goes run by run, and a run of two or more blanks is
the only one that it changes (`collapse_byRuns`). At the ends of a text a run of blanks is trimmed
whether it has been collapsed or not (`trim_collapse`).
-/

namespace PugPretty

open Text

/-! ## The cut -/

/-- The text in runs of blanks and runs of solid characters, each as long as it can be. -/
structure IsRuns (rs : List Text) (t : Text) : Prop where
  flatten_eq : rs.flatten = t
  ne_nil : ∀ r ∈ rs, r ≠ []
  uniform : ∀ r ∈ rs, (∀ c ∈ r, isBlank c = true) ∨ ∀ c ∈ r, isBlank c = false
  maximal : rs.IsChain fun r s => endsBlank r ≠ beginsBlank s

theorem uniform_iff {r : Text} :
    ((∀ c ∈ r, isBlank c = true) ∨ ∀ c ∈ r, isBlank c = false) ↔
      r.IsChain fun c d => (isBlank c == isBlank d) = true := by
  induction r with
  | nil => simp
  | cons c r ih =>
    cases r with
    | nil => cases hc : isBlank c <;> simp [hc]
    | cons d r =>
      rw [List.isChain_cons_cons, ← ih]
      cases hc : isBlank c <;> cases hd : isBlank d <;> simp [hc, hd]

theorem ends_ne_begins_iff {r s : Text} (hr : r ≠ []) (hs : s ≠ []) :
    endsBlank r ≠ beginsBlank s ↔
      ∃ hr hs, (isBlank (r.getLast hr) == isBlank (s.head hs)) = false := by
  have hend : endsBlank r = isBlank (r.getLast hr) := by
    rw [endsBlank, List.getLast?_eq_some_getLast hr, Option.any_some]
  have hbegin : beginsBlank s = isBlank (s.head hs) := by
    rw [beginsBlank, List.head?_eq_some_head hs, Option.any_some]
  simp [hend, hbegin, hr, hs]

theorem isRuns_iff {rs : List Text} {t : Text} :
    IsRuns rs t ↔ t.splitBy (fun c d => isBlank c == isBlank d) = rs := by
  rw [List.splitBy_eq_iff]
  constructor
  · intro h
    have hne : [] ∉ rs := fun hmem => h.ne_nil [] hmem rfl
    refine ⟨h.flatten_eq.symm, hne, fun r hr => uniform_iff.1 (h.uniform r hr), ?_⟩
    refine (List.IsChain.iff_of_mem_imp fun r s hr hs => ?_).1 h.maximal
    exact ends_ne_begins_iff (h.ne_nil r hr) (h.ne_nil s hs)
  · intro h
    obtain ⟨hflat, hnil, hchain, hbound⟩ := h
    have hne : ∀ r ∈ rs, r ≠ [] := fun r hr hr' => hnil (hr' ▸ hr)
    refine ⟨hflat.symm, hne, fun r hr => uniform_iff.2 (hchain r hr), ?_⟩
    refine (List.IsChain.iff_of_mem_imp fun r s hr hs => ?_).2 hbound
    exact ends_ne_begins_iff (hne r hr) (hne s hs)

theorem existsUnique_isRuns (t : Text) : ∃! rs, IsRuns rs t :=
  ⟨_, isRuns_iff.2 rfl, fun _ h => (isRuns_iff.1 h).symm⟩

/-! ## Collapsing a run -/

/-- Two or more blanks are one space, and all else is kept. -/
def shortened (r : Text) : Text := if isBlankText r && 2 ≤ r.length then [' '] else r

theorem collapse_blanks {c : Char} {r : Text} (h : ∀ d ∈ c :: r, isBlank d = true) :
    collapse (c :: r) = if r = [] then [c] else [' '] := by
  induction r generalizing c with
  | nil => simp [collapse]
  | cons d r ih =>
    obtain ⟨hc, hr⟩ := List.forall_mem_cons.1 h
    have hd : isBlank d = true := hr d List.mem_cons_self
    have hone : (collapse (d :: r)).drop 1 = [] := by
      rw [ih hr]
      split <;> rfl
    rw [collapse, hone]
    simp [hc, hd]

theorem collapse_run {r : Text} (h : (∀ c ∈ r, isBlank c = true) ∨ ∀ c ∈ r, isBlank c = false) :
    collapse r = shortened r := by
  cases r with
  | nil => rfl
  | cons c r =>
    rcases h with h | h
    · have hblank : isBlankText (c :: r) = true := List.all_eq_true.2 h
      rw [collapse_blanks h, shortened, hblank]
      cases r <;> simp
    · have hblank : isBlankText (c :: r) = false := by
        simp [isBlankText, h c List.mem_cons_self]
      rw [collapse_of_solid h, shortened, hblank]
      rfl

theorem IsRuns.tail {r : Text} {rs : List Text} {t : Text} (h : IsRuns (r :: rs) t) :
    IsRuns rs rs.flatten :=
  ⟨rfl, (List.forall_mem_cons.1 h.ne_nil).2, (List.forall_mem_cons.1 h.uniform).2, h.maximal.tail⟩

theorem IsRuns.cut {r : Text} {rs : List Text} {t : Text} (h : IsRuns (r :: rs) t) :
    endsBlank r = false ∨ beginsBlank rs.flatten = false := by
  cases rs with
  | nil => exact .inr rfl
  | cons s rs =>
    have hs : s ≠ [] := h.ne_nil s (by simp)
    have hne : endsBlank r ≠ beginsBlank s := (List.isChain_cons_cons.1 h.maximal).1
    rw [List.flatten_cons, beginsBlank_append hs]
    by_cases hr : endsBlank r = true
    · right
      simpa [hr] using hne.symm
    · left
      simpa using hr

theorem IsRuns.collapse_eq {rs : List Text} {t : Text} (h : IsRuns rs t) :
    collapse t = rs.flatMap shortened := by
  induction rs generalizing t with
  | nil => rw [← h.flatten_eq]; rfl
  | cons r rs ih =>
    have hr : collapse r = shortened r := collapse_run (h.uniform r List.mem_cons_self)
    rw [← h.flatten_eq, List.flatten_cons, collapse_append h.cut, hr, ih h.tail, List.flatMap_cons]

/-! ## Trimming -/

theorem trim_collapse (t : Text) : trim (collapse t) = collapse (trim t) := by
  obtain ⟨front, back, ht, hfront, hback⟩ := exists_trim_append t
  by_cases hnil : trim t = []
  · have hblank : ∀ c ∈ t, isBlank c = true := by
      rw [ht, hnil]
      simpa using fun c hc => hc.elim (hfront c) (hback c)
    rw [hnil, trim_of_blanks (blank_of_mem_collapse hblank)]
    rfl
  · have hend : endsBlank (front ++ trim t) = false := by
      rw [endsBlank_append hnil, endsBlank_trim]
    have hcut : collapse t = collapse front ++ collapse (trim t) ++ collapse back := by
      conv_lhs => rw [ht]
      rw [collapse_append (.inl hend), collapse_append (.inr (beginsBlank_trim t))]
    rw [hcut, trim_append_blanks (blank_of_mem_collapse hback),
      trim_blanks_append (blank_of_mem_collapse hfront)]
    refine trim_eq_self_of_ends ?_ (endsBlank_collapse (endsBlank_trim t))
    rw [beginsBlank_collapse, beginsBlank_trim]

/-! ## Collapsing a text -/

/-- **What collapsing does to a text.** -/
theorem collapse_byRuns (t : Text) :
    (∃! rs, IsRuns rs t) ∧ (∀ rs, IsRuns rs t → collapse t = rs.flatMap shortened) ∧
      SingleBlanks (collapse t) ∧ solid (collapse t) = solid t ∧
      collapse (collapse t) = collapse t ∧ trim (collapse t) = collapse (trim t) :=
  ⟨existsUnique_isRuns t, fun _ h => h.collapse_eq, singleBlanks_collapse t, solid_collapse t,
    collapse_collapse t, trim_collapse t⟩

theorem collapse_byRuns_samples :
    let t : Text := "\u00a0 a\tb \r\n\u3000c\u2028".toList
    let rs : List Text := ["\u00a0 ".toList, ['a'], ['\t'], ['b'], " \r\n\u3000".toList, ['c'],
      ['\u2028']]
    IsRuns rs t ∧ collapse t = " a\tb c\u2028".toList ∧ collapse (trim t) = "a\tb c".toList := by
  intro t rs
  obtain ⟨-, hruns, -, -, -, htrim⟩ := collapse_byRuns t
  have hrs : IsRuns rs t := isRuns_iff.2 (by decide)
  have hcollapse : collapse t = " a\tb c\u2028".toList := hruns rs hrs
  refine ⟨hrs, hcollapse, ?_⟩
  rw [← htrim, hcollapse]
  decide

end PugPretty
