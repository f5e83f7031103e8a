import Mathlib.Data.List.Chain
import PugPretty.Proofs.TextEnds

/-!
# Collapsing

No two blanks meet in a text that is collapsed, and it stays as it is if none did before
(`collapse_eq_self_iff`). A text can be cut anywhere but in a run of blanks and collapsed on both
sides of the cut (`collapse_append`).
-/

namespace PugPretty

open Text

def SingleBlanks (t : Text) : Prop :=
  t.IsChain fun c d => ¬ (isBlank c = true ∧ isBlank d = true)

instance (t : Text) : Decidable (SingleBlanks t) := inferInstanceAs (Decidable (List.IsChain _ _))

theorem singleBlanks_collapse (t : Text) : SingleBlanks (collapse t) := by
  unfold SingleBlanks
  induction t with
  | nil => exact .nil
  | cons c r ih =>
    cases r with
    | nil => cases hc : isBlank c <;> simp [collapse, hc]
    | cons d u =>
      obtain ⟨v, hv⟩ := List.head?_eq_some_iff.1 (head?_collapse d u)
      rw [collapse]
      split
      · next h =>
        have hd : isBlank d = true := by simpa using (Bool.and_eq_true_iff.1 h).2
        have hspace : isBlank (if isBlank d && u.head?.any isBlank then ' ' else d) = true := by
          split
          · decide
          · exact hd
        -- the space takes the place of a blank, and no blank stood behind that one
        rw [hv, List.isChain_cons] at ih
        rw [hv, List.drop_one, List.tail_cons, List.isChain_cons]
        exact ⟨fun e he hblank => ih.1 e he ⟨hspace, hblank.2⟩, ih.2⟩
      · next h =>
        refine List.isChain_cons.2 ⟨fun e he hblank => ?_, ih⟩
        rw [head?_collapse, Option.mem_def, Option.some.injEq] at he
        have hd : isBlank d = true := by
          split at he
          · next hd => exact (Bool.and_eq_true_iff.1 hd).1
          · exact he ▸ hblank.2
        exact h (by simp [hblank.1, hd])

theorem collapse_eq_self_iff {t : Text} : collapse t = t ↔ SingleBlanks t := by
  refine ⟨fun h => h ▸ singleBlanks_collapse t, fun h => ?_⟩
  unfold SingleBlanks at h
  induction t with
  | nil => rfl
  | cons c r ih =>
    obtain ⟨hhead, hr⟩ := List.isChain_cons.1 h
    have hsingle : (isBlank c && r.head?.any isBlank) = false := by
      rw [Bool.and_eq_false_imp]
      intro hc
      rw [Option.any_eq_false]
      intro d hd
      simpa [hc] using hhead d hd
    rw [collapse, hsingle, ih hr]
    rfl

theorem collapse_collapse (t : Text) : collapse (collapse t) = collapse t :=
  collapse_eq_self_iff.2 (singleBlanks_collapse t)

/-- A run of blanks is collapsed on one side of a cut if it does not go across. -/
theorem collapse_append {t u : Text} (h : endsBlank t = false ∨ beginsBlank u = false) :
    collapse (t ++ u) = collapse t ++ collapse u := by
  induction t with
  | nil => rfl
  | cons c r ih =>
    cases r with
    | nil =>
      have hcut : (isBlank c && u.head?.any isBlank) = false := by
        rw [Bool.and_eq_false_iff]
        simpa [endsBlank, beginsBlank] using h
      simp [collapse, hcut]
    | cons d r =>
      have hrest := ih h
      obtain ⟨v, hv⟩ := List.head?_eq_some_iff.1 (head?_collapse d r)
      rw [List.cons_append, collapse, collapse, hrest, hv]
      simp only [List.cons_append, List.head?_cons, List.drop_one, List.tail_cons]
      split <;> rfl

theorem collapse_cons_solid {c : Char} (hc : isBlank c = false) (t : Text) :
    collapse (c :: t) = c :: collapse t := by
  simp [collapse, hc]

theorem collapse_snoc_solid {c : Char} (hc : isBlank c = false) (t : Text) :
    collapse (t ++ [c]) = collapse t ++ [c] := by
  rw [collapse_append (.inr (by simpa [beginsBlank] using hc)), collapse_cons_solid hc]
  rfl

theorem collapse_of_solid {t : Text} (h : ∀ c ∈ t, isBlank c = false) : collapse t = t := by
  induction t with
  | nil => rfl
  | cons c t ih =>
    obtain ⟨hc, ht⟩ := List.forall_mem_cons.1 h
    rw [collapse_cons_solid hc, ih ht]

theorem blank_of_mem_collapse {t : Text} (h : ∀ c ∈ t, isBlank c = true) :
    ∀ c ∈ collapse t, isBlank c = true := by
  intro c hc
  by_cases hmem : c ∈ t
  · exact h c hmem
  · rw [(mem_collapse hc).resolve_right hmem]
    decide

theorem collapse_ne_nil {t : Text} (h : t ≠ []) : collapse t ≠ [] := by
  obtain ⟨c, r, rfl⟩ := List.exists_cons_of_ne_nil h
  obtain ⟨v, hv⟩ := List.head?_eq_some_iff.1 (head?_collapse c r)
  simp [hv]

theorem beginsBlank_collapse (t : Text) : beginsBlank (collapse t) = beginsBlank t := by
  cases t with
  | nil => rfl
  | cons c r =>
    rw [beginsBlank, head?_collapse]
    split
    · next h => simp [beginsBlank, (Bool.and_eq_true_iff.1 h).1]; decide
    · rfl

theorem endsBlank_collapse {t : Text} (h : endsBlank t = false) : endsBlank (collapse t) = false := by
  rcases List.eq_nil_or_concat t with rfl | ⟨u, c, rfl⟩
  · rfl
  · have hc : isBlank c = false := by simpa [endsBlank] using h
    simp [collapse_snoc_solid hc, endsBlank, hc]

end PugPretty
