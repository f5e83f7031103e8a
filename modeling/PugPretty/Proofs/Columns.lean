import PugPretty.Proofs.SideBySide

/-!
# Columns

A text takes the columns of its last line, where a tab at the start counts more than other
characters. What is written behind the text and what is put into it adds its characters, except that
it can bring tabs to the start of a line or cut tabs off from there.
-/

namespace PugPretty

open Text

def leadingTabs (t : Text) : Nat := ((lastLine t).takeWhile (· == '\t')).length

theorem columnOf_add_leadingTabs (tab : Nat) (t : Text) :
    columnOf tab t + leadingTabs t = leadingTabs t * tab + (lastLine t).length := by
  have hlen : (lastLine t).length = leadingTabs t + ((lastLine t).dropWhile (· == '\t')).length := by
    rw [leadingTabs, ← List.length_append, List.takeWhile_append_dropWhile]
  have hcol : columnOf tab t =
      leadingTabs t * tab + ((lastLine t).dropWhile (· == '\t')).length := rfl
  omega

theorem takeWhile_tabs_append {u : Text} (hu : u.head? ≠ some '\t') (t : Text) :
    (t ++ u).takeWhile (· == '\t') = t.takeWhile (· == '\t') := by
  induction t with
  | nil =>
    cases u with
    | nil => rfl
    | cons c u =>
      have hc : c ≠ '\t' := fun h => hu (h ▸ rfl)
      simp [hc]
  | cons c t ih => simp only [List.cons_append, List.takeWhile_cons, ih]

theorem length_lastLine_le (t : Text) : (lastLine t).length ≤ t.length := by
  rw [lastLine, List.length_reverse, ← t.length_reverse]
  exact (List.takeWhile_prefix _).length_le

section
variable (tab : Nat) {t u : Text}

theorem columnOf_append (hn : '\n' ∉ u) (hu : u.head? ≠ some '\t') (t : Text) :
    columnOf tab (t ++ u) = columnOf tab t + u.length := by
  have hne : ∀ c ∈ u, c ≠ '\n' := fun c hc h => hn (h ▸ hc)
  have hline : lastLine (t ++ u) = lastLine t ++ u := lastLine_append hne
  have htabs : leadingTabs (t ++ u) = leadingTabs t := by
    rw [leadingTabs, hline, takeWhile_tabs_append hu, leadingTabs]
  have h1 := columnOf_add_leadingTabs tab t
  have h2 := columnOf_add_leadingTabs tab (t ++ u)
  rw [htabs, hline, List.length_append] at h2
  omega

/-- What is written behind a text adds its characters, and the tabs that begin its last line. -/
theorem columnOf_append_le (hu : u.head? ≠ some '\t') (t : Text) :
    columnOf tab (t ++ u) ≤ columnOf tab t + u.length + (tab - 1) * leadingTabs u := by
  by_cases hn : '\n' ∈ u
  · have hline : lastLine (t ++ u) = lastLine u := lastLine_append_of_mem hn t []
    have htabs : leadingTabs (t ++ u) = leadingTabs u := by rw [leadingTabs, hline, leadingTabs]
    have h1 := columnOf_add_leadingTabs tab (t ++ u)
    have h2 := length_lastLine_le u
    rw [htabs, hline] at h1
    have h3 : leadingTabs u * tab ≤ leadingTabs u + (tab - 1) * leadingTabs u := by
      cases tab with
      | zero => simp
      | succ k => rw [Nat.add_sub_cancel, Nat.mul_succ, Nat.mul_comm k]; omega
    omega
  · rw [columnOf_append tab hn hu t]
    exact Nat.le_add_right _ _

/-- What is put into a text adds its characters. Where a tab counts nothing, it can make the tabs
count that come behind it. -/
theorem columnOf_insert_le {i : Text} (hn : '\n' ∉ i) (hi : i.head? ≠ some '\t') (hne : i ≠ [])
    (t u : Text) :
    columnOf tab (t ++ i ++ u) ≤ columnOf tab (t ++ u) + i.length + (1 - tab) * leadingTabs (t ++ u) := by
  by_cases hu : '\n' ∈ u
  · have hline : lastLine (t ++ i ++ u) = lastLine (t ++ u) := lastLine_append_of_mem hu (t ++ i) t
    have htabs : leadingTabs (t ++ i ++ u) = leadingTabs (t ++ u) := by
      rw [leadingTabs, hline, leadingTabs]
    have h1 := columnOf_add_leadingTabs tab (t ++ i ++ u)
    have h2 := columnOf_add_leadingTabs tab (t ++ u)
    rw [htabs, hline] at h1
    omega
  have hi' : ∀ c ∈ i, c ≠ '\n' := fun c hc h => hn (h ▸ hc)
  have hu' : ∀ c ∈ u, c ≠ '\n' := fun c hc h => hu (h ▸ hc)
  have hline : lastLine (t ++ i ++ u) = lastLine t ++ i ++ u := by
    rw [lastLine_append hu', lastLine_append hi']
  have hbare : lastLine (t ++ u) = lastLine t ++ u := lastLine_append hu'
  have hhead : (i ++ u).head? ≠ some '\t' := by rwa [List.head?_append_of_ne_nil _ hne]
  have htabs : leadingTabs (t ++ i ++ u) = leadingTabs t := by
    rw [leadingTabs, hline, List.append_assoc, takeWhile_tabs_append hhead, leadingTabs]
  have hle : leadingTabs t ≤ leadingTabs (t ++ u) := by
    rw [leadingTabs, leadingTabs, hbare, List.takeWhile_append]
    split
    · rw [List.length_append]
      omega
    · exact Nat.le_refl _
  have h1 := columnOf_add_leadingTabs tab (t ++ i ++ u)
  have h2 := columnOf_add_leadingTabs tab (t ++ u)
  rw [htabs, hline, List.length_append, List.length_append] at h1
  rw [hbare, List.length_append] at h2
  cases tab with
  | zero =>
    simp only [Nat.mul_zero, Nat.zero_add, Nat.sub_zero, Nat.one_mul] at h1 h2 ⊢
    omega
  | succ k =>
    have hk := Nat.mul_le_mul_right k hle
    rw [Nat.mul_succ] at h1 h2
    omega

end

end PugPretty
