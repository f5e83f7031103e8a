import PugPretty.Proofs.InlineContent
import PugPretty.Proofs.LayoutFreedom

/-!
# The ends of a text

Which character a text begins or ends with after it has been trimmed or collapsed, after characters
have been dropped from its end, and after its lines have been joined. The last of these is read off
the solid characters, which trimming, collapsing and joining keep: a text that ends in one ends like
its solid characters.
-/

namespace PugPretty

open Text

def beginsBlank (t : Text) : Bool := t.head?.any isBlank

def endsBlank (t : Text) : Bool := t.getLast?.any isBlank

theorem beginsBlank_append {t : Text} (h : t ≠ []) (u : Text) :
    beginsBlank (t ++ u) = beginsBlank t := by
  rw [beginsBlank, List.head?_append_of_ne_nil t h, beginsBlank]

theorem endsBlank_append {u : Text} (h : u ≠ []) (t : Text) :
    endsBlank (t ++ u) = endsBlank u := by
  rw [endsBlank, List.getLast?_append_of_ne_nil t h, endsBlank]

/-! ## Trimming -/

theorem getLast?_dropEndWhile (p : Char → Bool) (t : Text) :
    ∀ c ∈ (dropEndWhile p t).getLast?, p c = false := by
  intro c hc
  rw [dropEndWhile, List.getLast?_reverse, Option.mem_def] at hc
  have h := List.head?_dropWhile_not p t.reverse
  rw [hc] at h
  exact h

theorem dropEndWhile_eq_self {p : Char → Bool} {t : Text} (h : ∀ c ∈ t.getLast?, p c = false) :
    dropEndWhile p t = t := by
  refine List.rdropWhile_eq_self_iff.2 fun hne => ?_
  have hlast := h _ (List.getLast?_eq_some_getLast hne)
  simp [hlast]

theorem getLast?_trim (t : Text) : ∀ c ∈ (trim t).getLast?, isBlank c = false :=
  getLast?_dropEndWhile isBlank (trimStart t)

theorem trimStart_eq_self {t : Text} (h : ∀ c ∈ t.head?, isBlank c = false) : trimStart t = t := by
  cases t with
  | nil => rfl
  | cons c t =>
    have hc : isBlank c = false := h c rfl
    simp [trimStart, hc]

theorem trim_eq_self {t : Text} (hh : ∀ c ∈ t.head?, isBlank c = false)
    (hl : ∀ c ∈ t.getLast?, isBlank c = false) : trim t = t := by
  rw [trim, trimStart_eq_self hh]
  exact dropEndWhile_eq_self hl

theorem trim_eq_self_of_ends {t : Text} (hb : beginsBlank t = false) (he : endsBlank t = false) :
    trim t = t :=
  trim_eq_self ((Option.any_eq_false _ _).1 hb) ((Option.any_eq_false _ _).1 he)

theorem beginsBlank_trim (t : Text) : beginsBlank (trim t) = false :=
  (Option.any_eq_false _ _).2 (head?_trim t)

theorem endsBlank_trim (t : Text) : endsBlank (trim t) = false :=
  (Option.any_eq_false _ _).2 (getLast?_trim t)

theorem trim_trim (t : Text) : trim (trim t) = trim t :=
  trim_eq_self_of_ends (beginsBlank_trim t) (endsBlank_trim t)

theorem trim_cons_blank {c : Char} (hc : isBlank c = true) (t : Text) : trim (c :: t) = trim t := by
  simp [trim, trimStart, hc]

theorem trim_snoc_blank {c : Char} (hc : isBlank c = true) (t : Text) : trim (t ++ [c]) = trim t := by
  unfold trim trimStart
  rw [List.dropWhile_append]
  split
  · next h => simp [List.isEmpty_iff.1 h, hc]
  · exact List.rdropWhile_concat_pos isBlank _ c hc

section
variable {α : Type} {g : Text → α} {w : Text} (hw : ∀ c ∈ w, isBlank c = true)
include hw

theorem eq_of_blanks_front (hg : ∀ c t, isBlank c = true → g (c :: t) = g t) (t : Text) :
    g (w ++ t) = g t := by
  induction w with
  | nil => rfl
  | cons c w ih =>
    obtain ⟨hc, hw⟩ := List.forall_mem_cons.1 hw
    rw [List.cons_append, hg c _ hc, ih hw]

theorem eq_of_blanks_back (hg : ∀ c t, isBlank c = true → g (t ++ [c]) = g t) (t : Text) :
    g (t ++ w) = g t := by
  induction w generalizing t with
  | nil => rw [List.append_nil]
  | cons c w ih =>
    obtain ⟨hc, hw⟩ := List.forall_mem_cons.1 hw
    rw [List.append_cons, ih hw, hg c t hc]

theorem trim_blanks_append (t : Text) : trim (w ++ t) = trim t :=
  eq_of_blanks_front hw (fun _ t hc => trim_cons_blank hc t) t

theorem trim_append_blanks (t : Text) : trim (t ++ w) = trim t :=
  eq_of_blanks_back hw (fun _ t hc => trim_snoc_blank hc t) t

end

theorem trim_of_blanks {t : Text} (h : ∀ c ∈ t, isBlank c = true) : trim t = [] := by
  rw [← List.nil_append t, trim_append_blanks h]
  rfl

theorem exists_trim_append (t : Text) : ∃ front back, t = front ++ trim t ++ back ∧
    (∀ c ∈ front, isBlank c = true) ∧ ∀ c ∈ back, isBlank c = true := by
  have hfront : t.takeWhile isBlank ++ trimStart t = t := List.takeWhile_append_dropWhile
  have hback : trim t ++ (trimStart t).rtakeWhile isBlank = trimStart t :=
    List.rdropWhile_append_rtakeWhile
  refine ⟨t.takeWhile isBlank, (trimStart t).rtakeWhile isBlank, ?_, fun c hc => ?_, fun c hc => ?_⟩
  · rw [List.append_assoc, hback, hfront]
  · exact List.mem_takeWhile_imp hc
  · exact List.mem_rtakeWhile_imp hc

theorem infix_trim (t : Text) : trim t <:+: t :=
  (prefix_trim t).isInfix.trans (List.dropWhile_suffix isBlank).isInfix

theorem head?_of_prefix {u t : Text} {p : Char → Prop} (hu : u <+: t) (h : ∀ c ∈ t.head?, p c) :
    ∀ c ∈ u.head?, p c := by
  obtain ⟨v, rfl⟩ := hu
  cases u with
  | nil => simp
  | cons d u => exact h

/-! ## Solid characters -/

theorem solid_of_blank {t : Text} (h : ∀ c ∈ t, isBlank c = true) : solid t = [] :=
  List.filter_eq_nil_iff.2 fun c hc => by simp [h c hc]

theorem solid_cons {c : Char} (hc : isBlank c = false) (t : Text) :
    solid (c :: t) = c :: solid t := by
  simp [solid, hc]

theorem solid_cons_of_blank {c : Char} (h : isBlank c = true) (t : Text) :
    solid (c :: t) = solid t := by
  simp [solid, h]

theorem solid_trimStart (t : Text) : solid (trimStart t) = solid t := by
  have ht := List.takeWhile_append_dropWhile (p := isBlank) (l := t)
  conv_rhs => rw [← ht]
  rw [solid_append, solid_of_blank fun c hc => List.mem_takeWhile_imp hc]
  rfl

theorem solid_trimEnd (t : Text) : solid (trimEnd t) = solid t := by
  have ht : trimEnd t ++ List.rtakeWhile isBlank t = t := List.rdropWhile_append_rtakeWhile
  conv_rhs => rw [← ht]
  rw [solid_append, solid_of_blank fun c hc => List.mem_rtakeWhile_imp hc, List.append_nil]

theorem solid_trim (t : Text) : solid (trim t) = solid t := by
  rw [trim, solid_trimEnd, solid_trimStart]

theorem getLast?_solid {t : Text} (h : ∀ c ∈ t.getLast?, isBlank c = false) :
    (solid t).getLast? = t.getLast? := by
  rcases List.eq_nil_or_concat t with rfl | ⟨u, c, rfl⟩
  · rfl
  · have hc : isBlank c = false := h c (by simp)
    simp [solid, hc]

/-! ## Collapsing -/

theorem head?_collapse (c : Char) (r : Text) :
    (collapse (c :: r)).head? =
      some (if isBlank c && r.head?.any isBlank then ' ' else c) := by
  rw [collapse]
  split <;> rfl

theorem mem_collapse {t : Text} {d : Char} (h : d ∈ collapse t) : d = ' ' ∨ d ∈ t := by
  induction t with
  | nil => cases h
  | cons c r ih =>
    rw [collapse] at h
    split at h
    · rcases List.mem_cons.1 h with rfl | h
      · exact .inl rfl
      · exact (ih (List.mem_of_mem_drop h)).imp_right (List.mem_cons_of_mem c)
    · rcases List.mem_cons.1 h with rfl | h
      · exact .inr List.mem_cons_self
      · exact (ih h).imp_right (List.mem_cons_of_mem c)

theorem solid_collapse (t : Text) : solid (collapse t) = solid t := by
  induction t with
  | nil => rfl
  | cons c r ih =>
    rw [collapse]
    split
    · next h =>
      -- the rest begins with a blank as well, which the space stands for
      rw [Bool.and_eq_true, Option.any_eq_true] at h
      obtain ⟨hc, d, hd, hblank⟩ := h
      obtain ⟨u, rfl⟩ := List.head?_eq_some_iff.1 hd
      obtain ⟨v, hv⟩ := List.head?_eq_some_iff.1 (head?_collapse d u)
      have hspace : isBlank (if isBlank d && u.head?.any isBlank then ' ' else d) = true := by
        split
        · decide
        · exact hblank
      rw [hv, solid_cons_of_blank hspace] at ih
      rw [hv, List.drop_one, List.tail_cons, solid_cons_of_blank (by decide), ih,
        solid_cons_of_blank hc]
    · rw [← List.singleton_append, solid_append, ih, ← solid_append, List.singleton_append]

/-! ## Texts of one line -/

section
variable {t : Text}

theorem isOneLine_iff : isOneLine t = true ↔ '\n' ∉ t := by
  simp [isOneLine]

theorem isOneLine_append {u : Text} :
    isOneLine (t ++ u) = true ↔ isOneLine t = true ∧ isOneLine u = true := by
  simp [isOneLine_iff]

theorem isOneLine_cons {c : Char} (hc : c ≠ '\n') (h : isOneLine t = true) :
    isOneLine (c :: t) = true := by
  rw [isOneLine_iff] at h ⊢
  simp [hc.symm, h]

variable (h : isOneLine t = true)
include h

theorem isOneLine_of_infix {u : Text} (hu : u <:+: t) : isOneLine u = true :=
  isOneLine_iff.2 fun hm => isOneLine_iff.1 h (hu.subset hm)

theorem isOneLine_trim : isOneLine (trim t) = true := isOneLine_of_infix h (infix_trim t)

theorem isOneLine_collapse : isOneLine (collapse t) = true := by
  refine isOneLine_iff.2 fun hm => ?_
  rcases mem_collapse hm with hc | hc
  · cases hc
  · exact isOneLine_iff.1 h hc

end

/-! ## Joining lines -/

theorem not_of_mem_splitOnP (p : Char → Bool) (t : Text) :
    ∀ piece ∈ t.splitOnP p, ∀ c ∈ piece, p c = false := by
  induction t with
  | nil => simp
  | cons c t ih =>
    rw [List.splitOnP_cons_eq_if_modifyHead]
    by_cases hc : p c = true
    · simpa [hc] using ih
    · obtain ⟨piece, ps, hps⟩ := List.exists_cons_of_ne_nil (List.splitOnP_ne_nil p t)
      rw [hps] at ih ⊢
      simpa [hc] using ih

theorem feed_not_mem_lines (t : Text) : ∀ line ∈ lines t, '\n' ∉ line := by
  intro line hline hf
  have hfeed := not_of_mem_splitOnP (· == '\n') t line hline _ hf
  simp at hfeed

theorem unlines_lines (t : Text) : unlines (lines t) = t := List.intercalate_splitOn '\n'

theorem solid_intercalate {sep : Text} (hs : solid sep = []) (ls : List Text) :
    solid (sep.intercalate ls) = (ls.map solid).flatten := by
  induction ls with
  | nil => rfl
  | cons l ls ih =>
    cases ls with
    | nil => simp [List.intercalate]
    | cons m ls =>
      rw [List.intercalate, List.intersperse_cons_cons, List.flatten_cons, List.flatten_cons,
        solid_append, solid_append, hs, List.nil_append]
      exact congrArg (solid l ++ ·) ih

theorem solid_unlines (ls : List Text) : solid (unlines ls) = (ls.map solid).flatten :=
  solid_intercalate (by decide) ls

theorem solid_joinLines (t : Text) : solid (joinLines t) = solid t := by
  unfold joinLines
  split
  · rfl
  · have htrim : ((lines t).map trim).map solid = (lines t).map solid := by
      simp [Function.comp_def, solid_trim]
    have hsolid : solid ((lines t).map trim).flatten = (((lines t).map trim).map solid).flatten :=
      List.filter_flatten
    rw [hsolid, htrim, ← solid_unlines, unlines_lines]

theorem isOneLine_joinLines (t : Text) : isOneLine (joinLines t) = true := by
  unfold joinLines
  split
  · assumption
  · refine isOneLine_iff.2 fun hmem => ?_
    obtain ⟨line, hline, hc⟩ := List.mem_flatten.1 hmem
    obtain ⟨l, hl, rfl⟩ := List.mem_map.1 hline
    exact feed_not_mem_lines t l hl ((infix_trim l).subset hc)

theorem head?_joinLines {t : Text} (h : ∀ c ∈ t.head?, isBlank c = false) :
    ∀ c ∈ (joinLines t).head?, isBlank c = false := by
  unfold joinLines
  split
  · exact h
  · intro c hc
    rw [List.head?_flatten, Option.mem_def] at hc
    obtain ⟨line, hline, hl⟩ := List.exists_of_findSome?_eq_some hc
    obtain ⟨l, -, rfl⟩ := List.mem_map.1 hline
    exact head?_trim l c hl

theorem getLast?_joinLines {t : Text} (h : isOneLine t = false) :
    (joinLines t).getLast? = (trimEnd t).getLast? := by
  have hjoin : ∀ c ∈ (joinLines t).getLast?, isBlank c = false := by
    intro c hc
    rw [joinLines, if_neg (by simp [h]), List.getLast?_flatten, Option.mem_def] at hc
    obtain ⟨line, hline, hl⟩ := List.exists_of_findSome?_eq_some hc
    obtain ⟨l, -, rfl⟩ := List.mem_map.1 (List.mem_reverse.1 hline)
    exact getLast?_trim l c hl
  have htrim : ∀ c ∈ (trimEnd t).getLast?, isBlank c = false := getLast?_dropEndWhile isBlank t
  rw [← getLast?_solid hjoin, ← getLast?_solid htrim, solid_joinLines, solid_trimEnd]

end PugPretty
