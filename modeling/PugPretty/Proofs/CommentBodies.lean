import PugPretty.Proofs.BlankRuns
import PugPretty.Proofs.JoinedLines

/-!
# Bodies of comments

A body is tidied line by line: no line is lost or split, and `IsTidy` says of each line what it looks
like afterwards. A tidy text stays as it is (`tidyLines_eq_self_iff`), and the space that stands in
front of one goes and comes back when it is tidied again. So the body of a comment is settled after
one run, in every mode (`commentBody_settled`).
-/

namespace PugPretty

open Text

/-! ## Lines -/

theorem lines_ne_nil (t : Text) : lines t ≠ [] := List.splitOnP_ne_nil _ t

theorem lines_cons {c : Char} (hc : c ≠ '\n') (t : Text) :
    lines (c :: t) = (lines t).modifyHead (c :: ·) := by
  simp [lines, List.splitOn, List.splitOnP_cons_eq_if_modifyHead, hc]

theorem length_lines (t : Text) : (lines t).length = t.count '\n' + 1 := by
  induction t with
  | nil => rfl
  | cons c t ih =>
    by_cases hc : c = '\n'
    · subst hc
      have hlines : lines ('\n' :: t) = [] :: lines t := lines_append_feed [] t
      rw [hlines, List.length_cons, ih, List.count_cons_self]
    · rw [lines_cons hc, List.length_modifyHead, ih, List.count_cons_of_ne hc]

theorem solid_eq_lines (t : Text) : solid t = ((lines t).map solid).flatten := by
  rw [← solid_unlines, unlines_lines]

/-! ## Tidy lines -/

def tidied (line : Text) : Text := collapse (trim line)

def IsTidy (line : Text) : Prop := trim line = line ∧ SingleBlanks line

theorem isTidy_tidied (line : Text) : IsTidy (tidied line) := by
  refine ⟨?_, singleBlanks_collapse _⟩
  rw [tidied, trim_collapse, trim_trim]

theorem tidied_of_isTidy {line : Text} (h : IsTidy line) : tidied line = line := by
  rw [tidied, h.1, collapse_eq_self_iff.2 h.2]

theorem solid_tidied (line : Text) : solid (tidied line) = solid line := by
  rw [tidied, solid_collapse, solid_trim]

theorem lines_tidyLines (t : Text) : lines (tidyLines t) = (lines t).map tidied := by
  refine List.splitOn_intercalate '\n' (fun l hl => ?_) (by simpa using lines_ne_nil t)
  obtain ⟨line, hline, rfl⟩ := List.mem_map.1 hl
  have hone : isOneLine line = true := isOneLine_iff.2 (feed_not_mem_lines t line hline)
  exact isOneLine_iff.1 (isOneLine_collapse (isOneLine_trim hone))

theorem isTidy_of_mem_tidyLines (t : Text) : ∀ l ∈ lines (tidyLines t), IsTidy l := by
  intro l hl
  rw [lines_tidyLines] at hl
  obtain ⟨line, -, rfl⟩ := List.mem_map.1 hl
  exact isTidy_tidied line

theorem tidyLines_eq_self_iff {t : Text} : tidyLines t = t ↔ ∀ l ∈ lines t, IsTidy l := by
  constructor
  · intro h l hl
    rw [← h] at hl
    exact isTidy_of_mem_tidyLines t l hl
  · intro h
    have hself : (lines t).map tidied = lines t := by
      rw [List.map_congr_left fun l hl => tidied_of_isTidy (h l hl), List.map_id']
    rw [← unlines_lines (tidyLines t), lines_tidyLines, hself, unlines_lines]

theorem tidyLines_tidyLines (t : Text) : tidyLines (tidyLines t) = tidyLines t :=
  tidyLines_eq_self_iff.2 (isTidy_of_mem_tidyLines t)

theorem map_solid_tidyLines (t : Text) :
    (lines (tidyLines t)).map solid = (lines t).map solid := by
  simp [lines_tidyLines, Function.comp_def, solid_tidied]

theorem solid_tidyLines (t : Text) : solid (tidyLines t) = solid t := by
  rw [solid_eq_lines, map_solid_tidyLines, ← solid_eq_lines]

theorem count_tidyLines (t : Text) : (tidyLines t).count '\n' = t.count '\n' := by
  have htidy := length_lines (tidyLines t)
  have ht := length_lines t
  rw [lines_tidyLines, List.length_map] at htidy
  omega

theorem tidyLines_eq_nil_iff {t : Text} :
    tidyLines t = [] ↔ isBlankText t = true ∧ isOneLine t = true := by
  constructor
  · intro h
    have hsolid : solid t = [] := by rw [← solid_tidyLines, h]; rfl
    have hcount : t.count '\n' = 0 := by rw [← count_tidyLines, h]; rfl
    refine ⟨List.all_eq_true.2 fun c hc => ?_, isOneLine_iff.2 (List.count_eq_zero.1 hcount)⟩
    simpa using List.filter_eq_nil_iff.1 hsolid c hc
  · intro h
    have htrim : trim t = [] := trim_of_blanks (List.all_eq_true.1 h.1)
    simp [tidyLines, lines_of_isOneLine h.2, htrim, unlines, collapse]

/-! ## The beginning -/

theorem tidyLines_cons_space (t : Text) : tidyLines (' ' :: t) = tidyLines t := by
  obtain ⟨l, ls, hl⟩ := List.exists_cons_of_ne_nil (lines_ne_nil t)
  have hspace : lines (' ' :: t) = (' ' :: l) :: ls := by
    rw [lines_cons (by decide), hl, List.modifyHead_cons]
  have htrim : trim (' ' :: l) = trim l := trim_cons_blank (by decide) l
  rw [tidyLines, tidyLines, hspace, hl, List.map_cons, List.map_cons, htrim]

theorem beginsBlank_tidyLines {t : Text} (h : beginsBlank t = false) :
    beginsBlank (tidyLines t) = false := by
  cases t with
  | nil => rfl
  | cons c t =>
    have hc : isBlank c = false := by simpa [beginsBlank] using h
    have hfeed : c ≠ '\n' := by
      intro hf
      subst hf
      cases hc
    obtain ⟨l, ls, hl⟩ := List.exists_cons_of_ne_nil (lines_ne_nil t)
    have htrim : trim (c :: l) = c :: trimEnd l := trim_append_cons hc [] l
    have hline : tidied (c :: l) = c :: collapse (trimEnd l) := by
      rw [tidied, htrim, collapse_cons_solid hc]
    have hlines : lines (tidyLines (c :: t)) = (c :: collapse (trimEnd l)) :: ls.map tidied := by
      rw [lines_tidyLines, lines_cons hfeed, hl, List.modifyHead_cons, List.map_cons, hline]
    have hhead : (tidyLines (c :: t)).head? = some c := by
      rw [← unlines_lines (tidyLines (c :: t)), hlines]
      cases ls <;> rfl
    rw [beginsBlank, hhead, Option.any_some, hc]

/-! ## The modes -/

/-- What stands between the mark of a comment and its tidy body. -/
def addedSpace (inBlock : Bool) (body tidy : Text) : Text :=
  if inBlock = false ∧ beginsBlank body = true ∧ tidy ≠ [] then [' '] else []

theorem commentBody_trimAll (inBlock : Bool) (body : Text) :
    commentBody .trimAll inBlock body =
      addedSpace inBlock body (tidyLines body) ++ tidyLines body := by
  have hspace : (!inBlock && body.head?.any isBlank && !(tidyLines body).isEmpty) = true ↔
      inBlock = false ∧ beginsBlank body = true ∧ tidyLines body ≠ [] := by
    simp [beginsBlank, and_assoc]
  unfold commentBody addedSpace
  by_cases h : inBlock = false ∧ beginsBlank body = true ∧ tidyLines body ≠ []
  · rw [if_pos h]
    exact if_pos (hspace.2 h)
  · rw [if_neg h]
    exact if_neg fun hadd => h (hspace.1 hadd)

theorem commentBody_trimAll_settled (inBlock : Bool) (body : Text) :
    commentBody .trimAll inBlock (commentBody .trimAll inBlock body) =
      commentBody .trimAll inBlock body := by
  rw [commentBody_trimAll inBlock body]
  by_cases h : inBlock = false ∧ beginsBlank body = true ∧ tidyLines body ≠ []
  · -- the space is a blank in front of the first line, so it is decided on again
    have hspace : addedSpace inBlock body (tidyLines body) = [' '] := if_pos h
    have hagain : addedSpace inBlock (' ' :: tidyLines body) (tidyLines body) = [' '] :=
      if_pos ⟨h.1, rfl, h.2.2⟩
    rw [hspace, List.singleton_append, commentBody_trimAll, tidyLines_cons_space,
      tidyLines_tidyLines, hagain, List.singleton_append]
  · have hspace : addedSpace inBlock body (tidyLines body) = [] := if_neg h
    have hagain : addedSpace inBlock (tidyLines body) (tidyLines body) = [] := by
      refine if_neg fun hagain => h ⟨hagain.1, ?_, hagain.2.2⟩
      by_contra hb
      have hbegin := hagain.2.1
      rw [beginsBlank_tidyLines (Bool.not_eq_true _ ▸ hb)] at hbegin
      cases hbegin
    rw [hspace, List.nil_append, commentBody_trimAll, tidyLines_tidyLines, hagain, List.nil_append]

theorem solid_commentBody (mode : CommentBlanks) (inBlock : Bool) (body : Text) :
    solid (commentBody mode inBlock body) = solid body := by
  cases mode with
  | keepAll => rfl
  | keepLeading => exact solid_trimEnd body
  | trimAll =>
    have hspace : solid (addedSpace inBlock body (tidyLines body)) = [] := by
      unfold addedSpace
      split <;> rfl
    rw [commentBody_trimAll, solid_append, hspace, List.nil_append, solid_tidyLines]

theorem count_commentBody_trimAll (inBlock : Bool) (body : Text) :
    (commentBody .trimAll inBlock body).count '\n' = body.count '\n' := by
  have hspace : (addedSpace inBlock body (tidyLines body)).count '\n' = 0 := by
    unfold addedSpace
    split <;> rfl
  rw [commentBody_trimAll, List.count_append, hspace, Nat.zero_add, count_tidyLines]

theorem commentBody_commentBody (mode : CommentBlanks) (inBlock : Bool) (body : Text) :
    commentBody mode inBlock (commentBody mode inBlock body) = commentBody mode inBlock body := by
  cases mode with
  | keepAll => rfl
  | keepLeading => exact List.rdropWhile_idempotent isBlank body
  | trimAll => exact commentBody_trimAll_settled inBlock body

theorem exists_trimEnd_append (t : Text) : ∃ back, t = trimEnd t ++ back ∧
    isBlankText back = true ∧ endsBlank (trimEnd t) = false := by
  have ht : trimEnd t ++ t.rtakeWhile isBlank = t := List.rdropWhile_append_rtakeWhile
  refine ⟨t.rtakeWhile isBlank, ht.symm, List.all_eq_true.2 fun c hc => ?_, ?_⟩
  · exact List.mem_rtakeWhile_imp hc
  · exact (Option.any_eq_false _ _).2 (getLast?_dropEndWhile isBlank t)

/-- **The body of a comment is settled after one run.** -/
theorem commentBody_settled (inBlock : Bool) (body : Text) :
    (∀ mode, commentBody mode inBlock (commentBody mode inBlock body) =
        commentBody mode inBlock body ∧
      solid (commentBody mode inBlock body) = solid body) ∧
    (∃ tidy, commentBody .trimAll inBlock body = addedSpace inBlock body tidy ++ tidy ∧
      (tidy = [] ↔ isBlankText body = true ∧ isOneLine body = true) ∧
      (∀ l ∈ lines tidy, IsTidy l) ∧ (lines tidy).map solid = (lines body).map solid ∧
      (commentBody .trimAll inBlock body).count '\n' = body.count '\n') ∧
    ∃ back, body = commentBody .keepLeading inBlock body ++ back ∧ isBlankText back = true ∧
      endsBlank (commentBody .keepLeading inBlock body) = false := by
  refine ⟨fun mode => ?_, ⟨tidyLines body, ?_⟩, exists_trimEnd_append body⟩
  · exact ⟨commentBody_commentBody mode inBlock body, solid_commentBody mode inBlock body⟩
  · exact ⟨commentBody_trimAll inBlock body, tidyLines_eq_nil_iff, isTidy_of_mem_tidyLines body,
      map_solid_tidyLines body, count_commentBody_trimAll inBlock body⟩

theorem commentBody_settled_samples :
    let body : Text := "\n\u3000a \t b\r\n\u00a0c".toList
    let line : Text := "a b".toList
    commentBody .trimAll false body = " \na b\nc".toList ∧ IsTidy line ∧
      commentBody .trimAll false " \na b\nc".toList = " \na b\nc".toList := by
  intro body line
  obtain ⟨hagain, ⟨tidy, hbody, hnil, htidy, -, -⟩, -⟩ := commentBody_settled false body
  have hprinted : commentBody .trimAll false body = " \na b\nc".toList := by decide
  have hne : tidy ≠ [] := fun h => absurd (hnil.1 h).1 (by decide)
  have hspace : addedSpace false body tidy = [' '] := if_pos ⟨rfl, by decide, hne⟩
  rw [hspace, hprinted] at hbody
  obtain rfl : "\na b\nc".toList = tidy := by simpa using hbody
  refine ⟨hprinted, htidy line (by decide), ?_⟩
  rw [← hprinted]
  exact (hagain .trimAll).1

end PugPretty
