import Mathlib.Data.List.Chain
import PugPretty.Proofs.Outcome

/-!
# The finished text

Between the draft and the text that is handed out stand the end of the stream, the pragma and the
kind of line breaks. The text ends with one line break, except that a pragma in front of nothing is
followed by an empty line (`format_endsLine`). It begins with a pragma if one is wanted, but line
breaks of two characters keep it from being recognised (`hasPragma_format`).
-/

namespace PugPretty

open Text

variable {ε : Type}

theorem exists_printed {read : PatternReader} {o : Options} {f : Formatter ε} {ts : List Token}
    {s : String} (h : (format read o f ts).result = .ok s) :
    ∃ ord page, o.readPatterns read = .ok (ord, page) ∧
      s = finishText o
        (String.ofList (sheetAfter o.style page f (ord.arrange ts) []).draft.finish.text) := by
  by_cases ho : o.Readable read
  · obtain ⟨ord, page, hs, -⟩ := exists_page_of_readable ho
    refine ⟨ord, page, hs, ?_⟩
    rw [format_eq hs] at h
    have hw := writeTokens_eq o.style page f (ord.arrange ts)
    generalize writeTokens o.style page f (ord.arrange ts) = sheet at h hw
    unfold Sheet.result at h
    split at h
    · cases h
    · split at h
      · cases h
      · obtain rfl := Except.ok.inj h
        rw [hw]
        rfl
  · obtain ⟨_, -, hrun⟩ := exists_refused ho f ts
    rw [hrun] at h
    cases h

/-! ## Line breaks -/

theorem LineBreak.apply_ne_nil (b : LineBreak) : b.apply ['\n'] ≠ [] := by
  cases b <;> decide

theorem LineBreak.suffix_apply_iff (b : LineBreak) (t : Text) :
    b.apply ['\n'] <:+ b.apply t ↔ ['\n'] <:+ t := by
  constructor
  · intro h
    cases b with
    | lf => exact h
    | crlf =>
      rcases List.eq_nil_or_concat t with rfl | ⟨t, c, rfl⟩
      · exact absurd (List.suffix_nil.1 h) (LineBreak.apply_ne_nil _)
      · rw [List.concat_eq_append] at h ⊢
        by_cases hc : c = '\n'
        · exact hc ▸ List.suffix_append t [c]
        · -- the last character is not changed, so it is no line feed
          have hlast : ['\n'] <:+ LineBreak.crlf.apply t ++ [c] := by
            have hone : LineBreak.crlf.apply [c] = [c] := by simp [LineBreak.apply, hc]
            rw [← hone, ← LineBreak.apply_append]
            exact (List.suffix_append ['\r'] ['\n']).trans h
          obtain ⟨u, hu⟩ := hlast
          exact absurd (List.append_inj' hu rfl).2 (by simpa using Ne.symm hc)
  · rintro ⟨u, rfl⟩
    rw [LineBreak.apply_append]
    exact List.suffix_append _ _

theorem LineBreak.suffix_append_feed_iff (b : LineBreak) (t : Text) :
    b.apply ['\n'] ++ b.apply ['\n'] <:+ b.apply (t ++ ['\n']) ↔ ['\n'] <:+ t := by
  rw [LineBreak.apply_append, List.suffix_append_self_iff, LineBreak.suffix_apply_iff]

theorem not_feed_suffix_dropEndWhile (t : Text) : ¬ ['\n'] <:+ dropEndWhile (· == '\n') t := by
  intro h
  obtain ⟨u, hu⟩ := List.reverse_prefix.2 h
  rw [dropEndWhile, List.reverse_reverse] at hu
  have hhead := List.head?_dropWhile_not (· == '\n') t.reverse
  rw [← hu] at hhead
  simp at hhead

theorem dropEndWhile_eq_nil_iff (t : Text) :
    dropEndWhile (· == '\n') t = [] ↔ ∀ c ∈ t, c = '\n' := by
  simp [dropEndWhile, List.dropWhile_eq_nil_iff]

/-! ## One line break at the end -/

/-- The line feeds that the pragma leaves at the end. -/
theorem feed_suffix_insertPragma (t : Text) :
    ∃ u, (insertPragma (String.ofList (dropEndWhile (· == '\n') t ++ ['\n']))).toList = u ++ ['\n'] ∧
      (['\n'] <:+ u ↔ ∀ c ∈ t, c = '\n') := by
  have hnot := not_feed_suffix_dropEndWhile t
  rw [← dropEndWhile_eq_nil_iff]
  generalize dropEndWhile (· == '\n') t = v at hnot ⊢
  unfold insertPragma
  split
  · next hp =>
    refine ⟨v, String.toList_ofList, iff_of_false hnot ?_⟩
    rintro rfl
    exact absurd hp (by decide)
  · refine ⟨pragmaLine.toList ++ v, by simp, ?_⟩
    constructor
    · intro h
      rcases List.eq_nil_or_concat v with rfl | ⟨v, c, rfl⟩
      · rfl
      · -- the last character is that of the text, which is no line feed
        refine absurd ?_ hnot
        rw [List.concat_eq_append, ← List.append_assoc] at h
        rw [List.concat_eq_append]
        obtain ⟨u, hu⟩ := h
        rw [(List.append_inj' hu rfl).2]
        exact List.suffix_append _ _
    · rintro rfl
      exact ⟨"//- @prettier".toList, by decide⟩

/-- **One line break at the end, and a second one behind a pragma that nothing follows.** -/
theorem format_endsLine (read : PatternReader) (o : Options) (f : Formatter ε) (ts : List Token)
    {s : String} (h : (format read o f ts).result = .ok s) :
    ∃ ord page, o.readPatterns read = .ok (ord, page) ∧
      let lineBreak := o.layout.lineBreak.apply ['\n']
      let printed := (sheetAfter o.style page f (ord.arrange ts) []).draft.text
      lineBreak <:+ s.toList ∧
        (lineBreak ++ lineBreak <:+ s.toList ↔ o.style.pragma = true ∧ ∀ c ∈ printed, c = '\n') := by
  obtain ⟨ord, page, hs, rfl⟩ := exists_printed h
  refine ⟨ord, page, hs, ?_⟩
  intro lineBreak printed
  rw [Draft.text_finish]
  -- before the line breaks are chosen, the text ends with a line feed in any case
  obtain ⟨u, hu, hiff⟩ : ∃ u, (if o.style.pragma
        then insertPragma (String.ofList (dropEndWhile (· == '\n') printed ++ ['\n']))
        else String.ofList (dropEndWhile (· == '\n') printed ++ ['\n'])).toList = u ++ ['\n'] ∧
      (['\n'] <:+ u ↔ o.style.pragma = true ∧ ∀ c ∈ printed, c = '\n') := by
    split
    · next hp =>
      obtain ⟨u, hu, hiff⟩ := feed_suffix_insertPragma printed
      exact ⟨u, hu, by rw [hiff, hp]; simp⟩
    · next hp =>
      exact ⟨_, String.toList_ofList, iff_of_false (not_feed_suffix_dropEndWhile _) fun h => hp h.1⟩
  unfold finishText
  rw [String.toList_ofList, hu]
  refine ⟨?_, (LineBreak.suffix_append_feed_iff _ u).trans hiff⟩
  exact (LineBreak.suffix_apply_iff _ _).2 (List.suffix_append u ['\n'])

def markedLines : Options := { layout := { lineBreak := .crlf }, style := { pragma := true } }

def titleLine : List Token :=
  [⟨.tag "p", {}⟩, ⟨.text "a", {}⟩, ⟨.newline, {}⟩, ⟨.newline, {}⟩, ⟨.eos, {}⟩]

theorem format_titleLine :
    (format wordReader markedLines (fun _ r => .ok r.code : Formatter Empty) titleLine).result =
      .ok "//- @prettier\r\np a\r\n" := rfl

theorem format_endsLine_titleLine :
    (format wordReader markedLines (fun _ r => .ok r.code : Formatter Empty) titleLine).result =
        .ok "//- @prettier\r\np a\r\n" ∧
      "\r\n".toList <:+ "//- @prettier\r\np a\r\n".toList ∧
      ∃ ord page, markedLines.readPatterns wordReader = .ok (ord, page) ∧
        ¬ ∀ c ∈ (sheetAfter markedLines.style page (fun _ r => .ok r.code : Formatter Empty)
          (ord.arrange titleLine) []).draft.text, c = '\n' := by
  obtain ⟨ord, page, hs, hend, hiff⟩ := format_endsLine _ _ _ _ format_titleLine
  exact ⟨format_titleLine, hend, ord, page, hs, fun hp => absurd (hiff.2 ⟨rfl, hp⟩) (by decide)⟩

/-- The pragma in front of an empty text leaves an empty line at the end. -/
theorem format_barePragma :
    (format wordReader { style := { pragma := true } } (fun _ r => .ok r.code : Formatter Empty)
      []).result = .ok "//- @prettier\n\n" := rfl

/-! ## The pragma -/

theorem hasPragma_insertPragma (text : String) : hasPragma (insertPragma text) = true := by
  unfold insertPragma
  split
  · next h => exact h
  · unfold hasPragma
    rw [String.toList_append, Bool.or_eq_true, List.isPrefixOf_iff_prefix]
    exact .inl (List.prefix_append _ _)

theorem insertPragma_eq_iff (text : String) : insertPragma text = text ↔ hasPragma text = true := by
  constructor
  · intro h
    rw [← h]
    exact hasPragma_insertPragma text
  · exact fun h => if_pos h

theorem head?_crlf (t : Text) : ∀ c ∈ (LineBreak.crlf.apply t).head?, c ≠ '\n' := by
  cases t with
  | nil => exact nofun
  | cons d t =>
    intro c hc
    have hcons : LineBreak.crlf.apply (d :: t) =
        (if d = '\n' then ['\r', '\n'] else [d]) ++ LineBreak.crlf.apply t := rfl
    rw [hcons] at hc
    split at hc
    · obtain rfl : '\r' = c := by simpa using hc
      decide
    · next hd =>
      obtain rfl : d = c := by simpa using hc
      exact hd

/-- A carriage return stands in front of every line feed. -/
theorem isChain_crlf (t : Text) :
    (LineBreak.crlf.apply t).IsChain fun c d => d = '\n' → c = '\r' := by
  induction t with
  | nil => exact List.isChain_nil
  | cons d t ih =>
    have hcons : LineBreak.crlf.apply (d :: t) =
        (if d = '\n' then ['\r', '\n'] else [d]) ++ LineBreak.crlf.apply t := rfl
    rw [hcons, List.isChain_append]
    refine ⟨?_, ih, fun c _ e he hn => absurd hn (head?_crlf t e he)⟩
    split
    · exact List.isChain_pair.2 fun _ => rfl
    · exact List.isChain_singleton d

theorem hasPragma_crlf (t : Text) :
    hasPragma (String.ofList (LineBreak.crlf.apply t)) = false := by
  have hchain := isChain_crlf t
  rw [Bool.eq_false_iff, hasPragma, String.toList_ofList, ne_eq, Bool.or_eq_true,
    List.isPrefixOf_iff_prefix, List.isPrefixOf_iff_prefix]
  -- a pragma has its line feed behind a letter
  rintro (h | h)
  · have hc := List.IsChain.prefix hchain h
    exact absurd hc (by decide)
  · have hc := List.IsChain.prefix hchain h
    exact absurd hc (by decide)

/-- **The pragma is recognised exactly if line breaks are line feeds.** -/
theorem hasPragma_format (read : PatternReader) (o : Options) (f : Formatter ε) (ts : List Token)
    {s : String} (hp : o.style.pragma = true) (h : (format read o f ts).result = .ok s) :
    (∃ t, hasPragma (String.ofList t) = true ∧ s.toList = o.layout.lineBreak.apply t) ∧
      (hasPragma s = true ↔ o.layout.lineBreak = .lf) ∧
      (insertPragma s = s ↔ o.layout.lineBreak = .lf) := by
  obtain ⟨ord, page, -, rfl⟩ := exists_printed h
  rw [insertPragma_eq_iff, and_self]
  unfold finishText
  rw [if_pos hp]
  generalize String.ofList (sheetAfter o.style page f (ord.arrange ts) []).draft.finish.text = text
  have hm := hasPragma_insertPragma text
  refine ⟨⟨(insertPragma text).toList, ?_, String.toList_ofList⟩, ?_⟩
  · rw [String.ofList_toList]
    exact hm
  · cases o.layout.lineBreak with
    | lf =>
      simp only [LineBreak.apply, String.ofList_toList, hm]
    | crlf =>
      rw [hasPragma_crlf]
      exact iff_of_false Bool.false_ne_true (by decide)

theorem hasPragma_format_titleLine :
    markedLines.style.pragma = true ∧
      (format wordReader markedLines (fun _ r => .ok r.code : Formatter Empty) titleLine).result =
        .ok "//- @prettier\r\np a\r\n" ∧
      hasPragma "//- @prettier\r\np a\r\n" ≠ true :=
  ⟨rfl, format_titleLine, fun hp =>
    absurd ((hasPragma_format _ _ _ _ rfl format_titleLine).2.1.1 hp) (by decide)⟩

theorem insertPragma_titleLine :
    (format wordReader markedLines (fun _ r => .ok r.code : Formatter Empty) titleLine).result =
        .ok "//- @prettier\r\np a\r\n" ∧
      hasPragma "//- @prettier\r\np a\r\n" = false ∧
      insertPragma "//- @prettier\r\np a\r\n" = "//- @prettier\n//- @prettier\r\np a\r\n" :=
  ⟨format_titleLine, by decide, by decide⟩

end PugPretty
