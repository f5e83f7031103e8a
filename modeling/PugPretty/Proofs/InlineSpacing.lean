import PugPretty.Proofs.MustacheSpans
import PugPretty.Proofs.TextEnds

/-!
# Spacing beside inline code

A text of the markup loses the blanks at its ends, and a space is put back where it meets code. In
front of the text that is done if the collapsed text begins with a space, and behind it if the text
itself ends with one. So a tab or a no-break space is lost at either end, and so is a run of blanks
at the end that a space does not end (`text_besideCode`, `format_tabBeforeCode`).
-/

namespace PugPretty

open Text

def BeginsSpaced (t : Text) : Prop :=
  t.head? = some ' ' ∨ beginsBlank t = true ∧ beginsBlank t.tail = true

theorem beginsBlank_of_beginsSpaced {t : Text} (h : BeginsSpaced t) : beginsBlank t = true := by
  rcases h with h | h
  · rw [beginsBlank, h]
    decide
  · exact h.1

theorem endsBlank_of_space {t : Text} (h : t.getLast? = some ' ') : endsBlank t = true := by
  rw [endsBlank, h]
  decide

/-! ## The beginning of a collapsed text -/

theorem solid_ne_nil {t : Text} (h : isBlankText t = false) : solid t ≠ [] := by
  intro hs
  have hall : ∀ c ∈ t, isBlank c = true := by simpa [solid] using hs
  rw [isBlankText, List.all_eq_true.2 hall] at h
  cases h

theorem head?_collapse_eq_space_iff (t : Text) :
    (collapse t).head? = some ' ' ↔ BeginsSpaced t := by
  cases t with
  | nil => simp [BeginsSpaced, collapse, beginsBlank]
  | cons c r =>
    simp only [head?_collapse, BeginsSpaced, beginsBlank, List.head?_cons, List.tail_cons,
      Option.any_some, Option.some_inj, Bool.and_eq_true]
    by_cases hrun : isBlank c = true ∧ r.head?.any isBlank = true
    · rw [if_pos hrun]
      exact iff_of_true rfl (.inr hrun)
    · rw [if_neg hrun, or_iff_left hrun]

theorem hasLeadingSpace_collapse {t : Text} (hs : isBlankText t = false)
    (hl : isOneLine t = true) : hasLeadingSpace (collapse t) = true ↔ BeginsSpaced t := by
  have hlong : (collapse t).head? = some ' ' → 1 < (collapse t).length := by
    intro h
    obtain ⟨u, hu⟩ := List.head?_eq_some_iff.1 h
    have hsolid := solid_ne_nil hs
    rw [← solid_collapse, hu, solid_cons_of_blank (by decide)] at hsolid
    cases u with
    | nil => exact absurd rfl hsolid
    | cons d u => simp [hu]
  have hline : isOneLine (collapse t) = true := isOneLine_collapse hl
  rw [← head?_collapse_eq_space_iff]
  simpa [hasLeadingSpace, hline] using hlong

/-! ## The ends of what is written -/

section
variable {ε : Type} (f : Formatter ε) (q : Quotes)

theorem getLast?_spliced (ps : List Piece) (s : Session ε) :
    (spliced f q ps s).1.getLast? = (source ps).getLast? := by
  induction ps generalizing s with
  | nil => rfl
  | cons p ps ih =>
    have hsource : source (p :: ps) = p.source ++ source ps := List.flatMap_cons
    rw [hsource, List.getLast?_append]
    cases p with
    | code c =>
      -- a span ends in its delimiter, whatever is answered
      have hspan : (Piece.code c).source.getLast? = some '}' :=
        List.getLast?_append_of_ne_nil (['{', '{'] ++ c) (by simp)
      simp only [spliced, List.getLast?_append, ih, hspan]
      rfl
    | plain t => simp only [spliced, List.getLast?_append, ih]
    | unclosed t => simp only [spliced, List.getLast?_append, ih]

theorem getLast?_mustacheContent (t : Text) (s : Session ε) :
    ((mustacheContent q t).resolve f s).1.getLast? = t.getLast? := by
  rw [resolve_eq_spliced, getLast?_spliced, source_pieces]

end

theorem getLast?_inert (t : Text) : (inert t).getLast? = t.getLast? := by
  induction t with
  | nil => rfl
  | cons c r ih =>
    rw [inert]
    split <;> simp [List.getLast?_cons, ih]

/-! ## The text between the spaces -/

section
variable {ε : Type} (style : Style) (page : Page) (f : Formatter ε)

theorem getLast?_markupText (t : Text) (c : Session ε) :
    (inert (markupText style f c t)).getLast? = (trim (collapse t)).getLast? := by
  rw [getLast?_inert, markupText, getLast?_mustacheContent]

theorem markupText_ne_nil {t : Text} (hs : isBlankText t = false) (c : Session ε) :
    inert (markupText style f c t) ≠ [] := by
  intro h
  have hlast := getLast?_markupText style f t c
  rw [h, List.getLast?_nil, eq_comm, List.getLast?_eq_none_iff] at hlast
  have hsolid := solid_ne_nil hs
  rw [← solid_collapse, ← solid_trim, hlast] at hsolid
  exact hsolid rfl

theorem beginsBlank_markupText (t : Text) (c : Session ε) :
    beginsBlank (inert (markupText style f c t)) = false := by
  rw [beginsBlank, Option.any_eq_false]
  intro d hd
  rcases head?_inert _ d hd with rfl | hd
  · decide
  · -- what the formatter answers stands between delimiters, so the first character stays
    simp only [markupText, head?_mustacheContent] at hd
    exact head?_trim _ d hd

theorem endsBlank_markupText (t : Text) (c : Session ε) :
    endsBlank (inert (markupText style f c t)) = false := by
  rw [endsBlank, getLast?_markupText, Option.any_eq_false]
  exact getLast?_trim _

theorem endsBlank_beforeCode {val : Text} (hs : isBlankText val = false) (c : Session ε)
    {rest : List Token} (hnext : (rest.head?.map (·.kind)).any Kind.isInlineCode = true)
    (lead : Text) :
    endsBlank (lead ++ (inert (markupText style f c val) ++ spaceAfterText val rest)) = true ↔
      val.getLast? = some ' ' := by
  have hw := markupText_ne_nil style f hs c
  by_cases h : val.getLast? = some ' '
  · rw [spaceAfterText, if_pos ⟨h, hnext⟩, endsBlank_append (by simp), endsBlank_append (by simp)]
    exact iff_of_true (by decide) h
  · rw [spaceAfterText, if_neg fun hc => h hc.1, List.append_nil, endsBlank_append hw,
      endsBlank_markupText]
    exact iff_of_false (by decide) h

theorem beginsBlank_behindCode {val : Text} (hs : isBlankText val = false)
    (hl : isOneLine val = true) (c : Session ε) (space : Text) :
    beginsBlank ((if hasLeadingSpace (collapse val) then [' '] else []) ++
      (inert (markupText style f c val) ++ space)) = true ↔ BeginsSpaced val := by
  have hw := markupText_ne_nil style f hs c
  rw [← hasLeadingSpace_collapse hs hl]
  split
  · next h => exact iff_of_true (by rw [beginsBlank_append (by simp)]; decide) h
  · next h =>
    rw [List.nil_append, beginsBlank_append hw, beginsBlank_markupText]
    exact iff_of_false (by decide) h

variable {s : Site} {o : Outline} {val : String} (hk : s.token.kind = .text val)
  (ho : o.flow = .markup)
include hk ho

theorem text_behindLead (sh : Sheet ε) :
    ∃ c, (Sheet.applyAll page f (tokenEdits style s o).1 sh).draft.text =
      (Sheet.applyAll page f (textLead s o val.toList) sh).draft.text ++
        (inert (markupText style f c val.toList) ++ spaceAfterText val.toList s.rest) := by
  refine ⟨(Sheet.applyAll page f (textLead s o val.toList) sh).session, ?_⟩
  unfold tokenEdits
  simp only [hk, textEdits, ho, markupTextEdits, Sheet.applyAll_append, Sheet.applyAll_cons,
    applyAll_space]
  simp [Sheet.edit, Sheet.apply, markupText, spaceAfterText, Site.next?]
  rfl

end

def Kind.endsInlineCode : Kind → Bool
  | interpolatedCode .. | endInline => true
  | _ => false

theorem text_leadBehindCode {ε : Type} (page : Page) (f : Formatter ε) {s : Site}
    (hs : s.prev?.any Kind.endsInlineCode = true) (o : Outline) (t : Text) (sh : Sheet ε) :
    (Sheet.applyAll page f (textLead s o t) sh).draft.text =
      sh.draft.text ++ (if hasLeadingSpace (collapse t) then [' '] else []) := by
  have hlead : textLead s o t = if hasLeadingSpace (collapse t) then [.say " "] else [] := by
    unfold textLead
    cases hp : s.prev? with
    | none => rw [hp] at hs; cases hs
    | some k =>
      rw [hp] at hs
      cases k with
      | interpolatedCode | endInline => rfl
      | _ => cases hs
  rw [hlead, applyAll_space]
  simp [Sheet.edit]

/-- **The spaces between text and code.** What is printed for a text that stands beside code begins
and ends with a space exactly if the rules above put one there. -/
theorem text_besideCode {ε : Type} (style : Style) (page : Page) (f : Formatter ε)
    (done rest : List Token) {t : Token} {source : String} (hk : t.kind = .text source)
    (hb : inBlock done = false) (hs : isBlankText source.toList = false)
    (hl : isOneLine source.toList = true) :
    let val := source.toList
    let before := (sheetAfter style page f done (t :: rest)).draft.text
    let after := (sheetAfter style page f (done ++ [t]) rest).draft.text
    ∃ printed, after = before ++ printed ∧
      ((rest.head?.map (·.kind)).any Kind.isInlineCode = true →
        (endsBlank printed = true ↔ val.getLast? = some ' ') ∧
        ((endsBlank printed = true ↔ endsBlank val = true) ↔
          (endsBlank val = true → val.getLast? = some ' '))) ∧
      ((done.getLast?.map (·.kind)).any Kind.endsInlineCode = true →
        (beginsBlank printed = true ↔ BeginsSpaced val) ∧
        ((beginsBlank printed = true ↔ beginsBlank val = true) ↔
          (beginsBlank val = true → BeginsSpaced val))) := by
  intro val before after
  have hafter : after = _ := congrArg (·.draft.text) (sheetAfter_snoc style page f done rest t)
  have hmarkup : (outlineAfter style done (t :: rest)).flow = .markup := by
    simpa [Outline.reading, hb] using reading_outlineAfter style done (t :: rest)
  obtain ⟨c, htext⟩ := text_behindLead (s := ⟨done.getLast?, t, rest⟩) style page f hk hmarkup
    (sheetAfter style page f done (t :: rest))
  obtain ⟨lead, hlead⟩ := prefix_applyAll page f
    (appends_textLead ⟨done.getLast?, t, rest⟩ (outlineAfter style done (t :: rest)) val)
    (sheetAfter style page f done (t :: rest))
  have hprinted : after =
      before ++ (lead ++ (inert (markupText style f c val) ++ spaceAfterText val rest)) := by
    rw [hafter, htext, ← hlead, List.append_assoc]
  refine ⟨_, hprinted, fun hnext => ?_, fun hprev => ?_⟩
  · have hends := endsBlank_beforeCode style f hs c hnext lead
    refine ⟨hends, ?_⟩
    rw [hends]
    exact ⟨fun h => h.2, fun h => ⟨endsBlank_of_space, h⟩⟩
  · have hsame := text_leadBehindCode page f (s := ⟨done.getLast?, t, rest⟩) hprev
      (outlineAfter style done (t :: rest)) val (sheetAfter style page f done (t :: rest))
    obtain rfl := List.append_cancel_left (hlead.trans hsame)
    have hbegins := beginsBlank_behindCode style f hs hl c (spaceAfterText val rest)
    refine ⟨hbegins, ?_⟩
    rw [hbegins]
    exact ⟨fun h => h.2, fun h => ⟨beginsBlank_of_beginsSpaced, h⟩⟩

theorem text_besideCode_samples :
    let page : Page := ⟨' ', 2, 2, 80, -1, fun _ => false⟩
    let f : Formatter Empty := fun _ r => .ok r.code
    let text := fun done rest => (sheetAfter {} page f done rest).draft.text
    let code : Token := ⟨.interpolatedCode "x" true true, {}⟩
    let t : Token := ⟨.text "\t and ", {}⟩
    ∃ printed, text [⟨.tag "p", {}⟩, code, t] [code] =
        text [⟨.tag "p", {}⟩, code] [t, code] ++ printed ∧
      beginsBlank printed = true ∧ endsBlank printed = true := by
  intro page f text code t
  obtain ⟨printed, htext, hback, hfront⟩ := text_besideCode {} page f [⟨.tag "p", {}⟩, code] [code]
    (t := t) rfl rfl (by decide) (by decide)
  exact ⟨printed, htext, (hfront rfl).1.2 (.inr (by decide)), (hback rfl).1.2 (by decide)⟩

def tabBeforeCode : List Token :=
  [⟨.tag "p", {}⟩, ⟨.text "a \t", {}⟩, ⟨.interpolatedCode "x" true true, {}⟩,
    ⟨.text " \tb", {}⟩, ⟨.eos, {}⟩]

theorem format_tabBeforeCode : WellFormed tabBeforeCode ∧
    endsBlank "a \t".toList = true ∧ endsBlank "a".toList = false ∧
    (format wordReader {} (fun _ r => .ok r.code : Formatter Empty) tabBeforeCode).result =
      .ok "p a#\x7bx\x7d b\n" :=
  ⟨by decide, by decide, by decide, rfl⟩

end PugPretty
