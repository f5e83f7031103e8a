import PugPretty.Proofs.InlineContent
import PugPretty.Proofs.SideBySide
import PugPretty.Proofs.SortedRuns

/-!
# The start of the stream

The first token of a stream is written as it would be at the beginning of a later line, if it is no
text and no code. Text gets a pipe and a space there in any case, also where a later line would have
no space or a line of its own for the space the text begins with, and code gets no pipe at all
(`text_streamStart`, `format_leadingCode`).
-/

namespace PugPretty

open Text

/-! ## The first token -/

def Kind.canBegin : Kind → Bool
  | newline | indent | outdent | eos | startAttributes | attr _ | endAttributes | startPipeless
  | endPipeless => false
  | _ => true

def streamLead (t : Token) : Text :=
  match t.kind with
  | .text _ => "| ".toList
  | _ => []

def pipeLead (val : Text) (rest : List Token) : Text :=
  (if hasLeadingSpace (collapse val) then "|\n".toList else []) ++
    '|' :: (if val.any (!isBlank ·) || rest.head?.map (·.kind) == some .startInline then [' '] else [])

def lineLead (t : Token) (rest : List Token) : Text :=
  match t.kind with
  | .text val => pipeLead val.toList rest
  | .interpolatedCode .. => "| ".toList
  | _ => []

section
variable {ε : Type} (style : Style) (page : Page) (f : Formatter ε)

theorem feed_not_mem_streamLead (t : Token) : '\n' ∉ streamLead t := by
  unfold streamLead
  split
  · decide
  · exact List.not_mem_nil

theorem sheetAfter_opening (ts : List Token) (t : Token) :
    sheetAfter style page f [] (t :: ts) = (Sheet.blank : Sheet ε).edit (·.write (streamLead t)) := by
  obtain ⟨kind, span⟩ := t
  cases kind with
  | text val => rfl
  | _ => exact (edit_write_nil Sheet.blank).symm

theorem indentation_zero : Sheet.indentation page 0 = [] := by
  simp [Sheet.indentation]

theorem apply_indent_zero (s : Sheet ε) : s.apply page f (.indent 0) = s := by
  rw [Sheet.apply_indent, indentation_zero]
  exact edit_write_nil s

theorem indentation_behindNewline {nl : Token} (hn : nl.kind = .newline) (t : Token)
    (rest : List Token) : Site.indentation ⟨some nl, t, rest⟩ 0 = [.indent 0] := by
  have hprev : Site.prev? ⟨some nl, t, rest⟩ = some .newline := congrArg some hn
  unfold Site.indentation
  rw [hprev]

theorem applyAll_textLead {nl : Token} (hn : nl.kind = .newline) (t : Token) (rest : List Token)
    (val : Text) (s : Sheet ε) :
    Sheet.applyAll page f (textLead ⟨some nl, t, rest⟩ {} val) s =
      s.edit (·.write (pipeLead val rest)) := by
  have hprev : Site.prev? ⟨some nl, t, rest⟩ = some .newline := congrArg some hn
  have hindent := indentation_behindNewline hn t rest
  have hzero : ∀ s : Sheet ε, s.apply page f (.indent 0) = s := apply_indent_zero page f
  unfold textLead pipeLead
  simp only [hprev, hindent, Site.next?]
  by_cases hspace :
      (val.any (!isBlank ·) || rest.head?.map (·.kind) == some .startInline) = true <;>
    by_cases hleading : hasLeadingSpace (collapse val) = true <;>
    simp only [hspace, hleading, if_true] <;>
    simp [hzero, Sheet.edit, write_write]

/-- A token that begins a line does what it does at the start of the stream, behind its lead. -/
theorem tokenEdits_lineStart {nl t : Token} (hn : nl.kind = .newline) (ht : t.kind.canBegin = true)
    (rest : List Token) (s : Sheet ε) :
    Sheet.applyAll page f (tokenEdits style ⟨some nl, t, rest⟩ {}).1 s =
        Sheet.applyAll page f (tokenEdits style ⟨none, t, rest⟩ {}).1
          (s.edit (·.write (lineLead t rest))) ∧
      (tokenEdits style ⟨some nl, t, rest⟩ {}).2 = (tokenEdits style ⟨none, t, rest⟩ {}).2 := by
  have hprev : Site.prev? ⟨some nl, t, rest⟩ = some .newline := congrArg some hn
  have hfirst : Site.prev? ⟨none, t, rest⟩ = none := rfl
  have hindent := indentation_behindNewline hn t rest
  have hnone : Site.indentation ⟨none, t, rest⟩ 0 = [] := rfl
  have hopens : Site.opensLine ⟨some nl, t, rest⟩ = true := by
    unfold Site.opensLine
    rw [hprev]
    rfl
  have hopensFirst : Site.opensLine ⟨none, t, rest⟩ = true := rfl
  have hnil := edit_write_nil s
  have hzero : ∀ s : Sheet ε, s.apply page f (.indent 0) = s := apply_indent_zero page f
  unfold tokenEdits lineLead
  cases hk : t.kind with
  | newline | indent | outdent | eos | startAttributes | attr | endAttributes | startPipeless
  | endPipeless => rw [hk] at ht; cases ht
  | tag name =>
    simp [hnil, hindent, hnone, tagEdits, hzero]
    rfl
  | className name =>
    simp [hnil, hindent, hnone, hopens, hopensFirst, classEdits, hzero]
    exact ⟨rfl, rfl⟩
  | idName name =>
    simp [hnil, hindent, hnone, hopens, hopensFirst, idEdits, hzero]
    exact ⟨rfl, rfl⟩
  | text val =>
    have hlead := applyAll_textLead page f hn t rest val.toList s
    have hlead' : textLead ⟨none, t, rest⟩ {} val.toList = [] := rfl
    simp only [textEdits, markupTextEdits, hlead', Sheet.applyAll_append, hlead]
    exact ⟨rfl, trivial⟩
  | interpolatedCode code mustEscape buffer =>
    simp [inlineCodeLead, hprev, hfirst, hindent, hzero]
  | path file => simp [hprev, hfirst, hnil]
  | comment body buffer => simp [hnil, hindent, hnone, hopens, hopensFirst, commentEdits, hzero]
  | doctype name => exact ⟨by rw [hnil], rfl⟩
  | _ => simp [hnil, hindent, hnone, hzero]

/-! ## The two streams -/

theorem session_applyAll_congr (es : List Edit) {s s' : Sheet ε} (h : s'.session = s.session) :
    (Sheet.applyAll page f es s').session = (Sheet.applyAll page f es s).session := by
  induction es generalizing s s' with
  | nil => exact h
  | cons e es ih => exact ih (by rw [session_apply, session_apply, h])

theorem paired_start (u u' : Text) : ((Sheet.blank : Sheet ε).edit (·.write u)).Paired u u' false {}
    (Sheet.blank.edit (·.write u')) := by
  have hw : ∀ v : Text, (Draft.write v {}).text = v ++ [] := fun v => by
    rw [Draft.text_write, List.append_nil]
    rfl
  exact ⟨⟨⟨[], hw u, hw u'⟩, rfl, rfl⟩, nofun⟩

theorem lastLine_feed_append (t : Text) : lastLine ('\n' :: t) = lastLine t :=
  have h : lastLine ['\n'] = lastLine [] := rfl
  lastLine_append_congr h t

theorem sheetAfter_first (t : Token) (more tail : List Token) :
    sheetAfter style page f (t :: more) tail =
      Sheet.applyAll page f (siteEdits style (sitesUpTo none (t :: more) tail) {}).1
        ((Sheet.blank : Sheet ε).edit (·.write (streamLead t))) := by
  rw [← sheetAfter_opening style page f (more ++ tail)]
  exact sheetAfter_append style page f [] (t :: more) tail

theorem sheetAfter_later {nl t : Token} (hn : nl.kind = .newline) (ht : t.kind.canBegin = true)
    (more tail : List Token) :
    sheetAfter style page f (nl :: t :: more) tail =
      Sheet.applyAll page f (siteEdits style (sitesUpTo none (t :: more) tail) {}).1
        ((Sheet.blank : Sheet ε).edit (·.write ('\n' :: lineLead t (more ++ tail)))) := by
  have hnl : tokenEdits style ⟨none, nl, t :: (more ++ tail)⟩ {} = ([.say "\n"], {}) := by
    unfold tokenEdits
    rw [hn]
    rfl
  have hsheet : sheetAfter style page f [nl] (t :: (more ++ tail)) =
      (Sheet.blank : Sheet ε).edit (·.write ['\n']) := by
    have hlead : streamLead nl = [] := by
      unfold streamLead
      rw [hn]
    rw [sheetAfter_first, hlead]
    simp only [sitesUpTo, siteEdits, List.nil_append, List.append_nil, hnl]
    simp [edit_write_nil]
  have houtline : outlineAfter style [nl] (t :: (more ++ tail)) = {} := by
    rw [outlineAfter, editsUpTo]
    simp only [sitesUpTo, siteEdits, List.nil_append, hnl]
  obtain ⟨hedits, ho⟩ := tokenEdits_lineStart style page f hn ht (more ++ tail)
    ((Sheet.blank : Sheet ε).edit (·.write ['\n']))
  rw [← List.singleton_append, sheetAfter_append, List.cons_append, hsheet, houtline]
  simp only [List.getLast?_singleton, sitesUpTo, siteEdits, Sheet.applyAll_append, hedits, ho]
  simp only [Sheet.edit, write_write]
  rfl

end

theorem lineLead_of_not_inlineContent {t : Token} (ht : t.kind.isInlineContent = false)
    (rest : List Token) : lineLead t rest = [] ∧ streamLead t = [] := by
  unfold lineLead streamLead
  cases hk : t.kind with
  | text | interpolatedCode => rw [hk] at ht; cases ht
  | _ => exact ⟨rfl, rfl⟩

/-- **The first line is a line like others**, up to what stands in front of text and code. -/
theorem text_streamStart {ε : Type} (style : Style) (page : Page) (f : Formatter ε)
    (ord : AttributeOrder) {ts more tail : List Token} {nl t : Token}
    (h : enclosed false ts = true) (hv : ord.arrange ts = t :: (more ++ tail))
    (hne : ∀ u ∈ t :: more, u.kind ≠ .eos) (ht : t.kind.canBegin = true)
    (hn : nl.kind = .newline) :
    let first := sheetAfter style page f (t :: more) tail
    let later := sheetAfter style page f (nl :: t :: more) tail
    let lead := lineLead t (more ++ tail)
    ord.arrange (nl :: ts) = nl :: t :: (more ++ tail) ∧
      later.session = first.session ∧
      (rooted false true (t :: more) = true →
        (t.kind.isInlineContent = false → later.draft.text = '\n' :: first.draft.text) ∧
        (lastLine (streamLead t) = lastLine lead ∨ listsBelow (t :: more) = true →
          (∃ r, first.draft.text = streamLead t ++ r ∧ later.draft.text = '\n' :: (lead ++ r)) ∧
            (later.draft.text = '\n' :: first.draft.text ↔ lead = streamLead t))) := by
  intro first later lead
  have hfirst : first = _ := sheetAfter_first style page f t more tail
  have hlater : later = _ := sheetAfter_later style page f hn ht more tail
  have henclosed : enclosed false (t :: more ++ tail) = true := by
    rw [List.cons_append, ← hv]
    exact ((rearranged_arrange ord ts).enclosed_eq false).trans h
  have hframe : rooted false true (t :: more) = true →
      lastLine (streamLead t) = lastLine lead ∨ listsBelow (t :: more) = true →
      ∃ r, first.draft.text = streamLead t ++ r ∧ later.draft.text = '\n' :: (lead ++ r) := by
    intro hr hl
    have hlevel := hl.imp_left fun hl => hl.trans (lastLine_feed_append lead).symm
    have hbeside := beside_siteEdits style page f (feed_not_mem_streamLead t) tail (t :: more) none
      false false {} _ _ henclosed hr hne nofun (fun _ => rfl) (hlevel.imp_right .inr)
      (paired_start (streamLead t) ('\n' :: lead))
    rw [← hfirst, ← hlater] at hbeside
    exact hbeside.text
  refine ⟨?_, ?_, fun hr => ⟨fun hi => ?_, fun hl => ?_⟩⟩
  · rw [ord.arrange_cons (by unfold Token.attribute?; rw [hn]), hv]
  · rw [hfirst, hlater]
    exact session_applyAll_congr page f _ rfl
  · obtain ⟨hlead, hstream⟩ := lineLead_of_not_inlineContent hi (more ++ tail)
    obtain ⟨r, hf, hg⟩ := hframe hr (.inl (by rw [hstream]; exact congrArg lastLine hlead.symm))
    rw [hf, hg, hstream]
    exact congrArg (fun u => '\n' :: (u ++ r)) hlead
  · obtain ⟨r, hf, hg⟩ := hframe hr hl
    refine ⟨⟨r, hf, hg⟩, ?_⟩
    rw [hf, hg, List.cons.injEq, List.append_cancel_right_eq]
    exact and_iff_right rfl

def leadingCode : List Token := [⟨.interpolatedCode "x" true true, {}⟩, ⟨.eos, {}⟩]

theorem text_streamStart_samples :
    let page : Page := ⟨' ', 2, 2, 80, -1, fun _ => false⟩
    let f : Formatter Empty := fun _ r => .ok r.code
    let nl : Token := ⟨.newline, {}⟩
    let text := fun ts => (sheetAfter {} page f ts [⟨.eos, {}⟩]).draft.text
    let element : List Token := [⟨.className "a", {}⟩, ⟨.startAttributes, {}⟩,
      ⟨.attr ⟨"id", .source "'k'", true⟩, {}⟩, ⟨.endAttributes, {}⟩, ⟨.text "t", {}⟩]
    text (nl :: element) = '\n' :: text element ∧
      text (nl :: leadingCode.take 1) ≠ '\n' :: text (leadingCode.take 1) := by
  intro page f nl text element
  have hn : nl.kind = .newline := rfl
  have helement : ({} : AttributeOrder).arrange (element ++ [⟨.eos, {}⟩]) =
      ⟨.className "a", {}⟩ :: (element.tail ++ [⟨.eos, {}⟩]) := rfl
  have hcode : ({} : AttributeOrder).arrange leadingCode =
      ⟨.interpolatedCode "x" true true, {}⟩ :: ([] ++ [⟨.eos, {}⟩]) := rfl
  obtain ⟨-, -, h⟩ := text_streamStart {} page f {} (by decide) helement (by decide) rfl hn
  obtain ⟨-, -, h'⟩ := text_streamStart {} page f {} (by decide) hcode (by decide) rfl hn
  refine ⟨(h (by decide)).1 rfl, fun he => ?_⟩
  exact absurd (((h' (by decide)).2 (by decide)).2.1 he) (by decide)

theorem format_leadingCode :
    let run := fun ts => (format wordReader {} (fun _ r => .ok r.code : Formatter Empty) ts).result
    WellFormed leadingCode ∧ run leadingCode = .ok "#\x7bx\x7d\n" ∧
      run (⟨.newline, {}⟩ :: leadingCode) = .ok "\n| #\x7bx\x7d\n" :=
  ⟨by decide, rfl, rfl⟩

end PugPretty
