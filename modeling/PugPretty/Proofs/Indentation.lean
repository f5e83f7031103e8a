import PugPretty.Proofs.BrokenLists
import PugPretty.Proofs.LeadingShorthand

/-!
# Indentation

A token that begins a line is indented by its nesting, whatever it writes there. In an attribute list
that is broken over lines every item is indented by one unit more, and the parenthesis that closes it
by the nesting (`indentation_eq_nesting`).
-/

namespace PugPretty

open Text

/-! ## The tokens that begin a line -/

/-- How the text of a token begins that opens a line, for the tokens that indent their line. -/
def lineOpening? (style : Style) (t : Token) (rest : List Token) : Option Text :=
  match t.kind with
  | .tag _ => some (headText style t rest)
  | .className name =>
    some (if style.classes = .inList then "div".toList else '.' :: name.toList)
  | .idName name => some ('#' :: name.toList)
  | .text _ => some ['|']
  | .interpolatedCode code mustEscape _ => some ("| ".toList ++ inlineCode code.toList mustEscape)
  | .code _ mustEscape buffer =>
    some (if buffer then (if mustEscape then "=" else "!=") else "-").toList
  | .comment _ buffer => some (if buffer then "//" else "//-").toList
  | .block name mode => some ("block " ++ mode.word ++ name).toList
  | .including => some "include".toList
  | .filter name => some (":" ++ name).toList
  | .interpolation code => some (inlineCode code.toList true)
  | .call name args => some ('+' :: name.toList ++ argumentList args)
  | .mixin name args => some ("mixin ".toList ++ name.toList ++ argumentList args)
  | .condition test => some (conditionLine test.toList)
  | .each item key code => some (eachLine item key code).toList
  | .eachOf item code => some ("each " ++ item ++ " of " ++ code).toList
  | .keyword w => some w.word.toList
  | .clause w operand => some (w.word ++ " " ++ operand).toList
  | .html source => some (htmlLine source.toList)
  | _ => none

/-- The text `t'` is `t`, the indentation `lead`, and what begins with `w`. -/
def AddsLine (t lead w t' : Text) : Prop :=
  ∃ own, t' = t ++ lead ++ own ∧ w <+: own ∧ (w = [] → own = [])

theorem addsLine_exact {t lead w t' : Text} (h : t' = t ++ lead ++ w) : AddsLine t lead w t' :=
  ⟨w, h, List.prefix_refl _, id⟩

theorem addsLine_append {t lead w u t' : Text} (hw : w ≠ []) (h : t' = t ++ lead ++ (w ++ u)) :
    AddsLine t lead w t' :=
  ⟨w ++ u, h, List.prefix_append _ _, fun hn => absurd hn hw⟩

theorem AddsLine.mono {t lead w v t' : Text} (h : AddsLine t lead w t') (hv : v <+: w)
    (hn : v ≠ []) : AddsLine t lead v t' := by
  obtain ⟨own, ht, hw, -⟩ := h
  exact ⟨own, ht, hv.trans hw, fun hv => absurd hv hn⟩

section
variable {ε : Type} (style : Style) (page : Page) (f : Formatter ε)

theorem text_line (s : Site) (d : Nat) (w : Text) (sh : Sheet ε) :
    (Sheet.applyAll page f (s.indentation d ++ [.put w]) sh).draft.text =
      sh.draft.text ++ leadText page s.prev? d ++ w := by
  rw [Sheet.applyAll_append, applyAll_indentation]
  simp [Sheet.edit]

theorem addsLine_edits {es : List Edit} (he : es.all Edit.appends = true) {w : Text} (hw : w ≠ [])
    (s : Site) (d : Nat) (sh : Sheet ε) :
    AddsLine sh.draft.text (leadText page s.prev? d) w
      (Sheet.applyAll page f (s.indentation d ++ .put w :: es) sh).draft.text := by
  obtain ⟨u, hu⟩ := prefix_applyAll page f he (Sheet.applyAll page f (s.indentation d ++ [.put w]) sh)
  rw [text_line, ← Sheet.applyAll_append, List.append_assoc _ w, List.append_assoc _ [_]] at hu
  exact addsLine_append hw hu.symm

variable {s : Site} {o : Outline} {w : Text}

theorem prev?_of_endsLine (he : s.prev?.any Kind.endsLine = true) :
    s.prev? = some .newline ∨ s.prev? = some .indent ∨ s.prev? = some .outdent := by
  cases hp : s.prev? with
  | none => rw [hp] at he; cases he
  | some k => rw [hp] at he; cases k <;> simp_all [Kind.endsLine]

theorem addsLine_markupText (t : Text) (he : s.prev?.any Kind.endsLine = true) (sh : Sheet ε) :
    AddsLine sh.draft.text (leadText page s.prev? o.depth) ['|']
      (Sheet.applyAll page f (markupTextEdits style s o t) sh).draft.text := by
  let space : List Edit :=
    if t.any (!isBlank ·) || s.next? == some .startInline then [.say " "] else []
  let rest : List Edit := space ++ .writeInert (mustacheContent style.quotes (trim (collapse t))) ::
    (if t.getLast? = some ' ' ∧ s.next?.any Kind.isInlineCode = true then [.say " "] else [])
  have hrest : rest.all Edit.appends = true := by
    simp only [rest, space, List.all_append, List.all_cons, Bool.and_eq_true]
    exact ⟨by split <;> rfl, rfl, by split <;> rfl⟩
  have hlead : textLead s o t = s.indentation o.depth ++
      (if hasLeadingSpace (collapse t) then [.say "|\n", .indent o.depth] else []) ++
        .say "|" :: space := by
    unfold textLead
    rcases prev?_of_endsLine he with hp | hp | hp <;> rw [hp]
  have hes : markupTextEdits style s o t = s.indentation o.depth ++
      (if hasLeadingSpace (collapse t) then [.say "|\n", .indent o.depth] else []) ++
        .say "|" :: rest := by
    unfold markupTextEdits
    simp only [hlead, rest, List.append_assoc, List.cons_append]
  rw [hes]
  split
  · -- the line that keeps the space begins with a pipe as well
    rw [List.append_assoc]
    exact (addsLine_edits page f (w := "|\n".toList) (by simp [hrest]) (by decide) s _ sh).mono
      (by decide) (by decide)
  · rw [List.append_nil]
    exact addsLine_edits page f hrest (by decide) s _ sh

theorem addsLine_tag (name : String) (hk : s.token.kind = .tag name) (sh : Sheet ε) :
    AddsLine sh.draft.text (leadText page s.prev? o.depth) (headText style s.token s.rest)
      (Sheet.applyAll page f (tagEdits style s o name) sh).draft.text := by
  have himp : impliesDiv style.classes ⟨none, s.token, s.rest⟩ = impliesDiv style.classes s := rfl
  have hmark := (reads_mark page f s o.depth name.toList sh).text
  have hnil := (reads_mark_nil page f s o.depth sh).text
  refine addsLine_exact ?_
  unfold headText tagEdits
  rw [hk, himp]
  dsimp only
  split
  · simpa [Edit.say] using hmark
  · simpa using hnil

theorem addsLine_tokenEdits (hk : s.token.kind.isShorthand = false)
    (he : s.prev?.any Kind.endsLine = true) (hw : lineOpening? style s.token s.rest = some w)
    (hb : s.token.kind.isText = true → o.reading = false) (sh : Sheet ε) :
    AddsLine sh.draft.text (leadText page s.prev? o.depth) w
      (Sheet.applyAll page f (tokenEdits style s o).1 sh).draft.text := by
  have hline := fun w => text_line page f s o.depth w sh
  have hmark := fun w => (reads_mark page f s o.depth w sh).text
  simp only [List.append_nil] at hmark
  unfold lineOpening? at hw
  unfold tokenEdits
  cases h : s.token.kind with
  | className | idName => rw [h] at hk; cases hk
  | tag name =>
    rw [h] at hw
    cases hw
    exact addsLine_tag style page f name h sh
  | text val =>
    rw [h] at hw hb
    cases hw
    have hflow : o.flow = .markup := by simpa [Outline.reading] using hb rfl
    simp only [textEdits, hflow]
    exact addsLine_markupText style page f _ he sh
  | interpolatedCode code mustEscape buffer =>
    rw [h] at hw
    cases hw
    have hlead : inlineCodeLead s o = s.indentation o.depth ++ [.say "| "] := by
      unfold inlineCodeLead
      rcases prev?_of_endsLine he with hp | hp | hp <;> rw [hp]
    refine addsLine_exact ?_
    simp only [hlead]
    rw [Sheet.applyAll_append, Sheet.applyAll_cons, Sheet.applyAll_nil, Sheet.apply_put]
    show (Draft.write _ _).text = _
    rw [Draft.text_write, show Edit.say "| " = .put "| ".toList from rfl, hline, List.append_assoc]
  | code code mustEscape buffer =>
    rw [h] at hw
    cases hw
    refine addsLine_edits page f ?_ ?_ s o.depth sh
    · split <;> rfl
    · cases buffer <;> cases mustEscape <;> decide
  | comment body buffer =>
    rw [h] at hw
    cases hw
    have hopen : s.opensLine = true := by
      unfold Site.opensLine
      rcases prev?_of_endsLine he with hp | hp | hp <;> rw [hp] <;> rfl
    simp only [commentEdits, hopen, if_true, List.append_nil]
    refine addsLine_edits page f rfl ?_ s o.depth sh
    cases buffer <;> decide
  | interpolation code =>
    rw [h] at hw
    cases hw
    exact addsLine_exact (hmark _)
  | call name args =>
    rw [h] at hw
    cases hw
    exact addsLine_exact (hmark _)
  | _ =>
    rw [h] at hw
    cases hw <;> exact addsLine_exact (hline _)

theorem addsLine_shorthand (done rest : List Token) {t prev : Token}
    (hk : t.kind.isShorthand = true) (he : prev.kind.endsLine = true)
    (hw : lineOpening? style t rest = some w) :
    AddsLine (sheetAfter style page f (done ++ [prev]) (t :: rest)).draft.text
      (leadText page (some prev.kind) (nesting (done ++ [prev]))) w
      (sheetAfter style page f (done ++ [prev] ++ [t]) rest).draft.text := by
  have hlast : (done ++ [prev]).getLast? = some prev := by simp
  have hm : ∀ u ∈ ([] : List Token), u.kind.isShorthand = true := by simp
  have h1 := text_lineRun style page f hk hm (done ++ [prev]) rest (by rw [hlast]; exact he)
  rw [hlast] at h1
  unfold lineOpening? at hw
  refine ⟨_, h1, ?_⟩
  simp only [impliedName, placedText, List.flatMap_singleton, Token.ids, Token.classNames]
  cases h : t.kind with
  | className name =>
    rw [h] at hw
    cases hw
    by_cases hc : style.classes = .inList <;> simp [hc, idText, classText]
  | idName name =>
    rw [h] at hw
    cases hw
    simp [idText]
  | _ => rw [h] at hk; cases hk

theorem addsLine_sheetAfter (done rest : List Token) {t prev : Token}
    (he : prev.kind.endsLine = true) (hw : lineOpening? style t rest = some w)
    (hb : t.kind.isText = true → inBlock (done ++ [prev]) = false) :
    AddsLine (sheetAfter style page f (done ++ [prev]) (t :: rest)).draft.text
      (leadText page (some prev.kind) (nesting (done ++ [prev]))) w
      (sheetAfter style page f (done ++ [prev] ++ [t]) rest).draft.text := by
  have hlast : (done ++ [prev]).getLast? = some prev := by simp
  by_cases hk : t.kind.isShorthand = true
  · exact addsLine_shorthand style page f done rest hk he hw
  · have h1 := addsLine_tokenEdits style page f (s := ⟨some prev, t, rest⟩)
      (o := outlineAfter style (done ++ [prev]) (t :: rest)) (Bool.eq_false_iff.2 hk) he hw
      (by rw [reading_outlineAfter]; exact hb)
      (sheetAfter style page f (done ++ [prev]) (t :: rest))
    rw [depth_outlineAfter] at h1
    rw [sheetAfter_snoc style page f (done ++ [prev]), hlast]
    exact h1

end

/-- **Indentation is nesting.** -/
theorem indentation_eq_nesting {ε : Type} (style : Style) {l : Layout} {page : Page}
    (hl : page.Follows l) (f : Formatter ε) (ord : AttributeOrder) {ts : List Token}
    (h : WellFormed ts) :
    (∀ done t rest prev w, ord.arrange ts = done ++ t :: rest → done.getLast? = some prev →
      prev.kind.endsLine = true → lineOpening? style t rest = some w →
      (t.kind.isText = true → inBlock done = false) →
      let before := (sheetAfter style page f done (t :: rest)).draft.text
      ∃ lead, lastLine (before ++ lead) = l.units (nesting done) ∧
        AddsLine before lead w (sheetAfter style page f (done ++ [t]) rest).draft.text) ∧
    (∀ pre start as stop post, ord.arrange ts = pre ++ start :: (as ++ stop :: post) →
      start.kind = .startAttributes → (∀ t ∈ as, t.attribute?.isSome = true) →
      stop.kind = .endAttributes →
      (sheetAfter style page f (pre ++ [start]) (as ++ stop :: post)).broken = true →
      BrokenList style l page f pre start as stop post) := by
  refine ⟨fun done t rest prev w _ hd he hw hb => ?_, fun pre start as stop post hv hs has he hb => ?_⟩
  · obtain ⟨done, rfl⟩ := List.getLast?_eq_some_iff.1 hd
    exact ⟨_, lastLine_lineStart style page f hl done (t :: rest) he,
      addsLine_sheetAfter style page f done rest he hw hb⟩
  · have hw := hv ▸ h.arrange ord
    have hpre : enclosed false pre = true :=
      enclosed_before (by rw [hs]; rfl) _ _ _ hw.enclosed
    obtain ⟨x, y, z, hp, -⟩ := (draws_sheetAfter style f (start :: (as ++ stop :: post))
      (isBlank_indentChar hl) hpre hw.ne_eos).1.parts
    exact brokenList style hl f hs has he hp hb

def wideList : List Token :=
  [⟨.tag "ul", {}⟩, ⟨.indent, {}⟩, ⟨.tag "li", {}⟩, ⟨.indent, {}⟩, ⟨.className "x", {}⟩,
    ⟨.startAttributes, {}⟩, ⟨.attr ⟨"href", .source "'/'", true⟩, {}⟩,
    ⟨.attr ⟨"rel", .source "'a'", true⟩, {}⟩, ⟨.endAttributes, {}⟩, ⟨.outdent, {}⟩, ⟨.outdent, {}⟩,
    ⟨.text "t", {}⟩, ⟨.eos, {}⟩]

theorem indentation_wideList :
    let l : Layout := { width := 20 }
    let page : Page := ⟨' ', 2, 2, 20, -1, fun _ => false⟩
    let f : Formatter Empty := fun _ r => .ok r.code
    let text := fun n => (sheetAfter {} page f (wideList.take n) (wideList.drop n)).draft.text
    WellFormed wideList ∧
      (∃ lead, lastLine (text 4 ++ lead) = l.units 2 ∧ AddsLine (text 4) lead ".x".toList (text 5)) ∧
      (∃ lead, lastLine (text 11 ++ lead) = l.units 0 ∧ AddsLine (text 11) lead ['|'] (text 12)) ∧
      (∃ u value, text 8 = u ++ '\n' :: (l.units 3 ++ ("rel".toList ++ value))) ∧
      text 9 = text 8 ++ '\n' :: l.units 2 ++ [')'] ∧
      text 12 = "ul\n  li\n    .x(\n      href=\"/\"\n      rel=\"a\"\n    )\n| t".toList := by
  intro l page f text
  have hw : WellFormed wideList := by decide
  have hl : page.Follows l := ⟨_, rfl⟩
  obtain ⟨hline, hlist⟩ := indentation_eq_nesting {} hl f {} hw
  have hb := hlist (wideList.take 5) ⟨.startAttributes, {}⟩
    [⟨.attr ⟨"href", .source "'/'", true⟩, {}⟩, ⟨.attr ⟨"rel", .source "'a'", true⟩, {}⟩]
    ⟨.endAttributes, {}⟩ (wideList.drop 9) rfl rfl (by decide) rfl (by decide)
  have hrel : ∃ u value, text 8 = u ++ '\n' :: (l.units 3 ++ ("rel".toList ++ value)) := by
    obtain ⟨x, y, z, value, -, hitem⟩ := hb.item [⟨.attr ⟨"href", .source "'/'", true⟩, {}⟩]
      ⟨.attr ⟨"rel", .source "'a'", true⟩, {}⟩ [] ⟨"rel", .source "'a'", true⟩ rfl rfl (by decide)
    refine ⟨x ++ y ++ z, value, hitem.trans ?_⟩
    show x ++ (y ++ []) ++ (z ++ [] ++ '\n' :: l.units 3 ++ ("rel".toList ++ value)) = _
    simp
  exact ⟨hw, hline (wideList.take 4) ⟨.className "x", {}⟩ (wideList.drop 5) ⟨.indent, {}⟩
    ".x".toList rfl rfl rfl rfl nofun, hline (wideList.take 11) ⟨.text "t", {}⟩ (wideList.drop 12)
    ⟨.outdent, {}⟩ ['|'] rfl rfl rfl rfl (fun _ => by decide), hrel, hb.closing (by decide),
    by decide⟩

end PugPretty
