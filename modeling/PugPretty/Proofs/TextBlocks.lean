import PugPretty.Proofs.LineStarts

/-!
# Blocks of text

A line of text in a block is indented by one unit more than the block's element and has no pipe. Only
text knows of the block: code and an inline tag that begin a line of it are written as they are
outside, so the code gets a pipe and neither gets the unit (`text_blockLine`,
`format_codeInBlock`).
-/

namespace PugPretty

open Text

def Kind.beginsBlockLine : Kind → Bool
  | newline | startPipeless => true
  | _ => false

def blockText (style : Style) (flow : Flow) (t : Text) : Text :=
  if flow = .comment then commentBody style.comments true t else t

def begunLine (l : Layout) (d : Nat) : Kind → Text
  | .startPipeless => l.units d
  | _ => []

def CompletesLine (before begun after line : Text) : Prop :=
  ∃ front, before = front ++ '\n' :: begun ∧ after = front ++ '\n' :: line

theorem Layout.units_add (l : Layout) (m n : Nat) : l.units (m + n) = l.units m ++ l.units n := by
  rw [Layout.units, Layout.units, Layout.units, ← List.flatten_append, List.replicate_append_replicate]

section
variable {ε : Type} (style : Style) {l : Layout} {page : Page} (hl : page.Follows l)
  (f : Formatter ε)

/-! ## The tokens that begin a line -/

include hl in
theorem text_begunLine (done rest : List Token) {prev : Token}
    (hp : prev.kind.beginsBlockLine = true) :
    ∃ front, (sheetAfter style page f (done ++ [prev]) rest).draft.text =
      front ++ '\n' :: begunLine l (nesting (done ++ [prev])) prev.kind := by
  rw [sheetAfter_snoc, nesting_snoc]
  unfold tokenEdits
  cases hk : prev.kind with
  | newline =>
    obtain ⟨u, hu⟩ := text_lineBreaks page f ⟨done.getLast?, prev, rest⟩
      (sheetAfter style page f done (prev :: rest))
    exact ⟨_, hu⟩
  | startPipeless =>
    refine ⟨(sheetAfter style page f done (prev :: rest)).draft.text, ?_⟩
    simp only [Sheet.applyAll_cons, Sheet.applyAll_nil, Sheet.apply_say, depth_outlineAfter]
    show (Draft.write _ (Draft.write "\n".toList _)).text = _
    rw [Draft.text_write, Draft.text_write, indentation_eq_units hl, List.append_assoc]
    rfl
  | _ => rw [hk] at hp; cases hp

/-! ## The lines of a block -/

variable {s : Site} {o : Outline}

include hl

theorem text_blockText {prev : Kind} (hs : s.prev? = some prev) (hp : prev.beginsBlockLine = true)
    {val : String} (hk : s.token.kind = .text val) (ho : o.reading = true) {sh : Sheet ε}
    {front : Text} (hsh : sh.draft.text = front ++ '\n' :: begunLine l o.depth prev) :
    (Sheet.applyAll page f (tokenEdits style s o).1 sh).draft.text =
      front ++ '\n' :: (l.units (o.depth + 1) ++ blockText style o.flow val.toList) := by
  have hline : ∀ inComment, (Sheet.applyAll page f
      (blockLineEdits style s o inComment val.toList) sh).draft.text =
      front ++ '\n' :: (l.units (o.depth + 1) ++
        if inComment then commentBody style.comments true val.toList else val.toList) := by
    intro inComment
    unfold blockLineEdits
    cases prev with
    | newline =>
      simp [hs, Kind.spaceBeforeText, Sheet.apply_indent, Sheet.edit, hsh, begunLine,
        indentation_eq_units hl]
    | startPipeless =>
      simp [hs, Kind.spaceBeforeText, Sheet.apply_indent, Sheet.edit, hsh, begunLine,
        indentation_eq_units hl, l.units_add]
    | _ => cases hp
  unfold tokenEdits blockText
  simp only [hk, textEdits]
  cases hflow : o.flow with
  | markup => rw [Outline.reading, hflow] at ho; cases ho
  | text => exact hline false
  | comment => exact hline true

theorem text_blockCode {prev : Kind} (hs : s.prev? = some prev) (hp : prev.beginsBlockLine = true)
    {code : String} {mustEscape buffer : Bool}
    (hk : s.token.kind = .interpolatedCode code mustEscape buffer) {sh : Sheet ε} {front : Text}
    (hsh : sh.draft.text = front ++ '\n' :: begunLine l o.depth prev) :
    (Sheet.applyAll page f (tokenEdits style s o).1 sh).draft.text =
      front ++ '\n' :: (l.units o.depth ++ (if prev = .newline then "| ".toList else []) ++
        inlineCode code.toList mustEscape) := by
  unfold tokenEdits inlineCodeLead
  simp only [hk]
  cases prev with
  | newline =>
    simp [hs, Site.indentation, Sheet.apply_indent, Sheet.edit, hsh, begunLine,
      indentation_eq_units hl]
  | startPipeless => simp [hs, Sheet.edit, hsh, begunLine]
  | _ => cases hp

omit hl in
theorem text_blockInline (hk : s.token.kind = .startInline) (sh : Sheet ε) :
    (Sheet.applyAll page f (tokenEdits style s o).1 sh).draft.text = sh.draft.text ++ "#[".toList := by
  unfold tokenEdits
  simp [hk, Sheet.edit]

/-- **The beginning of a line in a block.** -/
theorem text_blockLine (done rest : List Token) (prev t : Token)
    (hp : prev.kind.beginsBlockLine = true) (hb : inBlock (done ++ [prev]) = true) :
    let before := (sheetAfter style page f (done ++ [prev]) (t :: rest)).draft.text
    let after := (sheetAfter style page f (done ++ [prev] ++ [t]) rest).draft.text
    let d := nesting (done ++ [prev])
    let begun := begunLine l d prev.kind
    (∀ val, t.kind = .text val →
      CompletesLine before begun after (l.units (d + 1) ++
        blockText style (outlineAfter style (done ++ [prev]) (t :: rest)).flow val.toList)) ∧
    (∀ code mustEscape buffer, t.kind = .interpolatedCode code mustEscape buffer →
      CompletesLine before begun after (l.units d ++
        (if prev.kind = .newline then "| ".toList else []) ++ inlineCode code.toList mustEscape)) ∧
    (t.kind = .startInline → CompletesLine before begun after (begun ++ "#[".toList)) := by
  intro before after d begun
  let o := outlineAfter style (done ++ [prev]) (t :: rest)
  have hd : o.depth = d := depth_outlineAfter style _ _
  have ho : o.reading = true := (reading_outlineAfter style _ _).trans hb
  have hlast : (done ++ [prev]).getLast? = some prev := by simp
  have hs : Site.prev? ⟨(done ++ [prev]).getLast?, t, rest⟩ = some prev.kind := by
    rw [hlast]; rfl
  obtain ⟨front, hfront⟩ := text_begunLine style hl f done (t :: rest) hp
  have hafter : after = _ := congrArg (fun s => s.draft.text)
    (sheetAfter_snoc style page f (done ++ [prev]) rest t)
  refine ⟨fun val hk => ⟨front, hfront, ?_⟩, fun code mustEscape buffer hk => ⟨front, hfront, ?_⟩,
    fun hk => ⟨front, hfront, ?_⟩⟩
  · rw [hafter, ← hd]
    exact text_blockText style hl f hs hp hk ho (by rw [hd]; exact hfront)
  · rw [hafter, ← hd]
    exact text_blockCode style hl f (o := o) hs hp hk (by rw [hd]; exact hfront)
  · rw [hafter, text_blockInline style f hk, hfront, List.append_assoc]
    rfl

end

def codeInBlock : List Token :=
  [⟨.tag "p", {}⟩, ⟨.dot, {}⟩, ⟨.startPipeless, {}⟩, ⟨.text "a", {}⟩, ⟨.newline, {}⟩,
    ⟨.interpolatedCode "b" true true, {}⟩, ⟨.endPipeless, {}⟩, ⟨.eos, {}⟩]

theorem text_blockLine_codeInBlock :
    let page : Page := ⟨' ', 2, 2, 80, -1, fun _ => false⟩
    let f : Formatter Empty := fun _ r => .ok r.code
    let text := fun n => (sheetAfter {} page f (codeInBlock.take n) (codeInBlock.drop n)).draft.text
    CompletesLine (text 3) [] (text 4) "  a".toList ∧
      CompletesLine (text 5) [] (text 6) "| #\x7bb\x7d".toList := by
  intro page f text
  have hl : page.Follows {} := ⟨_, rfl⟩
  obtain ⟨htext, -, -⟩ := text_blockLine {} hl f (codeInBlock.take 2) (codeInBlock.drop 4)
    ⟨.startPipeless, {}⟩ ⟨.text "a", {}⟩ rfl rfl
  obtain ⟨-, hcode, -⟩ := text_blockLine {} hl f (codeInBlock.take 4) (codeInBlock.drop 6)
    ⟨.newline, {}⟩ ⟨.interpolatedCode "b" true true, {}⟩ rfl rfl
  exact ⟨htext "a" rfl, hcode "b" true true rfl⟩

theorem format_codeInBlock : WellFormed codeInBlock ∧
    (format wordReader {} (fun _ r => .ok r.code : Formatter Empty) codeInBlock).result =
      .ok "p.\n  a\n| #\x7bb\x7d\n" :=
  ⟨by decide, rfl⟩

end PugPretty
