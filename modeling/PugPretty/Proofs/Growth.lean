import PugPretty.Proofs.ElementHead

/-!
# Writing at the end

A draft is not written from left to right only: shorthand goes into the middle, and a parenthesis can
be taken back. `prefix_tokenEdits` says which tokens do neither, so that the text there is stays the
beginning of the text.
-/

namespace PugPretty

open Text

def Edit.appends : Edit → Bool
  | .addClass _ | .addId _ | .dropOpenParen | .finish => false
  | _ => true

@[simp] theorem appends_put (t : Text) : (Edit.put t).appends = true := rfl

@[simp] theorem appends_say (t : String) : (Edit.say t).appends = true := rfl

@[simp] theorem appends_indent (n : Nat) : (Edit.indent n).appends = true := rfl

@[simp] theorem appends_mark : Edit.mark.appends = true := rfl

section
variable {ε : Type} (page : Page) (f : Formatter ε)

theorem prefix_apply {e : Edit} (he : e.appends = true) (s : Sheet ε) :
    s.draft.text <+: (s.apply page f e).draft.text := by
  have hw : ∀ t : Text, s.draft.text <+: (s.draft.write t).text := fun t => by
    rw [Draft.text_write]; exact List.prefix_append _ _
  cases e with
  | write c => exact hw _
  | writeInert c => exact hw _
  | indent n => exact hw _
  | softBreak n flat => exact hw _
  | mark | markClass | beginGroup | endGroup => exact List.prefix_refl _
  | addClass | addId | dropOpenParen | finish => cases he

theorem prefix_applyAll {es : List Edit} (he : es.all Edit.appends = true) (s : Sheet ε) :
    s.draft.text <+: (Sheet.applyAll page f es s).draft.text := by
  induction es generalizing s with
  | nil => exact List.prefix_refl _
  | cons e es ih =>
    rw [List.all_cons, Bool.and_eq_true] at he
    exact (prefix_apply page f he.1 s).trans (ih he.2 _)

end

/-! ## The tokens that add to the end -/

section
variable (style : Style) (s : Site) (o : Outline)

theorem appends_indentation (depth : Nat) : (s.indentation depth).all Edit.appends = true := by
  unfold Site.indentation; split <;> rfl

theorem appends_lineBreaks : (lineBreaks s).all Edit.appends = true := by
  unfold lineBreaks; split <;> rfl

theorem appends_tagEdits (name : String) : (tagEdits style s o name).all Edit.appends = true := by
  unfold tagEdits
  split <;> simp [appends_indentation]

theorem appends_textLead (t : Text) : (textLead s o t).all Edit.appends = true := by
  have hp : ((if hasLeadingSpace (collapse t) then [.say "|\n", .indent o.depth] else []) :
      List Edit).all Edit.appends = true := by
    split <;> rfl
  unfold textLead
  dsimp only
  split
  iterate 3
    · simp only [List.all_append, List.all_cons, appends_indentation, hp, appends_say, Bool.true_and]
      split <;> rfl
  iterate 3
    · split <;> rfl
  · rfl

theorem appends_textEdits (t : Text) : (textEdits style s o t).all Edit.appends = true := by
  have hline : ∀ inComment, (blockLineEdits style s o inComment t).all Edit.appends = true := by
    intro inComment
    unfold blockLineEdits
    simp only [List.all_append, Bool.and_eq_true]
    exact ⟨⟨by split <;> rfl, by split <;> rfl⟩, rfl⟩
  unfold textEdits
  split
  · unfold markupTextEdits
    simp only [List.all_append, List.all_cons, appends_textLead, Bool.true_and]
    split <;> rfl
  · exact hline false
  · exact hline true

theorem appends_tokenEdits (hs : s.token.kind.isShorthand = false)
    (hl : s.token.kind.listPart = false) (he : s.token.kind ≠ .eos) :
    (tokenEdits style s o).1.all Edit.appends = true := by
  have h := appends_indentation s
  unfold tokenEdits
  cases hk : s.token.kind with
  | className | idName => rw [hk] at hs; cases hs
  | startAttributes | attr | endAttributes => simp [hk, Kind.listPart] at hl
  | eos => exact absurd hk he
  | tag name => exact appends_tagEdits style s o name
  | text val => exact appends_textEdits style s o _
  | interpolatedCode code mustEscape buffer =>
    simp only [List.all_append, inlineCodeLead]
    split <;> simp [h]
  | code code mustEscape buffer =>
    simp only [List.all_append, codeEdits, h, List.all_cons, appends_say, Bool.true_and]
    split <;> rfl
  | outdent =>
    simp only [outdentEdits]
    split
    · rfl
    · rfl
    · exact appends_lineBreaks s
  | newline => exact appends_lineBreaks s
  | comment body buffer =>
    simp only [commentEdits, List.all_append, h, Bool.true_and]
    split <;> rfl
  | doctype name => simp only; split <;> rfl
  | path file => simp only; split <;> rfl
  | _ => simp [h]

theorem prefix_tokenEdits {ε : Type} (page : Page) (f : Formatter ε)
    (hs : s.token.kind.isShorthand = false) (hl : s.token.kind.listPart = false)
    (he : s.token.kind ≠ .eos) (sh : Sheet ε) :
    sh.draft.text <+: (Sheet.applyAll page f (tokenEdits style s o).1 sh).draft.text :=
  prefix_applyAll page f (appends_tokenEdits style s o hs hl he) sh

end

theorem prefix_sheetAfter {ε : Type} (style : Style) (page : Page) (f : Formatter ε)
    (rest : List Token) : ∀ (more done : List Token),
      (∀ u ∈ more, u.kind.isShorthand = false ∧ u.kind.listPart = false ∧ u.kind ≠ .eos) →
      (sheetAfter style page f done (more ++ rest)).draft.text <+:
        (sheetAfter style page f (done ++ more) rest).draft.text
  | [], done, _ => by rw [List.append_nil]; exact List.prefix_refl _
  | u :: more, done, h => by
    obtain ⟨⟨hs, hl, he⟩, hmore⟩ := List.forall_mem_cons.1 h
    have hgrown := prefix_sheetAfter style page f rest more (done ++ [u]) hmore
    rw [List.append_assoc, sheetAfter_snoc] at hgrown
    exact (prefix_tokenEdits style ⟨done.getLast?, u, more ++ rest⟩ _ page f hs hl he _).trans hgrown

end PugPretty
