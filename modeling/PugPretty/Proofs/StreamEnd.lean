import PugPretty.Proofs.InlineContent
import PugPretty.Proofs.SortedRuns

/-!
# The end of a stream

A stream may end with an `eos` token, with several, or with none. A token that looks ahead takes an
`eos` for the end of the list (`tokenEdits_endings`), sorting leaves it where it is, and it only does
what is done behind the last token in any case. So the outcome does not depend on it
(`format_append_endings`).
-/

namespace PugPretty

def endings (spans : List Span) : List Token := spans.map fun span => ⟨.eos, span⟩

/-! ## Looking at the end -/

theorem attributeRun_append_endings (spans : List Span) : ∀ ts : List Token,
    attributeRun (ts ++ endings spans) = attributeRun ts
  | [] => by cases spans <;> rfl
  | ⟨kind, span⟩ :: ts => by
    cases kind with
    | attr a => exact congrArg (a :: ·) (attributeRun_append_endings spans ts)
    | _ => rfl

section
variable (style : Style) (spans : List Span)

theorem tokenEdits_endings (b : Option Token) (t : Token) (o : Outline) :
    tokenEdits style ⟨b, t, endings spans⟩ o = tokenEdits style ⟨b, t, []⟩ o := by
  cases spans with
  | nil => rfl
  | cons span spans =>
    obtain ⟨kind, _⟩ := t
    cases kind <;> rfl

theorem tokenEdits_append_endings (b : Option Token) (t : Token) (rest : List Token) (o : Outline) :
    tokenEdits style ⟨b, t, rest ++ endings spans⟩ o = tokenEdits style ⟨b, t, rest⟩ o := by
  cases rest with
  | nil => exact tokenEdits_endings style spans b t o
  | cons u rest =>
    have halike : Alike (u :: rest ++ endings spans) (u :: rest) :=
      ⟨rfl, attributeRun_append_endings spans (u :: rest), attributeRun_append_endings spans rest⟩
    exact tokenEdits_alike style halike b t o

theorem siteEdits_append_endings (done rest : List Token) : ∀ (b : Option Token) (o : Outline),
    siteEdits style (sitesUpTo b done (rest ++ endings spans)) o =
      siteEdits style (sitesUpTo b done rest) o := by
  induction done with
  | nil => exact fun _ _ => rfl
  | cons t done ih =>
    intro b o
    simp only [sitesUpTo, siteEdits, ih]
    rw [← List.append_assoc, tokenEdits_append_endings]

end

theorem opening_append_endings (spans : List Span) (ts : List Token) :
    opening (ts ++ endings spans) = opening ts := by
  cases ts with
  | nil => cases spans <;> rfl
  | cons t ts => exact opening_cons t (ts ++ endings spans) ts

/-! ## The run -/

section
variable {ε : Type} (style : Style) (page : Page) (f : Formatter ε) (spans : List Span)

theorem sheetAfter_append_endings (done rest : List Token) :
    sheetAfter style page f done (rest ++ endings spans) = sheetAfter style page f done rest := by
  rw [sheetAfter, sheetAfter, ← List.append_assoc, opening_append_endings, editsUpTo, editsUpTo,
    siteEdits_append_endings]

theorem finish_endings : ∀ (spans : List Span) (b : Option Token) (o : Outline) (s : Sheet ε),
    (Sheet.applyAll page f (siteEdits style (sitesUpTo b (endings spans) []) o).1 s).edit (·.finish) =
      s.edit (·.finish)
  | [], _, _, _ => rfl
  | span :: spans, b, o, s => by
    show (Sheet.applyAll page f (siteEdits style (sitesUpTo (some ⟨.eos, span⟩) (endings spans) []) o).1
      (s.edit (·.finish))).edit (·.finish) = _
    rw [finish_endings spans]
    simp only [Sheet.edit, Draft.finish_finish]

theorem writeTokens_append_endings (ts : List Token) :
    writeTokens style page f (ts ++ endings spans) = writeTokens style page f ts := by
  rw [writeTokens_eq, writeTokens_eq, sheetAfter_append, finish_endings, List.append_nil]
  exact congrArg (Sheet.edit _) (sheetAfter_append_endings style page f spans ts [])

end

theorem AttributeOrder.arrange_append_endings (ord : AttributeOrder) (ts : List Token)
    (spans : List Span) : ord.arrange (ts ++ endings spans) = ord.arrange ts ++ endings spans := by
  have hends : ord.arrange (endings spans) = endings spans := by
    induction spans with
    | nil => exact ord.arrange_nil
    | cons span spans ih =>
      show ord.arrange (⟨.eos, span⟩ :: endings spans) = _
      rw [ord.arrange_cons rfl, ih]
      rfl
  rw [arrange_append_of_head (by cases spans <;> simp [endings, Token.attribute?]), hends]

/-- **The end of a stream may be marked any number of times, or not at all.** -/
theorem format_append_endings {ε : Type} (read : PatternReader) (o : Options) (f : Formatter ε)
    (ts : List Token) (spans : List Span) :
    format read o f (ts ++ endings spans) = format read o f ts := by
  refine format_congr f fun ord page _ => ?_
  rw [ord.arrange_append_endings, writeTokens_append_endings]

end PugPretty
