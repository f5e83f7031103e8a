import PugPretty.Proofs.AttributeText
import PugPretty.Proofs.Outcome
import PugPretty.Proofs.TextEnds

/-!
# Quoted values

Whether the value of an attribute is a literal or code is read off its two ends. A value with the
same quote at both ends is never handed to the formatter, also when that quote stands bare between
them; any other value is handed over as a whole, and its answer is all that is written for it
(`sent_of_ends`). So an expression that begins and ends with a string is taken for one string
(`format_joinedHref`).
-/

namespace PugPretty

open Text

/-- Whether the quote stands in the text without a backslash that belongs to it. -/
def hasBareQuote (q : Char) : Text → Bool
  | [] => false
  | '\\' :: _ :: r => hasBareQuote q r
  | c :: r => c == q || hasBareQuote q r

/-! ## What a value becomes -/

section
variable (style : Style) {a : Attribute} {code : String}

theorem body?_source (hv : a.value = .source code) : a.value.body? = unquote? (trim code.toList) := by
  rw [hv]; rfl

theorem role_of_unquoted (hv : a.value = .source code) (hu : unquote? (trim code.toList) = none)
    (classes : ClassStyle) : a.role classes = .keep := by
  rw [Attribute.role, body?_source hv, hu]

variable (hv : a.value = .source code) (hd : Grammar.ofDirective? a.name.toList = none)
include hv hd

theorem content_of_quoted {body : Text} (hu : unquote? (trim code.toList) = some body)
    (hm : mustacheValue? (trim code.toList) = none) :
    a.content style.quotes = some [.plain (quote style.quotes body)] := by
  simp only [Attribute.content, hv, sourceContent, hd, hm, hu]

theorem requests_of_quoted {body : Text} (hu : unquote? (trim code.toList) = some body) :
    a.requests style = [] := by
  unfold Attribute.requests
  split
  · cases hm : mustacheValue? (trim code.toList) with
    | none =>
      rw [content_of_quoted style hv hd hu hm]
      rfl
    | some span =>
      simp only [Attribute.content, hv, sourceContent, hd, hm]
      rfl
  · rfl

theorem content_of_expression (he : a.mustEscape = true)
    (hu : unquote? (trim code.toList) = none) (hm : mustacheValue? (trim code.toList) = none)
    (ht : trim code.toList ≠ "true".toList) (hb : isBlankText (trim code.toList) = false) :
    a.content style.quotes =
      some [.code ⟨String.ofList (trim code.toList), embeddedWidth, style.quotes.opposite,
        .expression, false⟩] := by
  simp only [Attribute.content, hv, sourceContent, hd, hm, hu, ht, he, if_true, if_false, expression,
    hb, trim_trim, Bool.false_eq_true]

end

/-! ## The run -/

section
variable {ε : Type} (style : Style) (page : Page) (f : Formatter ε)

theorem session_attr {t : Token} {a : Attribute} (hk : t.kind = .attr a)
    (hr : a.requests style = []) (done rest : List Token) :
    (sheetAfter style page f (done ++ [t]) rest).session =
      (sheetAfter style page f done (t :: rest)).session := by
  rw [sheetAfter_snoc, tokenEdits_attr style (s := ⟨done.getLast?, t, rest⟩) hk]
  refine session_applyAll_of_nil page ?_ _
  rw [requests_writeAttribute, hr]

theorem sheetAfter_attr_keep {t : Token} {a : Attribute} (hk : t.kind = .attr a)
    (hr : a.role style.classes = .keep) (done rest : List Token) :
    let o := outlineAfter style done (t :: rest)
    let s := sheetAfter style page f done (t :: rest)
    sheetAfter style page f (done ++ [t]) rest =
      s.apply page f (.write (itemsContent style page s.broken o.depth (o.written = 0)
        [⟨a.name, a.content style.quotes, a.mustEscape⟩])) := by
  intro o s
  rw [sheetAfter_snoc, tokenEdits_attr style (s := ⟨done.getLast?, t, rest⟩) hk,
    ← applyAll_writeItem style page f o]
  simp only [writeAttribute, hr]
  rfl

/-- **The ends of a value decide whether it is code.** -/
theorem sent_of_ends {t : Token} {a : Attribute} {code : String} (hk : t.kind = .attr a)
    (hv : a.value = .source code) (he : a.mustEscape = true)
    (hd : Grammar.ofDirective? a.name.toList = none) (done rest : List Token) :
    let v := trim code.toList
    let r : Request :=
      ⟨String.ofList v, embeddedWidth, style.quotes.opposite, .expression, false⟩
    let o := outlineAfter style done (t :: rest)
    let s := sheetAfter style page f done (t :: rest)
    let s' := sheetAfter style page f (done ++ [t]) rest
    let front := s.draft.text ++ gapText style page s.broken o.depth (o.written = 0) a.name ++
      a.name.toList ++ ['=']
    (∀ body, unquote? v = some body → s'.session = s.session ∧
      (a.role style.classes = .keep → mustacheValue? v = none →
        s'.draft.text = front ++ quote style.quotes body)) ∧
    (unquote? v = none → mustacheValue? v = none → v ≠ "true".toList → isBlankText v = false →
      s'.session = (s.session.resolve f r).2 ∧
        s'.draft.text = front ++ (s.session.resolve f r).1) := by
  intro v r o s s' front
  refine ⟨fun body hu => ⟨?_, fun hr hm => ?_⟩, fun hu hm ht hb => ?_⟩
  · exact session_attr style page f hk (requests_of_quoted style hv hd hu) done rest
  · have hs : s' = _ := sheetAfter_attr_keep style page f hk hr done rest
    rw [hs, content_of_quoted style hv hd hu hm, he]
    simp [front, s, o, Sheet.apply_write, itemsContent, Item.content, Content.resolve]
  · -- neither a class nor an id is moved, so the answer stands right behind the name
    have hr := role_of_unquoted hv hu style.classes
    have hs : s' = _ := sheetAfter_attr_keep style page f hk hr done rest
    rw [hs, content_of_expression style hv hd he hu hm ht hb, he]
    simp [front, s, o, r, v, Sheet.apply_write, itemsContent, Item.content, Content.resolve]

end

def joinedHref : List Token :=
  [⟨.tag "a", {}⟩, ⟨.startAttributes, {}⟩,
    ⟨.attr ⟨"href", .source "\"/\" + lang + \"/home\"", true⟩, {}⟩, ⟨.endAttributes, {}⟩, ⟨.eos, {}⟩]

theorem sent_of_ends_href :
    let page : Page := ⟨' ', 2, 2, 80, -1, fun _ => false⟩
    let f : Formatter Empty := fun _ r => .ok (r.code ++ ";")
    let done : List Token := [⟨.tag "a", {}⟩, ⟨.startAttributes, {}⟩]
    let joined : Attribute := ⟨"href", .source "\"/\" + lang + \"/home\"", true⟩
    let plain : Attribute := ⟨"href", .source " lang + \"/home\"", true⟩
    let rest : List Token := [⟨.endAttributes, {}⟩]
    (sheetAfter {} page f (done ++ [⟨.attr joined, {}⟩]) rest).session.requests = [] ∧
      (sheetAfter {} page f (done ++ [⟨.attr plain, {}⟩]) rest).draft.text =
        "a(href=lang + \"/home\"".toList := by
  intro page f done joined plain rest
  obtain ⟨hquoted, -⟩ := sent_of_ends {} page f (t := ⟨.attr joined, {}⟩) rfl rfl rfl (by decide)
    done rest
  obtain ⟨-, hcode⟩ := sent_of_ends {} page f (t := ⟨.attr plain, {}⟩) rfl rfl rfl (by decide)
    done rest
  have hs := (hquoted "/\" + lang + \"/home".toList (by decide)).1
  have ht := (hcode (by decide) (by decide) (by decide) (by decide)).2
  exact ⟨hs ▸ rfl, ht.trans (by decide)⟩

theorem format_joinedHref :
    let v := trim "\"/\" + lang + \"/home\"".toList
    let run := format wordReader {} (fun _ r => .ok r.code : Formatter Empty) joinedHref
    WellFormed joinedHref ∧ unquote? v = some "/\" + lang + \"/home".toList ∧
      hasBareQuote '"' "/\" + lang + \"/home".toList = true ∧
      Grammar.ofDirective? "href".toList = none ∧ run.requests = [] ∧
      run.result = .ok "a(href=\"/\\\" + lang + \\\"/home\")\n" :=
  ⟨by decide, by decide, by decide, by decide, by decide, rfl⟩

/-- The words of a sum become classes. -/
example : (sheetAfter {} ⟨' ', 2, 2, 80, -1, fun _ => false⟩ (fun _ r => .ok r.code : Formatter Empty)
    [⟨.tag "a", {}⟩, ⟨.startAttributes, {}⟩,
      ⟨.attr ⟨"class", .source "\"a \" + foo + \" b\"", true⟩, {}⟩, ⟨.endAttributes, {}⟩]
    []).draft.text = "a.a.foo.b(class=\"\\\" + + \\\"\")".toList := by decide

end PugPretty
