import PugPretty.Proofs.Conversation
import PugPretty.Proofs.Step

/-!
# What is asked

`requests_tokenEdits` lists the requests of every token. Only a token of code is sent as a statement,
and `exists_code_of_statement` finds the token of a statement request.
-/

namespace PugPretty

open Text

/-! ## The requests of a token -/

/-- The requests of an attribute. One that becomes shorthand or a `class` attribute makes none. -/
def Attribute.requests (style : Style) (a : Attribute) : List Request :=
  match a.role style.classes with
  | .keep => ((a.content style.quotes).map Content.requests).getD []
  | _ => []

def Kind.requests (style : Style) (flow : Flow) : Kind → List Request
  | .text val =>
    if flow = .markup then (mustacheContent style.quotes (trim (collapse val.toList))).requests else []
  | .attr a => a.requests style
  | .code source mustEscape buffer =>
    if isBlankText source.toList then []
    else (statement style.quotes (style.semicolons && !mustEscape && !buffer) source.toList).requests
  | _ => []

@[simp] theorem requests_put (t : Text) : (Edit.put t).requests = [] := rfl

@[simp] theorem requests_say (t : String) : (Edit.say t).requests = [] := rfl

@[simp] theorem requests_plain (t : Text) : Content.requests [.plain t] = [] := rfl

section
variable (style : Style) (s : Site) (o : Outline)

@[simp] theorem requests_indentation : requestsOf (s.indentation o.depth) = [] := by
  unfold Site.indentation; split <;> rfl

theorem requests_flushPending : requestsOf (flushPending style o).1 = [] := by
  unfold flushPending; split <;> rfl

theorem requests_flushAtHeadEnd : requestsOf (flushAtHeadEnd style s o).1 = [] := by
  unfold flushAtHeadEnd
  split
  · rfl
  · exact requests_flushPending style o

theorem requests_tagEdits (name : String) : requestsOf (tagEdits style s o name) = [] := by
  unfold tagEdits
  split <;> simp [Edit.requests, Edit.say, Edit.put]

theorem requests_classEdits (name : Text) : requestsOf (classEdits style s o name).1 = [] := by
  have hf := requests_flushAtHeadEnd style s { o with pending := o.pending ++ [name] }
  have hs : requestsOf (if s.next?.any Kind.isText = true then [.say " "] else []) = [] := by
    split <;> rfl
  unfold classEdits
  simp only [requestsOf_append, hs, List.append_nil]
  by_cases hc : style.classes = .inList
  · simp only [hc, if_true, hf, List.append_nil]
    split <;> simp [Edit.requests, Edit.say, Edit.put]
  · simp only [hc, if_false]
    split <;> simp [Edit.requests]

theorem requests_idEdits (name : Text) : requestsOf (idEdits style s o name).1 = [] := by
  have hf := requests_flushAtHeadEnd style s o
  unfold idEdits
  simp only [requestsOf_append, requestsOf_cons, hf]
  split <;> simp [Edit.requests]

theorem requests_textLead (t : Text) : requestsOf (textLead s o t) = [] := by
  unfold textLead
  dsimp only
  split
  iterate 3
    · simp only [requestsOf_append, requestsOf_cons, requests_indentation]
      split <;> split <;> rfl
  iterate 3
    · split <;> rfl
  · rfl

theorem requests_blockLineEdits (inComment : Bool) (t : Text) :
    requestsOf (blockLineEdits style s o inComment t) = [] := by
  unfold blockLineEdits
  simp only [requestsOf_append]
  split <;> split <;> rfl

theorem requests_textEdits (t : Text) :
    requestsOf (textEdits style s o t) =
      if o.flow = .markup then (mustacheContent style.quotes (trim (collapse t))).requests else [] := by
  unfold textEdits
  cases o.flow with
  | markup =>
    simp only [markupTextEdits, requestsOf_append, requests_textLead, requestsOf_cons, Edit.requests]
    split <;> simp
  | text => exact requests_blockLineEdits style s o false t
  | comment => exact requests_blockLineEdits style s o true t

theorem requests_writeItem (name : String) (value : Option Content) (mustEscape : Bool) :
    requestsOf (writeItem style name value mustEscape o).1 =
      (value.map Content.requests).getD [] := by
  have hg : ∀ comma : Bool, requestsOf (if o.written = 0 then [.softBreak (o.depth + 1) []]
      else (if comma = true then [.say ","] else []) ++ [.softBreak (o.depth + 1) [' ']]) = [] := by
    intro comma; cases comma <;> split <;> rfl
  unfold writeItem
  simp only [requestsOf_append, requestsOf_cons, hg, requests_say, List.nil_append]
  cases value with
  | none => rfl
  | some c => simp [Edit.requests, Edit.say, Edit.put]

theorem requests_openList (run : List Attribute) : requestsOf (openList style run o).1 = [] := by
  unfold openList
  dsimp only
  split
  · exact requests_flushPending style { o with written := 0 }
  · split
    · rfl
    · simp only [requestsOf_append, requests_writeItem]
      rfl

theorem requests_writeAttribute (a : Attribute) :
    requestsOf (writeAttribute style a o).1 = a.requests style := by
  unfold writeAttribute Attribute.requests
  dsimp only
  split
  · next simple others h =>
    have hs : requestsOf (simple.map .addClass) = [] := by
      refine List.flatMap_eq_nil_iff.2 fun e he => ?_
      obtain ⟨c, -, rfl⟩ := List.mem_map.1 he; rfl
    rw [h, requestsOf_append, hs]
    split
    · rfl
    · exact requests_writeItem ..
  · next h => rw [h]; exact requests_writeItem ..
  · next h => rw [h]; rfl
  · next h => rw [h]; exact requests_writeItem ..

theorem requests_closeList : requestsOf (closeList s o).1 = [] := by
  rw [closeList_eq, closing, spaceBehind]
  simp only [requestsOf_append, requestsOf_cons]
  split
  · split <;> rfl
  · split <;> split <;> rfl

theorem requests_lineBreaks : requestsOf (lineBreaks s) = [] := by
  unfold lineBreaks; split <;> rfl

theorem requests_tokenEdits :
    requestsOf (tokenEdits style s o).1 = s.token.kind.requests style o.flow := by
  have hi := requests_indentation s o
  unfold tokenEdits
  cases hk : s.token.kind with
  | tag name => exact requests_tagEdits style s o name
  | startAttributes => exact requests_openList style o _
  | attr a => exact requests_writeAttribute style o a
  | endAttributes => exact requests_closeList s o
  | className name => exact requests_classEdits style s o _
  | idName name => exact requests_idEdits style s o _
  | text val => exact requests_textEdits style s o _
  | interpolatedCode code mustEscape buffer =>
    simp only [requestsOf_append, inlineCodeLead]
    split <;> simp [Kind.requests]
  | code code mustEscape buffer =>
    simp only [requestsOf_append, codeEdits, requestsOf_cons, hi, Kind.requests]
    by_cases hb : isBlankText code.toList = true
    · simp only [hb, if_true]; rfl
    · simp [hb, Edit.requests, Edit.say, Edit.put]
  | outdent =>
    simp only [outdentEdits]
    split
    · rfl
    · rfl
    · exact requests_lineBreaks s
  | newline => exact requests_lineBreaks s
  | comment body buffer =>
    simp only [commentEdits, requestsOf_append, hi]
    split <;> rfl
  | doctype name => simp only; split <;> rfl
  | path file => simp only; split <;> rfl
  | indent | startPipeless | endPipeless | dot | extending | startInline | endInline | andAttributes
  | colon | slash | eos => rfl
  | _ => simp only [requestsOf_append, hi]; rfl

end

/-! ## Statements among the requests -/

theorem grammar_expression {q : Quotes} {g : Grammar} {code : Text} {r : Request}
    (h : r ∈ (expression q g code).requests) : r.grammar = g := by
  unfold expression at h
  split at h
  · cases h
  · rw [List.mem_singleton.1 h]

theorem grammar_mustacheContent {q : Quotes} {t : Text} {r : Request}
    (h : r ∈ (mustacheContent q t).requests) : r.grammar = .expression := by
  unfold mustacheContent Content.requests at h
  rw [List.filterMap_flatMap] at h
  obtain ⟨p, -, hp⟩ := List.mem_flatMap.1 h
  cases p with
  | plain t => cases hp
  | unclosed t => cases hp
  | code c =>
    simp only [List.cons_append, List.filterMap_append, List.filterMap_cons, Part.request?,
      List.filterMap_nil, List.append_nil] at hp
    exact grammar_expression hp

theorem Grammar.ofDirective?_ne_statement (name : Text) : Grammar.ofDirective? name ≠ some .statement := by
  unfold Grammar.ofDirective?
  split
  · simp
  · split
    · simp
    · split <;> simp

theorem grammar_sourceContent {q : Quotes} {name source : Text} {mustEscape : Bool} {c : Content}
    (hc : sourceContent q name mustEscape source = some c) {r : Request} (h : r ∈ c.requests) :
    r.grammar ≠ .statement := by
  have hq : ∀ g : Grammar, g ≠ .statement → ∀ code, r ∈ (expression q g code).requests →
      r.grammar ≠ .statement := by
    intro g hg code hr
    rw [grammar_expression hr]; exact hg
  unfold sourceContent at hc
  dsimp only at hc
  split at hc
  · next g hd =>
    have hg : g ≠ .statement := fun e => Grammar.ofDirective?_ne_statement name (e ▸ hd)
    split at hc <;> cases hc
    · simp only [Content.requests, List.cons_append, List.filterMap_append, List.filterMap_cons,
        Part.request?, List.filterMap_nil, List.append_nil] at h
      exact hq g hg _ h
    · exact hq g hg _ h
  · split at hc
    · cases hc; cases h
    · cases hc; cases h
    · split at hc
      · cases hc
      · split at hc
        · cases hc
          exact hq .expression (by simp) _ h
        · split at hc <;> cases hc <;> cases h

theorem grammar_attribute {style : Style} {a : Attribute} {r : Request} (h : r ∈ a.requests style) :
    r.grammar ≠ .statement := by
  unfold Attribute.requests at h
  split at h
  · cases hc : a.content style.quotes with
    | none => rw [hc] at h; cases h
    | some c =>
      rw [hc] at h
      unfold Attribute.content at hc
      split at hc
      · cases hc
      · cases hc; cases h
      · exact grammar_sourceContent hc h
  · cases h

/-- Only code is sent as a statement, and then it is all that its token asks for. -/
theorem Kind.code_of_statement {style : Style} {flow : Flow} {k : Kind} {r : Request}
    (h : r ∈ k.requests style flow) (hg : r.grammar = .statement) :
    ∃ mustEscape buffer, k = .code r.code mustEscape buffer ∧ isBlankText r.code.toList = false ∧
      k.requests style flow = [r] := by
  cases k with
  | text val =>
    simp only [Kind.requests] at h
    split at h
    · rw [grammar_mustacheContent h] at hg; cases hg
    · cases h
  | attr a => exact absurd hg (grammar_attribute h)
  | code source mustEscape buffer =>
    simp only [Kind.requests] at h ⊢
    split at h
    · cases h
    · next hb =>
      have hr := List.mem_singleton.1 h
      have hc : r.code = source := by rw [hr]; exact String.ofList_toList
      rw [hc, if_neg hb, hr]
      exact ⟨mustEscape, buffer, rfl, by simpa using hb, rfl⟩
  | _ => cases h

section
variable (style : Style)

theorem exists_code_of_statement {r : Request} (hg : r.grammar = .statement) (rest : List Token) :
    ∀ (ts : List Token) (before : Option Token) (o : Outline) (i : Nat),
      (requestsOf (siteEdits style (sitesUpTo before ts rest) o).1)[i]? = some r →
      ∃ done t more, ts = done ++ t :: more ∧
        requestsOf (siteEdits style (sitesUpTo before done (t :: (more ++ rest))) o).1 =
          (requestsOf (siteEdits style (sitesUpTo before ts rest) o).1).take i ∧
        ∃ flow, r ∈ t.kind.requests style flow
  | [], _, _, i, h => by cases h
  | t :: ts, before, o, i, h => by
    let s : Site := ⟨before, t, ts ++ rest⟩
    have hs := requests_tokenEdits style s o
    simp only [sitesUpTo, siteEdits, requestsOf_append] at h ⊢
    rcases Nat.lt_or_ge i (requestsOf (tokenEdits style s o).1).length with hi | hi
    · rw [List.getElem?_append_left hi] at h
      have hm : r ∈ t.kind.requests style o.flow := hs ▸ List.mem_of_getElem? h
      obtain ⟨_, _, -, -, h1⟩ := Kind.code_of_statement hm hg
      -- a token of code makes one request only
      have hz : i = 0 := by
        rw [hs, show s.token.kind = t.kind from rfl, h1, List.length_singleton] at hi
        omega
      refine ⟨[], t, ts, rfl, ?_, _, hm⟩
      rw [hz]; rfl
    · rw [List.getElem?_append_right hi] at h
      obtain ⟨done, u, more, rfl, hd, hu⟩ := exists_code_of_statement hg rest ts (some t) _ _ h
      refine ⟨t :: done, u, more, rfl, ?_, hu⟩
      simp only [sitesUpTo, siteEdits, requestsOf_append]
      have hc : done ++ u :: (more ++ rest) = (done ++ u :: more) ++ rest := by simp
      rw [hc, hd, List.take_append, List.take_of_length_le hi]

theorem requests_plan (ts : List Token) :
    requestsOf (plan style ts) = requestsOf (editsUpTo style ts []).1 := by
  have ho : requestsOf (opening ts) = [] := by unfold opening; split <;> rfl
  rw [plan, requestsOf_append, requestsOf_append, ho, editsUpTo, sitesUpTo_nil_right]
  exact List.append_nil _

theorem requests_sheetAfter {ε : Type} (page : Page) (f : Formatter ε) (done rest : List Token) :
    (sheetAfter style page f done rest).session.requests = requestsOf (editsUpTo style done rest).1 := by
  have ho : requestsOf (opening (done ++ rest)) = [] := by unfold opening; split <;> rfl
  rw [sheetAfter, requests_applyAll, requestsOf_append, ho]
  rfl

end

end PugPretty
