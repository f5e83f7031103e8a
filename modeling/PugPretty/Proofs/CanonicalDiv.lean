import PugPretty.Proofs.FinishedLines
import PugPretty.Proofs.ImpliedDiv
import PugPretty.Proofs.StreamEnd

/-!
# The canonical `div`

Whether the name `div` is printed is decided by the first part of the head, since a tag looks no
further (`canonicalDiv`). A tag that shorthand follows at the start of a line changes nothing
(`format_bareShorthand`). Shorthand behind a list that gives none does not take the name away
(`format_laterClass`).
-/

namespace PugPretty

open Text

/-! ## Shorthand without a tag -/

theorem attribute?_of_endsLine {t : Token} (h : t.kind.endsLine = true) : t.attribute? = none := by
  unfold Token.attribute?
  cases hk : t.kind <;> first | rfl | (rw [hk] at h; cases h)

theorem attribute?_of_shorthand {t : Token} (h : t.kind.isShorthand = true) :
    t.attribute? = none := by
  unfold Token.attribute?
  cases hk : t.kind <;> first | rfl | (rw [hk] at h; cases h)

section
variable (style : Style)

theorem Token.gives_iff_of_shorthand {t : Token} (ht : t.kind.isShorthand = true) :
    t.Gives style ↔ ∀ name, t.kind = .className name → style.classes ≠ .inList := by
  unfold Token.Gives Token.ids Token.classNames
  cases hk : t.kind with
  | className name => simp
  | idName name => simp
  | _ => rw [hk] at ht; cases ht

theorem impliedName_of_gives {t : Token} (ht : t.kind.isShorthand = true) (hg : t.Gives style) :
    impliedName style t.kind = [] := by
  rw [Token.gives_iff_of_shorthand style ht] at hg
  unfold impliedName
  cases hk : t.kind with
  | className name => exact if_neg (hg name hk)
  | _ => rfl

theorem impliedName_of_not_gives {t : Token} (ht : t.kind.isShorthand = true)
    (hg : ¬ t.Gives style) : impliedName style t.kind = "div".toList := by
  rw [Token.gives_iff_of_shorthand style ht] at hg
  simp only [not_forall, not_not] at hg
  obtain ⟨name, hk, hc⟩ := hg
  simp only [impliedName, hk, hc, if_true]

theorem beginning_of_gives {site : Site} (ht : site.token.kind.isShorthand = true)
    (hg : site.token.Gives style) (depth : Nat) :
    beginning style site depth = site.indentation depth ++ [.mark] := by
  rw [Token.gives_iff_of_shorthand style ht] at hg
  unfold beginning
  cases hk : site.token.kind with
  | className name => simp [if_neg (hg name hk)]
  | _ => simp

end

section
variable {ε : Type} (style : Style) (page : Page) (f : Formatter ε)

theorem attributeRun_cons {t : Token} (ht : t.attribute? = none) (ts : List Token) :
    attributeRun (t :: ts) = [] := attributeRun_append ht ts [] [] rfl

theorem sheetAfter_lineEnd {done : List Token}
    (hl : (done.getLast?.map Token.kind).all Kind.endsLine = true) {t u : Token}
    (ht : t.attribute? = none) (hu : u.attribute? = none) (ho : opening [t] = opening [u])
    (ts us : List Token) :
    sheetAfter style page f done (t :: ts) = sheetAfter style page f done (u :: us) ∧
      outlineAfter style done (t :: ts) = outlineAfter style done (u :: us) := by
  rcases List.eq_nil_or_concat done with rfl | ⟨done, e, rfl⟩
  · refine ⟨?_, rfl⟩
    simp only [sheetAfter, List.nil_append, opening_cons t ts [], opening_cons u us [], ho]
    rfl
  rw [List.concat_eq_append] at hl ⊢
  have he : e.kind.endsLine = true := by simpa using hl
  have hattr : e.attribute? = none := attribute?_of_endsLine he
  have hrun : attributeRun (t :: ts) = attributeRun (u :: us) := by
    rw [attributeRun_cons ht, attributeRun_cons hu]
  -- a line end does not look ahead
  have hedits : ∀ b o, tokenEdits style ⟨b, e, t :: ts⟩ o = tokenEdits style ⟨b, e, u :: us⟩ o := by
    intro b o
    unfold tokenEdits
    cases hk : e.kind with
    | newline | indent | outdent => rfl
    | _ =>
      rewrite [hk] at he
      cases he
  rw [sheetAfter_snoc, sheetAfter_snoc, outlineAfter_snoc, outlineAfter_snoc,
    sheetAfter_lookahead style hattr hrun, outlineAfter_lookahead style hattr hrun, hedits]
  exact ⟨rfl, rfl⟩

variable (hd : style.explicitDiv = false) {done : List Token}
  (hl : (done.getLast?.map Token.kind).all Kind.endsLine = true) {t u : Token}
  (ht : t.kind = .tag "div") (hu : u.kind.isShorthand = true) (hg : u.Gives style)
include hd hl ht hu hg

/-- A tag that shorthand follows does what the beginning of the line does without it. -/
theorem after_bareShorthand (rest : List Token) :
    sheetAfter style page f (done ++ [t, u]) rest = sheetAfter style page f (done ++ [u]) rest ∧
      outlineAfter style (done ++ [t, u]) rest = outlineAfter style (done ++ [u]) rest := by
  have hattr : t.attribute? = none := by unfold Token.attribute?; rw [ht]
  have hopen : opening [t] = opening [u] := by
    obtain ⟨kind, span⟩ := t
    obtain ⟨kind', span'⟩ := u
    obtain rfl : kind = .tag "div" := ht
    cases kind' <;> first | rfl | cases hu
  obtain ⟨hsheet, houtline⟩ :=
    sheetAfter_lineEnd style page f hl hattr (attribute?_of_shorthand hu) hopen (u :: rest) rest
  let o := outlineAfter style done (u :: rest)
  have hlast : (done ++ [t]).getLast? = some t := by simp
  have hp : o.pending = [] := pending_outlineAfter_of_last style (holdsClasses_of_endsLine hl) _
  have himp : impliesDiv style.classes ⟨done.getLast?, t, u :: rest⟩ = true := by
    have hpart := impliesDiv_headPart (.shorthand hu) done.getLast? t rest style.classes
    rw [List.singleton_append] at hpart
    rw [hpart, List.any_cons, Bool.or_eq_true]
    refine .inl (u.promises_of_gives style hg fun a hk => ?_)
    rw [hk] at hu
    cases hu
  have htag : tokenEdits style ⟨done.getLast?, t, u :: rest⟩ o =
      (Site.indentation ⟨done.getLast?, t, u :: rest⟩ o.depth ++ [.mark], o) := by
    unfold tokenEdits
    simp [ht, tagEdits, hd, himp]
  have hopens : Site.opensLine ⟨done.getLast?, u, rest⟩ = true := hl
  have hinside : Site.opensLine ⟨some t, u, rest⟩ = false := by
    simp [Site.opensLine, Site.prev?, ht, Kind.endsLine]
  have hline : tokenEdits style ⟨done.getLast?, u, rest⟩ o = _ := tokenEdits_join style hu hp
  have hjoin : tokenEdits style ⟨some t, u, rest⟩ o = _ := tokenEdits_join style hu hp
  rw [hopens, if_pos rfl, beginning_of_gives style hu hg] at hline
  rw [hinside, if_neg Bool.false_ne_true, List.nil_append] at hjoin
  have hsite : Site.indentation ⟨done.getLast?, t, u :: rest⟩ o.depth =
      Site.indentation ⟨done.getLast?, u, rest⟩ o.depth := rfl
  have htagged : sheetAfter style page f (done ++ [t]) (u :: rest) =
      Sheet.applyAll page f (Site.indentation ⟨done.getLast?, u, rest⟩ o.depth ++ [.mark])
        (sheetAfter style page f done (u :: rest)) := by
    rw [sheetAfter_snoc, hsheet, houtline, htag, hsite]
  have hbehind : outlineAfter style (done ++ [t]) (u :: rest) = o := by
    rw [outlineAfter_snoc, houtline, htag]
  rw [List.append_cons done t [u]]
  constructor
  · rw [sheetAfter_snoc, sheetAfter_snoc style page f done rest u, htagged, hbehind, hlast, hjoin, hline,
      ← Sheet.applyAll_append]
    rfl
  · rw [outlineAfter_snoc, outlineAfter_snoc style done rest u, hbehind, hlast, hjoin, hline]
    rfl

theorem sheetAfter_bareShorthand (more rest : List Token) :
    sheetAfter style page f (done ++ t :: u :: more) rest =
      sheetAfter style page f (done ++ u :: more) rest := by
  obtain ⟨hsheet, houtline⟩ := after_bareShorthand style page f hd hl ht hu hg (more ++ rest)
  have hlast : (done ++ [t, u]).getLast? = (done ++ [u]).getLast? := by simp
  rw [show done ++ t :: u :: more = done ++ [t, u] ++ more by simp,
    show done ++ u :: more = done ++ [u] ++ more by simp,
    sheetAfter_append, sheetAfter_append style page f (done ++ [u]), hsheet, houtline, hlast]

end

/-- A `div` tag that shorthand follows at the start of a line is not seen in the outcome. -/
theorem format_bareShorthand {ε : Type} (read : PatternReader) {o : Options}
    (hd : o.style.explicitDiv = false) (f : Formatter ε) {done : List Token}
    (hl : (done.getLast?.map Token.kind).all Kind.endsLine = true) {t u : Token}
    (ht : t.kind = .tag "div") (hu : u.kind.isShorthand = true) (hg : u.Gives o.style)
    (more : List Token) :
    format read o f (done ++ t :: u :: more) = format read o f (done ++ u :: more) := by
  refine format_congr f fun ord page _ => ?_
  have htattr : t.attribute? = none := by unfold Token.attribute?; rw [ht]
  have huattr : u.attribute? = none := attribute?_of_shorthand hu
  have hlast : ((ord.arrange done).getLast?.map Token.kind).all Kind.endsLine = true := by
    rcases List.eq_nil_or_concat done with rfl | ⟨done, e, rfl⟩
    · rw [ord.arrange_nil]
      rfl
    rw [List.concat_eq_append] at hl ⊢
    have he : e.kind.endsLine = true := by simpa using hl
    rw [AttributeOrder.arrange_append_cons (attribute?_of_endsLine he), ord.arrange_nil]
    simpa using he
  rw [AttributeOrder.arrange_append_cons htattr, ord.arrange_cons huattr,
    AttributeOrder.arrange_append_cons huattr, writeTokens_eq, writeTokens_eq,
    sheetAfter_bareShorthand o.style page f hd hlast ht hu hg]

/-! ## What the tag looks at -/

section
variable (style : Style)

theorem headText_div (hd : style.explicitDiv = false) {t : Token} (ht : t.kind = .tag "div")
    (rest : List Token) :
    headText style t rest =
      if impliesDiv style.classes ⟨none, t, rest⟩ = true then [] else "div".toList := by
  unfold headText
  rw [ht]
  by_cases h : impliesDiv style.classes ⟨none, t, rest⟩ = true
  · simp [hd, h]
  · simp [h]

theorem signed_append_iff (x : Text) {part : List Token} {z : Text} (hz : Unsigned z) :
    Signed x (x ++ (givenText style part ++ z)) ↔ givenText style part ≠ [] := by
  constructor
  · rintro ⟨c, r, h, hc⟩ hnil
    have hr : z = c :: r := by simpa [hnil] using h
    have hc' := hz c (by rw [hr]; rfl)
    rcases hc with rfl | rfl <;> simp at hc'
  · intro hne
    obtain ⟨c, r, hgiven, hc⟩ := exists_sign_of_givenText style hne
    exact ⟨c, r ++ z, by rw [hgiven]; rfl, hc⟩

variable {ε : Type} (page : Page) (f : Formatter ε)

/-- Shorthand stands behind the name, or in its place, if the first part of the head gives some. -/
theorem signed_headPart_iff {pre part behind : List Token} {t : Token} {name : String}
    (ht : t.kind = .tag name) (hpart : HeadPart part)
    (h : enclosed false (pre ++ t :: (part ++ behind)) = true) {x : Text}
    (hx : (sheetAfter style page f (pre ++ [t]) (part ++ behind)).draft.Parts x [] []) :
    Signed x (sheetAfter style page f (pre ++ t :: part) behind).draft.text ↔
      givenText style part ≠ [] := by
  obtain ⟨z, hz, hparts⟩ := parts_headPart style page f hpart (enclosed_tag h ht) (by rw [ht]; rfl)
    (by rw [ht]; rfl) behind hx
  rw [List.append_cons, hparts.text, ← signed_append_iff style x hz, givenText]
  simp only [List.append_assoc]

end

theorem named_bareShorthand {ε : Type} (style : Style) {page : Page}
    (hp : isBlank page.indentChar = true) (f : Formatter ε) {pre more post : List Token} {t : Token}
    (h : WellFormed (pre ++ t :: (more ++ post))) (ht : t.kind.isShorthand = true)
    (hl : (pre.getLast?.map Token.kind).all Kind.endsLine = true) (hn : ∀ u ∈ more, u.kind ≠ .eos) :
    let place := (sheetAfter style page f pre (t :: (more ++ post))).draft.text ++
      leadText page (pre.getLast?.map Token.kind) (nesting pre)
    let after := (sheetAfter style page f (pre ++ t :: more) post).draft.text
    (t.Gives style → Signed place after) ∧ (¬ t.Gives style → place ++ "div".toList <+: after) := by
  intro place after
  have halone : ∀ u ∈ ([] : List Token), u.kind.isShorthand = true := nofun
  obtain ⟨hreads, -⟩ := reads_run style page f ht halone pre (more ++ post)
    (holdsClasses_of_endsLine hl) (inFront_of_endsLine style page hl (nesting pre) t.kind _)
  have hparts := hreads.parts
  have henc : enclosed false (pre ++ [t] ++ (more ++ post)) = true := by
    rw [← List.append_cons]
    exact h.enclosed
  have hne : ∀ u ∈ pre ++ [t] ++ more, u.kind ≠ .eos := by
    simp only [List.forall_mem_append, List.forall_mem_singleton]
    exact ⟨⟨h.ne_eos, fun he => by rw [he] at ht; cases ht⟩, hn⟩
  have hafter : after = (sheetAfter style page f (pre ++ [t] ++ more) post).draft.text := by
    rw [← List.append_cons]
  rw [hafter]
  constructor
  · intro hg
    rw [impliedName_of_gives style ht hg, List.append_nil, List.nil_append] at hparts
    have hgiven := (givenText_ne_nil_iff style).2 ⟨t, List.mem_singleton_self t, hg⟩
    exact signed_sheetAfter style hp f hgiven henc hne hparts
  · intro hg
    rw [impliedName_of_not_gives style ht hg] at hparts
    have hfront : (sheetAfter style page f (pre ++ [t]) (more ++ post)).draft.Shelters
        (place ++ "div".toList) := ⟨_, _, _, hparts, List.prefix_append _ _⟩
    exact Draft.Shelters.prefix_text
      (has_sheetAfter (lasting_front _) style hp f post more (pre ++ [t]) henc hne hfront)

/-- **The name of a `div` is printed unless the first part of its head gives shorthand.** -/
theorem canonicalDiv {ε : Type} {o : Options} (hd : o.style.explicitDiv = false) {page : Page}
    (hl : page.Follows o.layout) (f : Formatter ε) (ord : AttributeOrder)
    {ts pre rest : List Token} (h : WellFormed ts) {t : Token} (hv : ord.arrange ts = pre ++ t :: rest) :
    let text := fun done rest => (sheetAfter o.style page f done rest).draft.text
    let prev := pre.getLast?.map Token.kind
    let place := text pre (t :: rest) ++ leadText page prev (nesting pre)
    (t.kind = .tag "div" → ∃ name, (name = [] ∨ name = "div".toList) ∧
      text (pre ++ [t]) rest = place ++ name ∧ (goesOn rest = false → name ≠ []) ∧
      ∀ part behind, rest = part ++ behind → HeadPart part →
        (name = [] → Signed place (text (pre ++ t :: part) behind)) ∧
        ((∀ u ∈ part, ∀ a, u.kind = .attr a → a.value.isTight = true) →
          Signed (place ++ name) (text (pre ++ t :: part) behind) → name = [])) ∧
    (t.kind.isShorthand = true → prev.all Kind.endsLine = true →
      ∀ more post, rest = more ++ post → (∀ u ∈ more, u.kind ≠ .eos) →
        let after := text (pre ++ t :: more) post
        (t.Gives o.style → Signed place after) ∧
        (¬ t.Gives o.style → place ++ "div".toList <+: after) ∧
        (o.style.classes ≠ .inList → (∀ u ∈ more, u.kind.isShorthand = true) →
          after = place ++ (idText ((t :: more).flatMap (Token.ids o.style)) ++
            classText ((t :: more).flatMap (Token.classNames o.style)) ++
            trailingSpace (t :: more) post))) ∧
    ∀ done u more, ts = done ++ t :: u :: more →
      (done.getLast?.map Token.kind).all Kind.endsLine = true → t.kind = .tag "div" →
      u.kind.isShorthand = true → u.Gives o.style →
      ∀ read : PatternReader, format read o f ts = format read o f (done ++ u :: more) := by
  intro text prev place
  have hp := isBlank_indentChar hl
  have hw := hv ▸ h.arrange ord
  refine ⟨fun ht => ?_, fun ht hline more post hrest hn => ?_, ?_⟩
  · have htag : (sheetAfter o.style page f (pre ++ [t]) rest).draft.Parts
        (place ++ headText o.style t rest) [] [] := parts_tag o.style page f ht rest
    have hname := headText_div o.style hd ht rest
    have hnil : headText o.style t rest = [] ↔ impliesDiv o.style.classes ⟨none, t, rest⟩ = true := by
      rw [hname]
      split <;> simp_all
    refine ⟨headText o.style t rest, ?_, by simpa using htag.text, fun hgo hno => ?_, ?_⟩
    · rw [hname]
      split
      · exact .inl rfl
      · exact .inr rfl
    · exact absurd (goesOn_of_impliesDiv (hnil.1 hno)) (by rw [hgo]; exact Bool.false_ne_true)
    · rintro part behind rfl hpart
      have hsigned := signed_headPart_iff o.style page f ht hpart hw.enclosed htag
      constructor
      · intro hno
        rw [hno, List.append_nil] at hsigned
        exact hsigned.2 (givenText_ne_nil o.style hpart (hnil.1 hno))
      · intro htight hs
        obtain ⟨u, hu, hg⟩ := (givenText_ne_nil_iff o.style).1 (hsigned.1 hs)
        rw [hnil, impliesDiv_headPart hpart, List.any_eq_true]
        exact ⟨u, hu, u.promises_of_gives o.style hg (htight u hu)⟩
  · subst hrest
    obtain ⟨hsigned, hnamed⟩ := named_bareShorthand o.style hp f hw ht hline hn
    refine ⟨hsigned, hnamed, fun hc hmore => ?_⟩
    have htext := text_lineRun o.style page f ht hmore pre post hline
    have hname : impliedName o.style t.kind = [] :=
      impliedName_of_gives o.style ht ((t.gives_iff_of_shorthand o.style ht).2 fun _ _ => hc)
    simp only [hname, placedText, listedText, hc, false_and, if_false, List.nil_append] at htext
    exact htext
  · rintro done u more rfl hline ht hu hg read
    exact format_bareShorthand read hd f hline ht hu hg more

def divSample : List Token :=
  [⟨.tag "div", {}⟩, ⟨.className "a", {}⟩, ⟨.idName "i", {}⟩, ⟨.eos, {}⟩]

theorem format_divSample :
    (format wordReader {} (fun _ r => .ok r.code : Formatter Empty) divSample).result =
      .ok "#i.a\n" := rfl

theorem canonicalDiv_divSample :
    let f : Formatter Empty := fun _ r => .ok r.code
    let page : Page := ⟨' ', 2, 2, 80, -1, fun _ => false⟩
    WellFormed divSample ∧
      Signed [] (sheetAfter {} page f (divSample.take 2) (divSample.drop 2)).draft.text ∧
      format wordReader {} f divSample = format wordReader {} f divSample.tail ∧
      (format wordReader {} f divSample).result = .ok "#i.a\n" := by
  intro f page
  have hw : WellFormed divSample := by decide
  have hl : page.Follows {} := ⟨_, rfl⟩
  have hv : AttributeOrder.arrange {} divSample = [] ++ ⟨.tag "div", {}⟩ :: divSample.tail := rfl
  obtain ⟨htag, -, hformat⟩ := canonicalDiv (o := {}) rfl hl f {} hw hv
  obtain ⟨name, -, htext, -, hpart⟩ := htag rfl
  have hname : name = [] := by
    have htagged : (sheetAfter {} page f [⟨.tag "div", {}⟩] divSample.tail).draft.text = [] := by decide
    exact (List.append_eq_nil_iff.1 (htext.symm.trans htagged)).2
  obtain ⟨hsigned, -⟩ := hpart [⟨.className "a", {}⟩] (divSample.drop 2) rfl (.shorthand rfl)
  have hgives : Token.Gives {} ⟨.className "a", {}⟩ := .inr ⟨by decide, by decide⟩
  have hsame := hformat [] ⟨.className "a", {}⟩ (divSample.drop 2) rfl rfl rfl rfl hgives wordReader
  exact ⟨hw, hsigned hname, hsame, format_divSample⟩

def laterClass : List Token :=
  [⟨.tag "div", {}⟩, ⟨.startAttributes, {}⟩, ⟨.attr ⟨"href", .source "\"x\"", true⟩, {}⟩,
    ⟨.endAttributes, {}⟩, ⟨.className "foo", {}⟩, ⟨.eos, {}⟩]

/-- The tag keeps its name in front of the class, and a waiting class makes up one. -/
theorem format_laterClass :
    let run := fun o ts => (format wordReader o (fun _ r => .ok r.code : Formatter Empty) ts).result
    let foo : Token := ⟨.className "foo", {}⟩
    let x : Token := ⟨.idName "x", {}⟩
    let waiting : Options := { style := { classes := .inList } }
    WellFormed laterClass ∧ run {} laterClass = .ok "div.foo(href=\"x\")\n" ∧
      run {} (foo :: (laterClass.drop 1).take 3 ++ laterClass.drop 5) = .ok ".foo(href=\"x\")\n" ∧
      run waiting [foo, x, ⟨.eos, {}⟩] = .ok "div#x(class=\"foo\")\n" ∧
      run waiting [x, foo, ⟨.eos, {}⟩] = .ok "#x(class=\"foo\")\n" :=
  ⟨by decide, rfl, rfl, rfl, rfl⟩

end PugPretty
