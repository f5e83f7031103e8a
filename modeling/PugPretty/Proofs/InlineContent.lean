import PugPretty.Proofs.InertText

/-!
# Inline content

A space stands between the head of an element and the content on its line. It is written by the head
or by the content, and what the head writes apart from it does not depend on the content
(`sheetAfter_lookahead`, `tokenEdits_head`). `text_inlineContent` says that one space stands there,
but that code is glued to a mixin call, to an interpolated tag and to attributes from an expression
(`format_gluedCode`).
-/

namespace PugPretty

open Text

/-! ## Looking ahead -/

/-- What a token can see of the tokens behind it is the same. -/
structure Alike (ts us : List Token) : Prop where
  next : ts.head?.map (·.kind) = us.head?.map (·.kind)
  run : attributeRun ts = attributeRun us
  runBehind : attributeRun ts.tail = attributeRun us.tail

theorem opening_cons (t : Token) (ts us : List Token) : opening (t :: ts) = opening (t :: us) := by
  obtain ⟨kind, span⟩ := t
  cases kind <;> rfl

theorem attributeRun_stop {x : Token} (hx : x.attribute? = none) (ts us xs : List Token) :
    attributeRun (xs ++ x :: ts) = attributeRun (xs ++ x :: us) := by
  induction xs with
  | nil =>
    obtain ⟨kind, span⟩ := x
    cases kind with
    | attr => cases hx
    | _ => rfl
  | cons y xs ih =>
    obtain ⟨kind, span⟩ := y
    cases kind with
    | attr a => exact congrArg (a :: ·) ih
    | _ => rfl

theorem alike_stop {x : Token} (hx : x.attribute? = none) {ts us : List Token}
    (h : attributeRun ts = attributeRun us) (xs : List Token) :
    Alike (xs ++ x :: ts) (xs ++ x :: us) := by
  have hrun := attributeRun_stop hx ts us
  cases xs with
  | nil => exact ⟨rfl, hrun [], h⟩
  | cons y xs => exact ⟨rfl, hrun (y :: xs), hrun xs⟩

section
variable (style : Style) {ts us : List Token} (h : Alike ts us) (b : Option Token) (t : Token)
  (o : Outline)
include h

theorem tokenEdits_alike : tokenEdits style ⟨b, t, ts⟩ o = tokenEdits style ⟨b, t, us⟩ o := by
  have hn : Site.next? ⟨b, t, ts⟩ = Site.next? ⟨b, t, us⟩ := h.next
  have hflush : ∀ o, flushAtHeadEnd style ⟨b, t, ts⟩ o = flushAtHeadEnd style ⟨b, t, us⟩ o := by
    intro o
    unfold flushAtHeadEnd headContinues
    rw [hn]
  unfold tokenEdits
  cases t.kind with
  | tag name =>
    have himp : impliesDiv style.classes ⟨b, t, ts⟩ = impliesDiv style.classes ⟨b, t, us⟩ := by
      unfold impliesDiv
      rw [hn]
      simp only [h.runBehind]
    simp only [tagEdits, himp]
    rfl
  | startAttributes => exact congrArg (openList style · o) h.run
  | endAttributes =>
    simp only [closeList, hn]
  | className name =>
    simp only [classEdits, hflush, hn]
    rfl
  | idName name =>
    simp only [idEdits, hflush]
    rfl
  | text val =>
    have hlead : textLead ⟨b, t, ts⟩ o val.toList = textLead ⟨b, t, us⟩ o val.toList := by
      unfold textLead
      rw [hn]
      rfl
    simp only [textEdits, markupTextEdits, hlead, hn]
    rfl
  | _ => rfl

end

section
variable (style : Style) {x : Token} (hx : x.attribute? = none) {ts us : List Token}
  (h : attributeRun ts = attributeRun us)
include hx h

theorem siteEdits_lookahead (done : List Token) : ∀ (b : Option Token) (o : Outline),
    siteEdits style (sitesUpTo b done (x :: ts)) o =
      siteEdits style (sitesUpTo b done (x :: us)) o := by
  induction done with
  | nil => exact fun _ _ => rfl
  | cons t done ih =>
    intro b o
    simp only [sitesUpTo, siteEdits, tokenEdits_alike style (alike_stop hx h done) b t o, ih]

theorem outlineAfter_lookahead (done : List Token) :
    outlineAfter style done (x :: ts) = outlineAfter style done (x :: us) :=
  congrArg (·.2) (siteEdits_lookahead style hx h done none {})

theorem sheetAfter_lookahead {ε : Type} (page : Page) (f : Formatter ε) (done : List Token) :
    sheetAfter style page f done (x :: ts) = sheetAfter style page f done (x :: us) := by
  have ho : opening (done ++ x :: ts) = opening (done ++ x :: us) := by
    cases done with
    | nil => exact opening_cons x ts us
    | cons t done => exact opening_cons t (done ++ x :: ts) (done ++ x :: us)
  simp only [sheetAfter, editsUpTo, siteEdits_lookahead style hx h, ho]

end

/-! ## The end of a head -/

def Kind.endsHead : Kind → Bool
  | tag _ | className _ | idName _ | endAttributes | call .. | interpolation _ | andAttributes _ => true
  | _ => false

def Kind.isInlineContent : Kind → Bool
  | text _ | interpolatedCode .. => true
  | _ => false

def Kind.spacesText : Kind → Bool
  | className _ | endAttributes => true
  | _ => false

def Kind.gluesCode : Kind → Bool
  | call .. | interpolation _ | andAttributes _ => true
  | _ => false

theorem attribute?_of_endsHead {t : Token} (h : t.kind.endsHead = true) : t.attribute? = none := by
  unfold Token.attribute?
  cases hk : t.kind with
  | attr a => rw [hk] at h; cases h
  | _ => rfl

theorem spacesText_of_endsHead {k : Kind} (h : k.endsHead = true) :
    k.spacesText = !k.spaceBeforeText := by
  cases k with
  | tag | className | idName | endAttributes | call | interpolation | andAttributes => rfl
  | _ => cases h

theorem flow_behindHead (style : Style) (done rest : List Token) {head : Token}
    (hh : head.kind.endsHead = true) (hb : inBlock done = false) :
    (outlineAfter style (done ++ [head]) rest).flow = .markup := by
  have hkeep : head.kind.inBlock false = false := by
    cases hk : head.kind with
    | startPipeless => rw [hk] at hh; cases hh
    | _ => rfl
  have hr := reading_outlineAfter style (done ++ [head]) rest
  rw [inBlock_snoc, hb, hkeep] at hr
  simpa [Outline.reading] using hr

theorem tokenEdits_head (style : Style) (b : Option Token) {head t : Token} (rest : List Token)
    (o : Outline) (hh : head.kind.endsHead = true) (ht : t.kind.isInlineContent = true) :
    tokenEdits style ⟨b, head, t :: rest⟩ o =
      ((tokenEdits style ⟨b, head, []⟩ o).1 ++
          (if head.kind.spacesText && t.kind.isText then [.say " "] else []),
        (tokenEdits style ⟨b, head, []⟩ o).2) := by
  have hnext : Site.next? ⟨b, head, t :: rest⟩ = some t.kind := rfl
  have hcontinues : headContinues ⟨b, head, t :: rest⟩ = headContinues ⟨b, head, []⟩ := by
    unfold headContinues
    rw [hnext]
    cases hk : t.kind with
    | className | idName | startAttributes => rw [hk] at ht; cases ht
    | _ => rfl
  have himplies : impliesDiv style.classes ⟨b, head, t :: rest⟩ =
      impliesDiv style.classes ⟨b, head, []⟩ := by
    unfold impliesDiv
    rw [hnext]
    cases hk : t.kind with
    | className | idName | startAttributes => rw [hk] at ht; cases ht
    | _ => rfl
  unfold tokenEdits
  cases hk : head.kind with
  | tag name =>
    simp only [tagEdits, himplies, Kind.spacesText, Bool.false_and, Bool.false_eq_true, if_false,
      List.append_nil]
    rfl
  | className name =>
    simp [classEdits, flushAtHeadEnd, hcontinues, Kind.spacesText, Site.next?]
    rfl
  | idName name =>
    simp only [idEdits, flushAtHeadEnd, hcontinues, Kind.spacesText, Bool.false_and,
      Bool.false_eq_true, if_false, List.append_nil]
    rfl
  | endAttributes =>
    simp only [closeList, hnext]
    cases hkt : t.kind with
    | text val => simp [Site.next?, Kind.spacesText, Kind.isText]
    | interpolatedCode code mustEscape buffer => simp [Site.next?, Kind.spacesText, Kind.isText]
    | _ => rw [hkt] at ht; cases ht
  | call | interpolation =>
    simp only [Kind.spacesText, Bool.false_and, Bool.false_eq_true, if_false, List.append_nil]
    rfl
  | andAttributes => simp [Kind.spacesText]
  | _ => rw [hk] at hh; cases hh

theorem edit_write_nil {ε : Type} (s : Sheet ε) : s.edit (·.write []) = s :=
  congrArg (Sheet.mk · s.broken s.session) (write_nil s.draft)

theorem applyAll_space {ε : Type} (page : Page) (f : Formatter ε) (p : Prop) [Decidable p]
    (sh : Sheet ε) :
    Sheet.applyAll page f (if p then [.say " "] else []) sh =
      sh.edit (·.write (if p then [' '] else [])) := by
  split
  · simp
  · exact (edit_write_nil sh).symm

theorem sheetAfter_head {ε : Type} (style : Style) (page : Page) (f : Formatter ε)
    (done rest : List Token) {head t : Token} (hh : head.kind.endsHead = true)
    (ht : t.kind.isInlineContent = true) :
    sheetAfter style page f (done ++ [head]) (t :: rest) =
      (sheetAfter style page f (done ++ [head]) []).edit
        (·.write (if head.kind.spacesText && t.kind.isText then [' '] else [])) := by
  have hx := attribute?_of_endsHead hh
  have hrun : attributeRun (t :: rest) = attributeRun [] := by
    obtain ⟨kind, span⟩ := t
    cases kind with
    | attr => cases ht
    | _ => rfl
  rw [sheetAfter_snoc, sheetAfter_snoc, sheetAfter_lookahead style hx hrun,
    outlineAfter_lookahead style hx hrun, tokenEdits_head style _ rest _ hh ht,
    Sheet.applyAll_append, applyAll_space]

/-! ## The content -/

def spaceAfterText (val : Text) (rest : List Token) : Text :=
  if val.getLast? = some ' ' ∧ (rest.head?.map (·.kind)).any Kind.isInlineCode = true then [' '] else []

theorem prefix_trim (t : Text) : trim t <+: trimStart t :=
  List.rdropWhile_prefix isBlank (trimStart t)

theorem head?_trim (t : Text) : ∀ c ∈ (trim t).head?, isBlank c = false := by
  intro c hc
  obtain ⟨s, hs⟩ := prefix_trim t
  have hstart : (t.dropWhile isBlank).head? = some c := by
    rw [← trimStart, ← hs, List.head?_append_of_ne_nil _ (by rintro h; rw [h] at hc; cases hc)]
    exact hc
  have h := List.head?_dropWhile_not isBlank t
  rw [hstart] at h
  simpa using h

theorem head?_mustacheContent {ε : Type} (q : Quotes) (f : Formatter ε) (c : Session ε) (t : Text) :
    ((mustacheContent q t).resolve f c).1.head? = t.head? := by
  unfold mustacheContent pieces
  rw [cut.eq_def]
  split
  · rfl
  · contradiction
  · next r _ =>
    obtain ⟨p, ps, h, hp⟩ := exists_cut_eq_cons r true
    rw [h]
    cases p with
    | plain u => cases hp
    | code u => simp [Content.resolve]
    | unclosed u => simp [Content.resolve]
  · contradiction
  · next x r _ _ =>
    obtain ⟨p, ps, h, hp⟩ := exists_cut_eq_cons r false
    rw [h]
    cases p with
    | plain u => simp [Content.resolve, Piece.push]
    | code u => cases hp
    | unclosed u => cases hp

theorem head?_inert (t : Text) : ∀ c ∈ (inert t).head?, c = '\\' ∨ c ∈ t.head? := by
  cases t with
  | nil => exact fun c hc => .inr hc
  | cons d r =>
    intro c hc
    rw [inert] at hc
    split at hc
    · exact .inl (Option.some.inj hc).symm
    · exact .inr hc

section
variable {ε : Type} (style : Style) (page : Page) (f : Formatter ε) {s : Site} {o : Outline}
  {head : Kind} (hs : s.prev? = some head) (hh : head.endsHead = true)
include hs hh

theorem text_headText {val : String} (hk : s.token.kind = .text val) (ho : o.flow = .markup)
    (sh : Sheet ε) :
    (Sheet.applyAll page f (tokenEdits style s o).1 sh).draft.text =
      sh.draft.text ++ (if head.spaceBeforeText then [' '] else []) ++
        (inert (markupText style f sh.session val.toList) ++ spaceAfterText val.toList s.rest) := by
  have hlead : textLead s o val.toList = if head.spaceBeforeText then [.say " "] else [] := by
    unfold textLead
    rw [hs]
    cases head with
    | newline | indent | outdent | interpolatedCode | endInline => cases hh
    | _ => rfl
  unfold tokenEdits
  simp only [hk, textEdits, ho, markupTextEdits, hlead, Sheet.applyAll_append, Sheet.applyAll_cons,
    applyAll_space]
  simp [Sheet.edit, Sheet.apply, markupText, spaceAfterText, Site.next?]
  rfl

theorem text_headCode {code : String} {mustEscape buffer : Bool}
    (hk : s.token.kind = .interpolatedCode code mustEscape buffer) (sh : Sheet ε) :
    (Sheet.applyAll page f (tokenEdits style s o).1 sh).draft.text =
      sh.draft.text ++ (if head.gluesCode then [] else [' ']) ++ inlineCode code.toList mustEscape := by
  have hlead : inlineCodeLead s o = if head.gluesCode = false then [.say " "] else [] := by
    unfold inlineCodeLead
    rw [hs]
    cases head with
    | tag | className | idName | endAttributes | call | interpolation | andAttributes => rfl
    | _ => cases hh
  unfold tokenEdits
  simp only [hk, hlead, Sheet.applyAll_append, applyAll_space]
  cases head.gluesCode <;> simp [Sheet.edit]

end

/-- **The space in front of inline content.** What the head writes is what it would write at the end
of the stream. -/
theorem text_inlineContent {ε : Type} (style : Style) (page : Page) (f : Formatter ε)
    (done rest : List Token) (head t : Token) (hh : head.kind.endsHead = true)
    (hb : inBlock done = false) :
    let front := sheetAfter style page f (done ++ [head]) []
    let after := sheetAfter style page f (done ++ [head] ++ [t]) rest
    (∀ val, t.kind = .text val →
      let w := markupText style f front.session val.toList
      (∀ c ∈ (inert w).head?, isBlank c = false) ∧
        after.draft.text =
          front.draft.text ++ ' ' :: (inert w ++ spaceAfterText val.toList rest)) ∧
    ∀ code mustEscape buffer, t.kind = .interpolatedCode code mustEscape buffer →
      after.draft.text = front.draft.text ++ (if head.kind.gluesCode then [] else [' ']) ++
        inlineCode code.toList mustEscape := by
  intro front after
  have hlast : Site.prev? ⟨(done ++ [head]).getLast?, t, rest⟩ = some head.kind := by
    simp [Site.prev?]
  have hafter : after = _ := sheetAfter_snoc style page f (done ++ [head]) rest t
  refine ⟨fun val hk => ?_, fun code mustEscape buffer hk => ?_⟩
  · intro w
    refine ⟨fun c hc => ?_, ?_⟩
    · rcases head?_inert _ c hc with rfl | hc
      · decide
      · simp only [w, markupText, head?_mustacheContent] at hc
        exact head?_trim _ c hc
    · have htext : t.kind.isText = true := by rw [hk]; rfl
      have hflow := flow_behindHead style done (t :: rest) hh hb
      rw [hafter, text_headText style page f hlast hh hk hflow,
        sheetAfter_head style page f done rest hh (by rw [hk]; rfl), htext,
        spacesText_of_endsHead hh]
      cases head.kind.spaceBeforeText <;> simp [Sheet.edit, front, w]
  · have htext : t.kind.isText = false := by rw [hk]; rfl
    rw [hafter, text_headCode style page f hlast hh hk,
      sheetAfter_head style page f done rest hh (by rw [hk]; rfl), htext]
    simp [Sheet.edit, front]

theorem text_inlineContent_samples :
    let page : Page := ⟨' ', 2, 2, 80, -1, fun _ => false⟩
    let f : Formatter Empty := fun _ r => .ok r.code
    let text := fun ts => (sheetAfter {} page f ts []).draft.text
    let p : List Token := [⟨.tag "p", {}⟩, ⟨.className "a", {}⟩]
    let call : List Token := [⟨.call "foo" none, {}⟩]
    let code : Token := ⟨.interpolatedCode "x" true true, {}⟩
    text (p ++ [⟨.text " hi ", {}⟩]) = text p ++ " hi".toList ∧
      text (p ++ [code]) = text p ++ " #\x7bx\x7d".toList ∧
      text (call ++ [code]) = text call ++ "#\x7bx\x7d".toList := by
  intro page f text p call code
  obtain ⟨htext, -⟩ := text_inlineContent {} page f [⟨.tag "p", {}⟩] [] ⟨.className "a", {}⟩
    ⟨.text " hi ", {}⟩ rfl rfl
  obtain ⟨-, hcode⟩ := text_inlineContent {} page f [⟨.tag "p", {}⟩] [] ⟨.className "a", {}⟩ code
    rfl rfl
  obtain ⟨-, hcall⟩ := text_inlineContent {} page f [] [] ⟨.call "foo" none, {}⟩ code rfl rfl
  exact ⟨(htext " hi " rfl).2.trans (by decide), (hcode "x" true true rfl).trans (by decide),
    (hcall "x" true true rfl).trans (by decide)⟩

def gluedCode : List Token :=
  [⟨.call "foo" none, {}⟩, ⟨.interpolatedCode "x" true true, {}⟩, ⟨.eos, {}⟩]

theorem format_gluedCode : WellFormed gluedCode ∧
    (format wordReader {} (fun _ r => .ok r.code : Formatter Empty) gluedCode).result =
      .ok "+foo#\x7bx\x7d\n" :=
  ⟨by decide, rfl⟩

end PugPretty
