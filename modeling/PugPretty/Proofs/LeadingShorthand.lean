import PugPretty.Proofs.WaitingClasses

/-!
# Leading shorthand

An element may begin with a class or an id. At the start of a line and behind a colon its shorthand
goes where it stands. An inline tag makes no mark, so shorthand that begins one joins the element
around it and changes the text in front of the bracket (`text_leadingShorthand`,
`format_inlineShorthand`).
-/

namespace PugPretty

open Text

/-- A class that moves to an attribute needs a name to begin a line with. -/
def impliedName (style : Style) (k : Kind) : Text :=
  match k with
  | .className _ => if style.classes = .inList then "div".toList else []
  | _ => []

def placedText (style : Style) (classes : List Text) : Text :=
  if style.classes = .inList then [] else classText classes

def listedText (style : Style) (classes : List Text) (rest : List Token) : Text :=
  if style.classes = .inList ∧ goesOn rest = false then waitingText style classes else []

section
variable {ε : Type} (style : Style) (page : Page) (f : Formatter ε)

/-- What shorthand writes, the beginning of a line aside. -/
def joinEdits (site : Site) (o : Outline) : List Edit × Outline :=
  if style.classes = .inList then waitingEdits style site o else (shorthandEdits site, o)

theorem tokenEdits_join {site : Site} (hk : site.token.kind.isShorthand = true) {o : Outline}
    (hp : o.pending = []) :
    tokenEdits style site o =
      ((if site.opensLine then beginning style site o.depth else []) ++ (joinEdits style site o).1,
        (joinEdits style site o).2) := by
  unfold joinEdits
  by_cases hc : style.classes = .inList
  · rw [if_pos hc]
    exact tokenEdits_waiting style hc hk o
  · have hb : beginning style site o.depth = site.indentation o.depth ++ [.mark] := by
      unfold beginning
      cases h : site.token.kind <;> simp [hc]
    rw [if_neg hc, hb]
    exact tokenEdits_shorthand style hc hk hp

theorem reads_beginning (site : Site) (depth : Nat) (s : Sheet ε) :
    (Sheet.applyAll page f (beginning style site depth) s).Reads
      (s.draft.text ++ leadText page site.prev? depth ++ impliedName style site.token.kind) [] []
      s.broken s.session := by
  have hmark := reads_mark page f site depth "div".toList s
  have hnil := reads_mark_nil page f site depth s
  unfold beginning impliedName
  cases h : site.token.kind with
  | className name =>
    by_cases hc : style.classes = .inList
    · simpa [hc, Edit.say] using hmark
    · simpa [hc] using hnil
  | _ => simpa using hnil

variable {s : Sheet ε} {x y z : Text} {b : Bool} {c : Session ε}

theorem reads_joinRun {head : Token} {more : List Token} (hk : head.kind.isShorthand = true)
    (hm : ∀ t ∈ more, t.kind.isShorthand = true) (before : Option Token) (rest : List Token)
    {o : Outline} (hp : o.pending = []) (h : s.Reads x y z b c) :
    let run := head :: more
    let first := joinEdits style ⟨before, head, more ++ rest⟩ o
    let others := siteEdits style (sitesUpTo (some head) more rest) first.2
    let classes := run.flatMap (Token.classNames style)
    (Sheet.applyAll page f (first.1 ++ others.1) s).Reads
        (x ++ idText (run.flatMap (Token.ids style))) (y ++ placedText style classes)
        (z ++ listedText style classes rest ++ trailingSpace run rest) b c ∧
      others.2.pending = if style.classes = .inList ∧ goesOn rest = true then classes else [] := by
  intro run first others classes
  by_cases hc : style.classes = .inList
  · obtain ⟨h1, ho⟩ := reads_waitingRun style page f hc rest more head before o hk hm h
    have hl : listedText style classes rest =
        if goesOn rest then [] else waitingText style classes := by
      unfold listedText; cases goesOn rest <;> simp [hc]
    rw [hp, List.nil_append] at h1 ho
    simp only [first, others, joinEdits, if_pos hc, placedText, hl, List.append_nil]
    exact ⟨h1, by rw [ho]; simp [hc, classes, run]⟩
  · have h1 := reads_shorthandEdits style page f h before hk (more ++ rest)
    obtain ⟨h2, ho⟩ := reads_shorthands style page f hc rest hp more (some head) hm
      (opensLine_of_shorthand hk head []) h1
    simp only [first, others, classes, joinEdits, placedText, listedText, hc,
      false_and, if_false, List.append_nil, Sheet.applyAll_append]
    rw [List.append_assoc _ (spaceText head _), trailingSpace_cons head hm] at h2
    refine ⟨?_, by rw [ho, hp]⟩
    simpa only [run, List.flatMap_cons, idText_append, classText_append, List.append_assoc] using h2

/-- The parts that a run of shorthand joins. At the start of a line it makes them itself. -/
def InFront (s : Sheet ε) (prev : Option Kind) (depth : Nat) (head : Kind) (x y z : Text) : Prop :=
  if prev.all Kind.endsLine = true then
    x = s.draft.text ++ leadText page prev depth ++ impliedName style head ∧ y = [] ∧ z = []
  else s.draft.Parts x y z

theorem inFront_of_endsLine {prev : Option Kind} (h : prev.all Kind.endsLine = true) (depth : Nat)
    (head : Kind) (s : Sheet ε) :
    InFront style page s prev depth head
      (s.draft.text ++ leadText page prev depth ++ impliedName style head) [] [] := by
  unfold InFront
  rw [if_pos h]
  exact ⟨rfl, rfl, rfl⟩

theorem inFront_of_parts {prev : Option Kind} (h : prev.all Kind.endsLine = false) (depth : Nat)
    (head : Kind) (hp : s.draft.Parts x y z) : InFront style page s prev depth head x y z := by
  unfold InFront
  rw [if_neg (Bool.eq_false_iff.1 h)]
  exact hp

theorem reads_inFront {site : Site} {depth : Nat}
    (h : InFront style page s site.prev? depth site.token.kind x y z) :
    (Sheet.applyAll page f (if site.opensLine then beginning style site depth else []) s).Reads x y z
      s.broken s.session := by
  have hprev : site.opensLine = site.prev?.all Kind.endsLine := rfl
  unfold InFront at h
  by_cases ho : site.prev?.all Kind.endsLine = true
  · rw [if_pos ho] at h
    obtain ⟨rfl, rfl, rfl⟩ := h
    rw [hprev, ho, if_pos rfl]
    exact reads_beginning style page f site depth s
  · rw [if_neg ho] at h
    rw [hprev, Bool.eq_false_iff.2 ho, if_neg Bool.false_ne_true]
    exact ⟨h, rfl, rfl⟩

theorem reads_run {head : Token} {more : List Token} (hk : head.kind.isShorthand = true)
    (hm : ∀ t ∈ more, t.kind.isShorthand = true) (done rest : List Token)
    (hd : (done.getLast?.map Token.kind).all (!·.holdsClasses) = true)
    (h : InFront style page (sheetAfter style page f done (head :: more ++ rest))
      (done.getLast?.map Token.kind) (nesting done) head.kind x y z) :
    let run := head :: more
    let before := sheetAfter style page f done (run ++ rest)
    let classes := run.flatMap (Token.classNames style)
    (sheetAfter style page f (done ++ run) rest).Reads
        (x ++ idText (run.flatMap (Token.ids style))) (y ++ placedText style classes)
        (z ++ listedText style classes rest ++ trailingSpace run rest) before.broken before.session ∧
      (outlineAfter style (done ++ run) rest).pending =
        if style.classes = .inList ∧ goesOn rest = true then classes else [] := by
  intro run before classes
  let site : Site := ⟨done.getLast?, head, more ++ rest⟩
  let o := outlineAfter style done (run ++ rest)
  have hp : o.pending = [] := pending_outlineAfter_of_last style hd (run ++ rest)
  have hj : tokenEdits style site o = _ := tokenEdits_join style hk hp
  have hdepth : o.depth = nesting done := depth_outlineAfter style done (run ++ rest)
  have hfront : (Sheet.applyAll page f (if site.opensLine then beginning style site (nesting done)
      else []) before).Reads x y z before.broken before.session := reads_inFront style page f h
  obtain ⟨h1, ho⟩ := reads_joinRun style page f hk hm done.getLast? rest hp hfront
  rw [hdepth] at hj
  rw [sheetAfter_append, outlineAfter_append]
  simp only [run, sitesUpTo, siteEdits]
  rw [hj, List.append_assoc, Sheet.applyAll_append]
  exact ⟨h1, ho⟩

theorem holdsClasses_of_endsLine {prev : Option Kind} (h : prev.all Kind.endsLine = true) :
    prev.all (!·.holdsClasses) = true := by
  cases prev with
  | none => rfl
  | some k => cases k <;> first | rfl | cases h

theorem text_lineRun {head : Token} {more : List Token} (hk : head.kind.isShorthand = true)
    (hm : ∀ t ∈ more, t.kind.isShorthand = true) (done rest : List Token)
    (h : (done.getLast?.map Token.kind).all Kind.endsLine = true) :
    let run := head :: more
    let classes := run.flatMap (Token.classNames style)
    (sheetAfter style page f (done ++ run) rest).draft.text =
      (sheetAfter style page f done (run ++ rest)).draft.text ++
          leadText page (done.getLast?.map Token.kind) (nesting done) ++
        (impliedName style head.kind ++ idText (run.flatMap (Token.ids style)) ++
          placedText style classes ++ (listedText style classes rest ++ trailingSpace run rest)) := by
  intro run classes
  obtain ⟨h1, -⟩ := reads_run style page f hk hm done rest (holdsClasses_of_endsLine h)
    (inFront_of_endsLine style page h (nesting done) head.kind _)
  rw [h1.text]
  simp only [List.nil_append, List.append_assoc]
  rfl

theorem text_joinRun {head : Token} {more : List Token} (hk : head.kind.isShorthand = true)
    (hm : ∀ t ∈ more, t.kind.isShorthand = true) (done rest : List Token) {t : Token}
    (ht : t.kind.holdsClasses = false) (he : t.kind.endsLine = false)
    (h : (sheetAfter style page f (done ++ [t]) (head :: more ++ rest)).draft.Parts x y z) :
    let run := head :: more
    let classes := run.flatMap (Token.classNames style)
    (sheetAfter style page f (done ++ [t] ++ run) rest).draft.text =
      x ++ idText (run.flatMap (Token.ids style)) ++ (y ++ placedText style classes) ++
        (z ++ listedText style classes rest ++ trailingSpace run rest) := by
  intro run classes
  have hlast : (done ++ [t]).getLast?.map Token.kind = some t.kind := by simp
  have hd : ((done ++ [t]).getLast?.map Token.kind).all (!·.holdsClasses) = true := by
    rw [hlast]; simp [ht]
  have hend : ((done ++ [t]).getLast?.map Token.kind).all Kind.endsLine = false := by
    rw [hlast]; exact he
  exact (reads_run style page f hk hm (done ++ [t]) rest hd
    (inFront_of_parts style page hend (nesting (done ++ [t])) head.kind h)).1.text

/-- **Where leading shorthand goes.** -/
theorem text_leadingShorthand {head : Token} {more : List Token}
    (hk : head.kind.isShorthand = true) (hm : ∀ t ∈ more, t.kind.isShorthand = true)
    (done rest : List Token) :
    let run := head :: more
    let s := fun before after => sheetAfter style page f before after
    let ids := idText (run.flatMap (Token.ids style))
    let classes := run.flatMap (Token.classNames style)
    let placed := placedText style classes
    let tail := listedText style classes rest ++ trailingSpace run rest
    let prev := done.getLast?.map Token.kind
    (prev.all Kind.endsLine = true →
      (s (done ++ run) rest).draft.text =
        (s done (run ++ rest)).draft.text ++ leadText page prev (nesting done) ++
          impliedName style head.kind ++ ids ++ placed ++ tail) ∧
    (∀ t : Token, t.kind = .colon →
      (s (done ++ [t] ++ run) rest).draft.text =
        (s (done ++ [t]) (run ++ rest)).draft.text ++ ids ++ placed ++ tail) ∧
    (∀ t : Token, t.kind = .startInline →
      ∀ x y z, (s done (t :: run ++ rest)).draft.Parts x y z →
        (s (done ++ [t] ++ run) rest).draft.text =
          x ++ ids ++ (y ++ placed) ++ (z ++ "#[".toList ++ tail)) := by
  intro run s ids classes placed tail prev
  refine ⟨fun h => ?_, fun t ht => ?_, fun t ht x y z h => ?_⟩
  · rw [text_lineRun style page f hk hm done rest h]
    simp only [List.append_assoc]
    rfl
  · -- the colon marks the place behind it
    have hmark : (s (done ++ [t]) (run ++ rest)).draft.Parts
        (s (done ++ [t]) (run ++ rest)).draft.text [] [] := by
      simp only [s]
      rw [sheetAfter_snoc]
      unfold tokenEdits
      rw [ht]
      exact Draft.Parts.mark _
    have h1 := text_joinRun style page f hk hm done rest (t := t) (by rw [ht]; rfl) (by rw [ht]; rfl)
      hmark
    refine h1.trans ?_
    simp only [List.nil_append, List.append_assoc]
    rfl
  · -- the bracket is written behind the places and leaves them where they are
    have hopen : (s (done ++ [t]) (run ++ rest)).draft.Parts x y (z ++ "#[".toList) := by
      simp only [s]
      rw [sheetAfter_snoc]
      unfold tokenEdits
      rw [ht]
      exact h.write _
    have h1 := text_joinRun style page f hk hm done rest (t := t) (by rw [ht]; rfl) (by rw [ht]; rfl)
      hopen
    refine h1.trans ?_
    simp only [List.append_assoc]
    rfl

end

theorem text_leadingShorthand_samples :
    let page : Page := ⟨' ', 2, 2, 80, -1, fun _ => false⟩
    let f : Formatter Empty := fun _ r => .ok r.code
    let run : List Token := [⟨.className "a", {}⟩, ⟨.idName "i", {}⟩, ⟨.className "b", {}⟩]
    let item : List Token := [⟨.tag "ul", {}⟩, ⟨.indent, {}⟩]
    let tag : List Token := [⟨.tag "li", {}⟩]
    let line : List Token := [⟨.tag "p", {}⟩, ⟨.text "Hi ", {}⟩]
    (sheetAfter { classes := .inList } page f (item ++ run) [⟨.outdent, {}⟩]).draft.text =
        "ul\n  div#i(class=\"a b\")".toList ∧
      (sheetAfter {} page f (tag ++ [⟨.colon, {}⟩] ++ run) [⟨.text "x", {}⟩]).draft.text =
        "li: #i.a.b ".toList ∧
      (sheetAfter {} page f (line ++ [⟨.startInline, {}⟩] ++ run) [⟨.endInline, {}⟩]).draft.text =
        "p#i.a.b Hi #[".toList := by
  intro page f run item tag line
  have hm : ∀ t ∈ [(⟨.idName "i", {}⟩ : Token), ⟨.className "b", {}⟩], t.kind.isShorthand = true := by
    decide
  have hk : (⟨.className "a", {}⟩ : Token).kind.isShorthand = true := rfl
  obtain ⟨hline, -, -⟩ := text_leadingShorthand { classes := .inList } page f hk hm item
    [⟨.outdent, {}⟩]
  obtain ⟨-, hcolon, -⟩ := text_leadingShorthand {} page f hk hm tag [⟨.text "x", {}⟩]
  obtain ⟨-, -, hinline⟩ := text_leadingShorthand {} page f hk hm line [⟨.endInline, {}⟩]
  refine ⟨(hline rfl).trans (by decide), (hcolon ⟨.colon, {}⟩ rfl).trans (by decide), ?_⟩
  exact (hinline ⟨.startInline, {}⟩ rfl ['p'] [] " Hi ".toList ⟨by decide, by decide, by decide⟩).trans
    (by decide)

def inlineShorthand : List Token :=
  [⟨.tag "p", {}⟩, ⟨.text "Hello ", {}⟩, ⟨.startInline, {}⟩, ⟨.className "foo", {}⟩,
    ⟨.text "world", {}⟩, ⟨.endInline, {}⟩, ⟨.eos, {}⟩]

/-- The class of the inline tag ends up on the paragraph. -/
theorem format_inlineShorthand :
    WellFormed inlineShorthand ∧
      (format wordReader {} (fun _ r => .ok r.code : Formatter Empty) inlineShorthand).result =
        .ok "p.foo Hello #[ world]\n" :=
  ⟨by decide, rfl⟩

end PugPretty
