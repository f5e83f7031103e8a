import PugPretty.Proofs.ElementHead

/-!
# Waiting classes

Where classes move to a `class` attribute, a class writes nothing where it stands. `Outline.Due` says
what it waits for: that the head of its element goes on, or an attribute of the list at hand that
takes it in. So nothing waits behind any other token (`pending_outlineAfter_of_last`), and a run of
shorthand writes its classes as a list of their own unless an attribute list follows
(`reads_waitingRun`).
-/

namespace PugPretty

open Text

/-! ## What a class waits for -/

def Kind.joinsHead : Kind → Bool
  | className _ | idName _ | startAttributes => true
  | _ => false

def goesOn (rest : List Token) : Bool := rest.head?.any fun t => t.kind.joinsHead

structure Outline.Due (o : Outline) (rest : List Token) : Prop where
  awaited : o.pending ≠ [] →
    goesOn rest = true ∨ (attributeRun rest).any Attribute.takesClasses = true

theorem Outline.due_of_nil {o : Outline} (h : o.pending = []) (rest : List Token) : o.Due rest :=
  ⟨fun hp => absurd h hp⟩

theorem Outline.Due.pending_eq_nil {o : Outline} {t : Token} {rest : List Token}
    (h : o.Due (t :: rest)) (ht : t.kind.holdsClasses = false) : o.pending = [] := by
  by_contra hp
  obtain ⟨kind, span⟩ := t
  cases kind with
  | className | idName | startAttributes | attr => cases ht
  | _ => rcases h.awaited hp with hg | hr <;> contradiction

theorem headContinues_eq (s : Site) : headContinues s = goesOn s.rest := by
  unfold headContinues goesOn Site.next?
  cases s.rest.head? with
  | none => rfl
  | some t => cases ht : t.kind <;> simp [ht, Kind.joinsHead]

section
variable (style : Style) {s : Site} {o : Outline}

theorem flushAtHeadEnd_outline (s : Site) (o : Outline) :
    (flushAtHeadEnd style s o).2 =
      { o with pending := if goesOn s.rest then o.pending else [] } := by
  unfold flushAtHeadEnd
  rw [headContinues_eq]
  split
  · rfl
  · exact flushPending_eq style o

theorem due_flushAtHeadEnd (s : Site) (o : Outline) : (flushAtHeadEnd style s o).2.Due s.rest := by
  rw [flushAtHeadEnd_outline]
  split
  · next h => exact ⟨fun _ => .inl h⟩
  · exact Outline.due_of_nil rfl _

theorem due_openList (hc : style.classes = .inList) (rest : List Token) (o : Outline) :
    (openList style (attributeRun rest) o).2.Due rest := by
  unfold openList
  dsimp only
  split
  · exact Outline.due_of_nil (by rw [flushPending_eq]) _
  split
  · next h =>
    -- what is not put in the list here is taken in by one of its attributes
    refine ⟨fun hp => .inr ?_⟩
    by_contra ht
    rw [if_pos ⟨hc, hp, by simpa [Attribute.takesClasses] using ht⟩] at h
    cases h
  · exact Outline.due_of_nil rfl _

theorem Attribute.role_inList (hc : style.classes = .inList) {a : Attribute} {body : Text}
    (hn : a.name = "class") (hb : a.value.body? = some body) :
    a.role style.classes = .merge (words body) := by
  rw [Attribute.role, hb]
  simp only [Role.of, hn, hc, if_true]

theorem pending_takesClasses (hc : style.classes = .inList) {a : Attribute}
    (ha : a.takesClasses = true) (o : Outline) : (writeAttribute style a o).2.pending = [] := by
  obtain ⟨hn, hb⟩ := Bool.and_eq_true_iff.1 ha
  obtain ⟨body, hb⟩ := Option.isSome_iff_exists.1 hb
  have hr := a.role_inList style hc (beq_iff_eq.1 hn) hb
  unfold writeAttribute
  simp only [hr]
  rfl

theorem due_token (hc : style.classes = .inList) (h : o.Due (s.token :: s.rest)) :
    (tokenEdits style s o).2.Due s.rest := by
  cases hk : s.token.kind with
  | className name =>
    have hd := due_flushAtHeadEnd style s { o with pending := o.pending ++ [name.toList] }
    unfold tokenEdits
    simpa only [hk, classEdits, if_pos hc] using hd
  | idName name =>
    have hd := due_flushAtHeadEnd style s o
    unfold tokenEdits
    simpa only [hk, idEdits] using hd
  | startAttributes =>
    rw [tokenEdits_start style hk]
    exact due_openList style hc s.rest o
  | attr a =>
    rw [tokenEdits_attr style hk]
    by_cases hp : o.pending = []
    · exact Outline.due_of_nil (pending_writeAttribute style a hp) _
    by_cases ha : a.takesClasses = true
    · exact Outline.due_of_nil (pending_takesClasses style hc ha o) _
    obtain ⟨before, ⟨kind, span⟩, rest⟩ := s
    obtain rfl : kind = .attr a := hk
    rcases h.awaited hp with hg | hr
    · cases hg
    · -- the attribute does not take the classes, so another one of the list does
      rw [attributeRun, List.any_cons, Bool.or_eq_true] at hr
      exact ⟨fun _ => .inr (hr.resolve_left ha)⟩
  | _ =>
    have hh : s.token.kind.holdsClasses = false := by rw [hk]; rfl
    refine Outline.due_of_nil ?_ _
    rw [pending_of_other style hh, h.pending_eq_nil hh]

theorem due_outlineAfter (hc : style.classes = .inList) (done rest : List Token) :
    (outlineAfter style done rest).Due rest := by
  have hs : ∀ (ts : List Token) (before : Option Token) (o : Outline), o.Due (ts ++ rest) →
      (siteEdits style (sitesUpTo before ts rest) o).2.Due rest := by
    intro ts
    induction ts with
    | nil => intro before o h; exact h
    | cons t ts ih =>
      intro before o h
      exact ih (some t) _ (due_token style (s := ⟨before, t, ts ++ rest⟩) hc h)
  exact hs done none {} (Outline.due_of_nil rfl _)

theorem pending_outlineAfter_of_last {done : List Token}
    (hd : (done.getLast?.map Token.kind).all (!·.holdsClasses) = true) (rest : List Token) :
    (outlineAfter style done rest).pending = [] := by
  by_cases hc : style.classes = .inList
  · rcases List.eq_nil_or_concat done with rfl | ⟨done, t, rfl⟩
    · rfl
    rw [List.concat_eq_append] at hd ⊢
    have ht : t.kind.holdsClasses = false := by simpa using hd
    rw [outlineAfter_snoc, pending_of_other style ht]
    exact (due_outlineAfter style hc done (t :: rest)).pending_eq_nil ht
  · exact pending_outlineAfter style hc done rest

end

/-! ## Runs of shorthand -/

section
variable {ε : Type} (style : Style) (page : Page) (f : Formatter ε) {s : Sheet ε} {x y z : Text}
  {b : Bool} {c : Session ε}

theorem reads_flushAtHeadEnd (h : s.Reads x y z b c) (site : Site) (o : Outline) :
    (Sheet.applyAll page f (flushAtHeadEnd style site o).1 s).Reads x y
      (z ++ (if goesOn site.rest then [] else waitingText style o.pending)) b c := by
  unfold flushAtHeadEnd
  rw [headContinues_eq]
  split
  · simpa using h
  · exact reads_flushPending style page f h o

/-- What a token of shorthand writes where classes wait, the beginning of a line aside. -/
def waitingEdits (site : Site) (o : Outline) : List Edit × Outline :=
  match site.token.kind with
  | .className name =>
    let (es, o) := flushAtHeadEnd style site { o with pending := o.pending ++ [name.toList] }
    (es ++ (if site.next?.any Kind.isText then [.say " "] else []), o)
  | .idName name =>
    let (es, o) := flushAtHeadEnd style site o
    (.addId name.toList :: es, o)
  | _ => ([], o)

theorem reads_waitingEdits (h : s.Reads x y z b c) (before : Option Token) {t : Token}
    (hk : t.kind.isShorthand = true) (rest : List Token) (o : Outline) :
    let es := waitingEdits style ⟨before, t, rest⟩ o
    let ps := o.pending ++ t.classNames style
    (Sheet.applyAll page f es.1 s).Reads (x ++ idText (t.ids style)) y
        (z ++ (if goesOn rest then [] else waitingText style ps) ++ spaceText t rest) b c ∧
      es.2 = { o with pending := if goesOn rest then ps else [] } := by
  unfold waitingEdits Token.ids Token.classNames spaceText Site.next?
  cases hkind : t.kind with
  | className name =>
    have h1 := reads_flushAtHeadEnd style page f h ⟨before, t, rest⟩
      { o with pending := o.pending ++ [name.toList] }
    have h2 := h1.put page f [' ']
    simp only [idText, List.flatMap_nil, List.append_nil, flushAtHeadEnd_outline, and_true]
    cases rest.head?.map Token.kind with
    | none => simpa using h1
    | some k =>
      cases k with
      | text val => rw [Sheet.applyAll_append]; exact h2
      | _ => simpa [Kind.isText] using h1
  | idName name =>
    have h1 := reads_flushAtHeadEnd style page f (h.addId page f name.toList) ⟨before, t, rest⟩ o
    simp only [idText, List.flatMap_singleton, List.append_nil, flushAtHeadEnd_outline, and_true]
    exact h1
  | _ => rw [hkind] at hk; cases hk

/-- What shorthand writes in front of itself if it begins a line. -/
def beginning (site : Site) (depth : Nat) : List Edit :=
  let name : List Edit := match site.token.kind with
    | .className _ => if style.classes = .inList then [.say "div"] else []
    | _ => []
  site.indentation depth ++ name ++ [.mark]

theorem tokenEdits_waiting (hc : style.classes = .inList) {site : Site}
    (hk : site.token.kind.isShorthand = true) (o : Outline) :
    tokenEdits style site o =
      ((if site.opensLine then beginning style site o.depth else []) ++ (waitingEdits style site o).1,
        (waitingEdits style site o).2) := by
  unfold tokenEdits waitingEdits beginning
  cases h : site.token.kind with
  | className name => simp [classEdits, hc]
  | idName name => simp [idEdits]
  | _ => rw [h] at hk; cases hk

theorem opensLine_of_shorthand {t : Token} (ht : t.kind.isShorthand = true) (u : Token)
    (rest : List Token) : Site.opensLine ⟨some t, u, rest⟩ = false := by
  show t.kind.endsLine = false
  cases hk : t.kind with
  | className name | idName name => rfl
  | _ => rw [hk] at ht; cases ht

theorem goesOn_of_shorthand {u : Token} (hu : u.kind.isShorthand = true) (rest : List Token) :
    goesOn (u :: rest) = true := by
  show u.kind.joinsHead = true
  cases hk : u.kind with
  | className name | idName name => rfl
  | _ => rw [hk] at hu; cases hu

/-- The last token of the run writes what waits, unless an attribute list comes next. -/
theorem reads_waitingRun (hc : style.classes = .inList) (rest : List Token) :
    ∀ (ts : List Token) (t : Token) (before : Option Token) (o : Outline) {s : Sheet ε}
      {x y z : Text}, t.kind.isShorthand = true → (∀ u ∈ ts, u.kind.isShorthand = true) →
      s.Reads x y z b c →
      let first := waitingEdits style ⟨before, t, ts ++ rest⟩ o
      let more := siteEdits style (sitesUpTo (some t) ts rest) first.2
      let ps := o.pending ++ (t :: ts).flatMap (Token.classNames style)
      (Sheet.applyAll page f (first.1 ++ more.1) s).Reads
          (x ++ idText ((t :: ts).flatMap (Token.ids style))) y
          (z ++ (if goesOn rest then [] else waitingText style ps) ++ trailingSpace (t :: ts) rest) b
          c ∧
        more.2 = { o with pending := if goesOn rest then ps else [] }
  | [], t, before, o, s, x, y, z, ht, _, h => by
    obtain ⟨h1, ho⟩ := reads_waitingEdits style page f h before ht rest o
    intro first more ps
    simp only [first, more, ps, sitesUpTo, siteEdits, List.append_nil, List.nil_append,
      List.flatMap_singleton]
    exact ⟨h1, ho⟩
  | u :: ts, t, before, o, s, x, y, z, ht, hts, h => by
    obtain ⟨hu, hts⟩ := List.forall_mem_cons.1 hts
    obtain ⟨h1, ho⟩ := reads_waitingEdits style page f h before ht (u :: ts ++ rest) o
    rw [List.cons_append, goesOn_of_shorthand hu, if_pos rfl, spaceText_of_shorthand t hu,
      List.append_nil, List.append_nil] at h1
    rw [List.cons_append, goesOn_of_shorthand hu, if_pos rfl] at ho
    intro first more ps
    have hfirst : first.2 = { o with pending := o.pending ++ t.classNames style } := ho
    obtain ⟨h2, ho2⟩ := reads_waitingRun hc rest ts u (some t) first.2 hu hts h1
    have hu' : tokenEdits style ⟨some t, u, ts ++ rest⟩ first.2 = _ :=
      tokenEdits_waiting style hc hu first.2
    rw [opensLine_of_shorthand ht, if_neg Bool.false_ne_true, List.nil_append] at hu'
    have hps : first.2.pending ++ (u :: ts).flatMap (Token.classNames style) = ps := by
      simp [hfirst, ps]
    simp only [more, sitesUpTo, siteEdits, hu']
    rw [Sheet.applyAll_append, List.flatMap_cons, idText_append, ← List.append_assoc]
    rw [hps] at h2 ho2
    refine ⟨?_, ho2.trans (by rw [hfirst])⟩
    rwa [← trailingSpace_cons t (List.forall_mem_cons.2 ⟨hu, hts⟩) rest, List.cons_append,
      spaceText_of_shorthand t hu, List.nil_append]

end

end PugPretty
