import PugPretty.Proofs.Growth
import PugPretty.Proofs.LastingFacts
import PugPretty.Proofs.Outcome
import PugPretty.Proofs.WaitingClasses

/-!
# Finished lines

Shorthand goes to the places a draft remembers, so it stays on the current line as long as the last
mark was made there. `anchored` reads off the tokens that every piece of shorthand and every list
finds such a mark. Then no line is edited once a line has begun behind it
(`prefix_sheetAfter_of_endsLine`): the finished text is sheltered by the part of the draft that only
ids are put behind.
-/

namespace PugPretty

open Text

/-! ## Marks -/

def Kind.marks (opensLine : Bool) : Kind → Bool
  | tag _ | call .. | interpolation _ | colon => true
  | className _ | idName _ => opensLine
  | _ => false

/-- Whether every class, id and attribute list finds a mark on its line. `marked` tells whether the
line has one before the tokens, and `opensLine` whether they begin a line. -/
def anchored : Bool → Bool → List Token → Bool
  | _, _, [] => true
  | marked, opensLine, t :: ts =>
    let marked := marked || t.kind.marks opensLine
    (marked || !t.kind.joinsHead) && anchored (marked && !t.kind.endsLine) t.kind.endsLine ts

theorem anchored_cons {marked opensLine : Bool} {t : Token} {ts : List Token} :
    anchored marked opensLine (t :: ts) = true ↔
      (t.kind.joinsHead = true → (marked || t.kind.marks opensLine) = true) ∧
        anchored ((marked || t.kind.marks opensLine) && !t.kind.endsLine) t.kind.endsLine ts = true := by
  simp only [anchored, Bool.and_eq_true, Bool.or_eq_true, Bool.not_eq_true']
  cases t.kind.joinsHead <;> simp

theorem Rearranged.anchored_eq {ts us : List Token} (h : Rearranged ts us) :
    ∀ marked opensLine, anchored marked opensLine ts = anchored marked opensLine us := by
  induction h with
  | nil => exact fun _ _ => rfl
  | same t _ ih => intro marked opensLine; simp only [anchored, ih]
  | attr ht hu _ ih =>
    intro marked opensLine
    simp only [anchored, ht, hu, Kind.marks, Kind.joinsHead, Kind.endsLine, ih]

theorem anchored_after {t : Token} (ht : t.kind.endsLine = true) (rest : List Token) :
    ∀ (marked opensLine : Bool) (done : List Token),
      anchored marked opensLine (done ++ t :: rest) = true → anchored false true rest = true
  | marked, opensLine, [], h => by
    obtain ⟨-, h⟩ := anchored_cons.1 h
    rwa [ht, Bool.not_true, Bool.and_false] at h
  | marked, opensLine, u :: done, h =>
    anchored_after ht rest _ _ done (anchored_cons.1 h).2

/-! ## Shelter -/

/-- The text stands in front of the place for ids. -/
def Draft.Shelters (d : Draft) (t : Text) : Prop := ∃ x y z, d.Parts x y z ∧ t <+: x

namespace Draft

variable {d : Draft} {t : Text}

theorem Shelters.prefix_text (h : d.Shelters t) : t <+: d.text := by
  obtain ⟨x, y, z, hp, ht⟩ := h
  rw [hp.text, List.append_assoc]
  exact ht.trans (List.prefix_append _ _)

theorem shelters_mark (h : t <+: d.text) : d.mark.Shelters t := ⟨_, _, _, Parts.mark d, h⟩

end Draft

theorem lasting_front (t : Text) : Lasting fun x _ => t <+: x where
  joinIds _ h := h.trans (List.prefix_append _ _)
  joinClasses _ h := h
  mark _ h := by
    rw [List.append_assoc]
    exact h.trans (List.prefix_append _ _)

/-! ## One token -/

section
variable (style : Style) {s : Site} {o : Outline}

theorem marks_tokenEdits (hm : s.token.kind.marks s.opensLine = true) :
    ∃ as bs, (tokenEdits style s o).1 = as ++ .mark :: bs ∧ as.all Edit.appends = true := by
  have h := appends_indentation s o.depth
  unfold tokenEdits
  cases hk : s.token.kind with
  | tag name =>
    refine ⟨_, [], rfl, ?_⟩
    rw [List.all_append, h, Bool.true_and]
    split <;> rfl
  | interpolation code =>
    exact ⟨s.indentation o.depth ++ [.put (inlineCode code.toList true)], [], by simp, by simp [h]⟩
  | call name args =>
    exact ⟨s.indentation o.depth ++ [.put ('+' :: name.toList ++ argumentList args)], [], by simp,
      by simp [h]⟩
  | colon => exact ⟨[.say ": "], [], rfl, rfl⟩
  | className name =>
    have ho : s.opensLine = true := by rw [hk] at hm; exact hm
    let as := s.indentation o.depth ++ if style.classes = .inList then [.say "div"] else []
    have he : ∃ bs, (classEdits style s o name.toList).1 = as ++ .mark :: bs := by
      simp only [classEdits, if_pos ho, as, List.append_assoc, List.cons_append, List.nil_append]
      exact ⟨_, rfl⟩
    obtain ⟨bs, hb⟩ := he
    refine ⟨as, bs, hb, ?_⟩
    rw [List.all_append, h, Bool.true_and]
    split <;> rfl
  | idName name =>
    have ho : s.opensLine = true := by rw [hk] at hm; exact hm
    refine ⟨s.indentation o.depth, .addId name.toList :: (flushAtHeadEnd style s o).1, ?_, h⟩
    simp only [idEdits, if_pos ho, List.append_assoc, List.cons_append, List.nil_append]
  | _ => rw [hk] at hm; cases hm

variable {ε : Type} (page : Page) (f : Formatter ε) {k : Sketch ε} {sh : Sheet ε} {t : Text}

theorem shelters_of_marks (hm : s.token.kind.marks s.opensLine = true) (h : t <+: sh.draft.text) :
    (Sheet.applyAll page f (tokenEdits style s o).1 sh).draft.Shelters t := by
  have hl : s.token.kind.listPart = false ∧ s.token.kind ≠ .eos := by
    cases hk : s.token.kind <;> simp_all [Kind.marks, Kind.listPart]
  have hf := fits_tokenEdits style s o hl.1 hl.2
  obtain ⟨as, bs, he, ha⟩ := marks_tokenEdits style (o := o) hm
  rw [he, allFit_append, allFit_cons] at hf
  rw [he, Sheet.applyAll_append, Sheet.applyAll_cons]
  exact has_applyAll (lasting_front t) page f hf.2.2
    (Draft.shelters_mark (h.trans (prefix_applyAll page f ha sh)))

/-- What is sheltered stays so, since nothing is put in front of the place for ids. -/
theorem shelters_token (h : Tidy s.token.kind.insideList s.prev? (s.token :: s.rest) o k)
    (hd : sh.Draws k) (he : s.token.kind ≠ .eos) (hs : sh.draft.Shelters t) :
    (Sheet.applyAll page f (tokenEdits style s o).1 sh).draft.Shelters t :=
  has_token (lasting_front t) page f style h hd he hs

/-! ## The run -/

/-- The text is still there. If the current line has a mark, no shorthand can get into the text. -/
structure Sheet.Holds (sh : Sheet ε) (t : Text) (marked : Bool) : Prop where
  kept : t <+: sh.draft.text
  sheltered : marked = true → sh.draft.Shelters t

theorem holds_token {marked : Bool}
    (h : Tidy s.token.kind.insideList s.prev? (s.token :: s.rest) o k) (hd : sh.Draws k)
    (he : s.token.kind ≠ .eos)
    (hj : s.token.kind.joinsHead = true → (marked || s.token.kind.marks s.opensLine) = true)
    (hi : s.token.kind.insideList = true → marked = true) (hh : sh.Holds t marked) :
    (Sheet.applyAll page f (tokenEdits style s o).1 sh).Holds t
      (marked || s.token.kind.marks s.opensLine) := by
  by_cases hm : s.token.kind.marks s.opensLine = true
  · have hs := shelters_of_marks style page f (o := o) hm hh.kept
    exact ⟨hs.prefix_text, fun _ => hs⟩
  rw [Bool.eq_false_iff.2 hm, Bool.or_false] at hj ⊢
  cases marked with
  | true =>
    have hs := shelters_token style page f h hd he (hh.sheltered rfl)
    exact ⟨hs.prefix_text, fun _ => hs⟩
  | false =>
    -- without a mark the token neither is shorthand nor belongs to a list
    have hl : s.token.kind.isShorthand = false ∧ s.token.kind.listPart = false := by
      cases hk : s.token.kind <;> rw [hk] at hj hi <;>
        simp_all [Kind.isShorthand, Kind.listPart, Kind.joinsHead, Kind.insideList]
    exact ⟨hh.kept.trans (prefix_tokenEdits style s o page f hl.1 hl.2 he sh),
      fun hc => absurd hc Bool.false_ne_true⟩

theorem prefix_siteEdits (hp : isBlank page.indentChar = true) (rest : List Token) :
    ∀ (more : List Token) (before : Option Token) (marked inList : Bool) (o : Outline)
      (k : Sketch ε) (sh : Sheet ε), enclosed inList (more ++ rest) = true →
      anchored marked ((before.map Token.kind).all Kind.endsLine) (more ++ rest) = true →
      (inList = true → marked = true) → (∀ u ∈ more, u.kind ≠ .eos) →
      Tidy inList (before.map (·.kind)) (more ++ rest) o k → sh.Draws k → sh.Holds t marked →
      t <+: (Sheet.applyAll page f
        (siteEdits style (sitesUpTo before more rest) o).1 sh).draft.text
  | [], _, _, _, _, _, _, _, _, _, _, _, _, hh => hh.kept
  | u :: more, before, marked, inList, o, k, sh, he, ha, hi, hn, h, hd, hh => by
    obtain ⟨rfl, he'⟩ := enclosed_cons.1 he
    obtain ⟨hj, ha'⟩ := anchored_cons.1 ha
    obtain ⟨hu, hn'⟩ := List.forall_mem_cons.1 hn
    let site : Site := ⟨before, u, more ++ rest⟩
    obtain ⟨h1, hs1⟩ := tidy_token (f := f) style (s := site) h hu
    have hh1 := holds_token style page f (s := site) h hd hu hj hi hh
    -- a line end takes the mark away, and no list is open there
    have hi1 : u.kind.leavesOpen = true →
        ((marked || u.kind.marks site.opensLine) && !u.kind.endsLine) = true := by
      intro ho
      cases hk : u.kind with
      | startAttributes => rw [hk] at hj; exact Bool.and_eq_true_iff.2 ⟨hj rfl, rfl⟩
      | attr a => rw [hk] at hi; simp [hi rfl, Kind.endsLine]
      | _ => rw [hk] at ho; cases ho
    simp only [sitesUpTo, siteEdits, Sheet.applyAll_append]
    exact prefix_siteEdits hp rest more (some u) _ _ _ _ _ he' ha' hi1 hn' h1 (hs1 page sh hp hd)
      ⟨hh1.kept, fun hm => hh1.sheltered (Bool.and_eq_true_iff.1 hm).1⟩

end

/-- **Finished lines are never edited.** -/
theorem prefix_sheetAfter_of_endsLine {ε : Type} (style : Style) {l : Layout} {page : Page}
    (hl : page.Follows l) (f : Formatter ε) (ord : AttributeOrder) {ts : List Token}
    (h : WellFormed ts) (ha : anchored false true ts = true) {done more rest : List Token} {t : Token}
    (hv : ord.arrange ts = done ++ t :: (more ++ rest)) (ht : t.kind.endsLine = true)
    (hn : ∀ u ∈ more, u.kind ≠ .eos) :
    (sheetAfter style page f (done ++ [t]) (more ++ rest)).draft.text <+:
      (sheetAfter style page f (done ++ t :: more) rest).draft.text := by
  have hp := isBlank_indentChar hl
  have hw := hv ▸ h.arrange ord
  have ht' : t.kind.insideList = false ∧ t.kind.leavesOpen = false ∧ t.kind ≠ .eos := by
    cases hk : t.kind <;> rw [hk] at ht <;>
      simp_all [Kind.endsLine, Kind.insideList, Kind.leavesOpen]
  -- behind the token no list is open and the line has no mark
  have hd : enclosed false (done ++ [t]) = true := by
    rw [enclosed_append (enclosed_before ht'.1 _ _ _ hw.enclosed), enclosed_cons, ht'.1, ht'.2.1]
    exact ⟨rfl, rfl⟩
  have hr : enclosed false (more ++ rest) = true := by
    rw [← enclosed_append hd, List.append_assoc]
    exact hw.enclosed
  have hm : anchored false ((some t).map Token.kind |>.all Kind.endsLine) (more ++ rest) = true := by
    rw [Option.map_some, Option.all_some, ht]
    refine anchored_after ht _ false true done ?_
    rwa [← hv, (rearranged_arrange ord ts).anchored_eq]
  have hdn : ∀ u ∈ done ++ [t], u.kind ≠ .eos :=
    List.forall_mem_append.2 ⟨hw.ne_eos, by simpa using ht'.2.2⟩
  have hlast : (done ++ [t]).getLast? = some t := by simp
  have hti := tidy_sketchAfter style f (more ++ rest) hd hdn
  rw [hlast] at hti
  rw [List.append_cons done t more, sheetAfter_append style page f (done ++ [t]), hlast]
  have hf : ∀ {q : Prop}, false = true → q := fun hc => absurd hc Bool.false_ne_true
  exact prefix_siteEdits style page f hp rest more (some t) false false _ _ _ hr hm hf hn hti
    (draws_sheetAfter style f (more ++ rest) hp hd hdn).1 ⟨List.prefix_refl _, hf⟩

def twoItems : List Token :=
  [⟨.tag "ul", {}⟩, ⟨.indent, {}⟩, ⟨.tag "li", {}⟩, ⟨.startAttributes, {}⟩,
    ⟨.attr ⟨"class", .source "'a'", true⟩, {}⟩, ⟨.endAttributes, {}⟩, ⟨.newline, {}⟩,
    ⟨.className "b", {}⟩, ⟨.idName "i", {}⟩, ⟨.eos, {}⟩]

theorem prefix_twoItems :
    let page : Page := ⟨' ', 2, 2, 80, -1, fun _ => false⟩
    let f : Formatter Empty := fun _ r => .ok r.code
    WellFormed twoItems ∧ anchored false true twoItems = true ∧
      "ul\n  li.a\n".toList <+: (sheetAfter {} page f (twoItems.take 9) (twoItems.drop 9)).draft.text ∧
      (sheetAfter {} page f (twoItems.take 9) (twoItems.drop 9)).draft.text =
        "ul\n  li.a\n  #i.b".toList := by
  intro page f
  have hw : WellFormed twoItems := by decide
  have ha : anchored false true twoItems = true := by decide
  have hl : page.Follows {} := ⟨_, rfl⟩
  have hv : AttributeOrder.arrange {} twoItems = twoItems.take 6 ++ ⟨.newline, {}⟩ ::
      ([⟨.className "b", {}⟩, ⟨.idName "i", {}⟩] ++ [⟨.eos, {}⟩]) := rfl
  have h := prefix_sheetAfter_of_endsLine {} hl f {} hw ha hv rfl (by decide)
  exact ⟨hw, ha, h, by decide⟩

end PugPretty
