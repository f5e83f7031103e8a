import PugPretty.Proofs.Sketch

/-!
# What lasts of a draft

A draft grows at its end, behind its ids and behind its classes, and only a mark moves its places.
`Lasting` names the facts about the two parts in front that none of this takes away. They hold on to
the end of the stream once they hold (`has_sheetAfter`).
-/

namespace PugPretty

open Text

/-- A fact about the text in front of the place for ids, and the text from there to the place for
classes. -/
structure Lasting (fact : Text → Text → Prop) : Prop where
  joinIds {x y : Text} (name : Text) : fact x y → fact (x ++ '#' :: name) y
  joinClasses {x y : Text} (t : Text) : fact x y → fact x (y ++ t)
  mark {x y : Text} (z : Text) : fact x y → fact (x ++ y ++ z) []

namespace Draft

def Has (d : Draft) (fact : Text → Text → Prop) : Prop := ∃ x y z, d.Parts x y z ∧ fact x y

theorem eq_of_byteLength_eq {a b a' b' : Text} (h : a ++ b = a' ++ b')
    (hl : byteLength a = byteLength a') : a = a' := by
  have hs := splitAtByte?_append a b
  rw [h, hl, splitAtByte?_append, Option.some.injEq, Prod.mk.injEq] at hs
  exact hs.1.symm

theorem Parts.unique {d : Draft} {x y z x' y' z' : Text} (h : d.Parts x y z)
    (h' : d.Parts x' y' z') : x = x' ∧ y = y' := by
  have hx : x = x' :=
    eq_of_byteLength_eq (by simpa using h.text.symm.trans h'.text) (h.idAt.symm.trans h'.idAt)
  have hy : x ++ y = x' ++ y' :=
    eq_of_byteLength_eq (h.text.symm.trans h'.text) (h.classAt.symm.trans h'.classAt)
  exact ⟨hx, List.append_cancel_left (hx ▸ hy)⟩

theorem Has.dropOpenParen {d : Draft} {fact : Text → Text → Prop} (h : d.Has fact) {x y : Text}
    (hp : d.Parts x y ['(']) : d.dropOpenParen.Has fact := by
  obtain ⟨x', y', z', hp', hf⟩ := h
  obtain ⟨rfl, rfl⟩ := hp'.unique hp
  exact ⟨_, _, [], Parts.dropOpenParen hp, hf⟩

end Draft

section
variable {fact : Text → Text → Prop} (hfact : Lasting fact) {ε : Type} (page : Page)
  (f : Formatter ε) {sh : Sheet ε}
include hfact

theorem has_apply (h : sh.draft.Has fact) {e : Edit} (he : e.Fits True) :
    (sh.apply page f e).draft.Has fact := by
  obtain ⟨x, y, z, hp, hf⟩ := h
  cases e with
  | write c => exact ⟨x, y, _, hp.write _, hf⟩
  | writeInert c => exact ⟨x, y, _, hp.write _, hf⟩
  | indent n => exact ⟨x, y, _, hp.write _, hf⟩
  | softBreak n flat => exact ⟨x, y, _, hp.write _, hf⟩
  | mark => exact ⟨_, [], [], Draft.Parts.mark _, hp.text ▸ hfact.mark z hf⟩
  | markClass => exact ⟨x, _, [], hp.markClass, hfact.joinClasses z hf⟩
  | addClass name => exact ⟨x, _, z, hp.addClass name, hfact.joinClasses _ hf⟩
  | addId name => exact ⟨_, y, z, hp.addId name, hfact.joinIds name hf⟩
  | beginGroup | endGroup => exact ⟨x, y, z, hp, hf⟩
  | dropOpenParen | finish => exact he.elim

theorem has_applyAll {bar : Prop} {es : List Edit} (he : AllFit bar es) (h : sh.draft.Has fact) :
    (Sheet.applyAll page f es sh).draft.Has fact := by
  induction es generalizing sh with
  | nil => exact h
  | cons e es ih =>
    rw [allFit_cons] at he
    exact ih he.2 (has_apply hfact page f h (he.1.mono fun _ => trivial))

variable (style : Style) {s : Site} {o : Outline} {k : Sketch ε}

theorem has_closing (h : Tidy true s.prev? (s.token :: s.rest) o k) (hd : sh.Draws k)
    (hs : sh.draft.Has fact) : (Sheet.applyAll page f (closing o) sh).draft.Has fact := by
  unfold closing
  split
  · exact hs
  · next hl =>
    split
    · next hw =>
      -- only the parenthesis is taken back, and it stands behind the place for classes
      have hr := h.fresh (by simpa using hl) hw
      obtain ⟨x, y, z, hp, -, -, hz⟩ := hd.parts
      rw [hr] at hz
      obtain ⟨u, rfl, hu⟩ := shows_cons_char hz
      cases hu
      exact hs.dropOpenParen hp
    · have hf : AllFit True [.softBreak o.depth [], .say ")"] := by simp
      exact has_applyAll hfact page f hf hs

theorem has_token (h : Tidy s.token.kind.insideList s.prev? (s.token :: s.rest) o k)
    (hd : sh.Draws k) (he : s.token.kind ≠ .eos) (hs : sh.draft.Has fact) :
    (Sheet.applyAll page f (tokenEdits style s o).1 sh).draft.Has fact := by
  cases hk : s.token.kind with
  | startAttributes =>
    rw [tokenEdits_start style hk]
    cases attributeRun s.rest with
    | nil => exact has_applyAll hfact page f (openList_nil style o).1 hs
    | cons a run =>
      obtain ⟨fc, es, hes, hf, -⟩ := openList_cons style o a run
      have hall : AllFit True ([.markClass, .say "(", .beginGroup fc] ++ es) := by simpa using hf
      rw [hes]
      exact has_applyAll hfact page f hall hs
  | attr a =>
    rw [tokenEdits_attr style hk]
    exact has_applyAll hfact page f (fits_writeAttribute style o a) hs
  | endAttributes =>
    rw [hk] at h
    rw [tokenEdits_end style hk, closeList_eq, Sheet.applyAll_append]
    exact has_applyAll hfact page f (fits_spaceBehind s) (has_closing hfact page f h hd hs)
  | _ =>
    exact has_applyAll hfact page f (fits_tokenEdits style s o (by rw [hk]; rfl) he) hs

end

/-! ## Runs -/

theorem tidy_inFront (style : Style) {ε : Type} (f : Formatter ε) {done rest : List Token} {t : Token}
    (he : enclosed false (done ++ t :: rest) = true) (hn : ∀ u ∈ done, u.kind ≠ .eos) :
    Tidy t.kind.insideList (done.getLast?.map (·.kind)) (t :: rest)
      (outlineAfter style done (t :: rest)) (sketchAfter style f done (t :: rest)) := by
  obtain ⟨h, -⟩ := tidy_opening f (done ++ t :: rest)
  obtain ⟨inside, hi, ht, -⟩ := tidy_siteEdits_of_append (f := f) style (t :: rest) (t :: rest) done
    none false {} _ he hn h
  obtain ⟨rfl, -⟩ := enclosed_cons.1 hi
  rw [Option.or_none] at ht
  rwa [sketchAfter, Sketch.applyAll_append]

theorem has_sheetAfter {fact : Text → Text → Prop} (hfact : Lasting fact) {ε : Type} (style : Style)
    {page : Page} (hp : isBlank page.indentChar = true) (f : Formatter ε) (rest : List Token) :
    ∀ (more done : List Token), enclosed false (done ++ (more ++ rest)) = true →
      (∀ u ∈ done ++ more, u.kind ≠ .eos) →
      (sheetAfter style page f done (more ++ rest)).draft.Has fact →
      (sheetAfter style page f (done ++ more) rest).draft.Has fact
  | [], done, _, _, h => by rwa [List.append_nil]
  | t :: more, done, he, hn, h => by
    have hdone : ∀ u ∈ done, u.kind ≠ .eos := fun u hu => hn u (List.mem_append_left _ hu)
    have ht : t.kind ≠ .eos := hn t (by simp)
    have h1 := has_token hfact page f style (s := ⟨done.getLast?, t, more ++ rest⟩)
      (tidy_inFront style f he hdone) (draws_sheetAfter_of_append style f _ _ hp he hdone) ht h
    have hsnoc := has_sheetAfter hfact style hp f rest more (done ++ [t])
    rw [List.append_assoc done, List.append_assoc done, sheetAfter_snoc] at hsnoc
    exact hsnoc he hn h1

end PugPretty
