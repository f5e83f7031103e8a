import PugPretty.Proofs.Conversation
import PugPretty.Proofs.Step

/-!
# The draft without its layout

A sketch is what the layout cannot change of a draft: the characters that are written in any case,
with gaps where blanks depend on the layout, in the three parts of a draft. `draws_sheetAfter`: under
every page the sheet of a well-formed body draws the sketch of that body, and the draft is never sent
astray.
-/

namespace PugPretty

open Text

/-! ## Glyphs -/

inductive Glyph where
  | char (c : Char)
  | gap
deriving DecidableEq

/-- The texts that have some blanks in place of each gap. -/
inductive Shows : List Glyph → Text → Prop
  | nil : Shows [] []
  | char {gs t} (c : Char) : Shows gs t → Shows (.char c :: gs) (c :: t)
  | gap {gs t} (w : Text) : (∀ c ∈ w, isBlank c = true) → Shows gs t → Shows (.gap :: gs) (w ++ t)

def glyphs (t : Text) : List Glyph := t.map .char

theorem shows_glyphs (t : Text) : Shows (glyphs t) t := by
  induction t with
  | nil => exact .nil
  | cons c t ih => exact .char c ih

theorem shows_gap {w : Text} (h : ∀ c ∈ w, isBlank c = true) : Shows [.gap] w := by
  simpa using Shows.gap w h .nil

theorem Shows.append {gs hs : List Glyph} {t u : Text} (h : Shows gs t) (h' : Shows hs u) :
    Shows (gs ++ hs) (t ++ u) := by
  induction h with
  | nil => exact h'
  | char c _ ih => exact .char c ih
  | gap w hw _ ih => rw [List.append_assoc]; exact .gap w hw ih

theorem shows_cons_char {c : Char} {gs : List Glyph} {t : Text} (h : Shows (.char c :: gs) t) :
    ∃ u, t = c :: u ∧ Shows gs u := by
  cases h with
  | char c h => exact ⟨_, rfl, h⟩

theorem Glyph.solid_of_shows {gs : List Glyph} {t : Text} (h : Shows gs t) :
    t.filter (!isBlank ·) =
      gs.filterMap fun | .char c => if isBlank c then none else some c | .gap => none := by
  induction h with
  | nil => rfl
  | @char gs t c _ ih => cases hc : isBlank c <;> simp [hc, ih]
  | @gap gs t w hw _ ih =>
    rw [List.filter_append, List.filter_eq_nil_iff.2 (by simpa using hw), ih]; rfl

theorem Shows.filter_eq {gs : List Glyph} {t u : Text} (h : Shows gs t) (h' : Shows gs u) :
    t.filter (!isBlank ·) = u.filter (!isBlank ·) := by
  rw [Glyph.solid_of_shows h, Glyph.solid_of_shows h']

/-! ## Bars

The first gap comes only after a line feed or an opening parenthesis. So layouts differ only in what
is behind the first of these.
-/

def isBar (c : Char) : Bool := c == '\n' || c == '('

/-- Whether no gap stands before the first bar. -/
def barred : List Glyph → Bool
  | [] => true
  | .char c :: gs => isBar c || barred gs
  | .gap :: _ => false

theorem barred_insert (as bs : List Glyph) (t : Text) (h : barred (as ++ bs) = true) :
    barred (as ++ glyphs t ++ bs) = true := by
  induction as with
  | nil =>
    rw [List.nil_append] at h ⊢
    induction t with
    | nil => exact h
    | cons c t ih => simp only [glyphs, List.map_cons, List.cons_append, barred] at ih ⊢; simp [ih]
  | cons a as ih =>
    cases a with
    | char c =>
      simp only [List.cons_append, barred, Bool.or_eq_true] at h ⊢
      exact h.imp_right ih
    | gap => cases h

theorem barred_snoc_gap (gs : List Glyph) (h : barred gs = true)
    (hb : ∃ c, .char c ∈ gs ∧ isBar c = true) : barred (gs ++ [.gap]) = true := by
  induction gs with
  | nil => obtain ⟨c, hc, -⟩ := hb; cases hc
  | cons g gs ih =>
    cases g with
    | char c =>
      simp only [List.cons_append, barred, Bool.or_eq_true] at h ⊢
      by_cases hc : isBar c = true
      · exact .inl hc
      · refine .inr (ih (h.resolve_left hc) ?_)
        obtain ⟨d, hd, hbd⟩ := hb
        rcases List.mem_cons.1 hd with hd | hd
        · cases hd; exact absurd hbd hc
        · exact ⟨d, hd, hbd⟩
    | gap => cases h

theorem barred_of_append (gs hs : List Glyph) (h : barred (gs ++ hs) = true) : barred gs = true := by
  induction gs with
  | nil => rfl
  | cons g gs ih =>
    cases g with
    | char c =>
      simp only [List.cons_append, barred, Bool.or_eq_true] at h ⊢
      exact h.imp_right ih
    | gap => cases h

/-- Two texts that show the same glyphs are equal, or agree as far as a bar. -/
theorem Shows.eq_or_bar {gs : List Glyph} (hb : barred gs = true) {t u : Text} (h : Shows gs t)
    (h' : Shows gs u) :
    t = u ∨ ∃ w c t' u', isBar c = true ∧ t = w ++ c :: t' ∧ u = w ++ c :: u' := by
  induction gs generalizing t u with
  | nil => cases h; cases h'; exact .inl rfl
  | cons g gs ih =>
    cases g with
    | gap => cases hb
    | char c =>
      obtain ⟨t, rfl, ht⟩ := shows_cons_char h
      obtain ⟨u, rfl, hu⟩ := shows_cons_char h'
      by_cases hc : isBar c = true
      · exact .inr ⟨[], c, t, u, hc, rfl, rfl⟩
      · simp only [barred, Bool.or_eq_true] at hb
        rcases ih (hb.resolve_left hc) ht hu with rfl | ⟨w, d, t', u', hd, rfl, rfl⟩
        · exact .inl rfl
        · exact .inr ⟨c :: w, d, t', u', hd, rfl, rfl⟩

/-! ## Sketches -/

/-- The glyphs in front of the place of ids, up to the place of classes, and behind it. -/
structure Sketch (ε : Type) where
  front : List Glyph := []
  middle : List Glyph := []
  rear : List Glyph := []
  session : Session ε := {}

namespace Sketch

variable {ε : Type} (f : Formatter ε)

def all (k : Sketch ε) : List Glyph := k.front ++ k.middle ++ k.rear

def add (gs : List Glyph) (k : Sketch ε) : Sketch ε := { k with rear := k.rear ++ gs }

def apply : Edit → Sketch ε → Sketch ε
  | .write c, k => { k.add (glyphs (c.resolve f k.session).1) with
      session := (c.resolve f k.session).2 }
  | .writeInert c, k => { k.add (glyphs (inert (c.resolve f k.session).1)) with
      session := (c.resolve f k.session).2 }
  | .indent n, k => if n = 0 then k else k.add [.gap]
  | .mark, k => { k with front := k.all, middle := [], rear := [] }
  | .markClass, k => { k with middle := k.middle ++ k.rear, rear := [] }
  | .addClass name, k => { k with middle := k.middle ++ glyphs ('.' :: name) }
  | .addId name, k => { k with front := k.front ++ glyphs ('#' :: name) }
  | .softBreak _ _, k => k.add [.gap]
  | .dropOpenParen, k => { k with rear := k.rear.dropLast }
  | .beginGroup _, k | .endGroup, k | .finish, k => k

def applyAll (es : List Edit) (k : Sketch ε) : Sketch ε := es.foldl (fun k e => k.apply f e) k

@[simp] theorem applyAll_nil (k : Sketch ε) : applyAll f [] k = k := rfl

@[simp] theorem applyAll_cons (e : Edit) (es : List Edit) (k : Sketch ε) :
    applyAll f (e :: es) k = applyAll f es (k.apply f e) := rfl

@[simp] theorem applyAll_append (es fs : List Edit) (k : Sketch ε) :
    applyAll f (es ++ fs) k = applyAll f fs (applyAll f es k) := List.foldl_append

@[simp] theorem apply_say (t : String) (k : Sketch ε) :
    k.apply f (.say t) = k.add (glyphs t.toList) := by
  simp [Edit.say, Edit.put, apply, Content.resolve, add]

/-! ## What edits keep -/

variable {f}

theorem mem_all_apply {bar : Prop} {e : Edit} (he : e.Fits bar) {k : Sketch ε} {g : Glyph}
    (h : g ∈ k.all) : g ∈ (k.apply f e).all := by
  unfold all at h ⊢
  simp only [List.mem_append] at h
  cases e with
  | indent n =>
    simp only [apply]
    split <;> simp [add, ← or_assoc, h]
  | dropOpenParen | finish => exact he.elim
  | _ => simp only [apply, add, all, List.mem_append, List.append_nil]; tauto

theorem barred_all_apply {bar : Prop} {e : Edit} (he : e.Fits bar) {k : Sketch ε}
    (h : barred k.all = true) (hb : bar → ∃ c, .char c ∈ k.all ∧ isBar c = true) :
    barred (k.apply f e).all = true := by
  have hadd : ∀ t, barred (k.add (glyphs t)).all = true := by
    intro t
    have := barred_insert k.all [] t (by rwa [List.append_nil])
    simpa [add, all] using this
  have hgap : bar → barred (k.add [.gap]).all = true := by
    intro hbar
    have := barred_snoc_gap k.all h (hb hbar)
    simpa [add, all] using this
  cases e with
  | write c => exact hadd _
  | writeInert c => exact hadd _
  | indent n =>
    simp only [apply]
    split
    · exact h
    · next hn => exact hgap (he.resolve_left hn)
  | softBreak n flat => exact hgap he.1
  | mark => simpa [apply, all] using h
  | markClass => simpa [apply, all] using h
  | addClass name =>
    have := barred_insert (k.front ++ k.middle) k.rear ('.' :: name) h
    simpa [apply, all] using this
  | addId name =>
    have := barred_insert k.front (k.middle ++ k.rear) ('#' :: name) (by simpa [all] using h)
    simpa [apply, all] using this
  | beginGroup fc => exact h
  | endGroup => exact h
  | dropOpenParen => exact he.elim
  | finish => exact he.elim

theorem mem_all_applyAll {bar : Prop} {es : List Edit} (he : AllFit bar es) {k : Sketch ε} {g : Glyph}
    (h : g ∈ k.all) : g ∈ (applyAll f es k).all := by
  induction es generalizing k with
  | nil => exact h
  | cons e es ih =>
    rw [allFit_cons] at he
    exact ih he.2 (mem_all_apply he.1 h)

theorem barred_all_applyAll {bar : Prop} {es : List Edit} (he : AllFit bar es) {k : Sketch ε}
    (h : barred k.all = true) (hb : bar → ∃ c, .char c ∈ k.all ∧ isBar c = true) :
    barred (applyAll f es k).all = true := by
  induction es generalizing k with
  | nil => exact h
  | cons e es ih =>
    rw [allFit_cons] at he
    refine ih he.2 (barred_all_apply he.1 h hb) fun hbar => ?_
    obtain ⟨c, hc, hcb⟩ := hb hbar
    exact ⟨c, mem_all_apply he.1 hc, hcb⟩

theorem lineFeed_mem_applyAll {bar : Prop} {es : List Edit} (he : AllFit bar es)
    (h : Edit.say "\n" ∈ es) (k : Sketch ε) : .char '\n' ∈ (applyAll f es k).all := by
  induction es generalizing k with
  | nil => cases h
  | cons e es ih =>
    rw [allFit_cons] at he
    rcases List.mem_cons.1 h with rfl | h
    · exact mem_all_applyAll he.2 (by simp [add, all, glyphs])
    · exact ih he.2 h _

theorem rear_applyAll_of_movesOnly {es : List Edit} (he : ∀ e ∈ es, e.movesOnly) (k : Sketch ε) :
    (applyAll f es k).rear = k.rear := by
  induction es generalizing k with
  | nil => rfl
  | cons e es ih =>
    rw [List.forall_mem_cons] at he
    rw [applyAll_cons, ih he.2]
    cases e with
    | addClass name => rfl
    | addId name => rfl
    | _ => exact he.1.elim

end Sketch

/-! ## A sheet draws a sketch -/

variable {ε : Type} {f : Formatter ε}

structure Sheet.Draws (s : Sheet ε) (k : Sketch ε) : Prop where
  parts : ∃ x y z, s.draft.Parts x y z ∧ Shows k.front x ∧ Shows k.middle y ∧ Shows k.rear z
  session : s.session = k.session
  steady : s.draft.astray = false

namespace Sheet.Draws

variable {page : Page} {s : Sheet ε} {k : Sketch ε}

theorem blank : (Sheet.blank : Sheet ε).Draws {} :=
  ⟨⟨[], [], [], Draft.Parts.empty, .nil, .nil, .nil⟩, rfl, rfl⟩

theorem text (h : s.Draws k) : Shows k.all s.draft.text := by
  obtain ⟨x, y, z, hp, hx, hy, hz⟩ := h.parts
  rw [hp.text]
  exact (hx.append hy).append hz

theorem write (h : s.Draws k) {gs : List Glyph} {t : Text} (ht : Shows gs t) :
    (s.edit (·.write t)).Draws (k.add gs) := by
  obtain ⟨x, y, z, hp, hx, hy, hz⟩ := h.parts
  exact ⟨⟨x, y, z ++ t, hp.write t, hx, hy, hz.append ht⟩, h.session, h.steady⟩

theorem apply (h : s.Draws k) (hp : isBlank page.indentChar = true) {e : Edit} (he : e.Fits True) :
    (s.apply page f e).Draws (k.apply f e) := by
  have hw := fun n => show ∀ c ∈ indentation page n, isBlank c = true from
    fun c hc => (List.eq_of_mem_replicate hc) ▸ hp
  cases e with
  | write c =>
    have ht : Shows (glyphs (c.resolve f k.session).1) (c.resolve f s.session).1 := by
      rw [h.session]; exact shows_glyphs _
    exact ⟨(h.write ht).parts, by simp only [Sheet.apply, Sketch.apply, h.session], h.steady⟩
  | writeInert c =>
    have ht : Shows (glyphs (inert (c.resolve f k.session).1)) (inert (c.resolve f s.session).1) := by
      rw [h.session]; exact shows_glyphs _
    exact ⟨(h.write ht).parts, by simp only [Sheet.apply, Sketch.apply, h.session], h.steady⟩
  | indent n =>
    simp only [Sheet.apply, Sketch.apply]
    split
    · next hn => subst hn; simpa [indentation, Sketch.add] using h.write .nil
    · exact h.write (shows_gap (hw n))
  | softBreak n flat =>
    refine h.write (shows_gap ?_)
    split
    · simp only [List.forall_mem_cons]; exact ⟨by decide, hw n⟩
    · exact he.2
  | mark =>
    exact ⟨⟨_, [], [], Draft.Parts.mark _, h.text, .nil, .nil⟩, h.session, h.steady⟩
  | markClass =>
    obtain ⟨x, y, z, hp, hx, hy, hz⟩ := h.parts
    exact ⟨⟨x, y ++ z, [], hp.markClass, hx, hy.append hz, .nil⟩, h.session, h.steady⟩
  | addClass name =>
    obtain ⟨x, y, z, hp, hx, hy, hz⟩ := h.parts
    refine ⟨⟨x, _, z, hp.addClass name, hx, hy.append (shows_glyphs _), hz⟩, h.session, ?_⟩
    exact (hp.astray_addClass name).trans h.steady
  | addId name =>
    obtain ⟨x, y, z, hp, hx, hy, hz⟩ := h.parts
    refine ⟨⟨_, y, z, hp.addId name, hx.append (shows_glyphs _), hy, hz⟩, h.session, ?_⟩
    exact (hp.astray_addId name).trans h.steady
  | beginGroup fc => exact ⟨h.parts, h.session, h.steady⟩
  | endGroup => exact ⟨h.parts, h.session, h.steady⟩
  | dropOpenParen => exact he.elim
  | finish => exact he.elim

theorem applyAll (h : s.Draws k) (hp : isBlank page.indentChar = true) {bar : Prop} {es : List Edit}
    (he : AllFit bar es) : (Sheet.applyAll page f es s).Draws (Sketch.applyAll f es k) := by
  induction es generalizing s k with
  | nil => exact h
  | cons e es ih =>
    rw [allFit_cons] at he
    exact ih (h.apply hp (he.1.mono fun _ => trivial)) he.2

theorem dropOpenParen (h : s.Draws k) (page : Page) (hr : k.rear = [.char '(']) :
    (s.apply page f .dropOpenParen).Draws (k.apply f .dropOpenParen) := by
  obtain ⟨x, y, z, hp, hx, hy, hz⟩ := h.parts
  rw [hr] at hz
  obtain ⟨u, rfl, hu⟩ := shows_cons_char hz
  cases hu
  refine ⟨⟨x, y, [], Draft.Parts.dropOpenParen hp, hx, hy, ?_⟩, h.session, ?_⟩
  · simp only [Sketch.apply, hr]; exact .nil
  · exact (Draft.astray_dropOpenParen _).trans h.steady

end Sheet.Draws

/-! ## Bodies of streams -/

/-- What holds between two tokens: `inList` tells whether a list is open, `prev` is the token before
and `rest` what is to come. -/
structure Tidy (inList : Bool) (prev : Option Kind) (rest : List Token) (o : Outline) (k : Sketch ε) :
    Prop where
  barred : barred k.all = true
  deep : 0 < o.depth → .char '\n' ∈ k.all
  below : prev.any Kind.feedsLine = true → .char '\n' ∈ k.all
  outside : inList = false → o.listOpen = false
  inside : inList = true → attributeRun rest ≠ [] → o.listOpen = true
  opened : o.listOpen = true → .char '(' ∈ k.all
  fresh : o.listOpen = true → o.written = 0 → k.rear = [.char '(']

/-- Performing the edits keeps a sheet and its sketch together. -/
def Steady (f : Formatter ε) (k : Sketch ε) (es : List Edit) : Prop :=
  ∀ (page : Page) (s : Sheet ε), isBlank page.indentChar = true → s.Draws k →
    (Sheet.applyAll page f es s).Draws (Sketch.applyAll f es k)

theorem steady_of_allFit {bar : Prop} {es : List Edit} (he : AllFit bar es) (k : Sketch ε) :
    Steady f k es := fun _ _ hp h => h.applyAll hp he

theorem Steady.append {k : Sketch ε} {es fs : List Edit} (h : Steady f k es)
    (h' : Steady f (Sketch.applyAll f es k) fs) : Steady f k (es ++ fs) := by
  intro page s hp hs
  rw [Sheet.applyAll_append, Sketch.applyAll_append]
  exact h' page _ hp (h page s hp hs)

section
variable (style : Style) {s : Site} {o : Outline} {k : Sketch ε}

theorem tidy_outside (h : Tidy false s.prev? (s.token :: s.rest) o k)
    (hl : s.token.kind.listPart = false) (he : s.token.kind ≠ .eos) :
    Tidy false (some s.token.kind) s.rest (tokenEdits style s o).2
      (Sketch.applyAll f (tokenEdits style s o).1 k) := by
  have hf := fits_tokenEdits style s o hl he
  have hbelow : s.Below o → .char '\n' ∈ k.all := fun hb => hb.elim h.deep h.below
  have hfeed : s.token.kind.feedsLine = true →
      .char '\n' ∈ (Sketch.applyAll f (tokenEdits style s o).1 k).all := fun hk =>
    Sketch.lineFeed_mem_applyAll hf (lineFeed_mem_tokenEdits style s o hk) k
  have hopen : (tokenEdits style s o).2.listOpen = false := by
    rw [(list_tokenEdits style s o hl).1, h.outside rfl]
  refine ⟨Sketch.barred_all_applyAll hf h.barred fun hb => ⟨_, hbelow hb, rfl⟩, fun hd => ?_, hfeed,
    fun _ => hopen, fun hc => (by cases hc), fun ho => ?_, fun ho => ?_⟩
  · rw [depth_tokenEdits] at hd
    -- only an indent goes deeper, and it writes a line feed itself
    by_cases hi : s.token.kind = .indent
    · exact hfeed (by rw [hi]; rfl)
    · refine Sketch.mem_all_applyAll hf (h.deep ?_)
      cases hk : s.token.kind <;> simp_all [Kind.nest]
      omega
  · rw [hopen] at ho; cases ho
  · rw [hopen] at ho; cases ho

theorem tidy_start (h : Tidy false s.prev? (s.token :: s.rest) o k)
    (hk : s.token.kind = .startAttributes) :
    Tidy true (some s.token.kind) s.rest (tokenEdits style s o).2
        (Sketch.applyAll f (tokenEdits style s o).1 k) ∧
      Steady f k (tokenEdits style s o).1 := by
  rw [tokenEdits_start style hk, hk]
  have hd := depth_openList style o (attributeRun s.rest)
  cases hr : attributeRun s.rest with
  | nil =>
    rw [hr] at hd
    obtain ⟨hf, ho⟩ := openList_nil style o
    rw [h.outside rfl] at ho
    refine ⟨⟨?_, fun hp => ?_, fun hc => ?_, fun hc => ?_, fun _ hc => ?_, fun hc => ?_, fun hc => ?_⟩,
      steady_of_allFit hf k⟩
    · exact Sketch.barred_all_applyAll hf h.barred fun hb => hb.elim
    · exact Sketch.mem_all_applyAll hf (h.deep (hd ▸ hp))
    · cases hc
    · cases hc
    · exact absurd hr hc
    · rw [ho] at hc; cases hc
    · rw [ho] at hc; cases hc
  | cons a run =>
    rw [hr] at hd
    obtain ⟨fc, es, he, hf, ho, hw⟩ := openList_cons style o a run
    have h3 : AllFit False [.markClass, .say "(", .beginGroup fc] := by simp
    have hrear : (Sketch.applyAll f [.markClass, .say "(", .beginGroup fc] k).rear = [.char '('] := by
      simp only [Sketch.applyAll_cons, Sketch.apply_say]; rfl
    have hparen : .char '(' ∈ (Sketch.applyAll f [.markClass, .say "(", .beginGroup fc] k).all :=
      List.mem_append_right _ (hrear ▸ List.mem_singleton_self _)
    rw [he, Sketch.applyAll_append]
    refine ⟨⟨?_, fun hp => ?_, fun hc => ?_, fun hc => ?_, fun _ _ => ho, fun _ => ?_, fun _ hz => ?_⟩,
      (steady_of_allFit h3 k).append (steady_of_allFit hf _)⟩
    · -- the parenthesis is the bar for what the first item may break
      refine Sketch.barred_all_applyAll hf ?_ fun _ => ⟨_, hparen, rfl⟩
      exact Sketch.barred_all_applyAll h3 h.barred fun hb => hb.elim
    · exact Sketch.mem_all_applyAll hf (Sketch.mem_all_applyAll h3 (h.deep (hd ▸ hp)))
    · cases hc
    · cases hc
    · exact Sketch.mem_all_applyAll hf hparen
    · rw [hw hz]; exact hrear

theorem tidy_attr (h : Tidy true s.prev? (s.token :: s.rest) o k) {a : Attribute}
    (hk : s.token.kind = .attr a) :
    Tidy true (some s.token.kind) s.rest (tokenEdits style s o).2
        (Sketch.applyAll f (tokenEdits style s o).1 k) ∧
      Steady f k (tokenEdits style s o).1 := by
  rw [tokenEdits_attr style hk, hk]
  have hopen : o.listOpen = true := by
    refine h.inside rfl ?_
    obtain ⟨_, ⟨_, span⟩, _⟩ := s
    simp only at hk
    subst hk
    simp [attributeRun]
  have hf := fits_writeAttribute style o a
  have hd := depth_writeAttribute style o a
  have ho := (listOpen_writeAttribute style o a).trans hopen
  refine ⟨⟨?_, fun hp => ?_, fun hc => ?_, fun hc => ?_, fun _ _ => ho, fun _ => ?_, fun _ hw => ?_⟩,
    steady_of_allFit hf k⟩
  · exact Sketch.barred_all_applyAll hf h.barred fun _ => ⟨_, h.opened hopen, rfl⟩
  · exact Sketch.mem_all_applyAll hf (h.deep (hd ▸ hp))
  · cases hc
  · cases hc
  · exact Sketch.mem_all_applyAll hf (h.opened hopen)
  · obtain ⟨hz, hm⟩ := movesOnly_writeAttribute style o a hw
    rw [Sketch.rear_applyAll_of_movesOnly hm, h.fresh hopen hz]

theorem tidy_closing (h : Tidy true s.prev? (s.token :: s.rest) o k) :
    barred (Sketch.applyAll f (closing o) k).all = true ∧
      (.char '\n' ∈ k.all → .char '\n' ∈ (Sketch.applyAll f (closing o) k).all) ∧
      Steady f k (closing o) := by
  unfold closing
  split
  · exact ⟨h.barred, id, steady_of_allFit (show AllFit False [] from allFit_nil) k⟩
  · next hl =>
    have ho : o.listOpen = true := by simpa using hl
    split
    · next hw =>
      -- nothing has been written behind the parenthesis, so it is what the draft ends with
      have hr := h.fresh ho hw
      have ha : (Sketch.applyAll f [.dropOpenParen] k).all = k.front ++ k.middle := by
        simp [Sketch.apply, Sketch.all, hr]
      have hk : k.all = (k.front ++ k.middle) ++ [.char '('] := by rw [Sketch.all, hr]
      refine ⟨?_, fun hn => ?_, fun page s _ hs => hs.dropOpenParen (f := f) page hr⟩
      · rw [ha]; exact barred_of_append _ _ (hk ▸ h.barred)
      · rw [hk] at hn
        rw [ha]
        exact (List.mem_append.1 hn).resolve_right (by simp)
    · have hf : AllFit True [.softBreak o.depth [], .say ")"] := by simp
      exact ⟨Sketch.barred_all_applyAll hf h.barred fun _ => ⟨_, h.opened ho, rfl⟩,
        Sketch.mem_all_applyAll hf, steady_of_allFit hf k⟩

theorem tidy_end (h : Tidy true s.prev? (s.token :: s.rest) o k)
    (hk : s.token.kind = .endAttributes) :
    Tidy false (some s.token.kind) s.rest (tokenEdits style s o).2
        (Sketch.applyAll f (tokenEdits style s o).1 k) ∧
      Steady f k (tokenEdits style s o).1 := by
  obtain ⟨hb, hn, hs⟩ := tidy_closing (f := f) h
  have hf := fits_spaceBehind s
  rw [tokenEdits_end style hk, hk, closeList_eq, Sketch.applyAll_append]
  refine ⟨⟨?_, fun hp => ?_, fun hc => ?_, fun _ => rfl, fun hc => ?_, fun hc => ?_, fun hc => ?_⟩,
    hs.append (steady_of_allFit hf _)⟩
  · exact Sketch.barred_all_applyAll hf hb fun hb => hb.elim
  · exact Sketch.mem_all_applyAll hf (hn (h.deep hp))
  all_goals cases hc

theorem tidy_token (h : Tidy s.token.kind.insideList s.prev? (s.token :: s.rest) o k)
    (he : s.token.kind ≠ .eos) :
    Tidy s.token.kind.leavesOpen (some s.token.kind) s.rest (tokenEdits style s o).2
        (Sketch.applyAll f (tokenEdits style s o).1 k) ∧
      Steady f k (tokenEdits style s o).1 := by
  by_cases hl : s.token.kind.listPart = false
  · have hi : s.token.kind.insideList = false ∧ s.token.kind.leavesOpen = false := by
      cases hk : s.token.kind <;> simp_all [Kind.listPart, Kind.insideList, Kind.leavesOpen]
    rw [hi.1] at h
    rw [hi.2]
    exact ⟨tidy_outside style h hl he, steady_of_allFit (fits_tokenEdits style s o hl he) k⟩
  · cases hk : s.token.kind with
    | startAttributes =>
      rw [hk] at h
      have := tidy_start (f := f) style h hk
      rwa [hk] at this
    | attr a =>
      rw [hk] at h
      have := tidy_attr (f := f) style h hk
      rwa [hk] at this
    | endAttributes =>
      rw [hk] at h
      have := tidy_end (f := f) style h hk
      rwa [hk] at this
    | _ => rw [hk] at hl; exact absurd rfl hl

/-- The tokens may end within a list, which `more` closes. -/
theorem tidy_siteEdits_of_append (rest more : List Token) : ∀ (done : List Token)
    (before : Option Token) (inList : Bool) (o : Outline) (k : Sketch ε),
    enclosed inList (done ++ more) = true → (∀ t ∈ done, t.kind ≠ .eos) →
    Tidy inList (before.map (·.kind)) (done ++ rest) o k →
    ∃ inside, enclosed inside more = true ∧
      Tidy inside ((done.getLast?.or before).map (·.kind)) rest
        (siteEdits style (sitesUpTo before done rest) o).2
        (Sketch.applyAll f (siteEdits style (sitesUpTo before done rest) o).1 k) ∧
      Steady f k (siteEdits style (sitesUpTo before done rest) o).1
  | [], before, inList, o, k, he, _, h => ⟨inList, he, h, fun _ _ _ hs => hs⟩
  | t :: done, before, inList, o, k, he, hn, h => by
    rw [List.cons_append] at he
    obtain ⟨hi, he'⟩ := enclosed_cons.1 he
    subst hi
    rw [List.forall_mem_cons] at hn
    let s : Site := ⟨before, t, done ++ rest⟩
    obtain ⟨h1, hs1⟩ := tidy_token (f := f) style (s := s) h hn.1
    obtain ⟨inside, hm, h2, hs2⟩ :=
      tidy_siteEdits_of_append rest more done (some t) _ _ _ he' hn.2 h1
    have hl : (t :: done).getLast?.or before = done.getLast?.or (some t) := by
      rw [List.getLast?_cons]
      cases done.getLast? <;> rfl
    simp only [sitesUpTo, siteEdits, Sketch.applyAll_append, hl]
    exact ⟨inside, hm, h2, hs1.append hs2⟩

theorem tidy_siteEdits (rest : List Token) (done : List Token) (before : Option Token)
    (inList : Bool) (o : Outline) (k : Sketch ε) (he : enclosed inList done = true)
    (hn : ∀ t ∈ done, t.kind ≠ .eos) (h : Tidy inList (before.map (·.kind)) (done ++ rest) o k) :
    Tidy false ((done.getLast?.or before).map (·.kind)) rest
        (siteEdits style (sitesUpTo before done rest) o).2
        (Sketch.applyAll f (siteEdits style (sitesUpTo before done rest) o).1 k) ∧
      Steady f k (siteEdits style (sitesUpTo before done rest) o).1 := by
  obtain ⟨inside, hi, h1⟩ := tidy_siteEdits_of_append (f := f) style rest [] done before inList o k
    (by rwa [List.append_nil]) hn h
  obtain rfl : inside = false := by simpa [enclosed] using hi
  exact h1

end

def sketchAfter (style : Style) (f : Formatter ε) (done rest : List Token) : Sketch ε :=
  Sketch.applyAll f (opening (done ++ rest) ++ (editsUpTo style done rest).1) {}

theorem sketchAfter_append (style : Style) (f : Formatter ε) (xs ys rest : List Token) :
    sketchAfter style f (xs ++ ys) rest =
      Sketch.applyAll f
        (siteEdits style (sitesUpTo xs.getLast? ys rest) (outlineAfter style xs (ys ++ rest))).1
        (sketchAfter style f xs (ys ++ rest)) := by
  simp [sketchAfter, editsUpTo_append]

theorem tidy_opening (f : Formatter ε) (ts : List Token) :
    Tidy false none ts {} (Sketch.applyAll f (opening ts) {}) ∧ AllFit False (opening ts) := by
  have hf : AllFit False (opening ts) := by unfold opening; split <;> simp
  refine ⟨⟨Sketch.barred_all_applyAll hf rfl fun hb => hb.elim, ?_, ?_, ?_, ?_, ?_, ?_⟩, hf⟩
  all_goals intro h; cases h
  rfl

theorem tidy_sketchAfter (style : Style) (f : Formatter ε) (rest : List Token) {done : List Token}
    (he : enclosed false done = true) (hn : ∀ t ∈ done, t.kind ≠ .eos) :
    Tidy false (done.getLast?.map (·.kind)) rest (outlineAfter style done rest)
      (sketchAfter style f done rest) := by
  obtain ⟨h, -⟩ := tidy_opening f (done ++ rest)
  obtain ⟨ht, -⟩ := tidy_siteEdits (f := f) style rest done none false {} _ he hn h
  rw [Option.or_none] at ht
  rwa [sketchAfter, Sketch.applyAll_append]

theorem draws_sheetAfter_of_append (style : Style) (f : Formatter ε) (rest more : List Token)
    {page : Page} (hp : isBlank page.indentChar = true) {done : List Token}
    (he : enclosed false (done ++ more) = true) (hn : ∀ t ∈ done, t.kind ≠ .eos) :
    (sheetAfter style page f done rest).Draws (sketchAfter style f done rest) := by
  obtain ⟨h, hf⟩ := tidy_opening f (done ++ rest)
  obtain ⟨-, -, -, hs⟩ :=
    tidy_siteEdits_of_append (f := f) style rest more done none false {} _ he hn h
  rw [sheetAfter, sketchAfter, Sheet.applyAll_append, Sketch.applyAll_append]
  exact hs page _ hp (Sheet.Draws.blank.applyAll hp hf)

/-- **Every layout draws the same sketch.** -/
theorem draws_sheetAfter (style : Style) (f : Formatter ε) (rest : List Token) {page : Page}
    (hp : isBlank page.indentChar = true) {done : List Token}
    (he : enclosed false done = true) (hn : ∀ t ∈ done, t.kind ≠ .eos) :
    (sheetAfter style page f done rest).Draws (sketchAfter style f done rest) ∧
      barred (sketchAfter style f done rest).all = true :=
  ⟨draws_sheetAfter_of_append style f rest [] hp (by rwa [List.append_nil]) hn,
    (tidy_sketchAfter style f rest he hn).barred⟩

end PugPretty
