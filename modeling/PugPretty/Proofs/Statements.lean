import PugPretty.Proofs.Requests
import PugPretty.Proofs.Sketch

/-!
# Printing statements

A statement on which the formatter fails is printed as it is (`text_code`), and what has been printed
before the end of the stream is never torn apart later (`infix_of_keeps`).
-/

namespace PugPretty

open Text

/-! ## The line of a statement -/

def codeSign (mustEscape buffer : Bool) : Text :=
  if buffer then (if mustEscape then ['='] else ['!', '=']) else ['-']

section
variable {ε : Type} (style : Style) (page : Page) (f : Formatter ε)

theorem resolve_of_error {f : Formatter ε} {r : Request} (hg : r.grammar = .statement)
    {s : Session ε} {e : ε} (h : f s.requests r = .error e) : (s.resolve f r).1 = r.code.toList := by
  obtain ⟨code, width, quotes, grammar, semicolons⟩ := r
  cases hg
  simp only [Session.resolve, Session.ask, h]

theorem edits_code {s : Site} {r : Request} {flow : Flow} {mustEscape buffer : Bool}
    (hk : s.token.kind = .code r.code mustEscape buffer)
    (hr : s.token.kind.requests style flow = [r]) (o : Outline) :
    tokenEdits style s o =
      (s.indentation o.depth ++ [.put (codeSign mustEscape buffer), .say " ", .write [.code r]], o) := by
  rw [hk] at hr
  simp only [Kind.requests] at hr
  split at hr
  · cases hr
  next hb =>
  have hc : statement style.quotes (style.semicolons && !mustEscape && !buffer) r.code.toList =
      [.code r] := congrArg (fun r => [Part.code r]) (List.cons.inj hr).1
  unfold tokenEdits
  rw [hk]
  simp only [codeEdits, hc, hb]
  cases buffer <;> cases mustEscape <;> rfl

theorem text_code {t : Token} {r : Request} {flow : Flow} {mustEscape buffer : Bool}
    (hk : t.kind = .code r.code mustEscape buffer) (hr : t.kind.requests style flow = [r])
    (done rest : List Token) :
    (sheetAfter style page f (done ++ [t]) rest).draft.text =
      (sheetAfter style page f done (t :: rest)).draft.text ++
        leadText page (done.getLast?.map (·.kind)) (nesting done) ++ codeSign mustEscape buffer ++
        ' ' :: ((sheetAfter style page f done (t :: rest)).session.resolve f r).1 := by
  let s : Site := ⟨done.getLast?, t, rest⟩
  rw [sheetAfter_snoc, edits_code style (s := s) hk hr, Sheet.applyAll_append, applyAll_indentation]
  simp [Sheet.edit, Sheet.apply_write, Content.resolve, s, Site.prev?, depth_outlineAfter]

end

/-! ## What has been printed stays -/

/-- Some glyphs stand in one of the parts of a sketch. While a list is open they do not count in the
last part, since its parenthesis may be taken back. -/
def Sketch.Keeps {ε : Type} (gs : List Glyph) (inList : Bool) (k : Sketch ε) : Prop :=
  gs <:+: k.front ∨ gs <:+: k.middle ∨ (inList = false ∧ gs <:+: k.rear)

namespace Sketch.Keeps

variable {ε : Type} {f : Formatter ε} {gs : List Glyph} {inList : Bool} {k : Sketch ε}

theorem apply (h : k.Keeps gs inList) {bar : Prop} {e : Edit} (he : e.Fits bar) :
    (k.apply f e).Keeps gs inList := by
  have hadd : ∀ more, (k.add more).Keeps gs inList := fun more =>
    h.imp_right fun h => h.imp_right fun h => ⟨h.1, h.2.trans (List.infix_append' [] k.rear more)⟩
  cases e with
  | write c => exact hadd _
  | writeInert c => exact hadd _
  | softBreak n flat => exact hadd _
  | indent n =>
    simp only [Sketch.apply]
    split
    · exact h
    · exact hadd _
  | mark =>
    -- all three parts become the first one
    refine .inl ?_
    rcases h with h | h | ⟨-, h⟩
    · exact h.trans ⟨[], k.middle ++ k.rear, by simp [Sketch.apply, Sketch.all]⟩
    · exact h.trans ⟨k.front, k.rear, rfl⟩
    · exact h.trans ⟨k.front ++ k.middle, [], by simp [Sketch.apply, Sketch.all]⟩
  | markClass =>
    refine h.imp_right fun h => .inl ?_
    rcases h with h | ⟨-, h⟩
    · exact h.trans (List.infix_append' [] k.middle k.rear)
    · exact h.trans ⟨k.middle, [], by simp [Sketch.apply]⟩
  | addClass name =>
    exact h.imp_right fun h => h.imp_left fun h => h.trans (List.infix_append' [] k.middle _)
  | addId name => exact h.imp_left fun h => h.trans (List.infix_append' [] k.front _)
  | beginGroup fc => exact h
  | endGroup => exact h
  | dropOpenParen | finish => exact he.elim

theorem applyAll (h : k.Keeps gs inList) {bar : Prop} {es : List Edit} (he : AllFit bar es) :
    (Sketch.applyAll f es k).Keeps gs inList := by
  induction es generalizing k with
  | nil => exact h
  | cons e es ih =>
    rw [allFit_cons] at he
    exact ih (h.apply he.1) he.2

/-- A place for classes shelters what stands before it from the list that follows. -/
theorem markClass (h : k.Keeps gs inList) (inList' : Bool) :
    (k.apply f .markClass).Keeps gs inList' := by
  rcases h.apply (f := f) (show Edit.Fits True .markClass from trivial) with h | h | ⟨-, h⟩
  · exact .inl h
  · exact .inr (.inl h)
  · exact .inl (h.trans (List.nil_infix))

theorem close (h : k.Keeps gs true) : k.Keeps gs false :=
  h.imp_right fun h => .inl (h.resolve_right fun h => by cases h.1)

theorem dropOpenParen (h : k.Keeps gs true) : (k.apply f .dropOpenParen).Keeps gs false :=
  h.imp_right fun h => .inl (h.resolve_right fun h => by cases h.1)

end Sketch.Keeps

section
variable {ε : Type} {f : Formatter ε} (style : Style) {gs : List Glyph}

theorem keeps_closing {o : Outline} {k : Sketch ε} (h : k.Keeps gs o.listOpen) :
    (Sketch.applyAll f (closing o) k).Keeps gs false := by
  unfold closing
  split
  · next hl => rw [hl] at h; exact h
  · next hl =>
    rw [show o.listOpen = true by simpa using hl] at h
    split
    · exact h.dropOpenParen (f := f)
    · have hf : AllFit True [.softBreak o.depth [], .say ")"] := by simp
      exact h.close.applyAll hf

/-- No token but the end of the stream takes back what has been printed. -/
theorem keeps_tokenEdits {s : Site} {o : Outline} {k : Sketch ε} (he : s.token.kind ≠ .eos)
    (h : k.Keeps gs o.listOpen) :
    (Sketch.applyAll f (tokenEdits style s o).1 k).Keeps gs (tokenEdits style s o).2.listOpen := by
  by_cases hl : s.token.kind.listPart = false
  · rw [(list_tokenEdits style s o hl).1]
    exact h.applyAll (fits_tokenEdits style s o hl he)
  · cases hk : s.token.kind with
    | startAttributes =>
      rw [tokenEdits_start style hk]
      cases attributeRun s.rest with
      | nil =>
        obtain ⟨hf, ho⟩ := openList_nil style o
        rw [ho]
        exact h.applyAll hf
      | cons a run =>
        obtain ⟨fc, es, hes, hf, -, -⟩ := openList_cons style o a run
        have hm : AllFit True (.say "(" :: .beginGroup fc :: es) := by simp [hf]
        rw [hes]
        -- the place for classes is marked before the parenthesis that may be taken back
        exact (h.markClass (f := f) _).applyAll hm
    | attr a =>
      rw [tokenEdits_attr style hk, listOpen_writeAttribute]
      exact h.applyAll (fits_writeAttribute style o a)
    | endAttributes =>
      rw [tokenEdits_end style hk, closeList_eq, Sketch.applyAll_append]
      exact (keeps_closing h).applyAll (fits_spaceBehind s)
    | _ => rw [hk] at hl; exact absurd rfl hl

theorem keeps_siteEdits (ss : List Site) (hs : ∀ s ∈ ss, s.token.kind ≠ .eos) {o : Outline}
    {k : Sketch ε} (h : k.Keeps gs o.listOpen) :
    (Sketch.applyAll f (siteEdits style ss o).1 k).Keeps gs (siteEdits style ss o).2.listOpen := by
  induction ss generalizing o k with
  | nil => exact h
  | cons s ss ih =>
    rw [List.forall_mem_cons] at hs
    simp only [siteEdits, Sketch.applyAll_append]
    exact ih hs.2 (keeps_tokenEdits style hs.1 h)

theorem mem_sitesUpTo {s : Site} (rest : List Token) :
    ∀ (before : Option Token) (ts : List Token), s ∈ sitesUpTo before ts rest → s.token ∈ ts
  | _, [], h => by cases h
  | _, t :: ts, h => by
    rcases List.mem_cons.1 h with rfl | h
    · exact List.mem_cons_self
    · exact List.mem_cons_of_mem t (mem_sitesUpTo rest (some t) ts h)

theorem session_indentation (s : Site) (depth : Nat) (k : Sketch ε) :
    (Sketch.applyAll f (s.indentation depth) k).session = k.session := by
  have hi : ∀ n, (k.apply f (.indent n)).session = k.session := by
    intro n
    simp only [Sketch.apply]
    split <;> rfl
  unfold Site.indentation
  split
  · exact hi depth
  · exact hi depth
  · exact hi 1
  · rfl

theorem rear_code (sign : Text) (r : Request) (k : Sketch ε) :
    (Sketch.applyAll f [.put sign, .say " ", .write [.code r]] k).rear =
      k.rear ++ glyphs sign ++ glyphs [' '] ++ glyphs (k.session.resolve f r).1 := by
  simp [Sketch.apply, Sketch.add, Edit.put, Edit.say, Content.resolve]

theorem keeps_code {done more : List Token} (rest : List Token) {t : Token}
    (he : enclosed false (done ++ t :: more) = true) (hn : ∀ u ∈ done ++ t :: more, u.kind ≠ .eos)
    {r : Request} {flow : Flow} {mustEscape buffer : Bool}
    (hk : t.kind = .code r.code mustEscape buffer) (hr : t.kind.requests style flow = [r]) :
    (sketchAfter style f (done ++ t :: more) rest).Keeps
      (glyphs ((sketchAfter style f done (t :: (more ++ rest))).session.resolve f r).1)
      (outlineAfter style (done ++ t :: more) rest).listOpen := by
  have hd : enclosed false done = true := enclosed_before (by rw [hk]; rfl) more _ _ he
  rw [List.forall_mem_append, List.forall_mem_cons] at hn
  let s : Site := ⟨done.getLast?, t, more ++ rest⟩
  have hes := edits_code style (s := s) hk hr (outlineAfter style done (t :: (more ++ rest)))
  have hl := listOpen_outlineAfter style (t :: (more ++ rest)) hd
  have hc : done ++ t :: more = done ++ ([t] ++ more) := rfl
  rw [hc, sketchAfter_append, outlineAfter_append]
  simp only [List.cons_append, List.nil_append, sitesUpTo, siteEdits]
  rw [hes, Sketch.applyAll_append, Sketch.applyAll_append]
  refine keeps_siteEdits style _ (fun s hs => hn.2.2 _ (mem_sitesUpTo rest _ _ hs)) ?_
  refine .inr (.inr ⟨hl, ?_⟩)
  rw [← session_indentation (f := f) s (outlineAfter style done (t :: (more ++ rest))).depth,
    rear_code]
  exact List.infix_append_right

end

/-! ## Texts inside texts -/

theorem Shows.split {gs hs : List Glyph} {t : Text} (h : Shows (gs ++ hs) t) :
    ∃ u v, t = u ++ v ∧ Shows gs u ∧ Shows hs v := by
  induction gs generalizing t with
  | nil => exact ⟨[], t, rfl, .nil, h⟩
  | cons g gs ih =>
    cases h with
    | char c h =>
      obtain ⟨u, v, rfl, hu, hv⟩ := ih h
      exact ⟨c :: u, v, rfl, .char c hu, hv⟩
    | gap w hw h =>
      obtain ⟨u, v, rfl, hu, hv⟩ := ih h
      exact ⟨w ++ u, v, (List.append_assoc ..).symm, .gap w hw hu, hv⟩

theorem Shows.eq_of_glyphs {t u : Text} (h : Shows (glyphs t) u) : u = t := by
  induction t generalizing u with
  | nil => cases h; rfl
  | cons c t ih =>
    obtain ⟨v, rfl, hv⟩ := shows_cons_char h
    rw [ih hv]

theorem Shows.infix {gs : List Glyph} {t u : Text} (h : Shows gs t) (hu : glyphs u <:+: gs) :
    u <:+: t := by
  obtain ⟨as, bs, rfl⟩ := hu
  obtain ⟨v, w, rfl, hv, -⟩ := h.split
  obtain ⟨a, b, rfl, -, hb⟩ := hv.split
  rw [hb.eq_of_glyphs]
  exact ⟨a, w, rfl⟩

theorem Sheet.Draws.infix_of_keeps {ε : Type} {s : Sheet ε} {k : Sketch ε} (h : s.Draws k) {t : Text}
    {inList : Bool} (hk : k.Keeps (glyphs t) inList) : t <:+: s.draft.text := by
  refine h.text.infix ?_
  rcases hk with hk | hk | ⟨-, hk⟩
  · exact hk.trans ⟨[], k.middle ++ k.rear, by simp [Sketch.all]⟩
  · exact hk.trans ⟨k.front, k.rear, rfl⟩
  · exact hk.trans ⟨k.front ++ k.middle, [], by simp [Sketch.all]⟩

end PugPretty
