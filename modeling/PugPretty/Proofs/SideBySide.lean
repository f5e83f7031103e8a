import PugPretty.Proofs.FinishedLines
import PugPretty.Proofs.LineStarts

/-!
# Drafts that differ in their beginning

The same edits are made to two drafts that begin with different texts. What they add is the same and
goes to the same places as soon as shorthand has a mark to go to, and the same code is sent to the
formatter. Only an attribute list looks at what is in front of it: whether it is broken depends on
the column where it begins, so it must not stand on a line on which the two drafts differ
(`beside_siteEdits`).
-/

namespace PugPretty

open Text

/-! ## Edits that look at the column -/

def Edit.measures : Edit → Bool
  | .beginGroup _ => true
  | _ => false

def Unmeasured (es : List Edit) : Prop := ∀ e ∈ es, e.measures = false

@[simp] theorem unmeasured_nil : Unmeasured [] := by simp [Unmeasured]

@[simp] theorem unmeasured_cons (e : Edit) (es : List Edit) :
    Unmeasured (e :: es) ↔ e.measures = false ∧ Unmeasured es := List.forall_mem_cons

@[simp] theorem unmeasured_append (es fs : List Edit) :
    Unmeasured (es ++ fs) ↔ Unmeasured es ∧ Unmeasured fs := List.forall_mem_append

@[simp] theorem measures_put (t : Text) : (Edit.put t).measures = false := rfl

@[simp] theorem measures_say (t : String) : (Edit.say t).measures = false := rfl

@[simp] theorem measures_write (c : Content) : (Edit.write c).measures = false := rfl

@[simp] theorem measures_writeInert (c : Content) : (Edit.writeInert c).measures = false := rfl

@[simp] theorem measures_indent (n : Nat) : (Edit.indent n).measures = false := rfl

@[simp] theorem measures_mark : Edit.mark.measures = false := rfl

@[simp] theorem measures_addClass (n : Text) : (Edit.addClass n).measures = false := rfl

@[simp] theorem measures_addId (n : Text) : (Edit.addId n).measures = false := rfl

@[simp] theorem measures_softBreak (n : Nat) (flat : Text) :
    (Edit.softBreak n flat).measures = false := rfl

@[simp] theorem measures_endGroup : Edit.endGroup.measures = false := rfl

section
variable (style : Style) (s : Site) (o : Outline)

theorem unmeasured_indentation (depth : Nat) : Unmeasured (s.indentation depth) := by
  unfold Site.indentation; split <;> simp

theorem unmeasured_lineBreaks : Unmeasured (lineBreaks s) := by
  unfold lineBreaks; split <;> simp

theorem unmeasured_flushPending : Unmeasured (flushPending style o).1 := by
  unfold flushPending; split <;> simp

theorem unmeasured_flushAtHeadEnd : Unmeasured (flushAtHeadEnd style s o).1 := by
  unfold flushAtHeadEnd
  split
  · simp
  · exact unmeasured_flushPending style o

theorem unmeasured_textLead (t : Text) : Unmeasured (textLead s o t) := by
  have h := unmeasured_indentation s o.depth
  have hp : Unmeasured (if hasLeadingSpace (collapse t) then [.say "|\n", .indent o.depth] else []) := by
    split <;> simp
  unfold textLead
  dsimp only
  split
  iterate 3
    · simp only [unmeasured_append, unmeasured_cons]
      exact ⟨⟨h, hp⟩, rfl, by split <;> simp⟩
  iterate 3
    · split <;> simp
  · simp

theorem unmeasured_textEdits (t : Text) : Unmeasured (textEdits style s o t) := by
  have hline : ∀ inComment, Unmeasured (blockLineEdits style s o inComment t) := by
    intro inComment
    unfold blockLineEdits
    simp only [unmeasured_append]
    exact ⟨⟨by split <;> simp, by split <;> simp⟩, by simp⟩
  unfold textEdits
  split
  · unfold markupTextEdits
    simp only [unmeasured_append, unmeasured_cons]
    exact ⟨unmeasured_textLead s o t, rfl, by split <;> simp⟩
  · exact hline false
  · exact hline true

/-- Outside attribute lists nothing looks at the column. -/
theorem unmeasured_tokenEdits (hl : s.token.kind.listPart = false) :
    Unmeasured (tokenEdits style s o).1 := by
  have h := unmeasured_indentation s
  unfold tokenEdits
  cases hk : s.token.kind with
  | startAttributes | attr | endAttributes => rw [hk] at hl; cases hl
  | tag name =>
    unfold tagEdits
    simp only [unmeasured_append]
    exact ⟨⟨h _, by split <;> simp⟩, by simp⟩
  | className name =>
    have hf := unmeasured_flushAtHeadEnd style s { o with pending := o.pending ++ [name.toList] }
    unfold classEdits
    dsimp only
    simp only [unmeasured_append]
    refine ⟨⟨?_, ?_⟩, by split <;> simp⟩
    · split
      · simp only [unmeasured_append]
        exact ⟨⟨h _, by split <;> simp⟩, by simp⟩
      · simp
    · split
      · exact hf
      · simp
  | idName name =>
    simp only [idEdits, unmeasured_append, unmeasured_cons]
    refine ⟨?_, rfl, unmeasured_flushAtHeadEnd style s o⟩
    split <;> simp [h]
  | text val => exact unmeasured_textEdits style s o _
  | interpolatedCode code mustEscape buffer =>
    simp only [unmeasured_append, inlineCodeLead]
    refine ⟨?_, by simp⟩
    split <;> simp [h]
  | code code mustEscape buffer =>
    simp only [unmeasured_append, codeEdits, unmeasured_cons]
    refine ⟨h _, rfl, ?_⟩
    split <;> simp
  | outdent =>
    simp only [outdentEdits]
    split
    · simp
    · simp
    · exact unmeasured_lineBreaks s
  | newline => exact unmeasured_lineBreaks s
  | comment body buffer =>
    simp only [commentEdits, unmeasured_append]
    refine ⟨⟨h _, ?_⟩, by simp⟩
    split <;> simp
  | doctype name => simp only; split <;> simp
  | path file => simp only; split <;> simp
  | eos => simp [Edit.measures]
  | _ => simp [h]

theorem unmeasured_writeItem (name : String) (value : Option Content) (mustEscape : Bool) :
    Unmeasured (writeItem style name value mustEscape o).1 := by
  have hc : ∀ c : Bool, Unmeasured (if c then [.say ","] else []) := by
    intro c; cases c <;> simp
  unfold writeItem
  simp only [unmeasured_append, unmeasured_cons]
  refine ⟨?_, rfl, ?_⟩
  · split
    · simp
    · simp only [unmeasured_append]
      exact ⟨hc _, by simp⟩
  · split <;> simp

theorem unmeasured_writeAttribute (a : Attribute) : Unmeasured (writeAttribute style a o).1 := by
  unfold writeAttribute
  dsimp only
  split
  · dsimp only
    rw [unmeasured_append]
    refine ⟨fun e he => ?_, ?_⟩
    · obtain ⟨c, -, rfl⟩ := List.mem_map.1 he; rfl
    · split
      · simp
      · exact unmeasured_writeItem style _ _ _ _
  · exact unmeasured_writeItem style _ _ _ _
  · simp
  · exact unmeasured_writeItem style o _ _ _

theorem unmeasured_spaceBehind : Unmeasured (.endGroup :: spaceBehind s) := by
  unfold spaceBehind
  split <;> simp

end

/-! ## Two sheets -/

structure Sheet.Beside {ε : Type} (u u' : Text) (s s' : Sheet ε) : Prop where
  text : ∃ r, s.draft.text = u ++ r ∧ s'.draft.text = u' ++ r
  broken : s'.broken = s.broken
  session : s'.session = s.session

/-- The sheets differ in the text they begin with, and that text stands in front of the place for
ids. Behind the place for classes stands `z`. -/
structure Sheet.Twin {ε : Type} (u u' z : Text) (s s' : Sheet ε) : Prop where
  parts : ∃ r y, s.draft.Parts (u ++ r) y z ∧ s'.draft.Parts (u' ++ r) y z
  broken : s'.broken = s.broken
  session : s'.session = s.session

section
variable {ε : Type} {u u' z : Text} {s s' : Sheet ε}

theorem Sheet.Twin.beside (h : s.Twin u u' z s') : s.Beside u u' s' := by
  obtain ⟨⟨r, y, hp, hp'⟩, hb, hc⟩ := h
  exact ⟨⟨r ++ y ++ z, by rw [hp.text]; simp, by rw [hp'.text]; simp⟩, hb, hc⟩

variable (page : Page) (f : Formatter ε)

theorem Sheet.Beside.apply (h : s.Beside u u' s') {e : Edit} (he : e.appends = true)
    (hm : e.measures = false) : (s.apply page f e).Beside u u' (s'.apply page f e) := by
  obtain ⟨d', b', c'⟩ := s'
  obtain ⟨⟨r, ht, ht'⟩, rfl, rfl⟩ := h
  have hw : ∀ t : Text, ∃ r, (s.draft.write t).text = u ++ r ∧ (d'.write t).text = u' ++ r :=
    fun t => ⟨r ++ t, by simp [ht], by simp [show d'.text = u' ++ r from ht']⟩
  cases e with
  | write c => exact ⟨hw _, rfl, rfl⟩
  | writeInert c => exact ⟨hw _, rfl, rfl⟩
  | indent n => exact ⟨hw _, rfl, rfl⟩
  | softBreak n flat => exact ⟨hw _, rfl, rfl⟩
  | mark | markClass | endGroup => exact ⟨⟨r, ht, ht'⟩, rfl, rfl⟩
  | beginGroup => cases hm
  | addClass | addId | dropOpenParen | finish => cases he

theorem Sheet.Beside.applyAll {es : List Edit} (he : es.all Edit.appends = true)
    (hm : Unmeasured es) (h : s.Beside u u' s') :
    (Sheet.applyAll page f es s).Beside u u' (Sheet.applyAll page f es s') := by
  induction es generalizing s s' with
  | nil => exact h
  | cons e es ih =>
    rw [List.all_cons, Bool.and_eq_true] at he
    rw [unmeasured_cons] at hm
    exact ih he.2 hm.2 (h.apply page f he.1 hm.1)

theorem Sheet.Beside.mark (h : s.Beside u u' s') :
    (s.apply page f .mark).Twin u u' [] (s'.apply page f .mark) := by
  obtain ⟨⟨r, ht, ht'⟩, hb, hc⟩ := h
  exact ⟨⟨r, [], ht ▸ Draft.Parts.mark s.draft, ht' ▸ Draft.Parts.mark s'.draft⟩, hb, hc⟩

theorem Sheet.Twin.markClass (h : s.Twin u u' z s') :
    (s.apply page f .markClass).Twin u u' [] (s'.apply page f .markClass) := by
  obtain ⟨⟨r, y, hp, hp'⟩, hb, hc⟩ := h
  exact ⟨⟨r, y ++ z, hp.markClass, hp'.markClass⟩, hb, hc⟩

theorem Sheet.Twin.write (h : s.Twin u u' z s') (t : Text) :
    (s.edit (·.write t)).Twin u u' (z ++ t) (s'.edit (·.write t)) := by
  obtain ⟨⟨r, y, hp, hp'⟩, hb, hc⟩ := h
  exact ⟨⟨r, y, hp.write t, hp'.write t⟩, hb, hc⟩

/-- What moves out of a list leaves the end of the text alone. -/
theorem Sheet.Twin.moves (h : s.Twin u u' z s') {e : Edit} (he : e.movesOnly) :
    (s.apply page f e).Twin u u' z (s'.apply page f e) := by
  obtain ⟨⟨r, y, hp, hp'⟩, hb, hc⟩ := h
  cases e with
  | addClass name => exact ⟨⟨r, _, hp.addClass name, hp'.addClass name⟩, hb, hc⟩
  | addId name =>
    have hp1 := hp.addId name
    have hp1' := hp'.addId name
    rw [List.append_assoc] at hp1 hp1'
    exact ⟨⟨_, y, hp1, hp1'⟩, hb, hc⟩
  | _ => exact he.elim

theorem Sheet.Twin.movesAll {es : List Edit} (he : ∀ e ∈ es, e.movesOnly) (h : s.Twin u u' z s') :
    (Sheet.applyAll page f es s).Twin u u' z (Sheet.applyAll page f es s') := by
  induction es generalizing s s' with
  | nil => exact h
  | cons e es ih =>
    obtain ⟨he, hes⟩ := List.forall_mem_cons.1 he
    exact ih hes (h.moves page f he)

theorem Sheet.Twin.dropOpenParen (h : s.Twin u u' ['('] s') :
    (s.apply page f .dropOpenParen).Twin u u' [] (s'.apply page f .dropOpenParen) := by
  obtain ⟨⟨r, y, hp, hp'⟩, hb, hc⟩ := h
  exact ⟨⟨r, y, Draft.Parts.dropOpenParen hp, Draft.Parts.dropOpenParen hp'⟩, hb, hc⟩

theorem Sheet.Twin.apply (h : s.Twin u u' z s') {e : Edit} (he : e.Fits True)
    (hm : e.measures = false) : ∃ z', (s.apply page f e).Twin u u' z' (s'.apply page f e) := by
  cases e with
  | mark => exact ⟨[], h.beside.mark page f⟩
  | markClass => exact ⟨[], h.markClass page f⟩
  | addClass name => exact ⟨z, h.moves page f trivial⟩
  | addId name => exact ⟨z, h.moves page f trivial⟩
  | indent n => exact ⟨_, h.write _⟩
  | endGroup => exact ⟨z, h.parts, rfl, h.session⟩
  | beginGroup => cases hm
  | dropOpenParen | finish => exact he.elim
  | write c | writeInert c | softBreak n flat =>
    obtain ⟨d', b', c'⟩ := s'
    obtain ⟨⟨r, y, hp, hp'⟩, rfl, rfl⟩ := h
    exact ⟨_, ⟨r, y, hp.write _, hp'.write _⟩, rfl, rfl⟩

theorem Sheet.Twin.applyAll {bar : Prop} {es : List Edit} (he : AllFit bar es) (hm : Unmeasured es)
    (h : s.Twin u u' z s') :
    ∃ z', (Sheet.applyAll page f es s).Twin u u' z' (Sheet.applyAll page f es s') := by
  induction es generalizing s s' z with
  | nil => exact ⟨z, h⟩
  | cons e es ih =>
    rw [allFit_cons] at he
    rw [unmeasured_cons] at hm
    obtain ⟨z', h'⟩ := h.apply page f (he.1.mono fun _ => trivial) hm.1
    exact ih he.2 hm.2 h'

/-! ## The column -/

theorem lastLine_append_feed (t b : Text) : lastLine (t ++ '\n' :: b) = lastLine ('\n' :: b) := by
  simp [lastLine, List.takeWhile_append]

theorem lastLine_append_of_mem {r : Text} (hr : '\n' ∈ r) (u u' : Text) :
    lastLine (u ++ r) = lastLine (u' ++ r) := by
  obtain ⟨a, b, rfl⟩ := List.append_of_mem hr
  rw [← List.append_assoc, ← List.append_assoc, lastLine_append_feed, lastLine_append_feed]

theorem lastLine_append_congr {u u' : Text} (h : lastLine u = lastLine u') (r : Text) :
    lastLine (u ++ r) = lastLine (u' ++ r) := by
  by_cases hr : '\n' ∈ r
  · exact lastLine_append_of_mem hr u u'
  · have hne : ∀ c ∈ r, c ≠ '\n' := fun c hc hn => hr (hn ▸ hc)
    rw [lastLine_append hne, lastLine_append hne, h]

theorem column_congr {d d' : Draft} (h : lastLine d.text = lastLine d'.text) (tab : Nat) :
    d.column tab = d'.column tab := by
  have hc : ∀ t, columnOf tab t = ((lastLine t).takeWhile (· == '\t')).length * tab +
      ((lastLine t).dropWhile (· == '\t')).length := fun _ => rfl
  rw [← columnOf_text, ← columnOf_text, hc, hc, h]

/-- Where a line feed has been written behind the beginnings, or they end alike, the sheets are at the
same column. -/
theorem Sheet.Twin.beginGroup (h : s.Twin u u' z s') (hu : '\n' ∉ u)
    (hl : lastLine u = lastLine u' ∨ '\n' ∈ s.draft.text) (fc : Forecast) :
    (s.apply page f (.beginGroup fc)).Twin u u' z (s'.apply page f (.beginGroup fc)) := by
  obtain ⟨⟨r, ht, ht'⟩, -, -⟩ := h.beside
  have hline : lastLine s'.draft.text = lastLine s.draft.text := by
    rw [ht, ht']
    rcases hl with hl | hl
    · exact (lastLine_append_congr hl r).symm
    · have hr : '\n' ∈ r := by simpa [ht, hu] using hl
      exact lastLine_append_of_mem hr u' u
  refine ⟨h.parts, ?_, h.session⟩
  show page.breaks (s'.draft.column page.tab) fc = page.breaks (s.draft.column page.tab) fc
  rw [column_congr hline]

theorem mem_text_insertAt {d : Draft} {c : Char} (h : c ∈ d.text) (n : Nat) (t : Text) :
    c ∈ (d.insertAt n t).text := by
  unfold Draft.insertAt
  split
  · next behind before hs =>
    unfold Draft.splitAt? at hs
    split at hs
    · rw [Draft.text, ← append_of_splitAtByte? hs] at h
      simp only [Draft.text, List.reverse_append, List.mem_append, List.mem_reverse] at h ⊢
      tauto
    · cases hs
  · exact h

theorem feed_mem_apply (e : Edit) (h : '\n' ∈ s.draft.text) :
    '\n' ∈ (s.apply page f e).draft.text := by
  by_cases he : e.appends = true
  · exact (prefix_apply page f he s).mem h
  cases e with
  | addClass name => exact mem_text_insertAt h _ _
  | addId name => exact mem_text_insertAt h _ _
  | dropOpenParen =>
    show '\n' ∈ s.draft.dropOpenParen.text
    unfold Draft.dropOpenParen
    split
    · next r hr => simpa [Draft.text, hr] using h
    · exact h
  | finish =>
    show '\n' ∈ s.draft.finish.text
    rw [Draft.text_finish]
    simp
  | _ => exact absurd rfl he

theorem feed_mem_applyAll (es : List Edit) (h : '\n' ∈ s.draft.text) :
    '\n' ∈ (Sheet.applyAll page f es s).draft.text := by
  induction es generalizing s with
  | nil => exact h
  | cons e es ih => exact ih (feed_mem_apply page f e h)

theorem feed_mem_of_say {es : List Edit} (he : Edit.say "\n" ∈ es) (s : Sheet ε) :
    '\n' ∈ (Sheet.applyAll page f es s).draft.text := by
  obtain ⟨as, bs, rfl⟩ := List.append_of_mem he
  rw [Sheet.applyAll_append, Sheet.applyAll_cons]
  refine feed_mem_applyAll page f bs ?_
  rw [Sheet.apply_say]
  show '\n' ∈ (Draft.write _ _).text
  rw [Draft.text_write]
  exact List.mem_append_right _ (List.mem_singleton_self _)

end

/-! ## One token -/

/-- Whether every class, id and attribute list comes behind a mark. `marked` tells whether there is
one in front of the tokens, and `opensLine` whether they begin a line. -/
def rooted : Bool → Bool → List Token → Bool
  | _, _, [] => true
  | marked, opensLine, t :: ts =>
    let marked := marked || t.kind.marks opensLine
    (marked || !t.kind.joinsHead) && rooted marked t.kind.endsLine ts

theorem rooted_cons {marked opensLine : Bool} {t : Token} {ts : List Token} :
    rooted marked opensLine (t :: ts) = true ↔
      (t.kind.joinsHead = true → (marked || t.kind.marks opensLine) = true) ∧
        rooted (marked || t.kind.marks opensLine) t.kind.endsLine ts = true := by
  simp only [rooted, Bool.and_eq_true, Bool.or_eq_true, Bool.not_eq_true']
  cases t.kind.joinsHead <;> simp

def listsBelow : List Token → Bool
  | [] => true
  | t :: ts => t.kind.feedsLine || (!t.kind.listPart && listsBelow ts)

/-- The sheets are twins from the first mark on. An open list without items has nothing but its
parenthesis behind the place for classes. -/
structure Sheet.Paired {ε : Type} (u u' : Text) (marked : Bool) (o : Outline) (s s' : Sheet ε) :
    Prop where
  beside : s.Beside u u' s'
  twin : marked = true → ∃ z, s.Twin u u' z s' ∧ (o.listOpen = true → o.written = 0 → z = ['('])

theorem paired_of_twin {ε : Type} {u u' z : Text} {s s' : Sheet ε} (h : s.Twin u u' z s')
    (marked : Bool) {o : Outline} (hz : o.listOpen = true → o.written = 0 → z = ['(']) :
    s.Paired u u' marked o s' := ⟨h.beside, fun _ => ⟨z, h, hz⟩⟩

section
variable {ε : Type} (style : Style) {s : Site} {o : Outline} (page : Page) (f : Formatter ε)
  {u u' z : Text} {sh sh' : Sheet ε} {marked : Bool}

theorem unmeasured_openList (a : Attribute) (run : List Attribute) (o : Outline) :
    ∃ fc es, (openList style (a :: run) o).1 = [.markClass, .say "(", .beginGroup fc] ++ es ∧
      Unmeasured es := by
  unfold openList
  simp only [List.isEmpty_cons, Bool.false_eq_true, if_false]
  split
  · exact ⟨_, [], rfl, by simp⟩
  · exact ⟨_, _, rfl, unmeasured_writeItem _ _ _ _ _⟩

theorem paired_openList (h : sh.Twin u u' z sh') (hu : '\n' ∉ u)
    (hl : lastLine u = lastLine u' ∨ '\n' ∈ sh.draft.text) (ho : o.listOpen = false)
    (run : List Attribute) (marked : Bool) :
    (Sheet.applyAll page f (openList style run o).1 sh).Paired u u' marked (openList style run o).2
      (Sheet.applyAll page f (openList style run o).1 sh') := by
  cases run with
  | nil =>
    have hm : Unmeasured (openList style [] o).1 := by
      simpa [openList] using unmeasured_flushPending style { o with written := 0 }
    obtain ⟨hf, hopen⟩ := openList_nil style o
    obtain ⟨z', hz⟩ := h.applyAll page f hf hm
    exact paired_of_twin hz marked fun hx => by rw [hopen, ho] at hx; cases hx
  | cons a run =>
    obtain ⟨fc, es, he, hf, -, hw⟩ := openList_cons style o a run
    obtain ⟨fc', es', he', hm⟩ := unmeasured_openList style a run o
    rw [he] at he'
    simp only [List.cons_append, List.nil_append, List.cons.injEq] at he'
    obtain ⟨-, -, -, rfl⟩ := he'
    have hopen := (h.markClass page f).write ['(']
    have hgroup := hopen.beginGroup page f hu (hl.imp_right fun hmem => by
      show '\n' ∈ (Draft.write ['('] _).text
      rw [Draft.text_write]
      exact List.mem_append_left _ hmem) fc
    rw [he]
    simp only [Sheet.applyAll_append, Sheet.applyAll_cons, Sheet.applyAll_nil, Sheet.apply_say]
    by_cases hzero : (openList style (a :: run) o).2.written = 0
    · rw [hw hzero]
      exact paired_of_twin hgroup marked fun _ _ => rfl
    · obtain ⟨z', hz⟩ := hgroup.applyAll page f hf hm
      exact paired_of_twin hz marked fun _ hx => absurd hx hzero

theorem paired_writeAttribute (h : sh.Twin u u' z sh')
    (hz : o.listOpen = true → o.written = 0 → z = ['(']) (a : Attribute) (marked : Bool) :
    (Sheet.applyAll page f (writeAttribute style a o).1 sh).Paired u u' marked
      (writeAttribute style a o).2 (Sheet.applyAll page f (writeAttribute style a o).1 sh') := by
  by_cases hzero : (writeAttribute style a o).2.written = 0
  · obtain ⟨hw, hmoves⟩ := movesOnly_writeAttribute style o a hzero
    refine paired_of_twin (h.movesAll page f hmoves) marked fun hopen _ => hz ?_ hw
    rwa [listOpen_writeAttribute] at hopen
  · obtain ⟨z', hz'⟩ := h.applyAll page f (fits_writeAttribute style o a)
      (unmeasured_writeAttribute style o a)
    exact paired_of_twin hz' marked fun _ hx => absurd hx hzero

theorem paired_closeList (h : sh.Twin u u' z sh')
    (hz : o.listOpen = true → o.written = 0 → z = ['(']) (marked : Bool) :
    (Sheet.applyAll page f (closeList s o).1 sh).Paired u u' marked (closeList s o).2
      (Sheet.applyAll page f (closeList s o).1 sh') := by
  have hclosing : ∃ z', (Sheet.applyAll page f (closing o) sh).Twin u u' z'
      (Sheet.applyAll page f (closing o) sh') := by
    unfold closing
    split
    · exact ⟨z, h⟩
    · next hl =>
      split
      · next hw =>
        rw [hz (by simpa using hl) hw] at h
        exact ⟨[], h.dropOpenParen page f⟩
      · have hf : AllFit True [.softBreak o.depth [], .say ")"] := by simp
        exact h.applyAll page f hf (by simp)
  obtain ⟨z', hz'⟩ := hclosing
  obtain ⟨z'', hz''⟩ := hz'.applyAll page f (fits_spaceBehind s) (unmeasured_spaceBehind s)
  rw [closeList_eq, Sheet.applyAll_append, Sheet.applyAll_append]
  exact paired_of_twin hz'' marked nofun

theorem paired_other (hl : s.token.kind.listPart = false) (he : s.token.kind ≠ .eos)
    (hj : s.token.kind.joinsHead = true → (marked || s.token.kind.marks s.opensLine) = true)
    (ho : o.listOpen = false) (h : sh.Paired u u' marked o sh') :
    (Sheet.applyAll page f (tokenEdits style s o).1 sh).Paired u u'
      (marked || s.token.kind.marks s.opensLine) (tokenEdits style s o).2
      (Sheet.applyAll page f (tokenEdits style s o).1 sh') := by
  have hf := fits_tokenEdits style s o hl he
  have hm := unmeasured_tokenEdits style s o hl
  have hclosed : (tokenEdits style s o).2.listOpen = false := (list_tokenEdits style s o hl).1.trans ho
  have hz : ∀ z : Text, (tokenEdits style s o).2.listOpen = true →
      (tokenEdits style s o).2.written = 0 → z = ['('] := fun _ hx => by rw [hclosed] at hx; cases hx
  cases marked with
  | true =>
    obtain ⟨z, ht, -⟩ := h.twin rfl
    obtain ⟨z', ht'⟩ := ht.applyAll page f hf hm
    exact paired_of_twin ht' _ (hz z')
  | false =>
    rw [Bool.false_or] at hj ⊢
    by_cases hmarks : s.token.kind.marks s.opensLine = true
    · obtain ⟨as, bs, hes, ha⟩ := marks_tokenEdits style (o := o) hmarks
      rw [hes, allFit_append, allFit_cons] at hf
      rw [hes, unmeasured_append, unmeasured_cons] at hm
      obtain ⟨z', ht'⟩ := ((h.beside.applyAll page f ha hm.1).mark page f).applyAll page f hf.2.2 hm.2.2
      rw [hes, Sheet.applyAll_append, Sheet.applyAll_append, Sheet.applyAll_cons, Sheet.applyAll_cons]
      exact paired_of_twin ht' _ (hz z')
    · -- without a mark the token is no shorthand, so it adds to the end
      have hs : s.token.kind.isShorthand = false := by
        cases hk : s.token.kind <;> rw [hk] at hj hmarks <;> simp_all [Kind.isShorthand, Kind.joinsHead]
      exact ⟨h.beside.applyAll page f (appends_tokenEdits style s o hs hl he) hm,
        fun hx => absurd hx hmarks⟩

theorem paired_token (hu : '\n' ∉ u) (he : s.token.kind ≠ .eos)
    (hj : s.token.kind.joinsHead = true → (marked || s.token.kind.marks s.opensLine) = true)
    (hi : s.token.kind.insideList = true → marked = true)
    (ho : s.token.kind.insideList = false → o.listOpen = false)
    (hl : s.token.kind.listPart = true → lastLine u = lastLine u' ∨ '\n' ∈ sh.draft.text)
    (h : sh.Paired u u' marked o sh') :
    (Sheet.applyAll page f (tokenEdits style s o).1 sh).Paired u u'
      (marked || s.token.kind.marks s.opensLine) (tokenEdits style s o).2
      (Sheet.applyAll page f (tokenEdits style s o).1 sh') := by
  cases hk : s.token.kind with
  | startAttributes =>
    rw [hk] at hj hl ho
    obtain ⟨z, ht, -⟩ := h.twin (by simpa [Kind.marks, Kind.joinsHead] using hj)
    rw [tokenEdits_start style hk]
    exact paired_openList style page f ht hu (hl rfl) (ho rfl) _ _
  | attr a =>
    rw [hk] at hi
    obtain ⟨z, ht, hz⟩ := h.twin (hi rfl)
    rw [tokenEdits_attr style hk]
    exact paired_writeAttribute style page f ht hz a _
  | endAttributes =>
    rw [hk] at hi
    obtain ⟨z, ht, hz⟩ := h.twin (hi rfl)
    rw [tokenEdits_end style hk]
    exact paired_closeList page f ht hz _
  | _ =>
    rw [← hk]
    exact paired_other style page f (by rw [hk]; rfl) he hj (ho (by rw [hk]; rfl)) h

/-! ## The run -/

theorem level_of_list {t : Token} {ts : List Token}
    (hl : lastLine u = lastLine u' ∨ '\n' ∈ sh.draft.text ∨ listsBelow (t :: ts) = true)
    (hk : t.kind.listPart = true) : lastLine u = lastLine u' ∨ '\n' ∈ sh.draft.text := by
  refine hl.imp_right fun hl => hl.resolve_right fun hb => ?_
  cases ht : t.kind <;> simp_all [listsBelow, Kind.listPart, Kind.feedsLine]

theorem level_token {ts : List Token}
    (hl : lastLine u = lastLine u' ∨ '\n' ∈ sh.draft.text ∨ listsBelow (s.token :: ts) = true) :
    lastLine u = lastLine u' ∨
      '\n' ∈ (Sheet.applyAll page f (tokenEdits style s o).1 sh).draft.text ∨ listsBelow ts = true := by
  rcases hl with hl | hl | hl
  · exact .inl hl
  · exact .inr (.inl (feed_mem_applyAll page f _ hl))
  · rw [listsBelow, Bool.or_eq_true, Bool.and_eq_true] at hl
    rcases hl with hl | hl
    · exact .inr (.inl (feed_mem_of_say page f (lineFeed_mem_tokenEdits style s o hl) sh))
    · exact .inr (.inr hl.2)

theorem listOpen_token (ho : s.token.kind.insideList = false → o.listOpen = false)
    (hk : s.token.kind.leavesOpen = false) : (tokenEdits style s o).2.listOpen = false := by
  cases ht : s.token.kind with
  | startAttributes | attr => rw [ht] at hk; cases hk
  | endAttributes => rw [tokenEdits_end style ht, closeList_eq]
  | _ => exact (list_tokenEdits style s o (by rw [ht]; rfl)).1.trans (ho (by rw [ht]; rfl))

theorem beside_siteEdits (hu : '\n' ∉ u) (rest : List Token) :
    ∀ (ts : List Token) (before : Option Token) (marked inList : Bool) (o : Outline)
      (sh sh' : Sheet ε), enclosed inList (ts ++ rest) = true →
      rooted marked ((before.map Token.kind).all Kind.endsLine) ts = true →
      (∀ t ∈ ts, t.kind ≠ .eos) → (inList = true → marked = true) →
      (inList = false → o.listOpen = false) →
      (lastLine u = lastLine u' ∨ '\n' ∈ sh.draft.text ∨ listsBelow ts = true) →
      sh.Paired u u' marked o sh' →
      (Sheet.applyAll page f (siteEdits style (sitesUpTo before ts rest) o).1 sh).Beside u u'
        (Sheet.applyAll page f (siteEdits style (sitesUpTo before ts rest) o).1 sh')
  | [], _, _, _, _, _, _, _, _, _, _, _, _, h => h.beside
  | t :: ts, before, marked, inList, o, sh, sh', he, hr, hn, hi, ho, hl, h => by
    obtain ⟨rfl, he'⟩ := enclosed_cons.1 he
    obtain ⟨hj, hr'⟩ := rooted_cons.1 hr
    obtain ⟨ht, hn'⟩ := List.forall_mem_cons.1 hn
    let site : Site := ⟨before, t, ts ++ rest⟩
    have h1 := paired_token style page f (s := site) hu ht hj hi ho (level_of_list hl) h
    have hi1 : t.kind.leavesOpen = true → (marked || t.kind.marks site.opensLine) = true := by
      intro hopen
      cases hk : t.kind with
      | startAttributes => rw [hk] at hj; exact hj rfl
      | attr a => rw [hk] at hi; rw [hi rfl]; rfl
      | _ => rw [hk] at hopen; cases hopen
    simp only [sitesUpTo, siteEdits, Sheet.applyAll_append]
    exact beside_siteEdits hu rest ts (some t) _ _ _ _ _ he' hr' hn' hi1
      (listOpen_token style (s := site) ho) (level_token style page f (s := site) hl) h1

end

end PugPretty
