import PugPretty.Proofs.Progress

/-!
# What a token writes

Most tokens only add to the end of the text, put in shorthand, or mark a place. `fits_tokenEdits`
says so once for all kinds but the three of attribute lists and the end of the stream, and that a
level of indentation is written only below the first line. The three kinds of a list have lemmas of
their own.
-/

namespace PugPretty

open Text

/-! ## Edits that fit anywhere -/

/-- Edits that need nothing of the end of the text. Blanks that depend on the layout come only after
a line feed or an opening parenthesis, which `bar` tells to be there. -/
def Edit.Fits (bar : Prop) : Edit → Prop
  | .indent n => n = 0 ∨ bar
  | .softBreak _ flat => bar ∧ ∀ c ∈ flat, isBlank c = true
  | .dropOpenParen | .finish => False
  | _ => True

theorem Edit.Fits.mono {bar bar' : Prop} (hb : bar → bar') {e : Edit} (h : e.Fits bar) :
    e.Fits bar' := by
  cases e with
  | indent n => exact h.imp_right hb
  | softBreak n flat => exact ⟨hb h.1, h.2⟩
  | _ => exact h

def AllFit (bar : Prop) (es : List Edit) : Prop := ∀ e ∈ es, e.Fits bar

section
variable {bar : Prop}

@[simp] theorem allFit_nil : AllFit bar [] := by simp [AllFit]

@[simp] theorem allFit_cons (e : Edit) (es : List Edit) :
    AllFit bar (e :: es) ↔ e.Fits bar ∧ AllFit bar es := List.forall_mem_cons

@[simp] theorem allFit_append (es fs : List Edit) :
    AllFit bar (es ++ fs) ↔ AllFit bar es ∧ AllFit bar fs := List.forall_mem_append

@[simp] theorem fits_put (t : Text) : (Edit.put t).Fits bar := trivial

@[simp] theorem fits_say (t : String) : (Edit.say t).Fits bar := trivial

@[simp] theorem fits_write (c : Content) : (Edit.write c).Fits bar := trivial

@[simp] theorem fits_writeInert (c : Content) : (Edit.writeInert c).Fits bar := trivial

@[simp] theorem fits_mark : Edit.mark.Fits bar := trivial

@[simp] theorem fits_markClass : Edit.markClass.Fits bar := trivial

@[simp] theorem fits_addClass (n : Text) : (Edit.addClass n).Fits bar := trivial

@[simp] theorem fits_addId (n : Text) : (Edit.addId n).Fits bar := trivial

@[simp] theorem fits_beginGroup (fc : Forecast) : (Edit.beginGroup fc).Fits bar := trivial

@[simp] theorem fits_endGroup : Edit.endGroup.Fits bar := trivial

@[simp] theorem fits_indent (n : Nat) : (Edit.indent n).Fits bar ↔ n = 0 ∨ bar := .rfl

@[simp] theorem fits_softBreak (n : Nat) (flat : Text) :
    (Edit.softBreak n flat).Fits bar ↔ bar ∧ ∀ c ∈ flat, isBlank c = true := .rfl

end

def Kind.listPart : Kind → Bool
  | startAttributes | attr _ | endAttributes => true
  | _ => false

def Kind.feedsLine : Kind → Bool
  | newline | indent | startPipeless => true
  | _ => false

/-- Whether the text has a line feed before the site, as far as its surroundings tell. -/
def Site.Below (s : Site) (o : Outline) : Prop := 0 < o.depth ∨ s.prev?.any Kind.feedsLine = true

section
variable (style : Style) (s : Site) (o : Outline)

theorem fits_depth : (Edit.indent o.depth).Fits (s.Below o) := by
  rcases Nat.eq_zero_or_pos o.depth with h | h
  · exact .inl h
  · exact .inr (.inl h)

theorem fits_indentation : AllFit (s.Below o) (s.indentation o.depth) := by
  have hd := fits_depth s o
  unfold Site.indentation
  split
  · simpa using hd
  · simpa using hd
  · next h => simp [Site.Below, h, Kind.feedsLine]
  · simp

theorem fits_flushPending (bar : Prop) : AllFit bar (flushPending style o).1 := by
  unfold flushPending; split <;> simp

theorem fits_flushAtHeadEnd (bar : Prop) : AllFit bar (flushAtHeadEnd style s o).1 := by
  unfold flushAtHeadEnd; split
  · simp
  · exact fits_flushPending style o bar

theorem fits_tagEdits (name : String) : AllFit (s.Below o) (tagEdits style s o name) := by
  have h := fits_indentation s o
  unfold tagEdits
  split <;> simp [h]

theorem fits_classEdits (name : Text) : AllFit (s.Below o) (classEdits style s o name).1 := by
  have h := fits_indentation s o
  have hf := fits_flushAtHeadEnd style s { o with pending := o.pending ++ [name] } (s.Below o)
  unfold classEdits
  simp only [allFit_append]
  refine ⟨⟨?_, ?_⟩, ?_⟩
  · split
    · split <;> simp [h]
    · simp
  · split
    · exact hf
    · simp
  · split <;> simp

theorem fits_idEdits (name : Text) : AllFit (s.Below o) (idEdits style s o name).1 := by
  have h := fits_indentation s o
  have hf := fits_flushAtHeadEnd style s o (s.Below o)
  unfold idEdits
  simp only [allFit_append, allFit_cons]
  refine ⟨?_, trivial, hf⟩
  split <;> simp [h]

theorem fits_textLead (t : Text) : AllFit (s.Below o) (textLead s o t) := by
  have h := fits_indentation s o
  have hd := fits_depth s o
  have hp : AllFit (s.Below o) (if hasLeadingSpace (collapse t) then [.say "|\n", .indent o.depth] else []) := by
    split <;> simp [hd]
  unfold textLead
  dsimp only
  split
  iterate 3
    · simp only [allFit_append, allFit_cons]
      exact ⟨⟨h, hp⟩, trivial, by split <;> simp⟩
  iterate 3
    · split <;> simp
  · simp

theorem fits_blockLineEdits (inComment : Bool) (t : Text) :
    AllFit (s.Below o) (blockLineEdits style s o inComment t) := by
  unfold blockLineEdits
  simp only [allFit_append]
  refine ⟨⟨?_, by split <;> simp⟩, by simp⟩
  split
  · next h => simp [Site.Below, h, Kind.feedsLine]
  · next h => simp [Site.Below, h, Kind.feedsLine]
  · simp

theorem fits_textEdits (t : Text) : AllFit (s.Below o) (textEdits style s o t) := by
  unfold textEdits
  split
  · unfold markupTextEdits
    simp only [allFit_append, allFit_cons]
    exact ⟨fits_textLead s o t, trivial, by split <;> simp⟩
  · exact fits_blockLineEdits style s o false t
  · exact fits_blockLineEdits style s o true t

theorem fits_lineBreaks (bar : Prop) : AllFit bar (lineBreaks s) := by
  unfold lineBreaks; split <;> simp

/-- Every token outside attribute lists but the end of the stream fits where it stands. -/
theorem fits_tokenEdits (hl : s.token.kind.listPart = false) (he : s.token.kind ≠ .eos) :
    AllFit (s.Below o) (tokenEdits style s o).1 := by
  have h := fits_indentation s o
  have hd := fits_depth s o
  unfold tokenEdits
  cases hk : s.token.kind with
  | startAttributes | attr | endAttributes => simp [hk, Kind.listPart] at hl
  | eos => exact absurd hk he
  | tag name => exact fits_tagEdits style s o name
  | className name => exact fits_classEdits style s o _
  | idName name => exact fits_idEdits style s o _
  | text val => exact fits_textEdits style s o _
  | interpolatedCode code mustEscape buffer =>
    simp only [allFit_append, inlineCodeLead]
    refine ⟨?_, by simp⟩
    split <;> simp [h]
  | code code mustEscape buffer =>
    simp only [allFit_append, codeEdits, allFit_cons]
    refine ⟨h, trivial, ?_⟩
    split <;> simp
  | outdent =>
    simp only [outdentEdits]
    split
    · simp
    · simp
    · exact fits_lineBreaks s _
  | newline => exact fits_lineBreaks s _
  | comment body buffer =>
    simp only [commentEdits, allFit_append]
    refine ⟨⟨h, ?_⟩, by simp⟩
    split <;> simp
  | doctype name => simp only; split <;> simp
  | path file => simp only; split <;> simp
  | indent | startPipeless => simpa using hd
  | _ => simp [h]

/-! ## What is remembered -/

theorem outline_flushPending : ∃ ps, (flushPending style o).2 = { o with pending := ps } := by
  unfold flushPending; split
  · exact ⟨_, rfl⟩
  · exact ⟨_, rfl⟩

theorem outline_flushAtHeadEnd : ∃ ps, (flushAtHeadEnd style s o).2 = { o with pending := ps } := by
  unfold flushAtHeadEnd; split
  · exact ⟨_, rfl⟩
  · exact outline_flushPending style o

theorem outline_classEdits (name : Text) :
    ∃ ps, (classEdits style s o name).2 = { o with pending := ps } := by
  unfold classEdits
  dsimp only
  split
  · exact outline_flushAtHeadEnd style s { o with pending := o.pending ++ [name] }
  · exact ⟨_, rfl⟩

theorem outline_idEdits (name : Text) :
    ∃ ps, (idEdits style s o name).2 = { o with pending := ps } :=
  outline_flushAtHeadEnd style s o

theorem outline_openList (run : List Attribute) :
    ∃ lo w ps, (openList style run o).2 = { o with listOpen := lo, written := w, pending := ps } := by
  unfold openList
  dsimp only
  split
  · obtain ⟨ps, hp⟩ := outline_flushPending style { o with written := 0 }
    exact ⟨_, _, _, hp⟩
  · split
    · exact ⟨_, _, _, rfl⟩
    · exact ⟨_, _, _, rfl⟩

theorem outline_writeAttribute (a : Attribute) :
    ∃ w ps, (writeAttribute style a o).2 = { o with written := w, pending := ps } := by
  unfold writeAttribute
  dsimp only
  split
  · dsimp only; split
    · exact ⟨_, _, rfl⟩
    · exact ⟨_, _, rfl⟩
  all_goals exact ⟨_, _, rfl⟩

theorem depth_openList (run : List Attribute) : (openList style run o).2.depth = o.depth := by
  obtain ⟨lo, w, ps, h⟩ := outline_openList style o run
  rw [h]

theorem depth_writeAttribute (a : Attribute) : (writeAttribute style a o).2.depth = o.depth := by
  obtain ⟨w, ps, h⟩ := outline_writeAttribute style o a
  rw [h]

theorem depth_tokenEdits : (tokenEdits style s o).2.depth = s.token.kind.nest o.depth := by
  unfold tokenEdits
  cases hk : s.token.kind with
  | startAttributes => exact depth_openList style o _
  | attr a => exact depth_writeAttribute style o a
  | className name =>
    obtain ⟨ps, hp⟩ := outline_classEdits style s o name.toList
    simp only [hp, Kind.nest]
  | idName name =>
    obtain ⟨ps, hp⟩ := outline_idEdits style s o name.toList
    simp only [hp, Kind.nest]
  | doctype name => simp only; split <;> rfl
  | path file => simp only; split <;> rfl
  | _ => rfl

theorem list_tokenEdits (hl : s.token.kind.listPart = false) :
    (tokenEdits style s o).2.listOpen = o.listOpen ∧
      (tokenEdits style s o).2.written = o.written := by
  unfold tokenEdits
  cases hk : s.token.kind with
  | startAttributes | attr | endAttributes => simp [hk, Kind.listPart] at hl
  | className name =>
    obtain ⟨ps, hp⟩ := outline_classEdits style s o name.toList
    simp only [hp, and_self]
  | idName name =>
    obtain ⟨ps, hp⟩ := outline_idEdits style s o name.toList
    simp only [hp, and_self]
  | doctype name => simp only; split <;> exact ⟨rfl, rfl⟩
  | path file => simp only; split <;> exact ⟨rfl, rfl⟩
  | _ => exact ⟨rfl, rfl⟩

theorem lineFeed_mem_tokenEdits (h : s.token.kind.feedsLine = true) :
    Edit.say "\n" ∈ (tokenEdits style s o).1 := by
  unfold tokenEdits
  cases hk : s.token.kind with
  | newline => simp [newlineEdits, lineBreaks]
  | indent | startPipeless => simp
  | _ => simp [hk, Kind.feedsLine] at h

theorem depth_siteEdits (ss : List Site) (o : Outline) :
    (siteEdits style ss o).2.depth = ss.foldl (fun d s => s.token.kind.nest d) o.depth := by
  induction ss generalizing o with
  | nil => rfl
  | cons s ss ih => rw [siteEdits, ih, depth_tokenEdits, List.foldl_cons]

end

/-! ## The tokens of a list -/

section
variable (style : Style)

theorem tokenEdits_start {s : Site} {o : Outline} (hk : s.token.kind = .startAttributes) :
    tokenEdits style s o = openList style (attributeRun s.rest) o := by
  unfold tokenEdits; rw [hk]

theorem tokenEdits_attr {s : Site} {o : Outline} {a : Attribute} (hk : s.token.kind = .attr a) :
    tokenEdits style s o = writeAttribute style a o := by
  unfold tokenEdits; rw [hk]

theorem tokenEdits_end {s : Site} {o : Outline} (hk : s.token.kind = .endAttributes) :
    tokenEdits style s o = closeList s o := by
  unfold tokenEdits; rw [hk]

variable (o : Outline)

def Edit.movesOnly : Edit → Prop
  | .addClass _ | .addId _ => True
  | _ => False

theorem fits_writeItem (name : String) (value : Option Content) (mustEscape : Bool) :
    AllFit True (writeItem style name value mustEscape o).1 := by
  have hc : ∀ c : Bool, AllFit True (if c then [.say ","] else []) := by
    intro c; cases c <;> simp
  unfold writeItem
  simp only [allFit_append, allFit_cons]
  refine ⟨?_, trivial, ?_⟩
  · split
    · simp
    · simp only [allFit_append]
      exact ⟨hc _, by simp [show isBlank ' ' = true by decide]⟩
  · split <;> simp

theorem openList_cons (a : Attribute) (run : List Attribute) :
    ∃ fc es, (openList style (a :: run) o).1 = [.markClass, .say "(", .beginGroup fc] ++ es ∧
      AllFit True es ∧ (openList style (a :: run) o).2.listOpen = true ∧
      ((openList style (a :: run) o).2.written = 0 → es = []) := by
  unfold openList
  simp only [List.isEmpty_cons, Bool.false_eq_true, if_false]
  split
  · exact ⟨_, [], rfl, by simp, rfl, fun _ => rfl⟩
  · next v _ => exact ⟨_, _, rfl, fits_writeItem _ _ _ _ _, rfl, fun h => by cases h⟩

theorem openList_nil : AllFit False (openList style [] o).1 ∧
    (openList style [] o).2.listOpen = o.listOpen := by
  obtain ⟨ps, hp⟩ := outline_flushPending style { o with written := 0 }
  refine ⟨?_, by simp [openList, hp]⟩
  simpa [openList] using fits_flushPending style { o with written := 0 } False

theorem fits_writeAttribute (a : Attribute) : AllFit True (writeAttribute style a o).1 := by
  unfold writeAttribute
  dsimp only
  split
  · next simple others _ =>
    dsimp only
    rw [allFit_append]
    refine ⟨fun e he => ?_, ?_⟩
    · obtain ⟨c, -, rfl⟩ := List.mem_map.1 he; trivial
    · split
      · simp
      · exact fits_writeItem _ _ _ _ _
  · exact fits_writeItem _ _ _ _ _
  · simp
  · exact fits_writeItem _ _ _ _ _

theorem listOpen_writeAttribute (a : Attribute) :
    (writeAttribute style a o).2.listOpen = o.listOpen := by
  obtain ⟨w, ps, h⟩ := outline_writeAttribute style o a
  rw [h]

/-- While nothing has been written into the list, attributes have become shorthand only. -/
theorem movesOnly_writeAttribute (a : Attribute) (h : (writeAttribute style a o).2.written = 0) :
    o.written = 0 ∧ ∀ e ∈ (writeAttribute style a o).1, e.movesOnly := by
  unfold writeAttribute at h ⊢
  dsimp only at h ⊢
  split at h
  · next simple others hr =>
    dsimp only at h ⊢
    split at h
    · next ho =>
      rw [if_pos ho, List.append_nil]
      refine ⟨h, fun e he => ?_⟩
      obtain ⟨c, -, rfl⟩ := List.mem_map.1 he; trivial
    · cases h
  · cases h
  · exact ⟨h, by simp [Edit.movesOnly]⟩
  · cases h

def closing (o : Outline) : List Edit :=
  if o.listOpen = false then []
  else if o.written = 0 then [.dropOpenParen]
  else [.softBreak o.depth [], .say ")"]

def spaceBehind (s : Site) : List Edit :=
  match s.next? with
  | some (.text _) | some (.path _) => [.say " "]
  | _ => []

theorem closeList_eq (s : Site) :
    closeList s o =
      (closing o ++ (.endGroup :: spaceBehind s), { o with listOpen := false, written := 0 }) := by
  unfold closeList closing
  cases o.listOpen <;> rfl

theorem fits_spaceBehind (s : Site) : AllFit False (.endGroup :: spaceBehind s) := by
  unfold spaceBehind
  split <;> simp

end

theorem depth_outlineAfter (style : Style) (done rest : List Token) :
    (outlineAfter style done rest).depth = nesting done := by
  have hs : ∀ (b : Option Token) (d : Nat) (ts : List Token),
      (sitesUpTo b ts rest).foldl (fun d s => s.token.kind.nest d) d =
        ts.foldl (fun d t => t.kind.nest d) d := by
    intro b d ts
    induction ts generalizing b d with
    | nil => rfl
    | cons t ts ih => exact ih _ _
  rw [outlineAfter, editsUpTo, depth_siteEdits, hs, nesting]

theorem listOpen_siteEdits (style : Style) (rest : List Token) :
    ∀ (done : List Token) (before : Option Token) (inList : Bool) (o : Outline),
      enclosed inList done = true → (inList = false → o.listOpen = false) →
      (siteEdits style (sitesUpTo before done rest) o).2.listOpen = false
  | [], _, inList, o, he, ho => ho (by simpa [enclosed] using he)
  | t :: done, before, inList, o, he, ho => by
    obtain ⟨rfl, he'⟩ := enclosed_cons.1 he
    let s : Site := ⟨before, t, done ++ rest⟩
    refine listOpen_siteEdits style rest done (some t) t.kind.leavesOpen (tokenEdits style s o).2 he'
      fun hk => ?_
    by_cases hl : t.kind.listPart = false
    · have hi : t.kind.insideList = false := by
        cases h : t.kind <;> simp_all [Kind.listPart, Kind.insideList]
      exact (list_tokenEdits style s o hl).1.trans (ho hi)
    · have ht : s.token.kind = .endAttributes := by
        show t.kind = .endAttributes
        cases h : t.kind <;> simp_all [Kind.listPart, Kind.leavesOpen]
      rw [tokenEdits_end style ht, closeList_eq]

theorem listOpen_outlineAfter (style : Style) {done : List Token} (rest : List Token)
    (he : enclosed false done = true) : (outlineAfter style done rest).listOpen = false :=
  listOpen_siteEdits style rest done none false {} he fun _ => rfl

end PugPretty
