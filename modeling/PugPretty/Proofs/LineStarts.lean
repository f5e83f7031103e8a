import PugPretty.Proofs.Outcome
import PugPretty.Proofs.Growth

/-!
# Line starts

A line is indented by two tokens: an `indent` writes all levels but the last when it breaks the line,
and the token that comes next writes what is missing. `lastLine_lineStart` says that the two add up
to the nesting of the tokens, whichever of the three line ends was before and however many outdents
there were in a row.
-/

namespace PugPretty

open Text

/-! ## The last line -/

def lastLine (t : Text) : Text := (t.reverse.takeWhile (· != '\n')).reverse

theorem lastLine_append {t u : Text} (hu : ∀ c ∈ u, c ≠ '\n') :
    lastLine (t ++ u) = lastLine t ++ u := by
  have h : ∀ c ∈ u.reverse, (c != '\n') = true := fun c hc =>
    bne_iff_ne.2 (hu c (List.mem_reverse.1 hc))
  rw [lastLine, List.reverse_append, List.takeWhile_append_of_pos h, List.reverse_append,
    List.reverse_reverse, lastLine]

theorem lastLine_feed (t : Text) : lastLine (t ++ ['\n']) = [] := by
  simp [lastLine]

/-! ## The unit of indentation -/

def Layout.unit (l : Layout) : Text :=
  if l.useTabs then ['\t'] else List.replicate l.indentWidth ' '

def Layout.units (l : Layout) (n : Nat) : Text := (List.replicate n l.unit).flatten

section
variable {l : Layout} {page : Page} (hl : page.Follows l)
include hl

theorem indentation_eq_units (n : Nat) : Sheet.indentation page n = l.units n := by
  obtain ⟨wrapsOn, rfl⟩ := hl
  have hu : l.unit = List.replicate l.indentLength l.indentChar := by
    unfold Layout.unit Layout.indentLength Layout.indentChar
    cases l.useTabs <;> rfl
  rw [Layout.units, hu, List.flatten_replicate_replicate]
  rfl

theorem indentation_ne_feed (n : Nat) : ∀ c ∈ Sheet.indentation page n, c ≠ '\n' := by
  obtain ⟨wrapsOn, rfl⟩ := hl
  intro c hc
  rw [List.eq_of_mem_replicate hc]
  show l.indentChar ≠ '\n'
  unfold Layout.indentChar
  split <;> decide

end

theorem indentation_succ (page : Page) (n : Nat) :
    Sheet.indentation page (n + 1) = Sheet.indentation page n ++ Sheet.indentation page 1 := by
  rw [Sheet.indentation, Sheet.indentation, Sheet.indentation, List.replicate_append_replicate,
    Nat.add_mul]

/-! ## Line ends -/

section
variable {ε : Type} (style : Style) (page : Page) (f : Formatter ε)

theorem nesting_snoc (done : List Token) (t : Token) :
    nesting (done ++ [t]) = t.kind.nest (nesting done) := List.foldl_append

theorem text_lineBreaks (s : Site) (sh : Sheet ε) :
    ∃ u, (Sheet.applyAll page f (lineBreaks s) sh).draft.text = sh.draft.text ++ u ++ ['\n'] := by
  unfold lineBreaks
  split
  · exact ⟨['\n'], by simp [Sheet.edit]⟩
  · exact ⟨[], by simp [Sheet.edit]⟩

theorem lastLine_lineBreaks (s : Site) (sh : Sheet ε) :
    lastLine (Sheet.applyAll page f (lineBreaks s) sh).draft.text = [] := by
  obtain ⟨u, hu⟩ := text_lineBreaks page f s sh
  rw [hu, lastLine_feed]

theorem lastLine_newline (done rest : List Token) {t : Token} (ht : t.kind = .newline) :
    lastLine (sheetAfter style page f (done ++ [t]) rest).draft.text = [] := by
  rw [sheetAfter_snoc]
  unfold tokenEdits
  rw [ht]
  exact lastLine_lineBreaks page f _ _

theorem lastLine_indent (hn : ∀ n, ∀ c ∈ Sheet.indentation page n, c ≠ '\n') (done rest : List Token)
    {t : Token} (ht : t.kind = .indent) :
    lastLine (sheetAfter style page f (done ++ [t]) rest).draft.text =
      Sheet.indentation page (nesting done) := by
  rw [sheetAfter_snoc]
  unfold tokenEdits
  rw [ht]
  simp only [Sheet.applyAll_cons, Sheet.applyAll_nil, Sheet.apply_say, depth_outlineAfter]
  show lastLine (Draft.write _ (Draft.write "\n".toList _)).text = _
  rw [Draft.text_write, lastLine_append (hn _), Draft.text_write]
  exact congrArg (· ++ Sheet.indentation page (nesting done)) (lastLine_feed _)

/-- Only the first of several outdents breaks the line, and the others leave it as it is. -/
theorem lastLine_outdent (done : List Token) : ∀ (rest : List Token) {t : Token},
    t.kind = .outdent → lastLine (sheetAfter style page f (done ++ [t]) rest).draft.text = [] := by
  induction done using List.reverseRecOn with
  | nil =>
    intro rest t ht
    have ho : opening (t :: rest) = [] := by
      obtain ⟨kind, span⟩ := t
      obtain rfl : kind = .outdent := ht
      rfl
    rw [sheetAfter_snoc]
    unfold tokenEdits
    rw [ht]
    simp only [sheetAfter, editsUpTo, sitesUpTo, siteEdits, List.nil_append, List.append_nil, ho]
    rfl
  | append_singleton done u ih =>
    intro rest t ht
    have hlast : Site.prev? ⟨(done ++ [u]).getLast?, t, rest⟩ = some u.kind := by
      simp [Site.prev?]
    rw [sheetAfter_snoc]
    unfold tokenEdits
    rw [ht]
    by_cases hu : u.kind = .outdent
    · have he : outdentEdits ⟨(done ++ [u]).getLast?, t, rest⟩ = [] := by
        unfold outdentEdits
        rw [hlast, hu]
      simp only [he]
      exact ih (t :: rest) hu
    · have he : outdentEdits ⟨(done ++ [u]).getLast?, t, rest⟩ =
          lineBreaks ⟨(done ++ [u]).getLast?, t, rest⟩ := by
        unfold outdentEdits
        rw [hlast]
        split
        · contradiction
        · next h => exact absurd (Option.some.inj h) hu
        · rfl
      simp only [he]
      exact lastLine_lineBreaks page f _ _

/-- **The two halves of an indentation.** -/
theorem lastLine_lineStart {l : Layout} (hl : page.Follows l) (done rest : List Token)
    {t : Token} (ht : t.kind.endsLine = true) :
    lastLine ((sheetAfter style page f (done ++ [t]) rest).draft.text ++
        leadText page (some t.kind) (nesting (done ++ [t]))) =
      l.units (nesting (done ++ [t])) := by
  have hn := indentation_ne_feed hl
  have hlead : ∀ c ∈ leadText page (some t.kind) (nesting (done ++ [t])), c ≠ '\n' := by
    unfold leadText
    split
    · exact hn _
    · exact hn _
    · exact hn _
    · exact nofun
  rw [lastLine_append hlead, ← indentation_eq_units hl]
  cases hk : t.kind with
  | newline => rw [lastLine_newline style page f done rest hk]; rfl
  | outdent => rw [lastLine_outdent style page f done rest hk]; rfl
  | indent =>
    rw [lastLine_indent style page f hn done rest hk, nesting_snoc, hk]
    exact (indentation_succ page _).symm
  | _ => rw [hk] at ht; cases ht

end

/-! ## Blocks of text -/

def Kind.inBlock (b : Bool) : Kind → Bool
  | startPipeless => true
  | endPipeless => false
  | _ => b

def inBlock (ts : List Token) : Bool := ts.foldl (fun b t => t.kind.inBlock b) false

theorem inBlock_snoc (ts : List Token) (t : Token) :
    inBlock (ts ++ [t]) = t.kind.inBlock (inBlock ts) := List.foldl_append

def Outline.reading (o : Outline) : Bool := o.flow != .markup

theorem reading_tokenEdits (style : Style) (s : Site) (o : Outline) :
    (tokenEdits style s o).2.reading = s.token.kind.inBlock o.reading := by
  unfold tokenEdits
  cases hk : s.token.kind with
  | startAttributes =>
    obtain ⟨lo, w, ps, h⟩ := outline_openList style o (attributeRun s.rest)
    simp only [h]
    rfl
  | attr a =>
    obtain ⟨w, ps, h⟩ := outline_writeAttribute style o a
    simp only [h]
    rfl
  | className name =>
    obtain ⟨ps, h⟩ := outline_classEdits style s o name.toList
    simp only [h]
    rfl
  | idName name =>
    obtain ⟨ps, h⟩ := outline_idEdits style s o name.toList
    simp only [h]
    rfl
  | startPipeless =>
    simp only [Outline.reading, Site.blockFlow]
    split
    · rfl
    · split <;> rfl
  | doctype name => simp only; split <;> rfl
  | path file => simp only; split <;> rfl
  | _ => rfl

theorem reading_outlineAfter (style : Style) (done : List Token) : ∀ rest : List Token,
    (outlineAfter style done rest).reading = inBlock done := by
  induction done using List.reverseRecOn with
  | nil => exact fun _ => rfl
  | append_singleton done t ih =>
    intro rest
    rw [outlineAfter_snoc, reading_tokenEdits, ih]
    exact (inBlock_snoc done t).symm

end PugPretty
