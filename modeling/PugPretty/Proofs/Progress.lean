import PugPretty.Format
import PugPretty.Proofs.Parts
import PugPretty.Proofs.Stream

/-!
# Writing a stream step by step

`sheetAfter style page f done rest` is the sheet when the tokens `done` of the stream `done ++ rest`
have been written, and `outlineAfter` what is remembered of them. `sheetAfter_append` adds tokens,
and `writeTokens_eq` says that the end of the text is all that is left to do after the last one.
-/

namespace PugPretty

/-! ## Performing edits -/

namespace Sheet

variable {ε : Type} (p : Page) (f : Formatter ε)

@[simp] theorem applyAll_nil (s : Sheet ε) : applyAll p f [] s = s := rfl

@[simp] theorem applyAll_cons (e : Edit) (es : List Edit) (s : Sheet ε) :
    applyAll p f (e :: es) s = applyAll p f es (s.apply p f e) := rfl

@[simp] theorem applyAll_append (es fs : List Edit) (s : Sheet ε) :
    applyAll p f (es ++ fs) s = applyAll p f fs (applyAll p f es s) := List.foldl_append

@[simp] theorem apply_put (t : Text) (s : Sheet ε) :
    s.apply p f (.put t) = s.edit (·.write t) := by
  simp [Edit.put, apply, Content.resolve, edit]

@[simp] theorem apply_say (t : String) (s : Sheet ε) :
    s.apply p f (.say t) = s.edit (·.write t.toList) := apply_put p f t.toList s

theorem apply_indent (n : Nat) (s : Sheet ε) :
    s.apply p f (.indent n) = s.edit (·.write (indentation p n)) := rfl

theorem apply_write (c : Content) (s : Sheet ε) :
    s.apply p f (.write c) =
      { s with
        draft := s.draft.write (c.resolve f s.session).1
        session := (c.resolve f s.session).2 } := rfl

end Sheet

theorem write_nil (d : Draft) : d.write [] = d := by
  simp [Draft.write, Text.byteLength]

theorem write_write (t u : Text) (d : Draft) : (d.write t).write u = d.write (t ++ u) := by
  simp [Draft.write, Text.byteLength_append, Nat.add_assoc]

def leadText (page : Page) (prev : Option Kind) (depth : Nat) : Text :=
  match prev with
  | some .newline | some .outdent => Sheet.indentation page depth
  | some .indent => Sheet.indentation page 1
  | _ => []

theorem applyAll_indentation {ε : Type} (page : Page) (f : Formatter ε) (s : Site) (depth : Nat)
    (sh : Sheet ε) :
    Sheet.applyAll page f (s.indentation depth) sh =
      sh.edit (·.write (leadText page s.prev? depth)) := by
  unfold Site.indentation leadText
  cases s.prev? with
  | none => simp only [Sheet.applyAll_nil, Sheet.edit, write_nil]
  | some k => cases k <;> rfl

/-! ## Part of a stream -/

/-- The sites of the tokens `done` in the stream `done ++ rest`. -/
def sitesUpTo (before : Option Token) : List Token → List Token → List Site
  | [], _ => []
  | t :: done, rest => ⟨before, t, done ++ rest⟩ :: sitesUpTo (some t) done rest

theorem sitesUpTo_nil_right (before : Option Token) (ts : List Token) :
    sitesUpTo before ts [] = sites before ts := by
  induction ts generalizing before with
  | nil => rfl
  | cons t ts ih => simp only [sitesUpTo, sites, ih, List.append_nil]

theorem sitesUpTo_append (before : Option Token) (xs ys rest : List Token) :
    sitesUpTo before (xs ++ ys) rest =
      sitesUpTo before xs (ys ++ rest) ++ sitesUpTo (xs.getLast?.or before) ys rest := by
  induction xs generalizing before with
  | nil => rfl
  | cons x xs ih =>
    have hl : ((x :: xs).getLast?.or before) = (xs.getLast?.or (some x)) := by
      cases h : xs.getLast? <;> simp [List.getLast?_cons, h]
    simp only [List.cons_append, sitesUpTo, ih, hl, List.append_assoc]

/-- What is written for the tokens `done` of the stream `done ++ rest`, and the outline after them. -/
def editsUpTo (style : Style) (done rest : List Token) : List Edit × Outline :=
  siteEdits style (sitesUpTo none done rest) {}

def outlineAfter (style : Style) (done rest : List Token) : Outline := (editsUpTo style done rest).2

section
variable {ε : Type} (style : Style) (page : Page) (f : Formatter ε)

def sheetAfter (done rest : List Token) : Sheet ε :=
  Sheet.applyAll page f (opening (done ++ rest) ++ (editsUpTo style done rest).1) .blank

theorem editsUpTo_append (xs ys rest : List Token) :
    editsUpTo style (xs ++ ys) rest =
      let more := siteEdits style (sitesUpTo xs.getLast? ys rest) (outlineAfter style xs (ys ++ rest))
      ((editsUpTo style xs (ys ++ rest)).1 ++ more.1, more.2) := by
  rw [editsUpTo, sitesUpTo_append, siteEdits_append, Option.or_none]
  rfl

theorem outlineAfter_append (xs ys rest : List Token) :
    outlineAfter style (xs ++ ys) rest =
      (siteEdits style (sitesUpTo xs.getLast? ys rest) (outlineAfter style xs (ys ++ rest))).2 := by
  rw [outlineAfter, editsUpTo_append]

theorem sheetAfter_append (xs ys rest : List Token) :
    sheetAfter style page f (xs ++ ys) rest =
      Sheet.applyAll page f
        (siteEdits style (sitesUpTo xs.getLast? ys rest) (outlineAfter style xs (ys ++ rest))).1
        (sheetAfter style page f xs (ys ++ rest)) := by
  simp [sheetAfter, editsUpTo_append]

theorem outlineAfter_snoc (done rest : List Token) (t : Token) :
    outlineAfter style (done ++ [t]) rest =
      (tokenEdits style ⟨done.getLast?, t, rest⟩ (outlineAfter style done (t :: rest))).2 :=
  outlineAfter_append style done [t] rest

theorem sheetAfter_snoc (done rest : List Token) (t : Token) :
    sheetAfter style page f (done ++ [t]) rest =
      Sheet.applyAll page f
        (tokenEdits style ⟨done.getLast?, t, rest⟩ (outlineAfter style done (t :: rest))).1
        (sheetAfter style page f done (t :: rest)) := by
  rw [sheetAfter_append]
  simp only [sitesUpTo, siteEdits, List.append_nil, List.nil_append, List.singleton_append]

theorem writeTokens_eq (ts : List Token) :
    writeTokens style page f ts = (sheetAfter style page f ts []).edit (·.finish) := by
  simp only [writeTokens, plan, sheetAfter, editsUpTo, sitesUpTo_nil_right, List.append_nil,
    Sheet.applyAll_append]
  rfl

theorem tokenEdits_eos {s : Site} (hk : s.token.kind = .eos) (o : Outline) :
    tokenEdits style s o = ([.finish], o) := by
  unfold tokenEdits; rw [hk]

theorem writeTokens_body (body : List Token) {tail : List Token}
    (ht : tail = [] ∨ ∃ e, tail = [e] ∧ e.kind = .eos) :
    (writeTokens style page f (body ++ tail)).draft.text =
        (sheetAfter style page f body tail).draft.finish.text ∧
      (writeTokens style page f (body ++ tail)).draft.astray =
        (sheetAfter style page f body tail).draft.astray ∧
      (writeTokens style page f (body ++ tail)).session =
        (sheetAfter style page f body tail).session := by
  rw [writeTokens_eq]
  rcases ht with rfl | ⟨e, rfl, he⟩
  · rw [List.append_nil]
    exact ⟨rfl, rfl, rfl⟩
  · rw [sheetAfter_snoc, tokenEdits_eos style (s := ⟨body.getLast?, e, []⟩) he]
    exact ⟨congrArg Draft.text (Draft.finish_finish _), rfl, rfl⟩

end

/-! ## Nesting -/

def Kind.nest (d : Nat) : Kind → Nat
  | indent => d + 1
  | outdent => d - 1
  | _ => d

def nesting (ts : List Token) : Nat := ts.foldl (fun d t => t.kind.nest d) 0

end PugPretty
