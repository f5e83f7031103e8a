import PugPretty.Proofs.Literals

/-!
# Quote styles

A body between quotes stands for a row of marks: a quote counts the same with and without a
backslash in front of it, and any other escape is kept as it is. Writing a body in a quote style
depends on its marks only (`requoted_eq_written`) and keeps them (`quote_keepsMarks`), so it forgets
the style that the body came in (`quote_forgetsStyle`).
-/

namespace PugPretty

open Text

namespace Text

/-! ## Marks -/

inductive Mark where
  | char (c : Char)
  | escape (c : Char)
deriving DecidableEq, Repr

/-- A body read from left to right: an escaped quote is that quote, and all else stands for itself. -/
def marks : Text → List Mark
  | [] => []
  | '\\' :: c :: r => (if isQuote c then .char c else .escape c) :: marks r
  | c :: r => .char c :: marks r

/-- The last backslash takes in no character. -/
def dangles : Text → Bool
  | [] => false
  | ['\\'] => true
  | '\\' :: _ :: r => dangles r
  | _ :: r => dangles r

def Mark.written (q : Quotes) : Mark → Text
  | char c => if c = q.char then ['\\', c] else [c]
  | escape c => ['\\', c]

theorem marks_cons {c : Char} (hc : c ≠ '\\') (t : Text) : marks (c :: t) = .char c :: marks t := by
  rw [marks.eq_def]
  split <;> simp_all

theorem ne_backslash {c : Char} {r : Text} (hlast : c = '\\' → r = [] → False)
    (hne : ∀ d s, c = '\\' → r = d :: s → False) : c ≠ '\\' := by
  intro hc
  cases r with
  | nil => exact hlast hc rfl
  | cons d s => exact hne d s hc rfl

/-- Only a backslash at the very end is a mark of its own. -/
theorem dangles_iff (t : Text) : dangles t = true ↔ .char '\\' ∈ marks t := by
  fun_induction dangles t with
  | case1 => simp [marks]
  | case2 => simp [marks]
  | case3 c r ih =>
    have hc : (if isQuote c then Mark.char c else Mark.escape c) ≠ .char '\\' := by
      by_cases hq : isQuote c = true
      · rw [if_pos hq]
        rintro ⟨⟩
        cases hq
      · simp [hq]
    simp [marks, ih, hc.symm]
  | case4 c r hlast hne ih =>
    have hc := ne_backslash hlast hne
    simp [marks_cons hc, ih, hc.symm]

end Text

namespace Quotes

variable (q : Quotes)

theorem isQuote_char : isQuote q.char = true := by cases q <;> rfl

theorem isQuote_opposite : isQuote q.opposite.char = true := by cases q <;> rfl

theorem eq_or_opposite {c : Char} (h : isQuote c = true) : c = q.char ∨ c = q.opposite.char := by
  rw [isQuote, Bool.or_eq_true, beq_iff_eq, beq_iff_eq] at h
  cases q with
  | double => exact h
  | single => exact h.symm

end Quotes

/-! ## Writing marks -/

/-- The style decides about quotes alone, so nothing but the marks of a body is needed to write it. -/
theorem requoted_eq_written (q : Quotes) (body : Text) :
    requoted q body = (marks body).flatMap (Mark.written q) := by
  fun_induction requoted q body with
  | case1 => rfl
  | case2 r ih =>
    rw [marks, if_pos q.isQuote_opposite, List.flatMap_cons, ih, Mark.written, if_neg q.opposite_ne.1]
    rfl
  | case3 c r hc ih =>
    rw [marks, List.flatMap_cons, ih]
    by_cases hq : isQuote c = true
    · have hown : c = q.char := (q.eq_or_opposite hq).resolve_right hc
      rw [if_pos hq, Mark.written, if_pos hown]
      rfl
    · rw [if_neg hq]
      rfl
  | case4 r hne ih =>
    rw [marks_cons q.backslash_ne.symm, List.flatMap_cons, ih, Mark.written, if_pos rfl]
    rfl
  | case5 c r hne hc ih =>
    rw [marks, List.flatMap_cons, ih, Mark.written, if_neg hc]
    · rfl
    · exact hne

theorem marks_requoted (q : Quotes) (body : Text) : marks (requoted q body) = marks body := by
  fun_induction requoted q body with
  | case1 => rfl
  | case2 r ih => rw [marks_cons q.opposite_ne.2, ih, marks, if_pos q.isQuote_opposite]
  | case3 c r hc ih => rw [marks, marks, ih]
  | case4 r hne ih => rw [marks_cons q.backslash_ne.symm, marks, if_pos q.isQuote_char, ih]
  | case5 c r hne hc ih =>
    by_cases hbs : c = '\\'
    · subst hbs
      cases r with
      | nil => rfl
      | cons d r => exact (hne d r rfl rfl).elim
    · rw [marks_cons hbs, marks_cons hbs, ih]

theorem requoted_requoted (q q₁ : Quotes) (body : Text) :
    requoted q (requoted q₁ body) = requoted q body := by
  rw [requoted_eq_written, marks_requoted, ← requoted_eq_written]

theorem dangles_requoted (q : Quotes) (body : Text) : dangles (requoted q body) = dangles body := by
  rw [Bool.eq_iff_iff, dangles_iff, dangles_iff, marks_requoted]

/-- Nothing but a dangling backslash takes in the quote behind a body. -/
theorem hasBareQuote_append_quote {q : Char} (hb : '\\' ≠ q) {t : Text}
    (h : hasBareQuote q t = false) : hasBareQuote q (t ++ [q]) = !dangles t := by
  fun_induction dangles t with
  | case1 => simp [hasBareQuote_cons hb.symm]
  | case2 => rfl
  | case3 c r ih => exact ih h
  | case4 c r hlast hne ih =>
    have hc := ne_backslash hlast hne
    rw [hasBareQuote_cons hc, Bool.or_eq_false_iff, beq_eq_false_iff_ne] at h
    rw [List.cons_append, hasBareQuote_cons_of_ne hc h.1, ih h.2]

theorem isLiteral_quote_iff (q : Quotes) (body : Text) :
    IsLiteral q.char (quote q body) ↔ dangles body = false := by
  have hbare := hasBareQuote_requoted q body
  rw [quote, isLiteral_iff, hasBareQuote_append_quote q.backslash_ne hbare, dangles_requoted]
  simp [hbare]

/-- **A quoted body says what the body said.** -/
theorem quote_keepsMarks (q : Quotes) (body : Text) :
    ∃ inner, quote q body = q.char :: (inner ++ [q.char]) ∧ hasBareQuote q.char inner = false ∧
      dangles inner = dangles body ∧ marks inner = marks body ∧
      (IsLiteral q.char (quote q body) ↔ dangles body = false) :=
  ⟨requoted q body, rfl, hasBareQuote_requoted q body, dangles_requoted q body,
    marks_requoted q body, isLiteral_quote_iff q body⟩

example : quote .double "\\\\\"\\'\\\"".toList = "\"\\\\\\\"'\\\"\"".toList := by decide

/-! ## Changing the style -/

def Text.requote? (q : Quotes) (value : Text) : Option Text := (unquote? value).map (quote q)

theorem unquote?_quote (q : Quotes) (body : Text) :
    unquote? (quote q body) = some (requoted q body) :=
  unquote?_of_literal q.isQuote_char _

theorem requote?_quote (q q₁ : Quotes) (body : Text) :
    requote? q (quote q₁ body) = some (quote q body) := by
  rw [requote?, unquote?_quote, Option.map_some, quote, requoted_requoted]
  rfl

theorem foldlM_requote? (qs : List Quotes) (q₁ : Quotes) (body : Text) :
    qs.foldlM (fun value q => requote? q value) (quote q₁ body) =
      some (quote (qs.getLast?.getD q₁) body) := by
  induction qs generalizing q₁ with
  | nil => rfl
  | cons q qs ih =>
    rw [List.foldlM_cons, requote?_quote, Option.bind_eq_bind, Option.bind_some, ih, List.getLast?_cons]
    rfl

/-- **Of all styles that a body has been written in, only the last one is left.** -/
theorem quote_forgetsStyle (q₁ q₂ : Quotes) (body : Text) :
    (∃ inner, unquote? (quote q₁ body) = some inner ∧ quote q₂ inner = quote q₂ body) ∧
      requote? q₁ (quote q₁ body) = some (quote q₁ body) ∧
      (requote? q₂ (quote q₁ body)).bind (requote? q₁) = some (quote q₁ body) ∧
      ∀ qs : List Quotes, qs.foldlM (fun value q => requote? q value) (quote q₁ body) =
        some (quote (qs.getLast?.getD q₁) body) := by
  refine ⟨⟨_, unquote?_quote q₁ body, ?_⟩, requote?_quote q₁ q₁ body, ?_, fun qs =>
    foldlM_requote? qs q₁ body⟩
  · rw [quote, requoted_requoted]
    rfl
  · rw [requote?_quote, Option.bind_some, requote?_quote]

end PugPretty
