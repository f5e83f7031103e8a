import PugPretty.Proofs.Literals
import PugPretty.Proofs.NegatedConditions
import PugPretty.Proofs.SettledCode

/-!
# The lines of answers

Whatever is answered, an expression is written on one line, and a statement is too unless it is left
as it was. So the line feeds of a value or a text with spans are those of the text around its code,
and where the source has none, none is written (`isOneLine_resolve`).
-/

namespace PugPretty

open Text

/-! ## Answers -/

section
variable {ε : Type} (f : Formatter ε)

theorem isOneLine_answer {r : Request} (hg : r.grammar ≠ .statement) (s : Session ε) :
    isOneLine (s.resolve f r).1 = true := by
  unfold Session.resolve Session.ask
  cases hr : r.grammar with
  | statement => exact absurd hr hg
  | _ => cases f s.requests r <;> simp only [expressionText, isOneLine_joinLines]

theorem statementText_or (code answer : Text) :
    statementText code answer = code ∨ isOneLine (statementText code answer) = true := by
  by_cases h : isOneLine ((['\n'].isSuffixOf? answer).getD answer) = true
  · rw [statementText, if_pos h]
    exact .inr h
  · rw [statementText, if_neg h]
    exact .inl rfl

theorem resolve_statement_or (q : Quotes) (semicolons : Bool) (code : Text) (s : Session ε) :
    let w := ((statement q semicolons code).resolve f s).1
    w = code ∨ isOneLine w = true := by
  intro w
  let r : Request := ⟨String.ofList code, embeddedWidth, q.opposite, .statement, semicolons⟩
  have hw : w = (s.resolve f r).1 := List.append_nil _
  have hcode : r.code.toList = code := String.toList_ofList
  rw [hw]
  unfold Session.resolve Session.ask
  rw [hcode]
  cases f s.requests r with
  | ok a => exact statementText_or code a.toList
  | error e => exact .inl rfl

/-! ## The text around code -/

def Content.around (k : Content) : Text :=
  k.flatMap fun
    | .plain t => t
    | .code _ => []

@[simp] theorem around_nil : Content.around [] = [] := rfl

@[simp] theorem around_plain (t : Text) (k : Content) :
    Content.around (.plain t :: k) = t ++ k.around := rfl

@[simp] theorem around_code (r : Request) (k : Content) :
    Content.around (.code r :: k) = k.around := rfl

@[simp] theorem around_append (k l : Content) :
    Content.around (k ++ l) = k.around ++ l.around := List.flatMap_append

@[simp] theorem around_expression (q : Quotes) (g : Grammar) (code : Text) :
    (expression q g code).around = [] := by
  unfold expression
  split <;> rfl

theorem count_resolve {k : Content} (hk : ∀ r ∈ k.requests, r.grammar ≠ .statement)
    (s : Session ε) : (k.resolve f s).1.count '\n' = k.around.count '\n' := by
  induction k generalizing s with
  | nil => rfl
  | cons p k ih =>
    cases p with
    | plain t =>
      rw [Content.resolve_plain, around_plain, List.count_append, List.count_append, ih hk]
    | code r =>
      obtain ⟨hr, hk⟩ := List.forall_mem_cons.1 hk
      have hline : (s.resolve f r).1.count '\n' = 0 :=
        List.count_eq_zero.2 (isOneLine_iff.1 (isOneLine_answer f hr s))
      rw [Content.resolve, around_code, List.count_append, hline, ih hk, Nat.zero_add]

theorem isOneLine_of_around {k : Content} (hk : ∀ r ∈ k.requests, r.grammar ≠ .statement)
    (h : isOneLine k.around = true) (s : Session ε) : isOneLine (k.resolve f s).1 = true := by
  rw [isOneLine_iff, ← List.count_eq_zero] at h ⊢
  rw [count_resolve f hk, h]

end

/-! ## Lines that stay lines -/

section
variable {t : Text}

theorem isOneLine_mustacheValue {span : Text} (hs : mustacheValue? t = some span) :
    isOneLine span = true := by
  unfold mustacheValue? at hs
  split at hs
  · simp only [Option.ite_none_right_eq_some] at hs
    exact (Option.filter_eq_some_iff.1 hs.2).2
  · cases hs

variable (h : isOneLine t = true)
include h

theorem isOneLine_requoted (q : Quotes) : isOneLine (requoted q t) = true := by
  fun_induction requoted q t with
  | case1 => exact h
  | case2 r ih =>
    have hr : isOneLine r = true := isOneLine_of_infix h ⟨['\\', q.opposite.char], [], by simp⟩
    exact isOneLine_cons (by cases q <;> decide) (ih hr)
  | case3 c r hc ih =>
    have hr : isOneLine r = true := isOneLine_of_infix h ⟨['\\', c], [], by simp⟩
    have hne : c ≠ '\n' := by rintro rfl; simp [isOneLine] at h
    exact isOneLine_cons (by decide) (isOneLine_cons hne (ih hr))
  | case4 r hne ih =>
    have hr : isOneLine r = true := isOneLine_of_infix h (List.suffix_cons _ r).isInfix
    exact isOneLine_cons (by decide) (isOneLine_cons (by cases q <;> decide) (ih hr))
  | case5 c r hne hc ih =>
    have hr : isOneLine r = true := isOneLine_of_infix h (List.suffix_cons _ r).isInfix
    have hfeed : c ≠ '\n' := by rintro rfl; simp [isOneLine] at h
    exact isOneLine_cons hfeed (ih hr)

theorem isOneLine_quote (q : Quotes) : isOneLine (quote q t) = true := by
  have hq : '\n' ≠ q.char := by cases q <;> decide
  have hbody := isOneLine_requoted h q
  simpa [quote, isOneLine_iff, hq] using hbody

theorem isOneLine_unquoted {body : Text} (hb : unquote? t = some body) : isOneLine body = true := by
  unfold unquote? at hb
  split at hb
  · next q r =>
    simp only [Option.ite_none_right_eq_some, Option.some_inj] at hb
    rw [← hb.2]
    exact isOneLine_of_infix h ((List.dropLast_prefix r).isInfix.trans (List.suffix_cons q r).isInfix)
  · cases hb

end

/-! ## Values and texts -/

theorem isOneLine_around_sourceContent {q : Quotes} {name source : Text} {mustEscape : Bool}
    (h : isOneLine source = true) {k : Content}
    (hk : sourceContent q name mustEscape source = some k) : isOneLine k.around = true := by
  have hv : isOneLine (trim source) = true := isOneLine_trim h
  have hq : '\n' ≠ q.char := by cases q <;> decide
  unfold sourceContent at hk
  dsimp only at hk
  split at hk
  · split at hk <;> cases hk
    · simp [isOneLine_iff, hq]
    · simp [isOneLine]
  · split at hk
    · next span hs =>
      cases hk
      have hspan := isOneLine_collapse (isOneLine_trim (isOneLine_mustacheValue hs))
      simpa [isOneLine_iff, hq] using hspan
    · next body hb =>
      cases hk
      simpa using isOneLine_quote (isOneLine_unquoted hv hb) q
    · split at hk
      · cases hk
      · split at hk
        · cases hk
          simp [isOneLine]
        · have hline := isOneLine_collapse hv
          split at hk <;> cases hk
          · next r hr =>
            have hline' := isOneLine_of_infix hline
              (List.isPrefixOf?_eq_some_iff_append_eq.1 hr ▸ List.suffix_append _ r).isInfix
            simpa using isOneLine_cons (by decide) hline'
          · simpa using hline

theorem infix_of_mem_pieces {t : Text} {p : Piece} (h : p ∈ pieces t) : p.source <:+: t := by
  rw [← source_pieces t, source]
  obtain ⟨before, after, hp⟩ := List.append_of_mem h
  exact ⟨source before, source after, by simp [hp, source]⟩

theorem isOneLine_around_mustacheContent (q : Quotes) {t : Text} (h : isOneLine t = true) :
    isOneLine (mustacheContent q t).around = true := by
  have hpieces : ∀ p ∈ pieces t, isOneLine p.source = true := fun p hp =>
    isOneLine_of_infix h (infix_of_mem_pieces hp)
  unfold mustacheContent
  generalize pieces t = ps at hpieces ⊢
  induction ps with
  | nil => rfl
  | cons p ps ih =>
    obtain ⟨hp, hps⟩ := List.forall_mem_cons.1 hpieces
    rw [List.flatMap_cons, around_append, isOneLine_append]
    refine ⟨?_, ih hps⟩
    cases p with
    | code c => simp [isOneLine]
    | plain t => simpa [Piece.source] using hp
    | unclosed t => simpa [Piece.source] using hp

/-- **No answer breaks a line.** -/
theorem isOneLine_resolve {ε : Type} (f : Formatter ε) (q : Quotes) (s : Session ε) :
    (∀ g, g ≠ .statement → ∀ code, isOneLine ((expression q g code).resolve f s).1 = true) ∧
    (∀ name mustEscape source k, sourceContent q name mustEscape source = some k →
      (k.resolve f s).1.count '\n' = k.around.count '\n' ∧
        (isOneLine source = true → isOneLine (k.resolve f s).1 = true)) ∧
    (∀ t, let k := mustacheContent q t
      (k.resolve f s).1.count '\n' = k.around.count '\n' ∧
        (isOneLine t = true → isOneLine (k.resolve f s).1 = true)) ∧
    ∀ semicolons code, let w := ((statement q semicolons code).resolve f s).1
      (w = code ∨ isOneLine w = true) ∧ (isOneLine code = true → isOneLine w = true) := by
  refine ⟨fun g hg code => ?_, fun name mustEscape source k hk => ?_, fun t => ?_,
    fun semicolons code => ?_⟩
  · refine isOneLine_of_around f (fun r hr => ?_) (by simp [isOneLine]) s
    rwa [grammar_expression hr]
  · have hcode : ∀ r ∈ k.requests, r.grammar ≠ .statement := fun r => grammar_sourceContent hk
    exact ⟨count_resolve f hcode s, fun h =>
      isOneLine_of_around f hcode (isOneLine_around_sourceContent h hk) s⟩
  · intro k
    have hcode : ∀ r ∈ k.requests, r.grammar ≠ .statement := fun r hr => by
      rw [grammar_mustacheContent hr]
      decide
    exact ⟨count_resolve f hcode s, fun h =>
      isOneLine_of_around f hcode (isOneLine_around_mustacheContent q h) s⟩
  · intro w
    have hor : w = code ∨ isOneLine w = true := resolve_statement_or f q semicolons code s
    refine ⟨hor, fun h => ?_⟩
    rcases hor with hw | hw
    · rw [hw, h]
    · exact hw

theorem isOneLine_resolve_samples :
    let f : Formatter Empty := fun _ r => .ok ("\n" ++ r.code ++ "\n;\n\nb;\n\n")
    let value := (sourceContent .double ":a".toList true "'x'".toList).getD []
    let text := mustacheContent .single "\x7b\x7bx\x7d\x7d, \x7b\x7by\x7d\x7d".toList
    let code := statement .double true "x()".toList
    (isOneLine (value.resolve f {}).1 = true ∧ (value.resolve f {}).1 = "\"x;b\"".toList) ∧
      (isOneLine (text.resolve f {}).1 = true ∧
        (text.resolve f {}).1 = "\x7b\x7b x;b \x7d\x7d, \x7b\x7b y;b \x7d\x7d".toList) ∧
      (isOneLine (code.resolve f {}).1 = true ∧ (code.resolve f {}).1 = "x()".toList) := by
  intro f value text code
  obtain ⟨-, hvalue, -, -⟩ := isOneLine_resolve f .double {}
  obtain ⟨-, -, htext, -⟩ := isOneLine_resolve f .single {}
  obtain ⟨-, -, -, hcode⟩ := isOneLine_resolve f .double {}
  refine ⟨⟨(hvalue ":a".toList true "'x'".toList value rfl).2 (by decide), by decide⟩,
    ⟨(htext _).2 (by decide), by decide⟩, ⟨(hcode true "x()".toList).2 (by decide), by decide⟩⟩

end PugPretty
