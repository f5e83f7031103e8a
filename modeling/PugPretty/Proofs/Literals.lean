import PugPretty.Proofs.ClassAttributes
import PugPretty.Proofs.QuotedValues

/-!
# Literals

A string literal ends with the first of its quotes that stands bare. A value that is a literal is
written as one between the quotes of the style: a body is given its escapes anew, and code between
quotes is an answer without quotes and backslashes. Only the span of a mustache value is put between
the quotes as it is, so there it depends on the span (`isLiteral_content`, `format_quotedSpan`).
-/

namespace PugPretty

open Text

/-! ## Bare quotes -/

def IsLiteral (q : Char) (t : Text) : Prop :=
  ∃ body, t = q :: (body ++ [q]) ∧ hasBareQuote q body = false ∧ hasBareQuote q (body ++ [q]) = true

theorem isLiteral_iff {q : Char} {body : Text} : IsLiteral q (q :: (body ++ [q])) ↔
    hasBareQuote q body = false ∧ hasBareQuote q (body ++ [q]) = true := by
  constructor
  · rintro ⟨body', h, hbare⟩
    rw [List.cons.injEq, List.append_cancel_right_eq] at h
    rw [h.2]
    exact hbare
  · exact fun h => ⟨body, rfl, h⟩

section
variable {q : Char}

theorem hasBareQuote_cons {c : Char} (hc : c ≠ '\\') (t : Text) :
    hasBareQuote q (c :: t) = (c == q || hasBareQuote q t) := by
  rw [hasBareQuote.eq_def]
  split
  · contradiction
  · next heq => cases heq; exact absurd rfl hc
  · next heq => cases heq; rfl

theorem hasBareQuote_cons_of_ne {c : Char} (hc : c ≠ '\\') (hq : c ≠ q) (t : Text) :
    hasBareQuote q (c :: t) = hasBareQuote q t := by
  rw [hasBareQuote_cons hc, beq_eq_false_iff_ne.2 hq, Bool.false_or]

theorem hasBareQuote_backslash (hb : '\\' ≠ q) (t : Text) :
    hasBareQuote q ('\\' :: t) = hasBareQuote q (t.drop 1) := by
  cases t with
  | nil => simp [hasBareQuote, hb]
  | cons c t => rfl

/-- A character that is no quote and no backslash does not change how the text behind it is read,
even if a backslash takes it in. -/
theorem hasBareQuote_append_cons (hb : '\\' ≠ q) {c : Char} (hc : c ≠ '\\') (hq : c ≠ q)
    (t u : Text) : hasBareQuote q (t ++ c :: u) = (hasBareQuote q t || hasBareQuote q u) := by
  fun_induction hasBareQuote q t with
  | case1 => exact hasBareQuote_cons_of_ne hc hq u
  | case2 d r ih => exact ih
  | case3 d r hne ih =>
    by_cases hd : d = '\\'
    · subst hd
      cases r with
      | nil => simp [hasBareQuote, hb]
      | cons e r => exact (hne e r rfl rfl).elim
    · rw [List.cons_append, hasBareQuote_cons hd, ih, Bool.or_assoc]

theorem hasBareQuote_of_clean {t : Text} (h : ∀ c ∈ t, c ≠ '\\' ∧ c ≠ q) :
    hasBareQuote q t = false := by
  induction t with
  | nil => rfl
  | cons c t ih =>
    obtain ⟨⟨hc, hq⟩, ht⟩ := List.forall_mem_cons.1 h
    rw [hasBareQuote_cons_of_ne hc hq, ih ht]

theorem isLiteral_of_clean {t : Text} (hb : '\\' ≠ q) (h : ∀ c ∈ t, c ≠ '\\' ∧ c ≠ q) :
    IsLiteral q (q :: (t ++ [q])) := by
  refine isLiteral_iff.2 ⟨hasBareQuote_of_clean h, ?_⟩
  induction t with
  | nil => simp [hasBareQuote_cons hb.symm]
  | cons c t ih =>
    obtain ⟨⟨hc, hq⟩, ht⟩ := List.forall_mem_cons.1 h
    rw [List.cons_append, hasBareQuote_cons_of_ne hc hq, ih ht]

end

/-! ## What leaves quotes bare -/

theorem ne_of_isBlank {q c : Char} (hb : isBlank q = false) (h : isBlank c = true) : c ≠ q := by
  rintro rfl
  rw [hb] at h
  cases h

section
variable {q : Char} (hb : '\\' ≠ q) (hq : isBlank q = false)
include hq

theorem hasBareQuote_cons_blank {c : Char} (hc : isBlank c = true) (t : Text) :
    hasBareQuote q (c :: t) = hasBareQuote q t :=
  hasBareQuote_cons_of_ne (ne_of_isBlank (by decide) hc) (ne_of_isBlank hq hc) t

include hb

theorem hasBareQuote_append_blank {u : Text} (hu : u.all isBlank = true) (t : Text) :
    hasBareQuote q (t ++ u) = hasBareQuote q t := by
  cases u with
  | nil => rw [List.append_nil]
  | cons c u =>
    have hne : ∀ d ∈ c :: u, d ≠ '\\' ∧ d ≠ q := fun d hd =>
      have hd := List.all_eq_true.1 hu d hd
      ⟨ne_of_isBlank (by decide) hd, ne_of_isBlank hq hd⟩
    obtain ⟨⟨hc, hcq⟩, hu⟩ := List.forall_mem_cons.1 hne
    rw [hasBareQuote_append_cons hb hc hcq, hasBareQuote_of_clean hu, Bool.or_false]

theorem hasBareQuote_trim (t : Text) : hasBareQuote q (trim t) = hasBareQuote q t := by
  have hstart : hasBareQuote q (trimStart t) = hasBareQuote q t := by
    unfold trimStart
    induction t with
    | nil => rfl
    | cons c t ih =>
      rw [List.dropWhile_cons]
      split
      · next hc => rw [ih, hasBareQuote_cons_blank hq hc]
      · rfl
  obtain ⟨u, hu, hall⟩ : ∃ u, trim t ++ u = trimStart t ∧ u.all isBlank = true :=
    ⟨List.rtakeWhile isBlank (trimStart t), List.rdropWhile_append_rtakeWhile,
      List.all_eq_true.2 fun _ => List.mem_rtakeWhile_imp⟩
  rw [← hstart, ← hu, hasBareQuote_append_blank hb hq hall]

/-- Behind a backslash one character less counts, so both readings go along. -/
theorem hasBareQuote_collapse (t : Text) : hasBareQuote q (collapse t) = hasBareQuote q t ∧
    hasBareQuote q ((collapse t).drop 1) = hasBareQuote q (t.drop 1) := by
  induction t with
  | nil => exact ⟨rfl, rfl⟩
  | cons c r ih =>
    obtain ⟨ihAll, ihDrop⟩ := ih
    rw [collapse]
    split
    · next h =>
      obtain ⟨hc, hr⟩ : isBlank c = true ∧ r.head?.any isBlank = true := by simpa using h
      have hdrop : hasBareQuote q ((collapse r).drop 1) = hasBareQuote q r := by
        cases r with
        | nil => cases hr
        | cons d r => rw [ihDrop, hasBareQuote_cons_blank hq (by simpa using hr)]; rfl
      rw [hasBareQuote_cons_blank hq (by decide), hasBareQuote_cons_blank hq hc]
      exact ⟨hdrop, hdrop⟩
    · refine ⟨?_, ihAll⟩
      by_cases hc : c = '\\'
      · rw [hc, hasBareQuote_backslash hb, hasBareQuote_backslash hb, ihDrop]
      · rw [hasBareQuote_cons hc, hasBareQuote_cons hc, ihAll]

end

/-! ## What is written between the quotes -/

namespace Quotes

variable (q : Quotes)

theorem backslash_ne : '\\' ≠ q.char := by cases q <;> decide

theorem isBlank_char : isBlank q.char = false := by cases q <;> decide

theorem opposite_ne : q.opposite.char ≠ q.char ∧ q.opposite.char ≠ '\\' := by cases q <;> decide

end Quotes

theorem hasBareQuote_requoted (q : Quotes) (body : Text) :
    hasBareQuote q.char (requoted q body) = false := by
  fun_induction requoted q body with
  | case1 => rfl
  | case2 r ih =>
    rw [hasBareQuote_cons q.opposite_ne.2, ih, Bool.or_false, beq_eq_false_iff_ne]
    exact q.opposite_ne.1
  | case3 c r hc ih => exact ih
  | case4 r hne ih => exact ih
  | case5 c r hne hc ih =>
    by_cases hbs : c = '\\'
    · subst hbs
      cases r with
      | nil => simp [requoted, hasBareQuote, hc]
      | cons d r => exact (hne d r rfl rfl).elim
    · rw [hasBareQuote_cons hbs, ih, Bool.or_false, beq_eq_false_iff_ne]
      exact hc

/-- New quotes around a body are closed where the old ones were. -/
theorem closes_requoted (q : Quotes) {q₀ : Char} (hb : '\\' ≠ q₀) {body : Text}
    (h : hasBareQuote q₀ body = false) :
    hasBareQuote q.char (requoted q body ++ [q.char]) = hasBareQuote q₀ (body ++ [q₀]) := by
  fun_induction requoted q body with
  | case1 => simp [hasBareQuote_cons q.backslash_ne.symm, hasBareQuote_cons hb.symm]
  | case2 r ih =>
    rw [List.cons_append, hasBareQuote_cons_of_ne q.opposite_ne.2 q.opposite_ne.1]
    exact ih h
  | case3 c r hc ih => exact ih h
  | case4 r hne ih =>
    rw [hasBareQuote_cons q.backslash_ne.symm, Bool.or_eq_false_iff, beq_eq_false_iff_ne] at h
    exact (ih h.2).trans (hasBareQuote_cons_of_ne q.backslash_ne.symm h.1 _).symm
  | case5 c r hne hc ih =>
    by_cases hbs : c = '\\'
    · subst hbs
      cases r with
      | nil => rfl
      | cons d r => exact (hne d r rfl rfl).elim
    · rw [hasBareQuote_cons hbs, Bool.or_eq_false_iff, beq_eq_false_iff_ne] at h
      rw [List.cons_append, hasBareQuote_cons_of_ne hbs hc, ih h.2, List.cons_append,
        hasBareQuote_cons_of_ne hbs h.1]

theorem isLiteral_quote (q : Quotes) {q₀ : Char} (hb : '\\' ≠ q₀) {body : Text}
    (h : IsLiteral q₀ (q₀ :: (body ++ [q₀]))) : IsLiteral q.char (quote q body) := by
  obtain ⟨hbare, hclose⟩ := isLiteral_iff.1 h
  exact isLiteral_iff.2 ⟨hasBareQuote_requoted q body, (closes_requoted q hb hbare).trans hclose⟩

theorem isLiteral_span (q : Quotes) (span : Text) :
    IsLiteral q.char (q.char :: ('{' :: '{' :: ' ' :: (collapse (trim span) ++ [' ', '}', '}']) ++
        [q.char])) ↔ hasBareQuote q.char span = false := by
  have hb := q.backslash_ne
  have hq := q.isBlank_char
  have hbrace : '{' ≠ q.char ∧ '}' ≠ q.char := by cases q <;> decide
  have hread : ∀ u, hasBareQuote q.char
      ('{' :: '{' :: ' ' :: (collapse (trim span) ++ ' ' :: '}' :: '}' :: u)) =
        (hasBareQuote q.char span || hasBareQuote q.char u) := by
    intro u
    have hopen : ∀ t, hasBareQuote q.char ('{' :: '{' :: ' ' :: t) = hasBareQuote q.char t := fun t => by
      rw [hasBareQuote_cons_of_ne (by decide) hbrace.1, hasBareQuote_cons_of_ne (by decide) hbrace.1,
        hasBareQuote_cons_of_ne (by decide) q.space_ne.2]
    have hclose : hasBareQuote q.char ('}' :: '}' :: u) = hasBareQuote q.char u := by
      rw [hasBareQuote_cons_of_ne (by decide) hbrace.2, hasBareQuote_cons_of_ne (by decide) hbrace.2]
    rw [hopen, hasBareQuote_append_cons hb (by decide) q.space_ne.2, hclose,
      (hasBareQuote_collapse hb hq (trim span)).1, hasBareQuote_trim hb hq]
  rw [isLiteral_iff]
  simp only [List.cons_append, List.append_assoc, List.nil_append, hread]
  simp [hasBareQuote_cons hb.symm, hasBareQuote]

/-! ## Answers -/

/-- No answer has the quote of the style or a backslash in it. -/
def Formatter.Avoids {ε : Type} (f : Formatter ε) (q : Quotes) : Prop :=
  ∀ rs r a, f rs r = .ok a → ∀ c ∈ a.toList, c ≠ '\\' ∧ c ≠ q.char

theorem mem_of_mem_trim {t : Text} {c : Char} (h : c ∈ trim t) : c ∈ t :=
  (List.dropWhile_suffix isBlank).mem ((List.rdropWhile_prefix isBlank (trimStart t)).mem h)

theorem mem_intercalate {sep line : Text} {c : Char} (hc : c ∈ line) :
    ∀ {ls : List Text}, line ∈ ls → c ∈ sep.intercalate ls
  | [l], h => by
    rw [List.mem_singleton.1 h] at hc
    simpa [List.intercalate] using hc
  | l :: m :: ls, h => by
    rw [List.intercalate, List.intersperse_cons_cons, List.flatten_cons, List.mem_append]
    rcases List.mem_cons.1 h with rfl | h
    · exact .inl hc
    · exact .inr (List.mem_append_right sep (mem_intercalate hc h))

theorem mem_of_mem_joinLines {t : Text} {c : Char} (h : c ∈ joinLines t) : c ∈ t := by
  unfold joinLines at h
  split at h
  · exact h
  · obtain ⟨_, hmap, hc⟩ := List.mem_flatten.1 h
    obtain ⟨line, hline, rfl⟩ := List.mem_map.1 hmap
    rw [← unlines_lines t]
    exact mem_intercalate (mem_of_mem_trim hc) hline

theorem mem_of_mem_expressionText {t : Text} {c : Char} (h : c ∈ expressionText t) : c ∈ t :=
  mem_of_mem_trim ((List.rdropWhile_prefix (· == ';') (trim t)).mem (mem_of_mem_joinLines h))

section
variable {ε : Type} {f : Formatter ε} {q : Quotes} (hf : f.Avoids q)
include hf

theorem resolve_clean {r : Request} (hg : r.grammar ≠ .statement) {c : Session ε}
    (h : (c.resolve f r).2.failure = none) :
    ∀ x ∈ (c.resolve f r).1, x ≠ '\\' ∧ x ≠ q.char := by
  rw [Session.resolve_snd, Option.or_eq_none_iff] at h
  unfold Session.resolve Session.ask
  cases ha : f c.requests r with
  | error e => rw [ha] at h; simp [Request.failure?, hg] at h
  | ok a =>
    intro x hx
    refine hf _ _ a ha x (mem_of_mem_expressionText ?_)
    cases hr : r.grammar with
    | statement => exact absurd hr hg
    | _ => simpa [hr] using hx

theorem expression_clean {g : Grammar} (hg : g ≠ .statement) (code : Text) {c : Session ε}
    (h : ((expression q g code).resolve f c).2.failure = none) :
    ∀ x ∈ ((expression q g code).resolve f c).1, x ≠ '\\' ∧ x ≠ q.char := by
  unfold expression at h ⊢
  split
  · exact nofun
  · next hblank =>
    rw [if_neg hblank] at h
    simpa [Content.resolve] using resolve_clean hf hg h

end

/-! ## Values that are literals -/

theorem unquote?_of_literal {q : Char} (hq : isQuote q = true) (body : Text) :
    unquote? (q :: (body ++ [q])) = some body := by
  simp [unquote?, hq]

/-- **Literals stay literals.** -/
theorem isLiteral_content {ε : Type} {f : Formatter ε} {q : Quotes} (hf : f.Avoids q)
    {a : Attribute} {code : String} (hv : a.value = .source code) {q₀ : Char}
    (hq : isQuote q₀ = true) (hl : IsLiteral q₀ (trim code.toList)) (c : Session ε) :
    let span? := if (Grammar.ofDirective? a.name.toList).isNone then mustacheValue? (trim code.toList)
      else none
    ∃ k, a.content q = some k ∧
      (span? = none → (k.resolve f c).2.failure = none → IsLiteral q.char (k.resolve f c).1) ∧
      ∀ span, span? = some span →
        (IsLiteral q.char (k.resolve f c).1 ↔ hasBareQuote q.char span = false) := by
  intro span?
  have hb : '\\' ≠ q₀ := by rintro rfl; cases hq
  obtain ⟨body, hbody, hbare⟩ := hl
  have hu := unquote?_of_literal hq body
  simp only [Attribute.content, hv, sourceContent, hbody, hu]
  cases hd : Grammar.ofDirective? a.name.toList with
  | some g =>
    have hg : g ≠ .statement := fun e => Grammar.ofDirective?_ne_statement _ (e ▸ hd)
    refine ⟨_, rfl, fun _ hfail => ?_, fun span hs => ?_⟩
    · rw [List.cons_append, Content.resolve_plain, Content.resolve_append] at hfail ⊢
      exact isLiteral_of_clean q.backslash_ne (expression_clean hf hg body hfail)
    · simp [span?, hd] at hs
  | none =>
    have hspan : span? = mustacheValue? (q₀ :: (body ++ [q₀])) := by simp [span?, hd, hbody]
    cases hm : mustacheValue? (q₀ :: (body ++ [q₀])) with
    | none =>
      refine ⟨_, rfl, fun _ _ => ?_, fun span hs => ?_⟩
      · rw [Content.resolve_plain]
        simpa [Content.resolve] using isLiteral_quote q hb (isLiteral_iff.2 hbare)
      · rw [hspan, hm] at hs; cases hs
    | some span =>
      refine ⟨_, rfl, fun hs => ?_, fun span' hs => ?_⟩
      · rw [hspan, hm] at hs; cases hs
      · rw [hspan, hm] at hs
        cases hs
        rw [← isLiteral_span q span]
        simp [Content.resolve]

theorem isLiteral_content_samples :
    let f : Formatter Empty := fun _ _ => .ok "x ;"
    let text := fun name code =>
      (((⟨name, .source code, true⟩ : Attribute).content .double).getD []).resolve f {} |>.1
    IsLiteral '"' (text "title" " 'say \"hi\"' ") ∧ IsLiteral '"' (text ":title" "'y == \"z\"'") ∧
      ¬ IsLiteral '"' (text "title" "'\x7b\x7b x == \"y\" \x7d\x7d'") := by
  intro f text
  have hf : f.Avoids .double := by
    intro rs r a ha
    cases ha
    show ∀ c ∈ ['x', ' ', ';'], c ≠ '\\' ∧ c ≠ '"'
    simp
  have hl : ∀ body, hasBareQuote '\'' body = false → hasBareQuote '\'' (body ++ ['\'']) = true →
      IsLiteral '\'' ('\'' :: (body ++ ['\''])) := fun body h h' => isLiteral_iff.2 ⟨h, h'⟩
  have hget : ∀ {a : Attribute} {k : Content}, a.content .double = some k →
      k = (a.content .double).getD [] := fun hk => by rw [hk]; rfl
  obtain ⟨k₁, hk₁, hstring, -⟩ := isLiteral_content hf
    (a := ⟨"title", .source " 'say \"hi\"' ", true⟩) rfl rfl
    (hl "say \"hi\"".toList (by decide) (by decide)) {}
  obtain ⟨k₂, hk₂, hdirective, -⟩ := isLiteral_content hf
    (a := ⟨":title", .source "'y == \"z\"'", true⟩) rfl rfl
    (hl "y == \"z\"".toList (by decide) (by decide)) {}
  obtain ⟨k₃, hk₃, -, hspan⟩ := isLiteral_content hf
    (a := ⟨"title", .source "'\x7b\x7b x == \"y\" \x7d\x7d'", true⟩) rfl rfl
    (hl "\x7b\x7b x == \"y\" \x7d\x7d".toList (by decide) (by decide)) {}
  obtain rfl := hget hk₁
  obtain rfl := hget hk₂
  obtain rfl := hget hk₃
  refine ⟨hstring (by decide) rfl, hdirective (by decide) rfl, fun h => ?_⟩
  exact absurd ((hspan " x == \"y\" ".toList (by decide)).1 h) (by decide)

def quotedSpan : List Token :=
  [⟨.tag "p", {}⟩, ⟨.startAttributes, {}⟩,
    ⟨.attr ⟨"title", .source "'\x7b\x7b x == \"y\" \x7d\x7d'", true⟩, {}⟩, ⟨.endAttributes, {}⟩,
    ⟨.eos, {}⟩]

theorem format_quotedSpan : WellFormed quotedSpan ∧
    IsLiteral '\'' "'\x7b\x7b x == \"y\" \x7d\x7d'".toList ∧
    (format wordReader {} (fun _ r => .ok r.code : Formatter Empty) quotedSpan).result =
      .ok "p(title=\"\x7b\x7b x == \"y\" \x7d\x7d\")\n" ∧
    ¬ IsLiteral '"' "\"\x7b\x7b x == \"y\" \x7d\x7d\"".toList := by
  let body : Text := "\x7b\x7b x == \"y\" \x7d\x7d".toList
  have hsource : IsLiteral '\'' ('\'' :: (body ++ ['\''])) := isLiteral_iff.2 (by decide)
  refine ⟨by decide, hsource, rfl, fun h => ?_⟩
  have hbare : hasBareQuote '"' body = false := (isLiteral_iff.1 h).1
  exact absurd hbare (by decide)

end PugPretty
