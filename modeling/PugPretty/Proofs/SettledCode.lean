import Mathlib.Logic.Function.Iterate
import PugPretty.Proofs.MustacheSpans
import PugPretty.Proofs.QuotedValues
import PugPretty.Proofs.TextEnds

/-!
# Settled code

What is written for code that the formatter gives back as it is. It is one line that begins with no
blank, and it is written the same way again exactly if it also ends with neither a blank nor a
semicolon. That can fail, because the semicolons are dropped behind the blanks and the lines are
joined behind both (`unaided_unaided_iff`, `format_looseCode`).
-/

namespace PugPretty

open Text

def echo {ε : Type} : Formatter ε := fun _ r => .ok r.code

/-- Code without the blanks around it and then without the semicolons at its end. -/
def bareCode (code : Text) : Text := dropEndWhile (· == ';') (trim code)

def unaided (code : Text) : Text := joinLines (bareCode code)

structure Settled (t : Text) : Prop where
  head : ∀ c ∈ t.head?, isBlank c = false
  last : ∀ c ∈ t.getLast?, isBlank c = false
  closed : t.getLast? ≠ some ';'

theorem resolve_expression_echo {ε : Type} (q : Quotes) {g : Grammar} (hg : g ≠ .statement)
    (code : Text) (s : Session ε) :
    ((expression q g code).resolve echo s).1 = unaided code := by
  unfold expression
  split
  · next hblank =>
    have htrim : trim code = [] := by
      have hstart : trimStart code = [] :=
        List.dropWhile_eq_nil_iff.2 (List.all_eq_true.1 hblank)
      rw [trim, hstart]
      rfl
    rw [unaided, bareCode, htrim]
    rfl
  · cases g with
    | statement => exact absurd rfl hg
    | _ =>
      simp [Content.resolve, Session.resolve, Session.ask, echo, expressionText, trim_trim, unaided,
        bareCode]

/-! ## When code is settled -/

theorem head?_bareCode (code : Text) : ∀ c ∈ (bareCode code).head?, isBlank c = false :=
  head?_of_prefix (List.rdropWhile_prefix _ _) (head?_trim code)

theorem infix_bareCode (code : Text) : bareCode code <:+: code :=
  (List.rdropWhile_prefix _ _).isInfix.trans (infix_trim code)

theorem bareCode_of_settled {t : Text} (h : Settled t) : bareCode t = t := by
  rw [bareCode, trim_eq_self h.head h.last]
  refine dropEndWhile_eq_self fun c hc => ?_
  have hne : c ≠ ';' := by
    rintro rfl
    exact h.closed hc
  simp [hne]

theorem settled_of_bareCode {t : Text} (h : bareCode t = t) : Settled t := by
  have hprefix : bareCode t <+: trim t := List.rdropWhile_prefix (· == ';') (trim t)
  rw [h] at hprefix
  have htrim : t = trim t := hprefix.eq_of_length_le (infix_trim t).length_le
  refine ⟨htrim ▸ head?_trim t, htrim ▸ getLast?_trim t, fun hlast => ?_⟩
  rw [← h] at hlast
  simpa using getLast?_dropEndWhile (· == ';') (trim t) ';' hlast

theorem unaided_of_isOneLine {t : Text} (h : isOneLine t = true) : unaided t = bareCode t := by
  have hbare : isOneLine (bareCode t) = true := isOneLine_of_infix h (infix_bareCode t)
  rw [unaided, joinLines, if_pos hbare]

theorem unaided_eq_self_iff {t : Text} (h : isOneLine t = true) : unaided t = t ↔ Settled t := by
  rw [unaided_of_isOneLine h]
  exact ⟨settled_of_bareCode, bareCode_of_settled⟩

/-- Blanks in front of the last semicolons unsettle a line of code, and several lines of code if
another semicolon stands in front of these blanks. -/
def EndsLoose (t : Text) : Prop :=
  if isOneLine t then endsBlank t = true else (trimEnd t).getLast? = some ';'

instance (t : Text) : Decidable (EndsLoose t) :=
  inferInstanceAs (Decidable (if isOneLine t then endsBlank t = true
    else (trimEnd t).getLast? = some ';'))

theorem settled_unaided_iff (code : Text) :
    Settled (unaided code) ↔ ¬ EndsLoose (bareCode code) := by
  have hhead : ∀ c ∈ (unaided code).head?, isBlank c = false :=
    head?_joinLines (head?_bareCode code)
  have hclosed : (bareCode code).getLast? ≠ some ';' := fun h => by
    simpa using getLast?_dropEndWhile (· == ';') (trim code) ';' h
  unfold EndsLoose
  by_cases hline : isOneLine (bareCode code) = true
  · have heq : unaided code = bareCode code := by rw [unaided, joinLines, if_pos hline]
    rw [if_pos hline, Bool.not_eq_true, endsBlank, Option.any_eq_false]
    constructor
    · intro h
      rw [heq] at h
      exact h.last
    · intro h
      rw [heq] at hhead ⊢
      exact ⟨hhead, h, hclosed⟩
  · have hlast : (unaided code).getLast? = (trimEnd (bareCode code)).getLast? :=
      getLast?_joinLines (Bool.eq_false_iff.2 hline)
    rw [if_neg hline, ← hlast]
    refine ⟨fun h => h.closed, fun h => ⟨hhead, ?_, h⟩⟩
    rw [hlast]
    exact getLast?_dropEndWhile isBlank (bareCode code)

/-- Each further run makes a line of code shorter until it is settled. -/
theorem exists_settled_iterate {t : Text} (h : isOneLine t = true) :
    ∃ n, Settled (unaided^[n] t) := by
  by_cases hs : Settled t
  · exact ⟨0, hs⟩
  · have hne : bareCode t ≠ t := fun heq => hs (settled_of_bareCode heq)
    have hshorter : (unaided t).length < t.length := by
      rw [unaided_of_isOneLine h]
      refine lt_of_le_of_ne (infix_bareCode t).length_le fun hlen => hne ?_
      exact (infix_bareCode t).eq_of_length hlen
    obtain ⟨n, hn⟩ := exists_settled_iterate (t := unaided t) (isOneLine_joinLines _)
    exact ⟨n + 1, hn⟩
termination_by t.length
decreasing_by exact hshorter

/-! ## Spans -/

section
variable {d : Char}

theorem pair_infix_append_cons_iff {x : Char} (hx : x ≠ d) (t u : Text) :
    [d, d] <:+: t ++ x :: u ↔ [d, d] <:+: t ∨ [d, d] <:+: u := by
  induction t with
  | nil => simp [pair_infix_cons_iff, hx]
  | cons c t ih =>
    rw [List.cons_append, pair_infix_cons_iff, pair_infix_cons_iff, ih, or_assoc]
    cases t with
    | nil => simp [hx]
    | cons e t => rfl

end

def Text.Piece.unaided : Piece → Piece
  | .code c => .code (' ' :: (PugPretty.unaided c ++ [' ']))
  | p => p

theorem resolve_mustacheContent_echo {ε : Type} (q : Quotes) (t : Text) (s : Session ε) :
    ((mustacheContent q t).resolve echo s).1 = source ((pieces t).map Piece.unaided) := by
  rw [resolve_eq_spliced]
  induction pieces t generalizing s with
  | nil => rfl
  | cons p ps ih =>
    cases p with
    | code c =>
      simp [spliced, ih, resolve_expression_echo, source, Piece.unaided, Piece.source]
    | _ => simp [spliced, ih, source, Piece.unaided, Piece.source]

/-- No delimiter comes about when the lines of a span are joined. -/
def StaysOpen (ps : List Piece) : Prop := ∀ c, .code c ∈ ps → ¬ ['}', '}'] <:+: unaided c

theorem isCut_unaided {ps : List Piece} (h : IsCut ps) (hopen : StaysOpen ps) :
    IsCut (ps.map Piece.unaided) := by
  induction h with
  | plain ht => exact .plain ht
  | unclosed ht hr => exact .unclosed ht hr
  | @span t c ps ht hc h ih =>
    have hcode : ¬ ['}', '}'] <:+: unaided c := hopen c (by simp)
    refine .span ht ?_ (ih fun c hmem => hopen c (by simp [hmem]))
    rw [List.cons_append, List.append_assoc, List.singleton_append, pair_infix_cons_iff,
      pair_infix_append_cons_iff (by decide)]
    simp [hcode, pair_infix_cons_iff]

theorem trim_padded (t : Text) : trim (' ' :: (t ++ [' '])) = trim t := by
  have hspace : isBlank ' ' = true := by decide
  rw [trim_cons_blank hspace, trim_snoc_blank hspace]

theorem unaided_padded (t : Text) : unaided (' ' :: (t ++ [' '])) = unaided t := by
  simp only [unaided, bareCode, trim_padded]

theorem infix_of_code_mem {ps : List Piece} {c : Text} (h : .code c ∈ ps) : c <:+: source ps := by
  obtain ⟨before, after, rfl⟩ := List.append_of_mem h
  exact ⟨source before ++ ['{', '{'], '}' :: '}' :: source after, by simp [source, Piece.source]⟩

theorem not_pair_infix_of_code_mem {ps : List Piece} (h : IsCut ps) {c : Text} (hc : .code c ∈ ps) :
    ¬ ['}', '}'] <:+: c := by
  induction h with
  | plain ht => simp at hc
  | unclosed ht hr => simp at hc
  | @span t d ps ht hd h ih =>
    by_cases hcd : c = d
    · subst hcd
      exact fun hpair => hd (hpair.trans (List.prefix_append c ['}']).isInfix)
    · exact ih (by simpa [hcd] using hc)

theorem staysOpen_of_isOneLine {t : Text} (h : isOneLine t = true) : StaysOpen (pieces t) := by
  intro c hc hpair
  obtain ⟨hcut, hsource⟩ := isCut_iff.2 (rfl : pieces t = pieces t)
  have hin : c <:+: t := hsource ▸ infix_of_code_mem hc
  have hline : isOneLine c = true := isOneLine_of_infix h hin
  rw [unaided_of_isOneLine hline] at hpair
  exact not_pair_infix_of_code_mem hcut hc (hpair.trans (infix_bareCode c))

theorem Text.Piece.unaided_unaided_eq_iff (p : Piece) : p.unaided.unaided = p.unaided ↔
    ∀ c, p = .code c → PugPretty.unaided (PugPretty.unaided c) = PugPretty.unaided c := by
  cases p with
  | code c => simp [Piece.unaided, unaided_padded]
  | _ => simp [Piece.unaided]

theorem staysOpen_map_unaided {ps : List Piece} (h : StaysOpen ps) :
    StaysOpen (ps.map Piece.unaided) := by
  intro c hc hpair
  obtain ⟨p, hp, hpc⟩ := List.mem_map.1 hc
  cases p with
  | code d =>
    cases hpc
    have hline : isOneLine (unaided d) = true := isOneLine_joinLines _
    rw [unaided_padded, unaided_of_isOneLine hline] at hpair
    exact h d hp (hpair.trans (infix_bareCode _))
  | _ => cases hpc

theorem source_unaided_unaided_iff {ps : List Piece} (h : IsCut ps) (hopen : StaysOpen ps) :
    source ((ps.map Piece.unaided).map Piece.unaided) = source (ps.map Piece.unaided) ↔
      ∀ c, .code c ∈ ps → Settled (unaided c) := by
  have hcut := isCut_unaided h hopen
  have hcut' := isCut_unaided hcut (staysOpen_map_unaided hopen)
  have hinj : source ((ps.map Piece.unaided).map Piece.unaided) = source (ps.map Piece.unaided) ↔
      (ps.map Piece.unaided).map Piece.unaided = ps.map Piece.unaided := by
    refine ⟨fun hs => ?_, fun hp => by rw [hp]⟩
    rw [← pieces_source hcut', hs, pieces_source hcut]
  rw [hinj, List.map_map, List.map_inj_left]
  constructor
  · intro hall c hc
    exact (unaided_eq_self_iff (isOneLine_joinLines _)).1
      ((Piece.unaided_unaided_eq_iff _).1 (hall _ hc) c rfl)
  · intro hall p hp
    refine (Piece.unaided_unaided_eq_iff p).2 ?_
    rintro c rfl
    exact (unaided_eq_self_iff (isOneLine_joinLines _)).2 (hall c hp)

/-- **When code that comes back as it is stays as it is written.** -/
theorem unaided_unaided_iff {ε : Type} (q : Quotes) :
    (∀ g, g ≠ .statement → ∀ code (s : Session ε),
      ((expression q g code).resolve echo s).1 = unaided code) ∧
    (∀ code, isOneLine (unaided code) = true ∧ (∀ c ∈ (unaided code).head?, isBlank c = false) ∧
      (unaided (unaided code) = unaided code ↔ Settled (unaided code)) ∧
      (Settled (unaided code) ↔ ¬ EndsLoose (bareCode code)) ∧
      ∃ n, Settled (unaided^[n] (unaided code))) ∧
    ∀ t (s s' : Session ε),
      let w := ((mustacheContent q t).resolve echo s).1
      (isOneLine t = true → StaysOpen (pieces t)) ∧
      (StaysOpen (pieces t) → (((mustacheContent q w).resolve echo s').1 = w ↔
        ∀ c, .code c ∈ pieces t → Settled (unaided c))) := by
  refine ⟨fun g hg => resolve_expression_echo q hg, fun code => ?_, fun t s s' => ?_⟩
  · have hline : isOneLine (unaided code) = true := isOneLine_joinLines _
    exact ⟨hline, head?_joinLines (head?_bareCode code), unaided_eq_self_iff hline,
      settled_unaided_iff code, exists_settled_iterate hline⟩
  · intro w
    refine ⟨staysOpen_of_isOneLine, fun hopen => ?_⟩
    have hcut : IsCut (pieces t) := (isCut_iff.2 rfl).1
    have hw : w = source ((pieces t).map Piece.unaided) := resolve_mustacheContent_echo q t s
    rw [resolve_mustacheContent_echo, hw, pieces_source (isCut_unaided hcut hopen)]
    exact source_unaided_unaided_iff hcut hopen

theorem unaided_unaided_iff_samples :
    let write := fun code => ((expression .double .vueExpression code).resolve
      (echo : Formatter Empty) {}).1
    let run := fun t => ((mustacheContent .double t).resolve (echo : Formatter Empty) {}).1
    write "foo(\n  a,\n  b\n);\n".toList = "foo(a,b)".toList ∧
      Settled "foo(a,b)".toList ∧
      run "\x7b\x7ba;\x7d\x7d \x7b\x7b b".toList = "\x7b\x7b a \x7d\x7d \x7b\x7b b".toList ∧
      run "\x7b\x7b a \x7d\x7d \x7b\x7b b".toList = "\x7b\x7b a \x7d\x7d \x7b\x7b b".toList := by
  intro write run
  obtain ⟨hwrite, hcode, htext⟩ := unaided_unaided_iff (ε := Empty) .double
  obtain ⟨hline, hspans⟩ := htext "\x7b\x7ba;\x7d\x7d \x7b\x7b b".toList {} {}
  have hsettled : ∀ code, ¬ EndsLoose (bareCode code) → Settled (unaided code) :=
    fun code => (hcode code).2.2.2.1.2
  have hpieces : pieces "\x7b\x7ba;\x7d\x7d \x7b\x7b b".toList =
      [.plain [], .code ['a', ';'], .plain [' '], .unclosed [' ', 'b']] := by decide
  refine ⟨(hwrite .vueExpression (by decide) _ _).trans (by decide +kernel),
    hsettled "foo(\n  a,\n  b\n);".toList (by decide), by decide,
    (hspans (hline (by decide))).2 fun c hc => ?_⟩
  obtain rfl : c = ['a', ';'] := by
    rw [hpieces] at hc
    simpa using hc
  exact hsettled _ (by decide)

def looseCode : List Token :=
  [⟨.tag "p", {}⟩, ⟨.text "\x7b\x7b a ; \x7d\x7d", {}⟩, ⟨.eos, {}⟩]

theorem format_looseCode :
    let write := fun code => ((expression .double .expression code).resolve
      (echo : Formatter Empty) {}).1
    let run := fun t => ((mustacheContent .double t).resolve (echo : Formatter Empty) {}).1
    WellFormed looseCode ∧
    (format wordReader {} (echo : Formatter Empty) looseCode).result = .ok "p \x7b\x7b a  \x7d\x7d\n" ∧
    write " a ; ".toList = "a ".toList ∧ write "a ".toList = "a".toList ∧
    write "a;\n;".toList = "a;".toList ∧
    run "\x7b\x7b a ; \x7d\x7d".toList = "\x7b\x7b a  \x7d\x7d".toList ∧
    run "\x7b\x7b a  \x7d\x7d".toList = "\x7b\x7b a \x7d\x7d".toList ∧
    run "\x7b\x7ba\x7d\n\x7db\x7d\x7d".toList = "\x7b\x7b a\x7d\x7db \x7d\x7d".toList ∧
    run "\x7b\x7b a\x7d\x7db \x7d\x7d".toList = "\x7b\x7b a \x7d\x7db \x7d\x7d".toList := by
  intro write run
  refine ⟨by decide, rfl, ?_, ?_, ?_, ?_, ?_, ?_, ?_⟩
  all_goals decide

end PugPretty
