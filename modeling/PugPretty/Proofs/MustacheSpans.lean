import PugPretty.Proofs.AttributeText

/-!
# Mustache spans

A text is cut at the leftmost opening and then at the leftmost closing behind it, again and again.
`IsCut` says so of the pieces alone: no delimiter stands in a piece, not even one that ends in the
delimiter behind the piece. Every text has one such cut (`isCut_iff`), and what is written for the
text follows it piece by piece (`resolve_mustacheContent`).
-/

namespace PugPretty

namespace Text

/-! ## Leftmost pairs -/

section
variable {d : Char}

theorem pair_infix_cons_iff {c : Char} {t : Text} :
    [d, d] <:+: c :: t ↔ (c = d ∧ t.head? = some d) ∨ [d, d] <:+: t := by
  rw [List.infix_cons_iff, List.cons_prefix_cons, eq_comm (a := d)]
  cases t with
  | nil => simp
  | cons e t => simp [List.cons_prefix_cons, eq_comm]

theorem exists_leftmost {t : Text} (h : [d, d] <:+: t) :
    ∃ a b, t = a ++ d :: d :: b ∧ ¬ [d, d] <:+: a ++ [d] := by
  induction t with
  | nil => simp at h
  | cons c t ih =>
    by_cases hc : c = d ∧ t.head? = some d
    · obtain ⟨rfl, ht⟩ := hc
      obtain ⟨b, rfl⟩ := List.head?_eq_some_iff.1 ht
      exact ⟨[], b, rfl, by simp [pair_infix_cons_iff]⟩
    · obtain ⟨a, b, rfl, ha⟩ := ih ((pair_infix_cons_iff.1 h).resolve_left hc)
      refine ⟨c :: a, b, rfl, fun hp => ?_⟩
      rw [List.cons_append, pair_infix_cons_iff] at hp
      rcases hp with ⟨rfl, hhead⟩ | hp
      · cases a <;> simp_all
      · exact ha hp

end

/-! ## The cut -/

/-- The delimiter that is looked for, one of its two braces. -/
def brace (inside : Bool) : Char := if inside then '}' else '{'

def Piece.ended (inside : Bool) (t : Text) : Piece := if inside then .code t else .plain t

def Piece.last (inside : Bool) (t : Text) : Piece := if inside then .unclosed t else .plain t

section
variable {inside : Bool}

theorem cut_cons {c : Char} {t : Text} (h : ¬ (c = brace inside ∧ t.head? = some (brace inside))) :
    cut (c :: t) inside = (cut t inside).modifyHead (.push c) := by
  rw [cut.eq_def]
  split <;> simp_all [brace]

theorem cut_append {t : Text} (h : ¬ [brace inside, brace inside] <:+: t ++ [brace inside])
    (r : Text) : cut (t ++ brace inside :: brace inside :: r) inside =
      .ended inside t :: cut r (!inside) := by
  induction t with
  | nil => cases inside <;> rfl
  | cons c t ih =>
    rw [List.cons_append, pair_infix_cons_iff, not_or] at h
    have hhead : (t ++ brace inside :: brace inside :: r).head? = (t ++ [brace inside]).head? := by
      cases t <;> rfl
    rw [List.cons_append, cut_cons (by rw [hhead]; exact h.1), ih h.2]
    cases inside <;> rfl

theorem cut_of_unpaired {t : Text} (h : ¬ [brace inside, brace inside] <:+: t) :
    cut t inside = [.last inside t] := by
  induction t with
  | nil => cases inside <;> rfl
  | cons c t ih =>
    rw [pair_infix_cons_iff, not_or] at h
    rw [cut_cons h.1, ih h.2]
    cases inside <;> rfl

end

/-- The pieces of a text between its leftmost delimiters. -/
inductive IsCut : List Piece → Prop
  | plain {t : Text} (ht : ¬ ['{', '{'] <:+: t) : IsCut [.plain t]
  | unclosed {t r : Text} (ht : ¬ ['{', '{'] <:+: t ++ ['{']) (hr : ¬ ['}', '}'] <:+: r) :
    IsCut [.plain t, .unclosed r]
  | span {t c : Text} {ps : List Piece} (ht : ¬ ['{', '{'] <:+: t ++ ['{'])
    (hc : ¬ ['}', '}'] <:+: c ++ ['}']) (h : IsCut ps) : IsCut (.plain t :: .code c :: ps)

theorem pieces_source {ps : List Piece} (h : IsCut ps) : pieces (source ps) = ps := by
  have hopen : ∀ {t : Text}, ¬ ['{', '{'] <:+: t ++ ['{'] → ∀ r,
      pieces (t ++ '{' :: '{' :: r) = .plain t :: cut r true := @cut_append false
  induction h with
  | @plain t ht =>
    rw [source, List.flatMap_singleton]
    exact @cut_of_unpaired false t ht
  | @unclosed t r ht hr =>
    have hs : source [.plain t, .unclosed r] = t ++ '{' :: '{' :: r := by simp [source, Piece.source]
    rw [hs, hopen ht, @cut_of_unpaired true r hr]
    rfl
  | @span t c ps ht hc _ ih =>
    have hs : source (.plain t :: .code c :: ps) = t ++ '{' :: '{' :: (c ++ '}' :: '}' :: source ps) := by
      simp [source, Piece.source]
    have hclose : cut (c ++ '}' :: '}' :: source ps) true = .code c :: pieces (source ps) :=
      @cut_append true c hc (source ps)
    rw [hs, hopen ht, hclose, ih]

theorem exists_isCut (t : Text) : ∃ ps, IsCut ps ∧ source ps = t := by
  by_cases hopen : ['{', '{'] <:+: t
  · obtain ⟨a, r, rfl, ha⟩ := exists_leftmost hopen
    by_cases hclose : ['}', '}'] <:+: r
    · obtain ⟨c, b, rfl, hc⟩ := exists_leftmost hclose
      obtain ⟨ps, hps, rfl⟩ := exists_isCut b
      exact ⟨_, .span ha hc hps, by simp [source, Piece.source]⟩
    · exact ⟨_, .unclosed ha hclose, by simp [source, Piece.source]⟩
  · exact ⟨_, .plain hopen, by simp [source, Piece.source]⟩
termination_by t.length

theorem isCut_iff {t : Text} {ps : List Piece} : IsCut ps ∧ source ps = t ↔ ps = pieces t := by
  constructor
  · rintro ⟨h, rfl⟩
    exact (pieces_source h).symm
  · rintro rfl
    obtain ⟨ps, h, rfl⟩ := exists_isCut t
    rw [pieces_source h]
    exact ⟨h, rfl⟩

end Text

open Text

/-! ## What is written -/

section
variable {ε : Type} (f : Formatter ε) (q : Quotes)

/-- What the code of a span becomes stands between its delimiters; all else stays as it is. -/
def spliced : List Piece → Session ε → Text × Session ε
  | [], s => ([], s)
  | .code c :: ps, s =>
    let (answer, s) := (expression q .expression c).resolve f s
    let (rest, s) := spliced ps s
    (['{', '{', ' '] ++ answer ++ [' ', '}', '}'] ++ rest, s)
  | p :: ps, s =>
    let (rest, s) := spliced ps s
    (p.source ++ rest, s)

theorem resolve_eq_spliced (t : Text) (s : Session ε) :
    (mustacheContent q t).resolve f s = spliced f q (pieces t) s := by
  unfold mustacheContent
  induction pieces t generalizing s with
  | nil => rfl
  | cons p ps ih =>
    rw [List.flatMap_cons, Content.resolve_append, ih]
    cases p with
    | code c => simp [spliced, Content.resolve_plain, Content.resolve_append, Content.resolve]
    | _ => simp [spliced, Content.resolve, Piece.source]

/-- **A text is written span by span, cut at its leftmost delimiters.** -/
theorem resolve_mustacheContent (t : Text) (s : Session ε) :
    (∃! ps, IsCut ps ∧ source ps = t) ∧
      ∀ ps, IsCut ps → source ps = t → (mustacheContent q t).resolve f s = spliced f q ps s := by
  refine ⟨⟨pieces t, isCut_iff.2 rfl, fun ps h => isCut_iff.1 h⟩, fun ps h ht => ?_⟩
  rw [resolve_eq_spliced, isCut_iff.1 ⟨h, ht⟩]

end

def bracedPieces : List Piece :=
  [.plain ['a'], .code ['{', 'b'], .plain [' '], .code [' '], .plain ['é'], .code ['c', ';', ' '],
    .plain ['}'], .unclosed ['d']]

theorem resolve_bracedPieces :
    let t : Text := "a\x7b\x7b\x7bb\x7d\x7d \x7b\x7b \x7d\x7dé\x7b\x7bc; \x7d\x7d\x7d\x7b\x7bd".toList
    let f : Formatter String := fun rs r => if rs = [] then .error "?" else .ok (r.code ++ ";\n")
    let run := (mustacheContent .double t).resolve f {}
    IsCut bracedPieces ∧ source bracedPieces = t ∧
      run.1 = "a\x7b\x7b \x7bb \x7d\x7d \x7b\x7b  \x7d\x7dé\x7b\x7b c \x7d\x7d\x7d\x7b\x7bd".toList ∧
      run.2.requests.map Request.code = ["\x7bb", "c;"] ∧ run.2.failure = some ("?", "\x7bb") := by
  intro t f run
  have hcut : IsCut bracedPieces :=
    .span (by decide) (by decide) (.span (by decide) (by decide) (.span (by decide) (by decide)
      (.unclosed (by decide) (by decide))))
  have hsource : source bracedPieces = t := by decide
  have hrun : run = spliced f .double bracedPieces {} :=
    (resolve_mustacheContent f .double t {}).2 bracedPieces hcut hsource
  rw [hrun]
  exact ⟨hcut, hsource, by decide, rfl, rfl⟩

end PugPretty
