import PugPretty.Proofs.AnswerLines

/-!
# Joined lines

Code over several lines is written on one, and nothing stands where a line ended. So two words that
a line break separates grow together, and two words on one line stay apart (`unaided_break`,
`format_brokenWords`).
-/

namespace PugPretty

open Text

/-! ## Cutting at a solid character -/

section
variable {p : Char → Bool} {x y : Char}

theorem dropWhile_append_cons (hx : p x = false) (t r : Text) :
    (t ++ x :: r).dropWhile p = t.dropWhile p ++ x :: r := by
  induction t with
  | nil => simp [hx]
  | cons c t ih =>
    rw [List.cons_append, List.dropWhile_cons, List.dropWhile_cons]
    split
    · exact ih
    · rfl

theorem dropEndWhile_append_cons (hx : p x = false) (t r : Text) :
    dropEndWhile p (t ++ x :: r) = t ++ x :: dropEndWhile p r := by
  have hr : (t ++ x :: r).reverse = r.reverse ++ x :: t.reverse := by simp
  rw [dropEndWhile, hr, dropWhile_append_cons hx]
  simp [dropEndWhile]

variable (hx : isBlank x = false)
include hx

theorem trimStart_append_cons (t r : Text) : trimStart (t ++ x :: r) = trimStart t ++ x :: r :=
  dropWhile_append_cons hx t r

theorem trim_append_cons (t r : Text) : trim (t ++ x :: r) = trimStart t ++ x :: trimEnd r := by
  rw [trim, trimStart_append_cons hx]
  exact dropEndWhile_append_cons hx _ r

end

/-! ## Lines -/

/-- The lines of a text in one, each without the blanks around it. -/
def joined (t : Text) : Text := ((lines t).map trim).flatten

theorem lines_append_feed (t u : Text) : lines (t ++ '\n' :: u) = lines t ++ lines u :=
  List.splitOnP_append_cons t u (by simp)

theorem lines_of_isOneLine {t : Text} (h : isOneLine t = true) : lines t = [t] :=
  List.splitOnP_eq_singleton fun c hc => by
    simpa using fun hf : c = '\n' => isOneLine_iff.1 h (hf ▸ hc)

theorem joined_append_feed (t u : Text) : joined (t ++ '\n' :: u) = joined t ++ joined u := by
  simp [joined, lines_append_feed]

theorem joined_of_isOneLine {t : Text} (h : isOneLine t = true) : joined t = trim t := by
  simp [joined, lines_of_isOneLine h]

theorem joinLines_eq_joined {t : Text} (h : isOneLine t = false) : joinLines t = joined t := by
  rw [joinLines, if_neg (by simp [h]), joined]

theorem exists_joined_append (a : Text) : ∃ front l, isOneLine l = true ∧
    ∀ t, joined (a ++ t) = front ++ joined (l ++ t) := by
  by_cases h : isOneLine a = true
  · exact ⟨[], a, h, fun t => rfl⟩
  · have hmem : '\n' ∈ a.reverse := by simpa [isOneLine] using h
    obtain ⟨l, r, hr, hl⟩ := List.eq_append_cons_of_mem hmem
    have ha : a = r.reverse ++ '\n' :: l.reverse := by simpa using congrArg List.reverse hr
    refine ⟨joined r.reverse, l.reverse, isOneLine_iff.2 (by simpa using hl), fun t => ?_⟩
    rw [ha, List.append_assoc, List.cons_append, joined_append_feed]

theorem exists_joined_before (b : Text) : ∃ l back, isOneLine l = true ∧
    ∀ t, isOneLine t = true → joined (t ++ b) = trim (t ++ l) ++ back := by
  by_cases h : isOneLine b = true
  · refine ⟨b, [], h, fun t ht => ?_⟩
    rw [joined_of_isOneLine (isOneLine_append.2 ⟨ht, h⟩), List.append_nil]
  · have hmem : '\n' ∈ b := by simpa [isOneLine] using h
    obtain ⟨l, r, rfl, hl⟩ := List.eq_append_cons_of_mem hmem
    have hl : isOneLine l = true := isOneLine_iff.2 hl
    refine ⟨l, joined r, hl, fun t ht => ?_⟩
    rw [← List.append_assoc, joined_append_feed, joined_of_isOneLine (isOneLine_append.2 ⟨ht, hl⟩)]

/-! ## Blanks between lines -/

theorem joined_cons_blank {c : Char} (hc : isBlank c = true) (t : Text) :
    joined (c :: t) = joined t := by
  by_cases hf : c = '\n'
  · subst hf
    exact joined_append_feed [] t
  · obtain ⟨l, back, -, hback⟩ := exists_joined_before t
    have hline : isOneLine [c] = true := by simpa [isOneLine] using Ne.symm hf
    have hwith := hback [c] hline
    have hnone := hback [] rfl
    rw [List.singleton_append, List.singleton_append, trim_cons_blank hc] at hwith
    rw [hwith, ← List.nil_append t, hnone]
    rfl

theorem joined_snoc_blank {c : Char} (hc : isBlank c = true) (t : Text) :
    joined (t ++ [c]) = joined t := by
  by_cases hf : c = '\n'
  · subst hf
    rw [joined_append_feed]
    exact List.append_nil _
  · obtain ⟨front, l, hl, hfront⟩ := exists_joined_append t
    have hline : isOneLine [c] = true := by simpa [isOneLine] using Ne.symm hf
    have hnone := hfront []
    rw [List.append_nil, List.append_nil] at hnone
    rw [hfront, hnone, joined_of_isOneLine (isOneLine_append.2 ⟨hl, hline⟩), joined_of_isOneLine hl,
      trim_snoc_blank hc]

theorem joined_blanks_append {w : Text} (hw : ∀ c ∈ w, isBlank c = true) (t : Text) :
    joined (w ++ t) = joined t :=
  eq_of_blanks_front hw (fun _ t hc => joined_cons_blank hc t) t

theorem joined_append_blanks {w : Text} (hw : ∀ c ∈ w, isBlank c = true) (t : Text) :
    joined (t ++ w) = joined t :=
  eq_of_blanks_back hw (fun _ t hc => joined_snoc_blank hc t) t

/-- Of the blanks between two solid characters those with a line break among them are dropped, and
the others are kept. -/
theorem joined_between {x y : Char} (hx : isBlank x = false) (hy : isBlank y = false) {w : Text}
    (hw : ∀ c ∈ w, isBlank c = true) (a b : Text) :
    joined (a ++ x :: (w ++ y :: b)) =
      joined (a ++ [x]) ++ ((if '\n' ∈ w then [] else w) ++ joined (y :: b)) := by
  by_cases hf : '\n' ∈ w
  · rw [if_pos hf, List.nil_append]
    obtain ⟨w₁, w₂, rfl⟩ := List.append_of_mem hf
    have hw₁ : ∀ c ∈ w₁, isBlank c = true := fun c hc => hw c (List.mem_append_left _ hc)
    have hw₂ : ∀ c ∈ w₂, isBlank c = true := fun c hc =>
      hw c (List.mem_append_right _ (List.mem_cons_of_mem _ hc))
    have hsplit : a ++ x :: (w₁ ++ '\n' :: w₂ ++ y :: b) =
        (a ++ [x] ++ w₁) ++ '\n' :: (w₂ ++ y :: b) := by simp
    rw [hsplit, joined_append_feed, joined_append_blanks hw₁, joined_blanks_append hw₂]
  · rw [if_neg hf]
    -- the two characters stand on one line, of which `l` is the front and `m` the back
    obtain ⟨front, l, hl, hfront⟩ := exists_joined_append a
    obtain ⟨m, back, -, hback⟩ := exists_joined_before b
    have hsolid : ∀ c, isBlank c = false → isOneLine [c] = true := by
      intro c hc
      have hne : '\n' ≠ c := by rintro rfl; cases hc
      simpa [isOneLine] using hne
    have hleft : isOneLine (l ++ [x]) = true := isOneLine_append.2 ⟨hl, hsolid x hx⟩
    have hline : isOneLine (l ++ x :: (w ++ [y])) = true := by
      rw [List.append_cons]
      exact isOneLine_append.2 ⟨hleft, isOneLine_append.2 ⟨isOneLine_iff.2 hf, hsolid y hy⟩⟩
    have hwhole : joined (l ++ x :: (w ++ y :: b)) = trim (l ++ x :: (w ++ y :: m)) ++ back := by
      simpa using hback _ hline
    have hright : joined (y :: b) = trim (y :: m) ++ back := hback [y] (hsolid y hy)
    have hw' : trim (l ++ x :: (w ++ y :: m)) = trim (l ++ [x]) ++ (w ++ trim (y :: m)) := by
      have hend : trimEnd (w ++ y :: m) = w ++ y :: trimEnd m := dropEndWhile_append_cons hy w m
      have hfirst : trim (y :: m) = y :: trimEnd m := trim_append_cons hy [] m
      rw [trim_append_cons hx, trim_append_cons hx, hend, hfirst]
      simp [trimEnd, dropEndWhile]
    rw [hfront, hwhole, hw', hright, hfront, joined_of_isOneLine hleft]
    simp

theorem solid_joined (t : Text) : solid (joined t) = solid t := by
  by_cases h : isOneLine t = true
  · rw [joined_of_isOneLine h, solid_trim]
  · rw [← joinLines_eq_joined (Bool.eq_false_iff.2 h), solid_joinLines]

theorem exists_joined_snoc {x : Char} (hx : isBlank x = false) (a : Text) :
    ∃ u, joined (a ++ [x]) = u ++ [x] ∧ solid u = solid a := by
  obtain ⟨front, l, hl, hfront⟩ := exists_joined_append a
  have hline : isOneLine (l ++ [x]) = true :=
    isOneLine_append.2 ⟨hl, isOneLine_cons (by rintro rfl; cases hx) rfl⟩
  have hjoined : joined (a ++ [x]) = (front ++ trimStart l) ++ [x] := by
    rw [hfront, joined_of_isOneLine hline, trim_append_cons hx, List.append_assoc]
    rfl
  have hsolid := solid_joined (a ++ [x])
  rw [hjoined, solid_append, solid_append _ [x]] at hsolid
  exact ⟨_, hjoined, List.append_cancel_right hsolid⟩

theorem exists_joined_cons {y : Char} (hy : isBlank y = false) (b : Text) :
    ∃ v, joined (y :: b) = y :: v ∧ solid v = solid b := by
  obtain ⟨l, back, -, hback⟩ := exists_joined_before b
  have hline : isOneLine [y] = true := isOneLine_cons (by rintro rfl; cases hy) rfl
  have hjoined : joined (y :: b) = y :: (trimEnd l ++ back) := by
    have hfirst : trim (y :: l) = y :: trimEnd l := trim_append_cons hy [] l
    have hwhole : joined (y :: b) = trim (y :: l) ++ back := hback [y] hline
    rw [hwhole, hfirst]
    rfl
  have hsolid := solid_joined (y :: b)
  rw [hjoined, solid_cons hy, solid_cons hy] at hsolid
  exact ⟨_, hjoined, (List.cons.inj hsolid).2⟩

/-! ## Words -/

def isIdentifierChar (c : Char) : Bool :=
  isLetter c || isDecimalDigit c || c == '_' || c == '$'

def blankCodes : List Nat :=
  [0x9, 0xA, 0xB, 0xC, 0xD, 0x20, 0x85, 0xA0, 0x1680, 0x2000, 0x2001, 0x2002, 0x2003, 0x2004, 0x2005,
    0x2006, 0x2007, 0x2008, 0x2009, 0x200A, 0x2028, 0x2029, 0x202F, 0x205F, 0x3000]

theorem isBlank_of_isIdentifierChar {c : Char} (h : isIdentifierChar c = true) :
    isBlank c = false := by
  have hnone : ∀ n ∈ blankCodes, isIdentifierChar (Char.ofNat n) = false := by decide +kernel
  by_contra hb
  have hmem : c.toNat ∈ blankCodes := by
    simp only [isBlank, Bool.not_eq_false, Bool.or_eq_true, Bool.and_eq_true, decide_eq_true_eq,
      beq_iff_eq] at hb
    simp only [blankCodes, List.mem_cons, List.not_mem_nil, or_false]
    omega
  have hc := hnone _ hmem
  rw [Char.ofNat_toNat, h] at hc
  cases hc

/-- What is left of the code behind a word. -/
def closedCode (code : Text) : Text := dropEndWhile (· == ';') (trimEnd code)

theorem bareCode_append_cons {y : Char} (hy : isBlank y = false) (hs : y ≠ ';') (a b : Text) :
    bareCode (a ++ y :: b) = trimStart a ++ y :: closedCode b := by
  rw [bareCode, trim_append_cons hy]
  exact dropEndWhile_append_cons (by simpa using hs) _ _

structure WordGap (code a : Text) (x : Char) (w : Text) (y : Char) (b : Text) : Prop where
  code_eq : code = a ++ x :: (w ++ y :: b)
  left : isIdentifierChar x = true
  right : isIdentifierChar y = true
  blank : ∀ c ∈ w, isBlank c = true

theorem unaided_of_wordGap {code a w b : Text} {x y : Char} (h : WordGap code a x w y b) :
    ∃ u v, unaided code = u ++ x :: ((if '\n' ∈ w then [] else w) ++ y :: v) ∧
      solid u = solid a ∧ solid v = solid (closedCode b) := by
  obtain ⟨rfl, hx, hy, hw⟩ := h
  have hsemi : y ≠ ';' := by
    rintro rfl
    exact absurd hy (by decide +kernel)
  replace hx := isBlank_of_isIdentifierChar hx
  replace hy := isBlank_of_isIdentifierChar hy
  have hbare : bareCode (a ++ x :: (w ++ y :: b)) =
      trimStart a ++ x :: (w ++ y :: closedCode b) := by
    have hsplit : a ++ x :: (w ++ y :: b) = (a ++ x :: w) ++ y :: b := by simp
    rw [hsplit, bareCode_append_cons hy hsemi, trimStart_append_cons hx]
    simp
  rw [unaided, hbare]
  by_cases hline : isOneLine (trimStart a ++ x :: (w ++ y :: closedCode b)) = true
  · have hf : '\n' ∉ w := fun hmem => isOneLine_iff.1 hline (by simp [hmem])
    rw [joinLines, if_pos hline, if_neg hf]
    exact ⟨_, _, rfl, solid_trimStart a, rfl⟩
  · obtain ⟨u, hu, hua⟩ := exists_joined_snoc hx (trimStart a)
    obtain ⟨v, hv, hvb⟩ := exists_joined_cons hy (closedCode b)
    rw [joinLines_eq_joined (Bool.eq_false_iff.2 hline), joined_between hx hy hw, hu, hv]
    exact ⟨u, v, by simp, hua.trans (solid_trimStart a), hvb⟩

def KeepsWords (code line : Text) : Prop :=
  ∀ a x w y b, WordGap code a x w y b → '\n' ∈ w →
    ∀ u v, line = u ++ x :: y :: v → solid u ≠ solid a

/-- **Words at a line break.** -/
theorem unaided_break {ε : Type} (q : Quotes) {g : Grammar} (hg : g ≠ .statement) (code : Text)
    (s : Session ε) :
    let line := ((expression q g code).resolve echo s).1
    (∀ a x w y b, WordGap code a x w y b →
      ∃ u v, line = u ++ x :: ((if '\n' ∈ w then [] else w) ++ y :: v) ∧
        solid u = solid a ∧ solid v = solid (closedCode b)) ∧
    (KeepsWords code line ↔ ∀ a x w y b, WordGap code a x w y b → '\n' ∉ w) := by
  intro line
  have hline : line = unaided code := resolve_expression_echo q hg code s
  rw [hline]
  refine ⟨fun a x w y b => unaided_of_wordGap, fun hkeeps a x w y b hgap hf => ?_,
    fun hnone a x w y b hgap hf => absurd hf (hnone a x w y b hgap)⟩
  obtain ⟨u, v, hu, hua, -⟩ := unaided_of_wordGap hgap
  rw [if_pos hf] at hu
  exact hkeeps a x w y b hgap hf u v hu hua

theorem unaided_break_samples :
    let write := fun code => ((expression .double .expression code).resolve
      (echo : Formatter Empty) {}).1
    WordGap "a in\n  b".toList "a i".toList 'n' "\n  ".toList 'b' [] ∧
      ¬ KeepsWords "a in\n  b".toList (write "a in\n  b".toList) ∧
      write "a in\n  b".toList = "a inb".toList ∧
      ∃ u v, write "f(a\tin b,\n  c);".toList = u ++ 'a' :: ("\t".toList ++ 'i' :: v) ∧
        solid u = "f(".toList ∧ solid v = "nb,c)".toList := by
  intro write
  have hgap : WordGap "a in\n  b".toList "a i".toList 'n' "\n  ".toList 'b' [] :=
    ⟨by decide, by decide, by decide, List.all_eq_true.1 (by decide)⟩
  have htab : WordGap "f(a\tin b,\n  c);".toList "f(".toList 'a' "\t".toList 'i'
      "n b,\n  c);".toList := ⟨by decide, by decide, by decide, List.all_eq_true.1 (by decide)⟩
  obtain ⟨-, hkeeps⟩ := unaided_break (ε := Empty) .double (g := .expression) (by decide)
    "a in\n  b".toList {}
  obtain ⟨hgaps, -⟩ := unaided_break (ε := Empty) .double (g := .expression) (by decide)
    "f(a\tin b,\n  c);".toList {}
  refine ⟨hgap, fun h => hkeeps.1 h _ _ _ _ _ hgap (by decide), by decide, ?_⟩
  exact hgaps _ _ _ _ _ htab

def brokenWords : List Token :=
  [⟨.tag "p", {}⟩, ⟨.startAttributes, {}⟩, ⟨.attr ⟨"x", .source "a in\n  b", true⟩, {}⟩,
    ⟨.endAttributes, {}⟩, ⟨.eos, {}⟩]

theorem format_brokenWords : WellFormed brokenWords ∧
    ¬ KeepsWords "a in\n  b".toList "a inb".toList ∧
    (format wordReader {} (echo : Formatter Empty) brokenWords).result = .ok "p(x=a inb)\n" := by
  refine ⟨by decide, fun h => ?_, rfl⟩
  have hgap : WordGap "a in\n  b".toList "a i".toList 'n' "\n  ".toList 'b' [] :=
    ⟨by decide, by decide, by decide, List.all_eq_true.1 (by decide)⟩
  exact h _ _ _ _ _ hgap (by decide) "a i".toList [] (by decide) rfl

end PugPretty
