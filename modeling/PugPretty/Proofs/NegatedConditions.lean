import PugPretty.Proofs.Indentation

/-!
# Negated conditions

A condition that reads as a negation in parentheses on one line is printed behind `unless` without
the negation, and any other as it is behind `if`. Whether the last parenthesis closes the first one is
not asked. So a balanced condition keeps its meaning exactly if what stands between the two is
balanced itself (`text_condition`, `format_brokenNegation`).
-/

namespace PugPretty

open Text

/-! ## Brackets -/

def closer? : Char → Option Char
  | '(' => some ')'
  | '[' => some ']'
  | '\x7b' => some '\x7d'
  | _ => none

def isCloser (c : Char) : Bool := c == ')' || c == ']' || c == '\x7d'

/-- What has to be closed behind a character, the innermost bracket first. -/
def openAfterChar? (waiting : Text) (c : Char) : Option Text :=
  match closer? c with
  | some d => some (d :: waiting)
  | none =>
    if isCloser c then (if waiting.head? = some c then some waiting.tail else none) else some waiting

def openAfter? (waiting t : Text) : Option Text := t.foldlM openAfterChar? waiting

def Balanced (t : Text) : Prop := openAfter? [] t = some []

instance (t : Text) : Decidable (Balanced t) := inferInstanceAs (Decidable (openAfter? [] t = some []))

/-- A parenthesis in front of the text is still open behind all of it. -/
def StaysInside (t : Text) : Prop :=
  ∀ p, p <+: t → ∃ waiting, openAfter? [')'] p = some (waiting ++ [')'])

theorem openAfter?_append (waiting t u : Text) :
    openAfter? waiting (t ++ u) = (openAfter? waiting t).bind (openAfter? · u) :=
  List.foldlM_append

theorem openAfter?_cons (waiting : Text) (c : Char) (t : Text) :
    openAfter? waiting (c :: t) = (openAfterChar? waiting c).bind (openAfter? · t) :=
  List.foldlM_cons

theorem openAfterChar?_eq_some_iff {waiting after : Text} {c : Char} :
    openAfterChar? waiting c = some after ↔
      (∃ d, closer? c = some d ∧ d :: waiting = after) ∨
      (closer? c = none ∧ isCloser c = true ∧ waiting = c :: after) ∨
      (closer? c = none ∧ isCloser c = false ∧ waiting = after) := by
  unfold openAfterChar?
  cases closer? c with
  | some d => simp
  | none =>
    cases isCloser c with
    | true => cases waiting <;> simp
    | false => simp

theorem openAfterChar?_under {waiting after : Text} {c : Char}
    (h : openAfterChar? waiting c = some after) (under : Text) :
    openAfterChar? (waiting ++ under) c = some (after ++ under) := by
  rw [openAfterChar?_eq_some_iff] at h ⊢
  rcases h with ⟨d, hc, rfl⟩ | ⟨hc, hcl, rfl⟩ | ⟨hc, hcl, rfl⟩
  · exact .inl ⟨d, hc, rfl⟩
  · exact .inr (.inl ⟨hc, hcl, rfl⟩)
  · exact .inr (.inr ⟨hc, hcl, rfl⟩)

theorem openAfter?_under {waiting after t : Text} (h : openAfter? waiting t = some after)
    (under : Text) : openAfter? (waiting ++ under) t = some (after ++ under) := by
  induction t generalizing waiting with
  | nil =>
    cases h
    rfl
  | cons c t ih =>
    rw [openAfter?_cons] at h ⊢
    obtain ⟨next, hc, ht⟩ := Option.bind_eq_some_iff.1 h
    rw [openAfterChar?_under hc]
    exact ih ht

theorem openAfterChar?_of_under {waiting after : Text} {c d : Char}
    (h : openAfterChar? (waiting ++ [d]) c = some (after ++ [d])) :
    openAfterChar? waiting c = some after := by
  rw [openAfterChar?_eq_some_iff] at h ⊢
  rcases h with ⟨e, hc, he⟩ | ⟨hc, hcl, he⟩ | ⟨hc, hcl, he⟩
  · rw [← List.cons_append] at he
    exact .inl ⟨e, hc, List.append_cancel_right he⟩
  · rw [← List.cons_append] at he
    exact .inr (.inl ⟨hc, hcl, List.append_cancel_right he⟩)
  · exact .inr (.inr ⟨hc, hcl, List.append_cancel_right he⟩)

/-- A text that never closes the bracket in front of it can stand without that bracket. -/
theorem exists_openAfter? {waiting t : Text} {d : Char}
    (h : ∀ p, p <+: t → ∃ after, openAfter? (waiting ++ [d]) p = some (after ++ [d])) :
    ∃ after, openAfter? waiting t = some after := by
  induction t generalizing waiting with
  | nil => exact ⟨waiting, rfl⟩
  | cons c t ih =>
    -- the first character alone is a prefix, and so is every prefix of the rest behind it
    obtain ⟨next, hnext⟩ := h [c] (List.prefix_append [c] t)
    rw [openAfter?_cons] at hnext
    obtain ⟨_, hc, hn⟩ := Option.bind_eq_some_iff.1 hnext
    cases hn
    have hw := openAfterChar?_of_under hc
    rw [openAfter?_cons, hw]
    refine ih fun p hp => ?_
    obtain ⟨after, ha⟩ := h (c :: p) ((List.prefix_cons_inj c).2 hp)
    rw [openAfter?_cons, hc] at ha
    exact ⟨after, ha⟩

/-! ## Negations -/

def negation (c : Text) : Text := '!' :: '(' :: (c ++ [')'])

theorem openAfter?_of_negation {c : Text} (h : Balanced (negation c)) :
    openAfter? [')'] c = some [')'] := by
  have hc : (openAfter? [')'] c).bind (openAfter? · [')']) = some [] := by
    rw [← openAfter?_append]
    exact h
  obtain ⟨waiting, hw, hlast⟩ := Option.bind_eq_some_iff.1 hc
  have hin : waiting = [')'] := by
    rw [openAfter?_cons] at hlast
    obtain ⟨after, hc, hn⟩ := Option.bind_eq_some_iff.1 hlast
    cases hn
    rcases openAfterChar?_eq_some_iff.1 hc with ⟨d, hd, -⟩ | ⟨-, -, hw⟩ | ⟨-, hd, -⟩
    · cases hd
    · exact hw
    · cases hd
  rw [hw, hin]

/-- The last parenthesis of a balanced negation closes the first one exactly if what stands between
them is balanced. -/
theorem staysInside_iff_balanced {c : Text} (h : Balanced (negation c)) :
    StaysInside c ↔ Balanced c := by
  constructor
  · intro hc
    obtain ⟨after, ha⟩ : ∃ after, openAfter? [] c = some after := exists_openAfter? hc
    have hu : some (after ++ [')']) = some ([] ++ [')']) :=
      (openAfter?_under ha [')']).symm.trans (openAfter?_of_negation h)
    rw [Balanced, ha, List.append_cancel_right (Option.some.inj hu)]
  · rintro hc p ⟨rest, rfl⟩
    rw [Balanced, openAfter?_append] at hc
    obtain ⟨waiting, hw, -⟩ := Option.bind_eq_some_iff.1 hc
    exact ⟨waiting, openAfter?_under hw [')']⟩

theorem Text.between?_eq_some_iff {front back t c : Text} :
    between? front back t = some c ↔ t = front ++ c ++ back := by
  simp only [between?, Option.bind_eq_some_iff, List.isPrefixOf?_eq_some_iff_append_eq,
    List.isSuffixOf?_eq_some_iff_append_eq]
  constructor
  · rintro ⟨u, rfl, rfl⟩
    exact (List.append_assoc ..).symm
  · rintro rfl
    exact ⟨_, (List.append_assoc ..).symm, rfl⟩

theorem betweenOnLine?_negation {t c : Text} :
    betweenOnLine? ['!', '('] [')'] t = some c ↔ t = negation c ∧ isOneLine c = true := by
  rw [betweenOnLine?, Option.filter_eq_some_iff, between?_eq_some_iff]
  rfl

theorem conditionLine_negation {c : Text} (hc : isOneLine c = true) :
    conditionLine (negation c) = "unless ".toList ++ c := by
  rw [conditionLine, betweenOnLine?_negation.2 ⟨rfl, hc⟩]

theorem conditionLine_of_ne {t : Text} (h : ∀ c, isOneLine c = true → t ≠ negation c) :
    conditionLine t = "if ".toList ++ t := by
  have hn : betweenOnLine? ['!', '('] [')'] t = none :=
    Option.eq_none_iff_forall_ne_some.2 fun c hc =>
      h c (betweenOnLine?_negation.1 hc).2 (betweenOnLine?_negation.1 hc).1
  rw [conditionLine, hn]

/-- The line says what the condition says. -/
def KeepsCondition (test line : Text) : Prop :=
  line = "if ".toList ++ test ∨ ∃ c, test = negation c ∧ StaysInside c ∧ line = "unless ".toList ++ c

theorem keepsCondition_iff {test : Text} (h : Balanced test) :
    KeepsCondition test (conditionLine test) ↔
      ∀ c, isOneLine c = true → test = negation c → Balanced c := by
  constructor
  · rintro hkeeps c hc rfl
    rw [conditionLine_negation hc] at hkeeps
    rcases hkeeps with hif | ⟨c', hc', hin, -⟩
    · simp at hif
    · obtain rfl : c = c' := by simpa [negation] using hc'
      exact (staysInside_iff_balanced h).1 hin
  · intro hall
    by_cases hn : ∀ c, isOneLine c = true → test ≠ negation c
    · exact .inl (conditionLine_of_ne hn)
    · push Not at hn
      obtain ⟨c, hc, rfl⟩ := hn
      exact .inr ⟨c, rfl, (staysInside_iff_balanced h).2 (hall c hc rfl), conditionLine_negation hc⟩

/-- **The line of a condition.** -/
theorem text_condition {ε : Type} (style : Style) (page : Page) (f : Formatter ε)
    (done rest : List Token) {t : Token} {test : String} (hk : t.kind = .condition test)
    (hb : Balanced test.toList) :
    let front := (sheetAfter style page f done (t :: rest)).draft.text ++
      leadText page (done.getLast?.map (·.kind)) (nesting done)
    let after := (sheetAfter style page f (done ++ [t]) rest).draft.text
    (∀ c, isOneLine c = true → test.toList = negation c →
      after = front ++ ("unless ".toList ++ c) ∧ (StaysInside c ↔ Balanced c)) ∧
    ((∀ c, isOneLine c = true → test.toList ≠ negation c) →
      after = front ++ ("if ".toList ++ test.toList)) ∧
    ((∃ line, after = front ++ line ∧ KeepsCondition test.toList line) ↔
      ∀ c, isOneLine c = true → test.toList = negation c → Balanced c) := by
  intro front after
  have hline : after = front ++ conditionLine test.toList := by
    have hedits : ∀ (s : Site) (o : Outline), s.token.kind = .condition test →
        (tokenEdits style s o).1 = s.indentation o.depth ++ [.put (conditionLine test.toList)] := by
      intro s o hs
      unfold tokenEdits
      rw [hs]
    simp only [after, front]
    rw [sheetAfter_snoc, hedits _ _ hk, text_line, depth_outlineAfter]
    rfl
  refine ⟨fun c hc ht => ⟨?_, staysInside_iff_balanced (ht ▸ hb)⟩, fun hn => ?_, ?_⟩
  · rw [hline, ht, conditionLine_negation hc]
  · rw [hline, conditionLine_of_ne hn]
  · rw [← keepsCondition_iff hb]
    constructor
    · rintro ⟨line, hl, hkeeps⟩
      rwa [List.append_cancel_left (hline.symm.trans hl)]
    · exact fun hkeeps => ⟨_, hline, hkeeps⟩

theorem text_condition_samples :
    let page : Page := ⟨' ', 2, 2, 80, -1, fun _ => false⟩
    let f : Formatter Empty := fun _ r => .ok r.code
    let text := fun test => (sheetAfter {} page f [⟨.condition test, {}⟩] []).draft.text
    text "!(a || f(b))" = "unless a || f(b)".toList ∧ text "a && !(b)" = "if a && !(b)".toList := by
  intro page f text
  obtain ⟨hunless, -⟩ := text_condition {} page f [] [] (t := ⟨.condition "!(a || f(b))", {}⟩) rfl
    (by decide)
  obtain ⟨-, hif, -⟩ := text_condition {} page f [] [] (t := ⟨.condition "a && !(b)", {}⟩) rfl
    (by decide)
  exact ⟨(hunless "a || f(b)".toList (by decide) (by decide)).1, hif fun c _ hc => by cases hc⟩

def brokenNegation : List Token := [⟨.condition "!(a) && (b)", {}⟩, ⟨.eos, {}⟩]

/-- The condition is a conjunction, and its first and last parenthesis do not belong together. -/
theorem format_brokenNegation : WellFormed brokenNegation ∧ Balanced "!(a) && (b)".toList ∧
    ¬ KeepsCondition "!(a) && (b)".toList "unless a) && (b".toList ∧
    (format wordReader {} (fun _ r => .ok r.code : Formatter Empty) brokenNegation).result =
      .ok "unless a) && (b\n" := by
  have hb : Balanced "!(a) && (b)".toList := by decide
  refine ⟨by decide, hb, fun hkeeps => ?_, rfl⟩
  have hc : Balanced "a) && (b".toList := (keepsCondition_iff hb).1 hkeeps _ (by decide) rfl
  exact absurd hc (by decide)

end PugPretty
