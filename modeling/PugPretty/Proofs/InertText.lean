import PugPretty.Proofs.Indentation

/-!
# Inert text

A lexer takes a backslash in front of what would begin an interpolation as a sign that it does not,
and drops it. `plainReading?` reads a text this way, and not at all if an interpolation begins in it.
A text of the markup is read as it was meant. A line of a block and a line of HTML are written as they
stand, so they are read as plain text only if no interpolation would begin in them (`text_plainText`,
`format_bareInBlock`).
-/

namespace PugPretty

open Text

/-! ## What begins an interpolation -/

theorem opensInterpolation_iff {t : Text} : opensInterpolation t = true ↔
    ∃ c d r, t = c :: d :: r ∧ (c = '#' ∧ (d = '{' ∨ d = '[') ∨ c = '!' ∧ d = '{') := by
  constructor
  · intro h
    unfold opensInterpolation at h
    split at h
    · exact ⟨_, _, _, rfl, .inl ⟨rfl, .inl rfl⟩⟩
    · exact ⟨_, _, _, rfl, .inl ⟨rfl, .inr rfl⟩⟩
    · exact ⟨_, _, _, rfl, .inr ⟨rfl, rfl⟩⟩
    · cases h
  · rintro ⟨c, d, r, rfl, ⟨rfl, rfl | rfl⟩ | ⟨rfl, rfl⟩⟩ <;> rfl

theorem opensInterpolation_congr (c d : Char) (r r' : Text) :
    opensInterpolation (c :: d :: r) = opensInterpolation (c :: d :: r') := by
  rw [Bool.eq_iff_iff, opensInterpolation_iff, opensInterpolation_iff]
  constructor
  · rintro ⟨_, _, _, h, hc⟩; cases h; exact ⟨_, _, _, rfl, hc⟩
  · rintro ⟨_, _, _, h, hc⟩; cases h; exact ⟨_, _, _, rfl, hc⟩

theorem opensInterpolation_of_opens {t : Text} (h : opensInterpolation t = true) (c : Char) :
    opensInterpolation (c :: t) = false := by
  obtain ⟨d, e, r, rfl, hd⟩ := opensInterpolation_iff.1 h
  rw [Bool.eq_false_iff]
  intro hc
  obtain ⟨_, _, _, heq, hc⟩ := opensInterpolation_iff.1 hc
  cases heq
  rcases hd with ⟨rfl, -⟩ | ⟨rfl, -⟩ <;> simp at hc

theorem opensInterpolation_backslash (c : Char) (t : Text) :
    opensInterpolation (c :: '\\' :: t) = false := by
  rw [Bool.eq_false_iff]
  intro h
  obtain ⟨_, _, _, heq, hc⟩ := opensInterpolation_iff.1 h
  cases heq
  simp at hc

theorem opensInterpolation_cons_inert (c : Char) (t : Text) :
    opensInterpolation (c :: inert t) = opensInterpolation (c :: t) := by
  cases t with
  | nil => rfl
  | cons d r =>
    rw [inert]
    split
    · next h => rw [opensInterpolation_of_opens h, opensInterpolation_backslash]
    · exact opensInterpolation_congr c d _ _

theorem opensInterpolation_inert (t : Text) : opensInterpolation (inert t) = false := by
  cases t with
  | nil => rfl
  | cons c r =>
    rw [inert]
    split
    · rfl
    · next h => rw [opensInterpolation_cons_inert]; exact Bool.eq_false_iff.2 h

/-- Whatever would begin an interpolation in the text stands behind a backslash that has been put
into `w`. -/
def Guarded (t w : Text) : Prop :=
  ∀ u v, t = u ++ v → opensInterpolation v = true →
    ∃ w₁ w₂, w = w₁ ++ w₂ ∧ opensInterpolation w₂ = true ∧ u = inert w₁ ++ ['\\']

theorem opensInterpolation_append {w₂ : Text} (h : opensInterpolation w₂ = true) (c : Char)
    (w₁ : Text) : opensInterpolation (c :: (w₁ ++ w₂)) = opensInterpolation (c :: w₁) := by
  cases w₁ with
  | nil =>
    rw [List.nil_append, opensInterpolation_of_opens h, eq_comm, Bool.eq_false_iff]
    intro hc
    obtain ⟨_, _, _, heq, -⟩ := opensInterpolation_iff.1 hc
    cases heq
  | cons d w₁ => exact opensInterpolation_congr c d _ _

theorem guarded_inert (w : Text) : Guarded (inert w) w := by
  induction w with
  | nil =>
    intro u v h hv
    obtain ⟨-, rfl⟩ := List.append_eq_nil_iff.1 h.symm
    cases hv
  | cons c r ih =>
    intro u v h hv
    rw [inert] at h
    split at h
    · next hopen =>
      cases u with
      | nil =>
        rw [List.nil_append] at h
        rw [← h] at hv
        cases hv
      | cons e u =>
        rw [List.cons_append, List.cons.injEq] at h
        obtain ⟨rfl, h⟩ := h
        cases u with
        | nil => exact ⟨[], c :: r, rfl, hopen, rfl⟩
        | cons e u =>
          rw [List.cons_append, List.cons.injEq] at h
          obtain ⟨rfl, h⟩ := h
          obtain ⟨w₁, w₂, rfl, h₂, rfl⟩ := ih u v h hv
          rw [opensInterpolation_append h₂] at hopen
          exact ⟨c :: w₁, w₂, rfl, h₂, by rw [inert, if_pos hopen]; rfl⟩
    · next hopen =>
      cases u with
      | nil =>
        rw [List.nil_append] at h
        rw [← h, opensInterpolation_cons_inert] at hv
        exact absurd hv hopen
      | cons e u =>
        rw [List.cons_append, List.cons.injEq] at h
        obtain ⟨rfl, h⟩ := h
        obtain ⟨w₁, w₂, rfl, h₂, rfl⟩ := ih u v h hv
        rw [opensInterpolation_append h₂] at hopen
        exact ⟨c :: w₁, w₂, rfl, h₂, by rw [inert, if_neg hopen]; rfl⟩

/-! ## How text is read -/

def plainReading? : Text → Option Text
  | [] => some []
  | '\\' :: c :: r =>
    if opensInterpolation (c :: r) then (plainReading? r).map (c :: ·)
    else (plainReading? (c :: r)).map ('\\' :: ·)
  | c :: r => if opensInterpolation (c :: r) then none else (plainReading? r).map (c :: ·)

theorem plainReading?_guarded {c : Char} {r : Text} (h : opensInterpolation (c :: r) = true) :
    plainReading? ('\\' :: c :: r) = (plainReading? r).map (c :: ·) := by
  rw [plainReading?, if_pos h]

theorem plainReading?_cons {c : Char} {r : Text} (h : opensInterpolation (c :: r) = false)
    (hr : c = '\\' → opensInterpolation r = false) :
    plainReading? (c :: r) = (plainReading? r).map (c :: ·) := by
  rw [plainReading?.eq_def]
  split
  · contradiction
  · next heq =>
    cases heq
    rw [hr rfl]
    rfl
  · next heq =>
    cases heq
    rw [h]
    rfl

theorem plainReading?_inert (t : Text) : plainReading? (inert t) = some t := by
  induction t with
  | nil => rfl
  | cons c r ih =>
    rw [inert]
    split
    · next h =>
      rw [plainReading?_guarded (by rw [opensInterpolation_cons_inert]; exact h), ih]
      rfl
    · next h =>
      rw [plainReading?_cons (by rw [opensInterpolation_cons_inert]; exact Bool.eq_false_iff.2 h)
        (fun _ => opensInterpolation_inert r), ih]
      rfl

def Unopened (t : Text) : Prop := ∀ v, v <:+ t → opensInterpolation v = false

theorem unopened_cons {c : Char} {t : Text} :
    Unopened (c :: t) ↔ opensInterpolation (c :: t) = false ∧ Unopened t := by
  constructor
  · exact fun h => ⟨h _ (List.suffix_refl _), fun v hv => h v (hv.trans (List.suffix_cons c t))⟩
  · rintro ⟨hc, ht⟩ v hv
    rcases List.suffix_cons_iff.1 hv with rfl | hv
    · exact hc
    · exact ht v hv

theorem length_plainReading? (t : Text) : ∀ u, plainReading? t = some u →
    u.length ≤ t.length ∧ (u.length = t.length → Unopened t) := by
  fun_induction plainReading? t with
  | case1 =>
    rintro u hu
    cases hu
    refine ⟨Nat.le_refl _, fun _ v hv => ?_⟩
    rw [List.suffix_nil.1 hv]
    rfl
  | case2 c r hopen ih =>
    intro u hu
    obtain ⟨w, hw, rfl⟩ := Option.map_eq_some_iff.1 hu
    have hle : w.length + 1 < r.length + 1 + 1 := by
      have := (ih w hw).1
      omega
    exact ⟨Nat.le_of_lt hle, fun hlen => absurd hlen (Nat.ne_of_lt hle)⟩
  | case3 c r hopen ih =>
    intro u hu
    obtain ⟨w, hw, rfl⟩ := Option.map_eq_some_iff.1 hu
    obtain ⟨hle, heq⟩ := ih w hw
    refine ⟨by simpa using hle, fun hlen => unopened_cons.2 ⟨rfl, heq (by simpa using hlen)⟩⟩
  | case4 c r hne hopen => exact nofun
  | case5 c r hne hopen ih =>
    intro u hu
    obtain ⟨w, hw, rfl⟩ := Option.map_eq_some_iff.1 hu
    obtain ⟨hle, heq⟩ := ih w hw
    exact ⟨by simpa using hle,
      fun hlen => unopened_cons.2 ⟨Bool.eq_false_iff.2 hopen, heq (by simpa using hlen)⟩⟩

theorem plainReading?_of_unopened {t : Text} (h : Unopened t) : plainReading? t = some t := by
  induction t with
  | nil => rfl
  | cons c r ih =>
    obtain ⟨hc, hr⟩ := unopened_cons.1 h
    rw [plainReading?_cons hc (fun _ => hr r (List.suffix_refl r)), ih hr]
    rfl

theorem plainReading?_eq_self_iff (t : Text) : plainReading? t = some t ↔ Unopened t :=
  ⟨fun h => (length_plainReading? t t h).2 rfl, plainReading?_of_unopened⟩

/-! ## What is in front of a text -/

def IsLead (lead : Text) : Prop := ∀ c ∈ lead, isBlank c = true ∨ c = '|'

def Edit.leads : Edit → Prop
  | .indent _ => True
  | .write k => ∃ t, k = [.plain t] ∧ IsLead t
  | _ => False

section
variable {ε : Type} (style : Style) {page : Page} (hp : isBlank page.indentChar = true)
  (f : Formatter ε)

include hp in
theorem text_applyAll_leads {es : List Edit} (h : ∀ e ∈ es, e.leads) (sh : Sheet ε) :
    ∃ lead, IsLead lead ∧
      (Sheet.applyAll page f es sh).draft.text = sh.draft.text ++ lead ∧
      (Sheet.applyAll page f es sh).session = sh.session := by
  induction es generalizing sh with
  | nil => exact ⟨[], nofun, by simp, rfl⟩
  | cons e es ih =>
    obtain ⟨he, hes⟩ := List.forall_mem_cons.1 h
    obtain ⟨lead, hlead, ht, hs⟩ := ih hes (sh.apply page f e)
    have hone : ∃ t, IsLead t ∧ (sh.apply page f e).draft.text = sh.draft.text ++ t ∧
        (sh.apply page f e).session = sh.session := by
      cases e with
      | indent n =>
        exact ⟨Sheet.indentation page n, fun c hc => .inl (List.eq_of_mem_replicate hc ▸ hp),
          Draft.text_write _ _, rfl⟩
      | write k =>
        obtain ⟨t, rfl, hlead⟩ := he
        exact ⟨t, hlead, by rw [Sheet.apply_write, Draft.text_write]; simp [Content.resolve], rfl⟩
      | _ => exact he.elim
    obtain ⟨t, hl, ht1, hs1⟩ := hone
    refine ⟨t ++ lead, fun c hc => (List.mem_append.1 hc).elim (hl c) (hlead c), ?_, hs.trans hs1⟩
    rw [Sheet.applyAll_cons, ht, ht1, List.append_assoc]

/-! ## The texts of a stream -/

variable (s : Site) (o : Outline)

theorem isLead_space : IsLead [' '] := by
  intro c hc
  rw [List.mem_singleton.1 hc]
  exact .inl (by decide)

theorem leads_indentation (depth : Nat) : ∀ e ∈ s.indentation depth, e.leads := by
  unfold Site.indentation
  split <;> simp [Edit.leads]

theorem leads_textLead (t : Text) : ∀ e ∈ textLead s o t, e.leads := by
  have hi := leads_indentation s o.depth
  have hspace : Edit.leads (.say " ") := ⟨_, rfl, isLead_space⟩
  have hpipe : Edit.leads (.say "|") := ⟨_, rfl, fun c hc => .inr (List.mem_singleton.1 hc)⟩
  have hline : Edit.leads (.say "|\n") := by
    refine ⟨_, rfl, fun c hc => ?_⟩
    rcases List.mem_cons.1 hc with rfl | hc
    · exact .inr rfl
    · rw [List.mem_singleton.1 hc]
      exact .inl (by decide)
  have hempty : ∀ e ∈ (if hasLeadingSpace (collapse t) then [.say "|\n", .indent o.depth] else [] :
      List Edit), e.leads := by
    split
    · exact List.forall_mem_cons.2 ⟨hline, by simp [Edit.leads]⟩
    · exact nofun
  unfold textLead
  dsimp only
  split
  iterate 3
    · refine List.forall_mem_append.2 ⟨List.forall_mem_append.2 ⟨hi, hempty⟩, ?_⟩
      refine List.forall_mem_cons.2 ⟨hpipe, ?_⟩
      split <;> simp [hspace]
  iterate 3
    · split <;> simp [hspace]
  · exact nofun

/-- The characters of a text of the markup, its mustache spans in the form the formatter gives them. -/
def markupText (style : Style) (f : Formatter ε) (c : Session ε) (val : Text) : Text :=
  ((mustacheContent style.quotes (trim (collapse val))).resolve f c).1

variable {s o}

include hp

theorem text_markupText {val : String} (hk : s.token.kind = .text val) (ho : o.flow = .markup)
    (sh : Sheet ε) :
    ∃ lead space, IsLead lead ∧ (space = [] ∨ space = [' ']) ∧
      (Sheet.applyAll page f (tokenEdits style s o).1 sh).draft.text =
        sh.draft.text ++ lead ++ inert (markupText style f sh.session val.toList) ++ space := by
  obtain ⟨lead, hlead, ht, hs⟩ := text_applyAll_leads hp f (leads_textLead s o val.toList) sh
  have hinert : ((Sheet.applyAll page f (textLead s o val.toList) sh).apply page f
      (.writeInert (mustacheContent style.quotes (trim (collapse val.toList))))).draft.text =
      sh.draft.text ++ lead ++ inert (markupText style f sh.session val.toList) := by
    rw [← ht, markupText, ← hs]
    exact Draft.text_write _ _
  unfold tokenEdits
  simp only [hk, textEdits, ho, markupTextEdits, Sheet.applyAll_append, Sheet.applyAll_cons]
  split
  · refine ⟨lead, [' '], hlead, .inr rfl, ?_⟩
    rw [← hinert]
    exact Draft.text_write _ _
  · refine ⟨lead, [], hlead, .inl rfl, ?_⟩
    rw [List.append_nil]
    exact hinert

theorem text_leads_put {es : List Edit} (h : ∀ e ∈ es, e.leads) (t : Text) (sh : Sheet ε) :
    ∃ lead, IsLead lead ∧
      (Sheet.applyAll page f (es ++ [.put t]) sh).draft.text = sh.draft.text ++ lead ++ t := by
  obtain ⟨lead, hlead, ht, -⟩ := text_applyAll_leads hp f h sh
  refine ⟨lead, hlead, ?_⟩
  rw [Sheet.applyAll_append, ← ht, Sheet.applyAll_cons, Sheet.apply_put]
  exact Draft.text_write _ _

theorem text_textBlock {val : String} (hk : s.token.kind = .text val) (ho : o.flow = .text)
    (sh : Sheet ε) :
    ∃ lead, IsLead lead ∧ (Sheet.applyAll page f (tokenEdits style s o).1 sh).draft.text =
      sh.draft.text ++ lead ++ val.toList := by
  have hspace : Edit.leads (.say " ") := ⟨_, rfl, isLead_space⟩
  unfold tokenEdits
  simp only [hk, textEdits, ho, blockLineEdits, Bool.false_eq_true, if_false]
  refine text_leads_put hp f (List.forall_mem_append.2 ⟨?_, ?_⟩) val.toList sh
  · split <;> simp [Edit.leads]
  · split <;> simp [hspace]

theorem text_html {source : String} (hk : s.token.kind = .html source) (sh : Sheet ε) :
    ∃ lead, IsLead lead ∧ (Sheet.applyAll page f (tokenEdits style s o).1 sh).draft.text =
      sh.draft.text ++ lead ++ htmlLine source.toList := by
  unfold tokenEdits
  simp only [hk]
  exact text_leads_put hp f (leads_indentation s o.depth) _ sh

end

/-- **How the text of a stream is read.** -/
theorem text_plainText {ε : Type} (style : Style) {l : Layout} {page : Page}
    (hl : page.Follows l) (f : Formatter ε) (done rest : List Token) (t : Token) :
    let before := sheetAfter style page f done (t :: rest)
    let after := sheetAfter style page f (done ++ [t]) rest
    (∀ val, t.kind = .text val → inBlock done = false →
      let w := markupText style f before.session val.toList
      (∃ lead space, IsLead lead ∧ (space = [] ∨ space = [' ']) ∧
        after.draft.text = before.draft.text ++ lead ++ inert w ++ space) ∧
      Guarded (inert w) w ∧ plainReading? (inert w) = some w) ∧
    (∀ val, t.kind = .text val → inBlock done = true →
      (outlineAfter style done (t :: rest)).flow ≠ .comment →
      (∃ lead, IsLead lead ∧ after.draft.text = before.draft.text ++ lead ++ val.toList) ∧
      (plainReading? val.toList = some val.toList ↔ Unopened val.toList)) ∧
    (∀ source, t.kind = .html source →
      let w := htmlLine source.toList
      (∃ lead, IsLead lead ∧ after.draft.text = before.draft.text ++ lead ++ w) ∧
      (plainReading? w = some w ↔ Unopened w)) := by
  intro before after
  have hp := isBlank_indentChar hl
  have hflow := reading_outlineAfter style done (t :: rest)
  have hafter : after = _ := sheetAfter_snoc style page f done rest t
  rw [hafter]
  refine ⟨fun val hk hb => ?_, fun val hk hb hc => ?_, fun source hk => ?_⟩
  · have hmarkup : (outlineAfter style done (t :: rest)).flow = .markup := by
      simpa [Outline.reading, hb] using hflow
    exact ⟨text_markupText style hp f hk hmarkup before, guarded_inert _, plainReading?_inert _⟩
  · have htext : (outlineAfter style done (t :: rest)).flow = .text := by
      rw [hb, Outline.reading] at hflow
      cases hf : (outlineAfter style done (t :: rest)).flow with
      | markup => rw [hf] at hflow; cases hflow
      | text => rfl
      | comment => exact absurd hf hc
    exact ⟨text_textBlock style hp f hk htext before, plainReading?_eq_self_iff _⟩
  · exact ⟨text_html style hp f hk before, plainReading?_eq_self_iff _⟩

def bareInBlock : List Token :=
  [⟨.tag "p", {}⟩, ⟨.dot, {}⟩, ⟨.startPipeless, {}⟩, ⟨.text "a #\x7bb\x7d", {}⟩, ⟨.endPipeless, {}⟩,
    ⟨.eos, {}⟩]

theorem text_plainText_samples :
    let page : Page := ⟨' ', 2, 2, 80, -1, fun _ => false⟩
    let f : Formatter Empty := fun _ r => .ok r.code
    let t : Token := ⟨.text "a #\x7bb\x7d", {}⟩
    let text := fun before after => (sheetAfter {} page f before after).draft.text
    (∃ lead space, text [⟨.tag "p", {}⟩, t] [] = text [⟨.tag "p", {}⟩] [t] ++ lead ++
        "a \\#\x7bb\x7d".toList ++ space) ∧
      (∃ lead, text (bareInBlock.take 4) (bareInBlock.drop 4) =
        text (bareInBlock.take 3) (bareInBlock.drop 3) ++ lead ++ "a #\x7bb\x7d".toList) ∧
      plainReading? "a #\x7bb\x7d".toList ≠ some "a #\x7bb\x7d".toList := by
  intro page f t text
  have hl : page.Follows {} := ⟨_, rfl⟩
  obtain ⟨hmarkup, -, -⟩ := text_plainText {} hl f [⟨.tag "p", {}⟩] [] t
  obtain ⟨-, hblock, -⟩ := text_plainText {} hl f (bareInBlock.take 3) (bareInBlock.drop 4) t
  obtain ⟨⟨lead, space, -, -, h1⟩, -, -⟩ := hmarkup _ rfl rfl
  obtain ⟨⟨lead', -, h2⟩, hread⟩ := hblock _ rfl rfl (by decide)
  refine ⟨⟨lead, space, h1⟩, ⟨lead', h2⟩, fun h => ?_⟩
  exact absurd (hread.1 h "#\x7bb\x7d".toList (by decide)) (by decide)

theorem format_bareInBlock : WellFormed bareInBlock ∧
    (format wordReader {} (fun _ r => .ok r.code : Formatter Empty) bareInBlock).result =
      .ok "p.\n  a #\x7bb\x7d\n" :=
  ⟨by decide, rfl⟩

end PugPretty
