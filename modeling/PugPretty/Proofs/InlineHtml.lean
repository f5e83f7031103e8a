import PugPretty.Proofs.NegatedConditions

/-!
# Inline HTML

A line of HTML that begins and ends with tags of one name is written as an element of that name.
Whether the tag at the end is the one that closes the tag at the beginning is not asked. So such a
line keeps its elements exactly if the tags of that name pair up between the two (`text_htmlLine`,
`format_twoElements`).
-/

namespace PugPretty

open Text

/-! ## Tags in a text -/

def continuesName (c : Char) : Bool := isWordChar c || c == '-'

def beginsTag (front t : Text) : Bool :=
  (front.isPrefixOf? t).any fun r => !r.head?.any continuesName

def openTag (name : Text) : Text := '<' :: name ++ ['>']

def closeTag (name : Text) : Text := ['<', '/'] ++ name ++ ['>']

/-- The text from the tag on that closes an element, where the text begins inside the element and in
`depth` more elements of its name. -/
def fromCloseTag? (name : Text) : Nat → Text → Option Text
  | _, [] => none
  | depth, c :: r =>
    if beginsTag (['<', '/'] ++ name) (c :: r) then
      match depth with
      | 0 => some (c :: r)
      | depth + 1 => fromCloseTag? name depth r
    else fromCloseTag? name (if beginsTag ('<' :: name) (c :: r) then depth + 1 else depth) r

/-- How many elements of the name are open behind the text. A text that closes more than it opens
has no answer. -/
def openElements? (name : Text) : Nat → Text → Option Nat
  | depth, [] => some depth
  | depth, c :: r =>
    if beginsTag (['<', '/'] ++ name) (c :: r) then
      match depth with
      | 0 => none
      | depth + 1 => openElements? name depth r
    else openElements? name (if beginsTag ('<' :: name) (c :: r) then depth + 1 else depth) r

def Nested (name t : Text) : Prop := openElements? name 0 t = some 0

instance (name t : Text) : Decidable (Nested name t) :=
  inferInstanceAs (Decidable (openElements? name 0 t = some 0))

/-- The element that is open in front of the text is closed by the tag behind it, not before. -/
def ClosedAtEnd (name t : Text) : Prop :=
  fromCloseTag? name 0 (t ++ closeTag name) = some (closeTag name)

theorem not_mem_of_isTagName {name : Text} (hname : isTagName name = true) {c : Char}
    (hc : continuesName c = false) (ha : c.isAlpha = false) : c ∉ name := by
  cases name with
  | nil => exact List.not_mem_nil
  | cons d r =>
    simp only [isTagName, Bool.and_eq_true, List.all_eq_true] at hname
    intro hm
    cases hm with
    | head => rw [ha] at hname; cases hname.1
    | tail _ hm => exact absurd (hname.2 c hm) (by rw [← continuesName, hc]; decide)

theorem lt_not_mem_name {name : Text} (hname : isTagName name = true) : '<' ∉ name :=
  not_mem_of_isTagName hname (by decide +kernel) (by decide)

theorem isPrefixOf?_before {u : Text} {c : Char} (hu : c ∉ u) (t r : Text) :
    u.isPrefixOf? (t ++ c :: r) = (u.isPrefixOf? t).map (· ++ c :: r) := by
  induction u generalizing t with
  | nil => simp [List.isPrefixOf?]
  | cons d u ih =>
    rw [List.mem_cons, not_or] at hu
    cases t with
    | nil => simp [List.isPrefixOf?, Ne.symm hu.1]
    | cons e t =>
      simp only [List.cons_append, List.isPrefixOf?]
      split
      · exact ih hu.2 t
      · rfl

/-- Whether a tag begins inside the text can be told without the tag behind the text. -/
theorem beginsTag_before {front : Text} (hfront : '<' ∉ front) (d c : Char) (t r : Text) :
    beginsTag (d :: front) (c :: t ++ '<' :: r) = beginsTag (d :: front) (c :: t) := by
  simp only [beginsTag, List.cons_append, List.isPrefixOf?, isPrefixOf?_before hfront]
  by_cases hd : d = c
  · subst hd
    cases front.isPrefixOf? t with
    | none => simp
    | some u =>
      have hlt : continuesName '<' = false := by decide +kernel
      cases u <;> simp [hlt]
  · simp [hd]

theorem beginsTag_closeTag (name : Text) :
    beginsTag (['<', '/'] ++ name) (closeTag name) = true := by
  have hgt : continuesName '>' = false := by decide +kernel
  rw [beginsTag, closeTag, List.isPrefixOf?_eq_some_iff_append_eq.2 rfl]
  simp [hgt]

theorem fromCloseTag?_isSuffix {name t u : Text} {depth : Nat}
    (h : fromCloseTag? name depth t = some u) : u <:+ t := by
  induction t generalizing depth with
  | nil => cases h
  | cons c r ih =>
    unfold fromCloseTag? at h
    split at h
    · cases depth with
      | zero =>
        cases h
        exact List.suffix_refl _
      | succ depth => exact (ih h).trans (List.suffix_cons c r)
    · exact (ih h).trans (List.suffix_cons c r)

theorem fromCloseTag?_closeTag (name : Text) (depth : Nat) :
    fromCloseTag? name depth (closeTag name) = some (closeTag name) ↔ depth = 0 := by
  have htag := beginsTag_closeTag name
  rw [show closeTag name = '<' :: '/' :: (name ++ ['>']) from rfl] at htag ⊢
  cases depth with
  | zero => exact iff_of_true (by rw [fromCloseTag?, if_pos htag]) rfl
  | succ depth =>
    rw [fromCloseTag?, if_pos htag]
    refine ⟨fun h => ?_, fun h => by cases h⟩
    have hle := (fromCloseTag?_isSuffix h).length_le
    simp only [List.length_cons] at hle
    omega

/-- The tag behind the text closes the element that is open in front of it exactly if the text
closes every element of the name that it opens, and no more. -/
theorem fromCloseTag?_eq_some_iff {name : Text} (hname : '<' ∉ name) (depth : Nat) (t : Text) :
    fromCloseTag? name depth (t ++ closeTag name) = some (closeTag name) ↔
      openElements? name depth t = some 0 := by
  induction t generalizing depth with
  | nil => simp [fromCloseTag?_closeTag, openElements?]
  | cons c r ih =>
    have hfront : '<' ∉ '/' :: name := by simpa using hname
    have hbefore : ∀ front : Text, '<' ∉ front →
        beginsTag ('<' :: front) (c :: (r ++ closeTag name)) = beginsTag ('<' :: front) (c :: r) :=
      fun front h => beginsTag_before h '<' c r _
    cases depth with
    | zero =>
      simp only [List.cons_append, List.nil_append, fromCloseTag?, openElements?, hbefore _ hfront,
        hbefore _ hname]
      split
      · -- what is left of the text is longer than the tag behind it
        refine ⟨fun h => ?_, fun h => by cases h⟩
        have hlen := congrArg List.length (Option.some.inj h)
        simp only [List.length_cons, List.length_append] at hlen
        omega
      · exact ih _
    | succ depth =>
      simp only [List.cons_append, List.nil_append, fromCloseTag?, openElements?, hbefore _ hfront,
        hbefore _ hname]
      split
      · exact ih depth
      · exact ih _

theorem closedAtEnd_iff_nested {name : Text} (hname : isTagName name = true) (t : Text) :
    ClosedAtEnd name t ↔ Nested name t :=
  fromCloseTag?_eq_some_iff (lt_not_mem_name hname) 0 t

/-! ## Elements -/

def element (name body : Text) : Text := openTag name ++ body ++ closeTag name

theorem takeWhile_name {name : Text} (hname : isTagName name = true) (t : Text) :
    (name ++ '>' :: t).takeWhile (· != '>') = name := by
  have hgt : '>' ∉ name := not_mem_of_isTagName hname (by decide +kernel) (by decide)
  rw [List.takeWhile_append_of_pos]
  · simp
  · intro c hc
    simpa using fun h : c = '>' => hgt (h ▸ hc)

theorem element_eq (name body : Text) :
    element name body = '<' :: (name ++ '>' :: (body ++ closeTag name)) := by
  simp [element, openTag]

theorem element_inj {name name' body body' : Text} (hname : isTagName name = true)
    (hname' : isTagName name' = true) (h : element name body = element name' body') :
    name = name' ∧ body = body' := by
  rw [element_eq, element_eq] at h
  have hsame : name = name' := by
    rw [← takeWhile_name hname (body ++ closeTag name), List.tail_eq_of_cons_eq h,
      takeWhile_name hname']
  subst hsame
  exact ⟨rfl, by simpa using h⟩

theorem inlineElement?_eq_some_iff {html name body : Text} :
    inlineElement? html = some (name, body) ↔
      html = element name body ∧ isTagName name = true ∧ isOneLine body = true := by
  have hbetween : ∀ {t n b : Text}, betweenOnLine? ('<' :: n ++ ['>']) (['<', '/'] ++ n ++ ['>']) t
      = some b ↔ t = element n b ∧ isOneLine b = true := by
    intro t n b
    rw [betweenOnLine?, Option.filter_eq_some_iff, between?_eq_some_iff]
    rfl
  constructor
  · intro h
    unfold inlineElement? at h
    split at h
    · simp only [Option.ite_none_right_eq_some, Option.map_eq_some_iff] at h
      obtain ⟨hname, body', hb, he⟩ := h
      obtain ⟨rfl, rfl⟩ := Prod.mk.inj he
      obtain ⟨ht, hbody⟩ := hbetween.1 hb
      exact ⟨ht, hname, hbody⟩
    · cases h
  · rintro ⟨rfl, hname, hbody⟩
    have hb := hbetween.2 ⟨(rfl : element name body = _), hbody⟩
    rw [element_eq] at hb ⊢
    simp only [inlineElement?, takeWhile_name hname, hname, if_true, hb, Option.map_some]

theorem not_toLower_lt {c : Char} (hc : c.isAlpha = true) : ¬ c.toLower < 'A' := by
  delta Char.isAlpha Char.isUpper Char.isLower at hc
  delta Char.toLower
  simp only [Bool.or_eq_true, Bool.and_eq_true, decide_eq_true_eq, ge_iff_le,
    UInt32.le_iff_toNat_le] at hc
  simp only [Char.lt_def, UInt32.lt_iff_toNat_lt, not_lt, UInt32.le_iff_toNat_le]
  split
  · simp [UInt32.toNat_add] at *
    omega
  · simp at *
    omega

theorem exists_of_mem_doctypes :
    ∀ d ∈ doctypes, ∃ c r, d.1 = String.ofList ('<' :: c :: r) ∧ c < 'A' := by
  simp only [doctypes, List.forall_mem_cons]
  iterate 9 refine ⟨⟨_, _, rfl, by decide⟩, ?_⟩
  exact List.forall_mem_nil _

/-- A document type declaration does not begin as an element does. -/
theorem doctypeShortcut?_element {name body : Text} (hname : isTagName name = true) :
    doctypeShortcut? (element name body) = none := by
  rw [doctypeShortcut?, Option.map_eq_none_iff]
  refine Option.eq_none_iff_forall_ne_some.2 fun short hs => ?_
  obtain ⟨l, u, hl, -⟩ := List.lookup_eq_some_iff.1 hs
  obtain ⟨c, r, hc, hlt⟩ :=
    exists_of_mem_doctypes _ (hl ▸ List.mem_append_right l List.mem_cons_self)
  cases name with
  | nil => cases hname
  | cons d name =>
    simp only [isTagName, Bool.and_eq_true] at hname
    simp only [element_eq, List.map_cons, List.cons_append, String.ofList_inj,
      List.cons.injEq] at hc
    exact not_toLower_lt hname.1 (hc.2.1 ▸ hlt)

theorem htmlLine_element {name body : Text} (hname : isTagName name = true)
    (hbody : isOneLine body = true) : htmlLine (element name body) = name ++ ' ' :: body := by
  rw [htmlLine, inlineElement?_eq_some_iff.2 ⟨rfl, hname, hbody⟩]

theorem htmlLine_of_ne {html : Text}
    (h : ∀ name body, isTagName name = true → isOneLine body = true → html ≠ element name body) :
    htmlLine html = (doctypeShortcut? html).getD html := by
  have hn : inlineElement? html = none := by
    refine Option.eq_none_iff_forall_ne_some.2 fun e he => ?_
    obtain ⟨ht, hname, hbody⟩ := inlineElement?_eq_some_iff.1 he
    exact h e.1 e.2 hname hbody ht
  rw [htmlLine, hn]

/-- The line is the line of HTML as it stands or under its short name, or it is the element that the
line of HTML consists of. -/
def KeepsMarkup (html line : Text) : Prop :=
  line = (doctypeShortcut? html).getD html ∨
    ∃ name body, html = element name body ∧ isTagName name = true ∧ ClosedAtEnd name body ∧
      line = name ++ ' ' :: body

theorem keepsMarkup_iff (html : Text) :
    KeepsMarkup html (htmlLine html) ↔
      ∀ name body, isTagName name = true → isOneLine body = true → html = element name body →
        Nested name body := by
  constructor
  · rintro hkeeps name body hname hbody rfl
    rw [KeepsMarkup, htmlLine_element hname hbody, doctypeShortcut?_element hname] at hkeeps
    rcases hkeeps with hverbatim | ⟨name', body', he, hname', hclosed, -⟩
    · -- the line begins with the name, the markup does not
      have hhead := congrArg List.head? hverbatim
      cases name with
      | nil => cases hname
      | cons c r =>
        have hc : c = '<' := by simpa [element, openTag] using hhead
        exact absurd (hc ▸ List.mem_cons_self) (lt_not_mem_name hname)
    · obtain ⟨rfl, rfl⟩ := element_inj hname hname' he
      exact (closedAtEnd_iff_nested hname body).1 hclosed
  · intro hall
    by_cases hn : ∀ name body, isTagName name = true → isOneLine body = true →
        html ≠ element name body
    · exact .inl (htmlLine_of_ne hn)
    · push Not at hn
      obtain ⟨name, body, hname, hbody, rfl⟩ := hn
      have hclosed := (closedAtEnd_iff_nested hname body).2 (hall name body hname hbody rfl)
      exact .inr ⟨name, body, rfl, hname, hclosed, htmlLine_element hname hbody⟩

/-- **The line of inline HTML.** -/
theorem text_htmlLine {ε : Type} (style : Style) (page : Page) (f : Formatter ε)
    (done rest : List Token) {t : Token} {source : String} (hk : t.kind = .html source) :
    let html := source.toList
    let front := (sheetAfter style page f done (t :: rest)).draft.text ++
      leadText page (done.getLast?.map (·.kind)) (nesting done)
    let after := (sheetAfter style page f (done ++ [t]) rest).draft.text
    (∀ name body, isTagName name = true → isOneLine body = true → html = element name body →
      after = front ++ (name ++ ' ' :: body) ∧ (ClosedAtEnd name body ↔ Nested name body)) ∧
    ((∀ name body, isTagName name = true → isOneLine body = true → html ≠ element name body) →
      after = front ++ (doctypeShortcut? html).getD html) ∧
    ((∃ line, after = front ++ line ∧ KeepsMarkup html line) ↔
      ∀ name body, isTagName name = true → isOneLine body = true → html = element name body →
        Nested name body) := by
  intro html front after
  have hline : after = front ++ htmlLine html := by
    have hedits : ∀ (s : Site) (o : Outline), s.token.kind = .html source →
        (tokenEdits style s o).1 = s.indentation o.depth ++ [.put (htmlLine html)] := by
      intro s o hs
      unfold tokenEdits
      rw [hs]
    simp only [after, front]
    rw [sheetAfter_snoc, hedits _ _ hk, text_line, depth_outlineAfter]
    rfl
  refine ⟨fun name body hname hbody ht => ⟨?_, ?_⟩, fun hn => ?_, ?_⟩
  · rw [hline, ht, htmlLine_element hname hbody]
  · exact closedAtEnd_iff_nested hname body
  · rw [hline, htmlLine_of_ne hn]
  · rw [← keepsMarkup_iff]
    constructor
    · rintro ⟨line, hl, hkeeps⟩
      rwa [List.append_cancel_left (hline.symm.trans hl)]
    · exact fun hkeeps => ⟨_, hline, hkeeps⟩

theorem text_htmlLine_samples :
    let page : Page := ⟨' ', 2, 2, 80, -1, fun _ => false⟩
    let f : Formatter Empty := fun _ r => .ok r.code
    let text := fun html => (sheetAfter {} page f [⟨.html html, {}⟩] []).draft.text
    text "<b>x <b class=y>z</b></b>" = "b x <b class=y>z</b>".toList ∧
      Nested ['b'] "x <b class=y>z</b>".toList ∧
      text "<b>x</b> and <i>y</i>" = "<b>x</b> and <i>y</i>".toList := by
  intro page f text
  obtain ⟨helement, -, -⟩ := text_htmlLine {} page f [] []
    (t := ⟨.html "<b>x <b class=y>z</b></b>", {}⟩) rfl
  obtain ⟨-, hother, -⟩ := text_htmlLine {} page f [] []
    (t := ⟨.html "<b>x</b> and <i>y</i>", {}⟩) rfl
  have hb := helement ['b'] "x <b class=y>z</b>".toList (by decide) (by decide) (by decide)
  refine ⟨hb.1, by decide +kernel, hother fun name body hname hbody ht => ?_⟩
  have hnone : inlineElement? "<b>x</b> and <i>y</i>".toList = none := by decide +kernel
  cases hnone.symm.trans (inlineElement?_eq_some_iff.2 ⟨ht, hname, hbody⟩)

def twoElements : List Token := [⟨.html "<b>x</b> and <b>y</b>", {}⟩, ⟨.eos, {}⟩]

theorem format_twoElements : WellFormed twoElements ∧
    ¬ KeepsMarkup "<b>x</b> and <b>y</b>".toList "b x</b> and <b>y".toList ∧
    (format wordReader {} (fun _ r => .ok r.code : Formatter Empty) twoElements).result =
      .ok "b x</b> and <b>y\n" := by
  have hline : htmlLine "<b>x</b> and <b>y</b>".toList = "b x</b> and <b>y".toList := by
    decide +kernel
  refine ⟨by decide, fun hkeeps => ?_, by decide +kernel⟩
  have hnested : Nested ['b'] "x</b> and <b>y".toList :=
    (keepsMarkup_iff _).1 (hline ▸ hkeeps) _ _ (by decide) (by decide) (by decide)
  exact absurd hnested (by decide +kernel)

end PugPretty
