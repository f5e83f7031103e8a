import PugPretty.Proofs.SettledCode
import PugPretty.Proofs.UnbrokenLists

/-!
# Spans in class values

A class value is taken for words, also where a mustache span stands in it. The words inside a span
that could be classes become shorthand like all others, and the rest of the span is left behind in
the list. So a span stays in one piece exactly if no word inside it could be a class
(`parts_classSpan`, `format_classSpan`).
-/

namespace PugPretty

open Text

/-! ## Words -/

theorem exists_splitOnP_append (p : Char → Bool) (t u : Text) : ∃ ws l m vs,
    t.splitOnP p = ws ++ [l] ∧ u.splitOnP p = m :: vs ∧
      (t ++ u).splitOnP p = ws ++ (l ++ m) :: vs := by
  obtain ⟨m, vs, hu⟩ := List.exists_cons_of_ne_nil (List.splitOnP_ne_nil p u)
  suffices h : ∃ ws l, t.splitOnP p = ws ++ [l] ∧ (t ++ u).splitOnP p = ws ++ (l ++ m) :: vs by
    obtain ⟨ws, l, ht, htu⟩ := h
    exact ⟨ws, l, m, vs, ht, hu, htu⟩
  induction t with
  | nil => exact ⟨[], [], rfl, hu⟩
  | cons c t ih =>
    obtain ⟨ws, l, ht, htu⟩ := ih
    rw [List.cons_append, List.splitOnP_cons_eq_if_modifyHead, List.splitOnP_cons_eq_if_modifyHead,
      ht, htu]
    by_cases hc : p c = true
    · exact ⟨[] :: ws, l, by simp [hc], by simp [hc]⟩
    · cases ws with
      | nil => exact ⟨[], c :: l, by simp [hc], by simp [hc]⟩
      | cons w ws => exact ⟨(c :: w) :: ws, l, by simp [hc], by simp [hc]⟩

section
variable {c d : Char} (hc : isBlank c = false) (hd : isBlank d = false)
include hc hd

/-- A text that is cut inside a word has the words of both sides, but for the two at the cut. -/
theorem exists_words_cut (t u : Text) : ∃ ws l m vs,
    words (t ++ [c]) = ws ++ [l ++ [c]] ∧ words (d :: u) = (d :: m) :: vs ∧
      words (t ++ c :: d :: u) = ws ++ (l ++ c :: d :: m) :: vs := by
  -- both sides are cut off the same way, so the pieces in front of the cut are the same
  obtain ⟨ws, l, _, _, -, hone, hsnoc⟩ := exists_splitOnP_append isBlank t [c]
  obtain ⟨ws', l', _, vs, hsnoc', hcons, hwhole⟩ :=
    exists_splitOnP_append isBlank (t ++ [c]) (d :: u)
  obtain ⟨m, vs', hu⟩ := List.exists_cons_of_ne_nil (List.splitOnP_ne_nil isBlank u)
  have hc' : [c].splitOnP isBlank = [[c]] := List.splitOnP_eq_singleton (by simpa using hc)
  have hd' : (d :: u).splitOnP isBlank = (d :: m) :: vs' := by
    simp [List.splitOnP_cons_eq_if_modifyHead, hd, hu]
  obtain ⟨rfl, rfl⟩ := List.cons.inj (hc'.symm.trans hone)
  obtain ⟨rfl, rfl⟩ := List.cons.inj (hd'.symm.trans hcons)
  obtain ⟨rfl, hl⟩ := List.append_inj' (hsnoc'.symm.trans hsnoc) rfl
  obtain rfl : l' = l ++ [c] := by simpa using hl
  refine ⟨ws'.filter (!·.isEmpty), l, m, vs'.filter (!·.isEmpty), ?_, ?_, ?_⟩
  · simp [words, hsnoc]
  · simp [words, hd']
  · rw [words, List.append_cons, hwhole]
    simp

end

theorem flatten_words (t : Text) : (words t).flatten = solid t := by
  unfold words
  induction t with
  | nil => rfl
  | cons c t ih =>
    obtain ⟨w, ws, hw⟩ := List.exists_cons_of_ne_nil (List.splitOnP_ne_nil isBlank t)
    rw [hw] at ih
    rw [List.splitOnP_cons_eq_if_modifyHead, hw]
    by_cases hc : isBlank c = true
    · rw [if_pos hc, solid_cons_of_blank hc, ← ih]
      rfl
    · rw [if_neg hc, solid_cons (Bool.eq_false_iff.2 hc), ← ih]
      cases w <;> simp

/-! ## Words that become shorthand -/

def hoisted (t : Text) : List Text := (words t).filter isSimpleName

def unhoisted (t : Text) : Text := ((words t).filter (!isSimpleName ·)).flatten

theorem isSimpleName_of_mem {w : Text} {c : Char} (hc : isNameChar c = false) (h : c ∈ w) :
    isSimpleName w = false := by
  by_contra hw
  have hname := isNameChar_of_simpleName (Bool.not_eq_false _ ▸ hw) c h
  rw [hc] at hname
  cases hname

section
variable {c d : Char} (hc : isBlank c = false) (hd : isBlank d = false)
  (hc' : isNameChar c = false) (hd' : isNameChar d = false)
include hc hd hc' hd'

theorem hoisted_cut (t u : Text) :
    hoisted (t ++ c :: d :: u) = hoisted (t ++ [c]) ++ hoisted (d :: u) ∧
      unhoisted (t ++ c :: d :: u) = unhoisted (t ++ [c]) ++ unhoisted (d :: u) := by
  obtain ⟨ws, l, m, vs, hleft, hright, hwhole⟩ := exists_words_cut hc hd t u
  have hl : isSimpleName (l ++ [c]) = false := isSimpleName_of_mem hc' (by simp)
  have hm : isSimpleName (d :: m) = false := isSimpleName_of_mem hd' (by simp)
  have hlm : isSimpleName (l ++ c :: d :: m) = false := isSimpleName_of_mem hc' (by simp)
  constructor
  · simp [hoisted, hleft, hright, hwhole, hl, hm, hlm]
  · simp [unhoisted, hleft, hright, hwhole, hl, hm, hlm]

end

theorem length_flatten_filter (p : Text → Bool) (ws : List Text) :
    (ws.filter (!p ·)).flatten.length + (ws.filter p).flatten.length = ws.flatten.length := by
  induction ws with
  | nil => rfl
  | cons w ws ih => cases hp : p w <;> simp [hp] at ih ⊢ <;> omega

theorem unhoisted_eq_solid_iff (t : Text) : unhoisted t = solid t ↔ hoisted t = [] := by
  have hlength := length_flatten_filter isSimpleName (words t)
  rw [flatten_words] at hlength
  constructor
  · intro h
    have hnone : (hoisted t).flatten = [] := by
      rw [← List.length_eq_zero_iff]
      have := congrArg List.length h
      unfold unhoisted at this
      unfold hoisted
      omega
    refine List.eq_nil_iff_forall_not_mem.2 fun w hw => ?_
    have hsimple := (List.mem_filter.1 hw).2
    rw [List.flatten_eq_nil_iff.1 hnone w hw] at hsimple
    cases hsimple
  · intro h
    have hall : (words t).filter (!isSimpleName ·) = words t :=
      List.filter_eq_self.2 fun w hw => by
        simpa using List.filter_eq_nil_iff.1 h w hw
    rw [unhoisted, hall, flatten_words]

/-! ## Spans -/

def insideSpan (code : Text) : Text := '{' :: (code ++ ['}'])

theorem hoisted_span (front code back : Text) :
    let body := front ++ (Piece.code code).source ++ back
    hoisted body =
        hoisted (front ++ ['{']) ++ (hoisted (insideSpan code) ++ hoisted ('}' :: back)) ∧
      unhoisted body =
        unhoisted (front ++ ['{']) ++ (unhoisted (insideSpan code) ++ unhoisted ('}' :: back)) := by
  intro body
  have hbody : body = front ++ '{' :: '{' :: (code ++ '}' :: '}' :: back) := by
    simp [body, Piece.source]
  obtain ⟨hopen, hopen'⟩ := hoisted_cut (c := '{') (d := '{') (by decide) (by decide) (by decide)
    (by decide) front (code ++ '}' :: '}' :: back)
  obtain ⟨hclose, hclose'⟩ := hoisted_cut (c := '}') (d := '}') (by decide) (by decide) (by decide)
    (by decide) ('{' :: code) back
  rw [List.cons_append] at hclose hclose'
  rw [hbody, hopen, hopen', hclose, hclose']
  exact ⟨rfl, rfl⟩

theorem exists_word_of_cut {c d : Char} (hc : isBlank c = false) (hd : isBlank d = false)
    (hc' : isNameChar c = false) (t u : Text) :
    ∃ w ∈ words (t ++ c :: d :: u), isSimpleName w = false := by
  obtain ⟨ws, l, m, vs, -, -, hwhole⟩ := exists_words_cut hc hd t u
  exact ⟨l ++ c :: d :: m, by simp [hwhole], isSimpleName_of_mem hc' (by simp)⟩

/-- The span stands in the line in one piece, its blanks aside, between what stays of the text around
it. -/
def SpanStays (front code back line : Text) : Prop :=
  solid line = unhoisted (front ++ ['{']) ++ (solid (insideSpan code) ++ unhoisted ('}' :: back))

instance (front code back line : Text) : Decidable (SpanStays front code back line) :=
  inferInstanceAs (Decidable (_ = _))

theorem solid_of_mem_words {t w : Text} (h : w ∈ words t) : solid w = w :=
  List.filter_eq_self.2 fun c hc => by
    simp [not_of_mem_splitOnP isBlank t w (List.mem_of_mem_filter h) c hc]

section
variable {style : Style} (hc : style.classes = .shorthand) {a : Attribute} {code : String}
  (hn : a.name = "class") (hv : a.value = .source code)
include hc hn hv

theorem role_classSpan {front span back : Text}
    (hb : unquote? (trim code.toList) = some (front ++ (Piece.code span).source ++ back)) :
    let body := front ++ (Piece.code span).source ++ back
    ∃ others, others ≠ [] ∧ a.role style.classes = .split (hoisted body) others ∧
      solid (unwords others) = unhoisted body := by
  intro body
  have hbody : body = front ++ '{' :: '{' :: (span ++ '}' :: '}' :: back) := by
    simp [body, Piece.source]
  have hblank : isBlankText body = false := by
    have hbrace : isBlank '{' = false := by decide
    simp [hbody, isBlankText, hbrace]
  refine ⟨(words body).filter (!isSimpleName ·), ?_, ?_, ?_⟩
  · obtain ⟨w, hw, hsimple⟩ := exists_word_of_cut (c := '{') (d := '{') (by decide) (by decide)
      (by decide) front (span ++ '}' :: '}' :: back)
    rw [← hbody] at hw
    exact List.ne_nil_of_mem (List.mem_filter.2 ⟨hw, by simp [hsimple]⟩)
  · have hrole : a.role style.classes = Role.of style.classes a.name body := by
      rw [Attribute.role, body?_source hv, hb]
    rw [hrole, hc, hn]
    simp [Role.of, hblank, hoisted]
  · have hself : ((words body).filter (!isSimpleName ·)).map solid =
        (words body).filter (!isSimpleName ·) := by
      conv_rhs => rw [← List.map_id ((words body).filter (!isSimpleName ·))]
      exact List.map_congr_left fun w hw => solid_of_mem_words (List.mem_of_mem_filter hw)
    rw [unwords, solid_intercalate (by decide), hself, unhoisted]

end

/-- **Spans in class values.** -/
theorem parts_classSpan {ε : Type} {style : Style} (hc : style.classes = .shorthand) {l : Layout}
    {page : Page} (hl : page.Follows l) (f : Formatter ε) {done rest : List Token} {t : Token}
    (h : WellFormed (done ++ t :: rest)) {a : Attribute} (hk : t.kind = .attr a)
    (hn : a.name = "class") {code : String} (hv : a.value = .source code) {front span back : Text}
    (hb : unquote? (trim code.toList) = some (front ++ (Piece.code span).source ++ back)) :
    let o := outlineAfter style done (t :: rest)
    let before := sheetAfter style page f done (t :: rest)
    let after := sheetAfter style page f (done ++ [t]) rest
    let inside := insideSpan span
    ∃ x y z line, before.draft.Parts x y z ∧
      after.draft.Parts x
        (y ++ classText (hoisted (front ++ ['{']) ++ (hoisted inside ++ hoisted ('}' :: back))))
        (z ++ gapText style page before.broken o.depth (o.written = 0) "class" ++ "class".toList ++
          (if a.mustEscape then "=" else "!=").toList ++ quote style.quotes line) ∧
      solid line =
        unhoisted (front ++ ['{']) ++ (unhoisted inside ++ unhoisted ('}' :: back)) ∧
      (SpanStays front span back line ↔ hoisted inside = []) := by
  intro o before after inside
  obtain ⟨x, y, z, hp⟩ : ∃ x y z, before.draft.Parts x y z := by
    obtain ⟨x, y, z, hp, -⟩ := (draws_sheetAfter_of_append style f (t :: rest) (t :: rest)
      (isBlank_indentChar hl) h.enclosed h.ne_eos).parts
    exact ⟨x, y, z, hp⟩
  obtain ⟨others, hne, hrole, hsolid⟩ := role_classSpan hc hn hv hb
  obtain ⟨hhoisted, hunhoisted⟩ := hoisted_span front span back
  refine ⟨x, y, z, unwords others, hp, ?_, hsolid.trans hunhoisted, ?_⟩
  · have hreads : before.Reads x y z before.broken before.session := ⟨hp, rfl, rfl⟩
    have hafter : after = Sheet.applyAll page f (writeAttribute style a o).1 before := by
      have hsnoc : after = _ := sheetAfter_snoc style page f done rest t
      rw [hsnoc, tokenEdits_attr style (s := ⟨done.getLast?, t, rest⟩) hk]
    have hids : a.ids style = [] := by rw [Attribute.ids, hrole]
    have hnames : a.classNames style = hoisted (front ++ (Piece.code span).source ++ back) := by
      rw [Attribute.classNames, hrole]
    have hitem : a.itemWith? style o.pending =
        some ⟨"class", some [.plain (classValue style others)], a.mustEscape⟩ := by
      rw [Attribute.itemWith?, hrole, Attribute.item?, hrole, ← hn]
      exact if_neg (by simpa using hne)
    have hparts := (reads_writeAttribute style page f hreads o a).parts
    rw [hids, hnames, hhoisted, hitem] at hparts
    rw [hafter]
    simpa [idText, itemsContent, Item.content, Content.resolve, classValue] using hparts
  · rw [SpanStays, hsolid, hunhoisted, List.append_cancel_left_eq, List.append_cancel_right_eq]
    exact unhoisted_eq_solid_iff inside

theorem parts_classSpan_samples :
    let page : Page := ⟨' ', 2, 2, 80, -1, fun _ => false⟩
    let done : List Token := [⟨.tag "p", {}⟩, ⟨.startAttributes, {}⟩]
    let a : Attribute := ⟨"class", .source "'a \x7b\x7b x \x7d\x7d \x7b\x7by\x7d\x7d'", false⟩
    let rest : List Token := [⟨.endAttributes, {}⟩]
    let after := sheetAfter {} page (echo : Formatter Empty) (done ++ [⟨.attr a, {}⟩]) rest
    WellFormed (done ++ ⟨.attr a, {}⟩ :: rest) ∧
      (∃ x y z line, after.draft.Parts x (y ++ ".a.x".toList)
          (z ++ "class".toList ++ "!=".toList ++ quote .double line) ∧
        solid line = "\x7b\x7b\x7d\x7d\x7b\x7by\x7d\x7d".toList ∧
        ¬ SpanStays "a ".toList " x ".toList " \x7b\x7by\x7d\x7d".toList line) ∧
      ∃ x y z line, after.draft.Parts x (y ++ ".a.x".toList)
          (z ++ "class".toList ++ "!=".toList ++ quote .double line) ∧
        SpanStays "a \x7b\x7b x \x7d\x7d ".toList ['y'] [] line := by
  intro page done a rest after
  have hl : page.Follows {} := ⟨_, rfl⟩
  have h : WellFormed (done ++ ⟨.attr a, {}⟩ :: rest) := by decide
  have hunbroken : (sheetAfter {} page (echo : Formatter Empty) done
      (⟨.attr a, {}⟩ :: rest)).broken = false := by decide
  have hgap : gapText {} page false (outlineAfter {} done (⟨.attr a, {}⟩ :: rest)).depth
      ((outlineAfter {} done (⟨.attr a, {}⟩ :: rest)).written = 0) "class" = [] := by decide
  have hclasses : ({} : Style).classes = .shorthand := rfl
  have hfirst : unquote? (trim "'a \x7b\x7b x \x7d\x7d \x7b\x7by\x7d\x7d'".toList) =
      some ("a ".toList ++ (Piece.code " x ".toList).source ++ " \x7b\x7by\x7d\x7d".toList) := by
    decide
  have hsecond : unquote? (trim "'a \x7b\x7b x \x7d\x7d \x7b\x7by\x7d\x7d'".toList) =
      some ("a \x7b\x7b x \x7d\x7d ".toList ++ (Piece.code ['y']).source ++ []) := by decide
  obtain ⟨x, y, z, line, -, hparts, hsolid, hstays⟩ :=
    parts_classSpan hclasses hl (echo : Formatter Empty) h rfl rfl rfl hfirst
  obtain ⟨x', y', z', line', -, hparts', -, hstays'⟩ :=
    parts_classSpan hclasses hl (echo : Formatter Empty) h rfl rfl rfl hsecond
  rw [hunbroken, hgap] at hparts hparts'
  refine ⟨h, ⟨x, y, z, line, ?_, hsolid.trans (by decide), fun hs => ?_⟩,
    x', y', z', line', ?_, hstays'.2 (by decide)⟩
  · have hnames : classText (hoisted ("a ".toList ++ ['\x7b']) ++
        (hoisted (insideSpan " x ".toList) ++
          hoisted ('\x7d' :: " \x7b\x7by\x7d\x7d".toList))) = ".a.x".toList := by decide
    rw [hnames, List.append_nil] at hparts
    exact hparts
  · exact absurd (hstays.1 hs) (by decide)
  · have hnames : classText (hoisted ("a \x7b\x7b x \x7d\x7d ".toList ++ ['\x7b']) ++
        (hoisted (insideSpan ['y']) ++ hoisted ['\x7d'])) = ".a.x".toList := by decide
    rw [hnames, List.append_nil] at hparts'
    exact hparts'

def classSpan : List Token :=
  [⟨.tag "p", {}⟩, ⟨.startAttributes, {}⟩,
    ⟨.attr ⟨"class", .source "\"\x7b\x7b foo \x7d\x7d\"", true⟩, {}⟩, ⟨.endAttributes, {}⟩, ⟨.eos, {}⟩]

theorem format_classSpan : WellFormed classSpan ∧
    ¬ SpanStays [] " foo ".toList [] "\x7b\x7b \x7d\x7d".toList ∧
    ¬ solid "\x7b\x7b foo \x7d\x7d".toList <:+: solid "\x7b\x7b \x7d\x7d".toList ∧
    (format wordReader {} (echo : Formatter Empty) classSpan).result =
      .ok "p.foo(class=\"\x7b\x7b \x7d\x7d\")\n" :=
  ⟨by decide, by decide, by decide, rfl⟩

end PugPretty
