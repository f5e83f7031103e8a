import PugPretty.Proofs.Collapsing
import PugPretty.Proofs.Indentation
import PugPretty.Proofs.Literals
import PugPretty.Proofs.ShorthandForecast

/-!
# Collapsed code

Arguments, and values that are not escaped, are written without being read: their runs of blanks
are collapsed wherever they stand. Blanks between two tokens of the code may go, but those in a
string are part of it. `strings_collapsed` says for any cut of the code into strings, other tokens
and gaps that the line has the same tokens, each with its runs of blanks collapsed. So the strings
are kept exactly if no two blanks meet in one, and they need not be (`format_spacedStrings`).
-/

namespace PugPretty

open Text

/-! ## Tokens of code -/

/-- Templates, regular expressions and comments may hold blanks. Behind a brace a template goes on. -/
def opensSpan (c : Char) : Bool := c == '`' || c == '}' || c == '/'

inductive Lexeme where
  | gap (blanks : Text)
  | string (quote : Char) (body : Text)
  | other (t : Text)
deriving DecidableEq, Repr

instance (q : Char) (body : Text) : Decidable (IsLiteral q (q :: (body ++ [q]))) :=
  decidable_of_iff _ isLiteral_iff.symm

namespace Lexeme

def text : Lexeme → Text
  | gap blanks => blanks
  | string quote body => quote :: (body ++ [quote])
  | other t => t

def isGap : Lexeme → Bool
  | gap _ => true
  | _ => false

def string? : Lexeme → Option (Char × Text)
  | string quote body => some (quote, body)
  | _ => none

def Valid : Lexeme → Prop
  | gap blanks => blanks ≠ [] ∧ isBlankText blanks = true
  | string quote body => isQuote quote = true ∧ IsLiteral quote (quote :: (body ++ [quote]))
  | other t => t ≠ [] ∧ beginsBlank t = false ∧ endsBlank t = false ∧
      (t.any isBlank = true → t.head?.any opensSpan = true)

instance : ∀ l : Lexeme, Decidable l.Valid
  | gap _ => inferInstanceAs (Decidable (_ ∧ _))
  | string _ _ => inferInstanceAs (Decidable (_ ∧ _))
  | other _ => inferInstanceAs (Decidable (_ ∧ _))

def collapsed : Lexeme → Lexeme
  | gap blanks => gap (collapse blanks)
  | string quote body => string quote (collapse body)
  | other t => other (collapse t)

theorem isGap_collapsed (l : Lexeme) : l.collapsed.isGap = l.isGap := by cases l <;> rfl

section
variable {l : Lexeme} (h : l.Valid)
include h

theorem Valid.ne_nil : l.text ≠ [] := by
  cases l with
  | gap => exact h.1
  | string => exact List.cons_ne_nil _ _
  | other => exact h.1

theorem Valid.solid_ends (hg : l.isGap = false) :
    beginsBlank l.text = false ∧ endsBlank l.text = false := by
  cases l with
  | gap => cases hg
  | string q body =>
    have hq : isBlank q = false := not_isBlank_of_isQuote h.1
    have hlast : (q :: (body ++ [q])).getLast? = some q := by
      rw [← List.cons_append, List.getLast?_concat]
    simp [text, beginsBlank, endsBlank, hlast, hq]
  | other t => exact ⟨h.2.1, h.2.2.1⟩

theorem Valid.blank_of_isGap (hg : l.isGap = true) : ∀ c ∈ l.text, isBlank c = true := by
  cases l with
  | gap => exact List.all_eq_true.1 h.2
  | _ => cases hg

theorem text_collapsed : l.collapsed.text = collapse l.text := by
  cases l with
  | gap => rfl
  | string q body =>
    have hq : isBlank q = false := not_isBlank_of_isQuote h.1
    simp only [collapsed, text]
    rw [collapse_cons_solid hq, collapse_snoc_solid hq]
  | other => rfl

theorem Valid.collapsed : l.collapsed.Valid := by
  cases l with
  | gap blanks =>
    exact ⟨collapse_ne_nil h.1, List.all_eq_true.2 (blank_of_mem_collapse (h.blank_of_isGap rfl))⟩
  | string q body =>
    obtain ⟨hq, hl⟩ := h
    obtain ⟨hbare, hclose⟩ := isLiteral_iff.1 hl
    have hblank : isBlank q = false := not_isBlank_of_isQuote hq
    have hb : '\\' ≠ q := by rintro rfl; cases hq
    refine ⟨hq, isLiteral_iff.2 ⟨?_, ?_⟩⟩
    · rw [(hasBareQuote_collapse hb hblank body).1, hbare]
    · rw [← collapse_snoc_solid hblank, (hasBareQuote_collapse hb hblank _).1, hclose]
  | other t =>
    obtain ⟨hne, hbegin, hend, hspan⟩ := h
    refine ⟨collapse_ne_nil hne, ?_, ?_, fun hany => ?_⟩
    · rw [beginsBlank_collapse, hbegin]
    · exact endsBlank_collapse hend
    · obtain ⟨c, r, rfl⟩ := List.exists_cons_of_ne_nil hne
      have hc : isBlank c = false := hbegin
      have hblank : (c :: r).any isBlank = true := by
        by_contra hnone
        have hsolid : ∀ d ∈ c :: r, isBlank d = false := by simpa using hnone
        rw [collapse_of_solid hsolid] at hany
        exact hnone hany
      rw [collapse_cons_solid hc]
      exact hspan hblank

end

end Lexeme

/-! ## Code that is cut into pieces -/

structure Lexed (ls : List Lexeme) (t : Text) : Prop where
  text_eq : ls.flatMap Lexeme.text = t
  valid : ∀ l ∈ ls, l.Valid
  gaps : ls.IsChain fun l m => ¬ (l.isGap = true ∧ m.isGap = true)

def codeTokens (ls : List Lexeme) : List Lexeme := ls.filter (!·.isGap)

def codeStrings (ls : List Lexeme) : List (Char × Text) := ls.filterMap Lexeme.string?

theorem codeStrings_codeTokens (ls : List Lexeme) : codeStrings (codeTokens ls) = codeStrings ls := by
  unfold codeStrings codeTokens
  rw [List.filterMap_filter]
  exact List.filterMap_congr fun l _ => by cases l <;> rfl

theorem codeTokens_map_collapsed (ls : List Lexeme) :
    codeTokens (ls.map Lexeme.collapsed) = (codeTokens ls).map Lexeme.collapsed := by
  simp [codeTokens, List.filter_map, Function.comp_def, Lexeme.isGap_collapsed]

theorem codeStrings_map_collapsed (ls : List Lexeme) :
    codeStrings (ls.map Lexeme.collapsed) = (codeStrings ls).map fun s => (s.1, collapse s.2) := by
  unfold codeStrings
  rw [List.filterMap_map, List.map_filterMap]
  exact List.filterMap_congr fun l _ => by cases l <;> rfl

namespace Lexed

variable {l : Lexeme} {ls : List Lexeme} {t : Text}

theorem tail (h : Lexed (l :: ls) t) : ∃ u, t = l.text ++ u ∧ Lexed ls u :=
  ⟨_, h.text_eq.symm, rfl, (List.forall_mem_cons.1 h.valid).2, (List.isChain_cons.1 h.gaps).2⟩

theorem init (h : Lexed (ls ++ [l]) t) : ∃ u, t = u ++ l.text ∧ Lexed ls u := by
  obtain ⟨rfl, hvalid, hgaps⟩ := h
  refine ⟨_, by rw [List.flatMap_append, List.flatMap_singleton], rfl, fun m hm => ?_,
    hgaps.left_of_append⟩
  exact hvalid m (List.mem_append_left _ hm)

theorem beginsBlank_eq (h : Lexed ls t) (hg : ∀ m ∈ ls.head?, m.isGap = false) :
    beginsBlank t = false := by
  cases ls with
  | nil => exact h.text_eq ▸ rfl
  | cons m ms =>
    have hm := h.valid m List.mem_cons_self
    obtain ⟨u, rfl, -⟩ := h.tail
    rw [beginsBlank_append hm.ne_nil]
    exact (hm.solid_ends (hg m rfl)).1

theorem endsBlank_eq (h : Lexed ls t) (hg : ∀ m ∈ ls.getLast?, m.isGap = false) :
    endsBlank t = false := by
  obtain rfl | ⟨ms, m, rfl⟩ := ls.eq_nil_or_concat'
  · exact h.text_eq ▸ rfl
  · have hm := h.valid m (by simp)
    obtain ⟨u, rfl, -⟩ := h.init
    rw [endsBlank_append hm.ne_nil]
    exact (hm.solid_ends (hg m (by simp))).2

/-! ### Trimming -/

theorem exists_dropStart (h : Lexed ls t) : ∃ ms u, Lexed ms u ∧ trim u = trim t ∧
    codeTokens ms = codeTokens ls ∧ ∀ m ∈ ms.head?, m.isGap = false := by
  cases ls with
  | nil => exact ⟨[], t, h, rfl, rfl, by simp⟩
  | cons l ms =>
    cases hg : l.isGap with
    | false => exact ⟨l :: ms, t, h, rfl, rfl, by simp [hg]⟩
    | true =>
      have hblank := (h.valid l List.mem_cons_self).blank_of_isGap hg
      have hnext := (List.isChain_cons.1 h.gaps).1
      obtain ⟨u, rfl, hu⟩ := h.tail
      refine ⟨ms, u, hu, (trim_blanks_append hblank u).symm, by simp [codeTokens, hg], fun m hm => ?_⟩
      simpa [hg] using hnext m hm

theorem exists_dropEnd (h : Lexed ls t) : ∃ ms u, Lexed ms u ∧ trim u = trim t ∧
    codeTokens ms = codeTokens ls ∧ ms <+: ls ∧ ∀ m ∈ ms.getLast?, m.isGap = false := by
  obtain rfl | ⟨ms, l, rfl⟩ := ls.eq_nil_or_concat'
  · exact ⟨[], t, h, rfl, rfl, List.prefix_rfl, by simp⟩
  · cases hg : l.isGap with
    | false => exact ⟨ms ++ [l], t, h, rfl, rfl, List.prefix_rfl, by simp [hg]⟩
    | true =>
      have hblank := (h.valid l (by simp)).blank_of_isGap hg
      have hprev := (List.isChain_append.1 h.gaps).2.2
      obtain ⟨u, rfl, hu⟩ := h.init
      refine ⟨ms, u, hu, (trim_append_blanks hblank u).symm, by simp [codeTokens, hg],
        List.prefix_append _ _, fun m hm => ?_⟩
      simpa [hg] using hprev m hm l

theorem exists_trim (h : Lexed ls t) : ∃ ms, Lexed ms (trim t) ∧ codeTokens ms = codeTokens ls := by
  obtain ⟨ms, u, hms, htrim, htokens, hhead⟩ := h.exists_dropStart
  obtain ⟨ns, v, hns, htrim', htokens', hprefix, hlast⟩ := hms.exists_dropEnd
  have hhead' : ∀ m ∈ ns.head?, m.isGap = false := by
    obtain ⟨rest, rfl⟩ := hprefix
    intro m hm
    exact hhead m (List.mem_head?_append_of_mem_head? hm)
  have hself : trim v = v :=
    trim_eq_self_of_ends (hns.beginsBlank_eq hhead') (hns.endsBlank_eq hlast)
  exact ⟨ns, by rwa [← htrim, ← htrim', hself], htokens'.trans htokens⟩

/-! ### Collapsing -/

theorem collapse_eq (h : Lexed ls t) :
    (ls.map Lexeme.collapsed).flatMap Lexeme.text = collapse t := by
  induction ls generalizing t with
  | nil => exact h.text_eq ▸ rfl
  | cons l ls ih =>
    have hl := h.valid l List.mem_cons_self
    have hnext := (List.isChain_cons.1 h.gaps).1
    obtain ⟨u, rfl, hu⟩ := h.tail
    -- a run of blanks ends with its gap
    have hcut : endsBlank l.text = false ∨ beginsBlank u = false := by
      cases hg : l.isGap with
      | false => exact .inl (hl.solid_ends hg).2
      | true => exact .inr (hu.beginsBlank_eq fun m hm => by simpa [hg] using hnext m hm)
    rw [collapse_append hcut, List.map_cons, List.flatMap_cons, Lexeme.text_collapsed hl, ih hu]

theorem collapse (h : Lexed ls t) : Lexed (ls.map Lexeme.collapsed) (collapse t) := by
  refine ⟨h.collapse_eq, ?_, ?_⟩
  · simp only [List.forall_mem_map]
    exact fun l hl => (h.valid l hl).collapsed
  · rw [List.isChain_map]
    simpa only [Lexeme.isGap_collapsed] using h.gaps

/-! ### The blank behind a brace -/

theorem text_of_brace {r : Text} (h : Lexed (l :: ls) ('{' :: ' ' :: r)) : l.text = ['{'] := by
  have hl := h.valid l List.mem_cons_self
  obtain ⟨u, hu, -⟩ := h.tail
  obtain ⟨c, w, hw⟩ := List.exists_cons_of_ne_nil hl.ne_nil
  rw [hw, List.cons_append, List.cons.injEq] at hu
  obtain ⟨rfl, hu⟩ := hu
  cases w with
  | nil => exact hw
  | cons d w =>
    obtain ⟨rfl, -⟩ := List.cons.inj hu
    cases l with
    | gap blanks =>
      have hbrace := hl.blank_of_isGap rfl '{' (by simp [hw])
      cases hbrace
    | string q body =>
      obtain ⟨rfl, -⟩ := List.cons.inj hw
      cases hl.1
    | other t =>
      obtain rfl : t = '{' :: ' ' :: w := hw
      have hspan := hl.2.2.2 rfl
      cases hspan

theorem exists_tight {r : Text} (h : Lexed ls ('{' :: ' ' :: r))
    (hs : SingleBlanks ('{' :: ' ' :: r)) : ∃ ms, Lexed ms ('{' :: r) ∧ codeTokens ms = codeTokens ls := by
  cases ls with
  | nil => exact absurd h.text_eq (by simp)
  | cons l ls =>
    have hl := h.valid l List.mem_cons_self
    have hbrace := h.text_of_brace
    obtain ⟨u, hu, hrest⟩ := h.tail
    obtain rfl : ' ' :: r = u := by simpa [hbrace] using hu
    cases ls with
    | nil => exact absurd hrest.text_eq (by simp)
    | cons m ms =>
      have hm := hrest.valid m List.mem_cons_self
      obtain ⟨v, hv, hms⟩ := hrest.tail
      obtain ⟨c, w, hw⟩ := List.exists_cons_of_ne_nil hm.ne_nil
      rw [hw, List.cons_append, List.cons.injEq] at hv
      obtain ⟨rfl, rfl⟩ := hv
      have hg : m.isGap = true := by
        by_contra hg
        have hbegin := (hm.solid_ends (Bool.not_eq_true _ ▸ hg)).1
        rw [hw] at hbegin
        cases hbegin
      have hlg : l.isGap = false := by
        simpa [hg] using (List.isChain_cons.1 h.gaps).1 m rfl
      -- the gap is a single blank, so nothing of it stays
      obtain rfl : w = [] := by
        cases w with
        | nil => rfl
        | cons d w =>
          have hd := hm.blank_of_isGap hg d (by simp [hw])
          have hpair := (List.isChain_cons.1 (List.isChain_cons.1 hs).2).1 d rfl
          exact absurd ⟨by decide, hd⟩ hpair
      refine ⟨l :: ms, ⟨?_, ?_, ?_⟩, by simp [codeTokens, List.filter_cons, hg]⟩
      · rw [List.flatMap_cons, hbrace, hms.text_eq]
        rfl
      · exact List.forall_mem_cons.2 ⟨hl, hms.valid⟩
      · exact List.isChain_cons.2 ⟨fun n _ => by simp [hlg], hms.gaps⟩

end Lexed

/-! ## The run -/

/-- The line has the tokens of the code, each with its runs of blanks collapsed. A string is kept if
no two blanks meet in it. -/
def CollapsedIn (ls : List Lexeme) (line : Text) : Prop :=
  ∃ out, Lexed out line ∧ codeTokens out = (codeTokens ls).map Lexeme.collapsed ∧
    (codeStrings out = codeStrings ls ↔ ∀ s ∈ codeStrings ls, SingleBlanks s.2)

theorem codeStrings_eq_iff {ls out : List Lexeme}
    (h : codeTokens out = (codeTokens ls).map Lexeme.collapsed) :
    codeStrings out = codeStrings ls ↔ ∀ s ∈ codeStrings ls, SingleBlanks s.2 := by
  have hstrings : codeStrings out = (codeStrings ls).map fun s => (s.1, collapse s.2) := by
    rw [← codeStrings_codeTokens out, h, codeStrings_map_collapsed, codeStrings_codeTokens]
  have hid : codeStrings ls = (codeStrings ls).map id := (List.map_id _).symm
  conv_lhs => rw [hstrings, hid, List.map_map]
  rw [List.map_inj_left]
  simp [Prod.ext_iff, collapse_eq_self_iff]

theorem collapsedIn_collapse_trim {ls : List Lexeme} {code : Text} (h : Lexed ls code) :
    CollapsedIn ls (collapse (trim code)) := by
  obtain ⟨ms, hms, htokens⟩ := h.exists_trim
  have hout : codeTokens (ms.map Lexeme.collapsed) = (codeTokens ls).map Lexeme.collapsed := by
    rw [codeTokens_map_collapsed, htokens]
  exact ⟨_, hms.collapse, hout, codeStrings_eq_iff hout⟩

theorem CollapsedIn.tight {ls : List Lexeme} {r : Text} (h : CollapsedIn ls ('{' :: ' ' :: r))
    (hs : SingleBlanks ('{' :: ' ' :: r)) : CollapsedIn ls ('{' :: r) := by
  obtain ⟨out, hcut, hout, -⟩ := h
  obtain ⟨ms, hms, htokens⟩ := hcut.exists_tight hs
  exact ⟨ms, hms, htokens.trans hout, codeStrings_eq_iff (htokens.trans hout)⟩

def Kind.argumentHead? : Kind → Option (Text × String)
  | .call name (some args) => some ('+' :: name.toList, args)
  | .mixin name (some args) => some ("mixin ".toList ++ name.toList, args)
  | _ => none

def parenthesized (line : Text) : Text := if line.isEmpty then [] else '(' :: (line ++ [')'])

theorem argumentList_some (args : String) :
    argumentList (some args) = parenthesized (collapse (trim args.toList)) := by
  unfold argumentList parenthesized
  rw [Option.map_some]
  cases ht : trim args.toList with
  | nil => rfl
  | cons c t =>
    have hne : (collapse (c :: t)).isEmpty = false := by
      simpa using collapse_ne_nil (List.cons_ne_nil c t)
    simp [hne]

section
variable {ε : Type} (style : Style) (page : Page) (f : Formatter ε)

theorem text_arguments {t : Token} {head : Text} {args : String}
    (hk : t.kind.argumentHead? = some (head, args)) (done rest : List Token) :
    (sheetAfter style page f (done ++ [t]) rest).draft.text =
      (sheetAfter style page f done (t :: rest)).draft.text ++
        leadText page (done.getLast?.map Token.kind) (outlineAfter style done (t :: rest)).depth ++
        (head ++ parenthesized (collapse (trim args.toList))) := by
  rw [sheetAfter_snoc, ← argumentList_some]
  unfold Kind.argumentHead? at hk
  unfold tokenEdits
  split at hk
  · next name _ hcall =>
    cases hk
    simp only [hcall]
    exact (reads_mark page f _ _ _ _).text.trans (by simp [Site.prev?])
  · next name _ hmixin =>
    cases hk
    simp only [hmixin]
    exact text_line page f _ _ _ _
  · cases hk

theorem content_of_unescaped {a : Attribute} {code : String} (hv : a.value = .source code)
    (he : a.mustEscape = false) (hd : Grammar.ofDirective? a.name.toList = none)
    (hu : unquote? (trim code.toList) = none) (hm : mustacheValue? (trim code.toList) = none)
    (ht : trim code.toList ≠ "true".toList) {ls : List Lexeme} (hls : Lexed ls code.toList) :
    ∃ line, a.content style.quotes = some [.plain line] ∧ CollapsedIn ls line := by
  have hline := collapsedIn_collapse_trim hls
  simp only [Attribute.content, hv, sourceContent, hd, hm, hu, ht, he, Bool.false_eq_true, if_false]
  split
  · next r hr =>
    obtain hbrace : collapse (trim code.toList) = '{' :: ' ' :: r := by
      simpa using (List.isPrefixOf?_eq_some_iff_append_eq.1 hr).symm
    rw [hbrace] at hline
    exact ⟨_, rfl, hline.tight (hbrace ▸ singleBlanks_collapse _)⟩
  · exact ⟨_, rfl, hline⟩

/-- **Blanks in code that is not read.** -/
theorem strings_collapsed (done rest : List Token) (t : Token) {ls : List Lexeme} :
    let o := outlineAfter style done (t :: rest)
    let before := sheetAfter style page f done (t :: rest)
    let after := sheetAfter style page f (done ++ [t]) rest
    (∀ head args, t.kind.argumentHead? = some (head, args) → Lexed ls args.toList →
      ∃ line, CollapsedIn ls line ∧
        after.draft.text = before.draft.text ++ leadText page (done.getLast?.map Token.kind) o.depth ++
          (head ++ parenthesized line)) ∧
    (∀ a code, t.kind = .attr a → a.value = .source code → a.mustEscape = false →
      Grammar.ofDirective? a.name.toList = none → unquote? (trim code.toList) = none →
      mustacheValue? (trim code.toList) = none → trim code.toList ≠ "true".toList →
      Lexed ls code.toList →
      ∃ line, CollapsedIn ls line ∧
        after.draft.text = before.draft.text ++
          gapText style page before.broken o.depth (o.written = 0) a.name ++
          (a.name.toList ++ "!=".toList ++ line)) := by
  intro o before after
  refine ⟨fun head args hk hls => ?_, fun a code hk hv he hd hu hm ht hls => ?_⟩
  · exact ⟨_, collapsedIn_collapse_trim hls, text_arguments style page f hk done rest⟩
  · obtain ⟨line, hcontent, hline⟩ := content_of_unescaped style hv he hd hu hm ht hls
    have hafter : after = _ := sheetAfter_attr_keep style page f hk
      (role_of_unquoted hv hu style.classes) done rest
    refine ⟨line, hline, ?_⟩
    rw [hafter, hcontent, he]
    simp [before, o, Sheet.apply_write, itemsContent, Item.content, Content.resolve]

end

theorem strings_collapsed_samples :
    let page : Page := ⟨' ', 2, 2, 80, -1, fun _ => false⟩
    let f : Formatter Empty := fun _ r => .ok r.code
    let mixin : Token := ⟨.mixin "card" (some " a,  \"b  c\""), {}⟩
    let done : List Token := [⟨.tag "p", {}⟩, ⟨.startAttributes, {}⟩]
    let object : Token := ⟨.attr ⟨"x", .source "\x7b  a: 'b c' \x7d", false⟩, {}⟩
    (∃ out line, Lexed out line ∧ codeStrings out ≠ [('"', "b  c".toList)] ∧
        (sheetAfter {} page f [mixin] []).draft.text = "mixin card".toList ++ parenthesized line) ∧
      ∃ out line, Lexed out line ∧ codeStrings out = [('\'', "b c".toList)] ∧
        (sheetAfter {} page f (done ++ [object]) []).draft.text = "p(x!=".toList ++ line := by
  intro page f mixin done object
  have hargs : Lexed [.gap [' '], .other ['a'], .other [','], .gap [' ', ' '],
      .string '"' "b  c".toList] " a,  \"b  c\"".toList := ⟨by decide, by decide, by decide⟩
  have hcode : Lexed [.other ['\x7b'], .gap [' ', ' '], .other ['a'], .other [':'], .gap [' '],
      .string '\'' "b c".toList, .gap [' '], .other ['\x7d']] "\x7b  a: 'b c' \x7d".toList :=
    ⟨by decide, by decide, by decide⟩
  obtain ⟨line, ⟨out, hcut, -, hkeeps⟩, ht⟩ :=
    (strings_collapsed {} page f [] [] mixin).1 _ _ rfl hargs
  obtain ⟨line', ⟨out', hcut', -, hkeeps'⟩, ht'⟩ :=
    (strings_collapsed {} page f done [] object).2 _ _ rfl rfl rfl (by decide) (by decide) (by decide)
      (by decide) hcode
  refine ⟨⟨out, line, hcut, fun h => ?_, ht⟩, out', line', hcut', hkeeps'.2 (by decide), ht'.trans ?_⟩
  · exact absurd (hkeeps.1 h) (by decide)
  · rfl

def spacedStrings : List Token :=
  [⟨.call "foo" (some "\"a  b\""), {}⟩, ⟨.startAttributes, {}⟩,
    ⟨.attr ⟨"x", .source "\"a  b\" + c", false⟩, {}⟩, ⟨.endAttributes, {}⟩, ⟨.eos, {}⟩]

theorem format_spacedStrings : WellFormed spacedStrings ∧
    Lexed [.string '"' "a  b".toList] "\"a  b\"".toList ∧
    Lexed [.string '"' "a  b".toList, .gap [' '], .other ['+'], .gap [' '], .other ['c']]
      "\"a  b\" + c".toList ∧
    (format wordReader {} (fun _ r => .ok r.code : Formatter Empty) spacedStrings).result =
      .ok "+foo(\"a b\")(x!=\"a b\" + c)\n" ∧
    ¬ "\"a  b\"".toList <:+: "+foo(\"a b\")(x!=\"a b\" + c)\n".toList := by
  refine ⟨by decide, ⟨by decide, by decide, by decide⟩, ⟨by decide, by decide, by decide⟩, rfl,
    fun h => ?_⟩
  have hline : SingleBlanks "+foo(\"a b\")(x!=\"a b\" + c)\n".toList := by decide
  have hstring : SingleBlanks "\"a  b\"".toList := List.IsChain.infix hline h
  exact absurd hstring (by decide)

end PugPretty
