import PugPretty.Proofs.ClassAttributes
import PugPretty.Proofs.LastingFacts
import PugPretty.Proofs.ShorthandForecast
import PugPretty.Proofs.SteadyPlaces

/-!
# The implied `div`

A tag leaves out the name `div` if what comes behind it promises shorthand. The promise is kept by
the first part of the head (`givenText_ne_nil`), which puts its shorthand where the name would stand
(`parts_headPart`), and from then on nothing takes it away (`name_or_shorthand`).
-/

namespace PugPretty

open Text

/-! ## The first part of a head -/

/-- What can come first behind the name of an element. -/
inductive HeadPart : List Token → Prop
  | shorthand {t : Token} : t.kind.isShorthand = true → HeadPart [t]
  | list {start stop : Token} {ts : List Token} : start.kind = .startAttributes →
      (∀ t ∈ ts, t.attribute?.isSome = true) → stop.kind = .endAttributes →
      HeadPart (start :: (ts ++ [stop]))

theorem exists_headPart {rest : List Token} (hgo : goesOn rest = true)
    (he : enclosed false rest = true) : ∃ part behind, rest = part ++ behind ∧ HeadPart part := by
  cases rest with
  | nil => cases hgo
  | cons t rest =>
    have hj : t.kind.joinsHead = true := hgo
    cases hk : t.kind with
    | className | idName => exact ⟨[t], rest, rfl, .shorthand (by rw [hk]; rfl)⟩
    | startAttributes =>
      rw [enclosed_cons, hk] at he
      obtain ⟨as, stop, behind, rfl, has, hstop⟩ := exists_list_of_enclosed he.2
      exact ⟨_, behind, rfl, .list hk has hstop⟩
    | _ => rw [hk] at hj; cases hj

theorem HeadPart.ne_eos {part : List Token} (h : HeadPart part) : ∀ u ∈ part, u.kind ≠ .eos := by
  cases h with
  | @shorthand t ht =>
    intro u hu he
    rw [List.mem_singleton.1 hu] at he
    rw [he] at ht
    cases ht
  | @list start stop ts hs hts he =>
    intro u hu hk
    have hattr : u.attribute? = none := by unfold Token.attribute?; rw [hk]
    simp only [List.mem_cons, List.mem_append, List.not_mem_nil, or_false] at hu
    rcases hu with rfl | hu | rfl
    · rw [hk] at hs; cases hs
    · have := hts u hu
      rw [hattr] at this
      cases this
    · rw [hk] at he; cases he

def Token.Gives (style : Style) (t : Token) : Prop :=
  t.ids style ≠ [] ∨ style.classes ≠ .inList ∧ t.classNames style ≠ []

def Token.promises (style : ClassStyle) (t : Token) : Bool :=
  match t.kind with
  | .idName _ => true
  | .className _ => style ≠ .inList
  | .attr a => (a.expectedRole style).isShorthand
  | _ => false

def givenText (style : Style) (part : List Token) : Text :=
  idText (part.flatMap (Token.ids style)) ++
    placedText style (part.flatMap (Token.classNames style))

section
variable (style : Style)

theorem idText_eq_nil_iff {ids : List Text} : idText ids = [] ↔ ids = [] := by
  cases ids <;> simp [idText]

theorem placedText_eq_nil_iff {names : List Text} :
    placedText style names = [] ↔ (style.classes ≠ .inList → names = []) := by
  unfold placedText
  by_cases hc : style.classes = .inList
  · simp [hc]
  · cases names <;> simp [hc, classText]

theorem givenText_ne_nil_iff {part : List Token} :
    givenText style part ≠ [] ↔ ∃ t ∈ part, t.Gives style := by
  rw [givenText, ne_eq, List.append_eq_nil_iff, idText_eq_nil_iff, placedText_eq_nil_iff,
    List.flatMap_eq_nil_iff, List.flatMap_eq_nil_iff]
  constructor
  · intro h
    by_contra hno
    simp only [Token.Gives, not_exists, not_and, not_or, not_not] at hno
    exact h ⟨fun t ht => (hno t ht).1, fun hc t ht => (hno t ht).2 hc⟩
  · rintro ⟨t, ht, hid | ⟨hc, hclass⟩⟩ ⟨hids, hclasses⟩
    · exact hid (hids t ht)
    · exact hclass (hclasses hc t ht)

/-- Shorthand begins with a sign that no name begins with. -/
theorem exists_sign_of_givenText {part : List Token} (h : givenText style part ≠ []) :
    ∃ c r, givenText style part = c :: r ∧ (c = '#' ∨ c = '.') := by
  unfold givenText placedText at h ⊢
  generalize part.flatMap (Token.ids style) = ids at h ⊢
  generalize part.flatMap (Token.classNames style) = names at h ⊢
  cases ids with
  | cons id ids => exact ⟨'#', _, rfl, .inl rfl⟩
  | nil =>
    split at h
    · exact absurd rfl h
    · next hc =>
      cases names with
      | nil => exact absurd rfl h
      | cons name names =>
        rw [if_neg hc]
        exact ⟨'.', _, rfl, .inr rfl⟩

/-! ## The promise -/

theorem Token.promises_of_attribute {a : Attribute} {t : Token} (ht : t.kind = .attr a) :
    t.promises style.classes = true ↔ a.value.isTight = true ∧ t.Gives style := by
  have hclass : style.classes = .inList → a.classNames style = [] := fun hc => classNames_inList hc a
  have hgives : t.Gives style ↔ a.GivesShorthand style.classes := by
    rw [← a.isShorthand_role_iff, ← a.ids_classNames_ne_nil_iff style, Token.Gives, Token.ids,
      Token.classNames, ht]
    exact or_congr_right ⟨And.right, fun hn => ⟨fun hc => hn (hclass hc), hn⟩⟩
  rw [Token.promises, ht, hgives]
  exact a.isShorthand_expected_iff style

theorem Token.gives_of_promises {t : Token} (h : t.promises style.classes = true) :
    t.Gives style := by
  cases hk : t.kind with
  | idName name => exact .inl (by simp [Token.ids, hk])
  | className name =>
    refine .inr ⟨?_, by simp [Token.classNames, hk]⟩
    simpa [Token.promises, hk] using h
  | attr a => exact ((Token.promises_of_attribute style hk).1 h).2
  | _ => simp [Token.promises, hk] at h

/-- Only blanks around a value hide its shorthand. -/
theorem Token.promises_of_gives {t : Token} (h : t.Gives style)
    (htight : ∀ a, t.kind = .attr a → a.value.isTight = true) : t.promises style.classes = true := by
  cases hk : t.kind with
  | idName name => simp [Token.promises, hk]
  | className name =>
    have hc : style.classes ≠ .inList := h.elim (fun h => by simp [Token.ids, hk] at h) And.left
    simpa [Token.promises, hk] using hc
  | attr a => exact (Token.promises_of_attribute style hk).2 ⟨htight a hk, h⟩
  | _ => simp [Token.Gives, Token.ids, Token.classNames, hk] at h

theorem any_attributes_promises (classes : ClassStyle) {ts : List Token} {as : List Attribute}
    (h : ts.map Token.attribute? = as.map some) :
    as.any (fun a => (a.expectedRole classes).isShorthand) = ts.any (Token.promises classes) := by
  induction ts generalizing as with
  | nil =>
    obtain rfl : as = [] := by simpa using h.symm
    rfl
  | cons t ts ih =>
    cases as with
    | nil => cases h
    | cons a as =>
      obtain ⟨ha, hts⟩ := List.cons.inj h
      have hp : t.promises classes = (a.expectedRole classes).isShorthand := by
        rw [Token.promises, kind_of_attribute? ha]
      rw [List.any_cons, List.any_cons, ih hts, hp]

theorem impliesDiv_headPart {part : List Token} (hpart : HeadPart part) (before : Option Token)
    (t : Token) (behind : List Token) (classes : ClassStyle) :
    impliesDiv classes ⟨before, t, part ++ behind⟩ = part.any (Token.promises classes) := by
  unfold impliesDiv
  cases hpart with
  | @shorthand u hu =>
    simp only [Site.next?, List.singleton_append, List.head?_cons, Option.map_some, List.any_cons,
      List.any_nil, Bool.or_false, Token.promises]
    cases hk : u.kind <;> first | rfl | (rw [hk] at hu; cases hu)
  | @list start stop ts hs hts he =>
    have hrun : attributeRun (ts ++ [stop] ++ behind) = ts.filterMap Token.attribute? := by
      rw [List.append_assoc]
      exact attributeRun_append (attribute?_of_end he) behind ts _ (map_attribute? hts)
    simp only [Site.next?, List.cons_append, List.head?_cons, Option.map_some, hs, List.tail_cons, hrun,
      any_attributes_promises classes (map_attribute? hts), List.any_cons, List.any_append,
      List.any_nil, Token.promises, he, Bool.false_or, Bool.or_false]

theorem givenText_ne_nil {part : List Token} (hpart : HeadPart part) {before : Option Token}
    {t : Token} {behind : List Token}
    (h : impliesDiv style.classes ⟨before, t, part ++ behind⟩ = true) : givenText style part ≠ [] := by
  rw [impliesDiv_headPart hpart, List.any_eq_true] at h
  obtain ⟨u, hu, hp⟩ := h
  exact (givenText_ne_nil_iff style).2 ⟨u, hu, u.gives_of_promises style hp⟩

theorem goesOn_of_impliesDiv {classes : ClassStyle} {s : Site} (h : impliesDiv classes s = true) :
    goesOn s.rest = true := by
  unfold impliesDiv Site.next? at h
  unfold goesOn
  cases hr : s.rest.head? with
  | none => simp [hr] at h
  | some u =>
    rw [hr] at h
    cases hk : u.kind <;> simp_all [Kind.joinsHead]

/-! ## What the first part writes -/

theorem flatMap_listTokens {g : Token → List Text} {g' : Attribute → List Text}
    (hg : ∀ t : Token, t.kind.isShorthand = false → g t = t.attribute?.toList.flatMap g')
    {start stop : Token} {ts : List Token} (hs : start.kind = .startAttributes)
    (hts : ∀ t ∈ ts, t.attribute?.isSome = true) (he : stop.kind = .endAttributes) :
    (start :: (ts ++ [stop])).flatMap g = (ts.filterMap Token.attribute?).flatMap g' := by
  have hstart : start.attribute? = none := by unfold Token.attribute?; rw [hs]
  rw [flatMap_attribute? hg (ListTokens.list hs hts he).not_shorthand]
  simp [hstart, attribute?_of_end he]

theorem placedText_attributes (as : List Attribute) :
    placedText style (as.flatMap (Attribute.classNames style)) =
      classText (as.flatMap (Attribute.classNames style)) := by
  unfold placedText
  split
  · next hc => simp [classNames_inList hc, classText]
  · rfl

/-- No sign of shorthand begins what is written behind the shorthand. -/
def Unsigned (t : Text) : Prop := ∀ c ∈ t.head?, c = '(' ∨ c = ' '

theorem Unsigned.append {t u : Text} (ht : Unsigned t) (hu : Unsigned u) : Unsigned (t ++ u) := by
  cases t with
  | nil => exact hu
  | cons c t => exact ht

theorem unsigned_waitingText (classes : List Text) : Unsigned (waitingText style classes) := by
  unfold waitingText
  split
  · exact nofun
  · exact fun c hc => .inl (Option.some.inj hc).symm

theorem unsigned_spaceText (t : Token) (rest : List Token) : Unsigned (spaceText t rest) := by
  unfold spaceText
  split
  · exact fun c hc => .inr (Option.some.inj hc).symm
  · exact fun c hc => .inr (Option.some.inj hc).symm
  · exact fun c hc => .inr (Option.some.inj hc).symm
  · exact nofun

variable {ε : Type} (page : Page) (f : Formatter ε)

theorem unsigned_listContent (broken : Bool) (depth : Nat) (items : List Item) (c : Session ε) :
    Unsigned ((listContent style page broken depth items).resolve f c).1 := by
  cases items with
  | nil => exact nofun
  | cons it its => exact fun c hc => .inl (Option.some.inj hc).symm

theorem parts_headPart {part : List Token} (hpart : HeadPart part) {pre : List Token} {t : Token}
    (hpre : enclosed false (pre ++ [t]) = true) (ht : t.kind.holdsClasses = false)
    (hend : t.kind.endsLine = false) (behind : List Token) {x : Text}
    (h : (sheetAfter style page f (pre ++ [t]) (part ++ behind)).draft.Parts x [] []) :
    ∃ z, Unsigned z ∧ (sheetAfter style page f (pre ++ [t] ++ part) behind).draft.Parts
      (x ++ idText (part.flatMap (Token.ids style)))
      (placedText style (part.flatMap (Token.classNames style))) z := by
  have hlast : (pre ++ [t]).getLast?.map Token.kind = some t.kind := by simp
  have hd : ((pre ++ [t]).getLast?.map Token.kind).all (!·.holdsClasses) = true := by
    rw [hlast]; simp [ht]
  cases hpart with
  | @shorthand u hu =>
    have hfront : InFront style page (sheetAfter style page f (pre ++ [t]) ([u] ++ behind))
        ((pre ++ [t]).getLast?.map Token.kind) (nesting (pre ++ [t])) u.kind x [] [] :=
      inFront_of_parts style page (by rw [hlast]; exact hend) _ _ h
    obtain ⟨hreads, -⟩ := reads_run style page f hu (by simp) (pre ++ [t]) behind hd hfront
    have hlisted : Unsigned (listedText style ([u].flatMap (Token.classNames style)) behind) := by
      unfold listedText
      split
      · exact unsigned_waitingText style _
      · exact nofun
    exact ⟨_, hlisted.append (unsigned_spaceText u behind), hreads.parts⟩
  | @list start stop ts hs hts he =>
    let o := outlineAfter style (pre ++ [t]) (start :: (ts ++ [stop]) ++ behind)
    have hopen : o.listOpen = false := listOpen_outlineAfter style _ hpre
    have hp : o.pending = [] := pending_outlineAfter_of_last style hd _
    have hmap := map_attribute? hts
    rw [flatMap_listTokens (ids_of_not_shorthand style) hs hts he,
      flatMap_listTokens (classNames_of_not_shorthand style) hs hts he, placedText_attributes,
      sheetAfter_append]
    by_cases hn : ts.filterMap Token.attribute? = []
    · obtain ⟨h1, -⟩ := reads_emptyList style page f hs he hmap (pre ++ [t]).getLast? behind hopen hn
        ⟨h, rfl, rfl⟩
      have hx : x ++ idText [] = x := List.append_nil x
      rw [hn]
      exact ⟨_, (unsigned_waitingText style _).append (unsigned_spaceText stop behind),
        hx.symm ▸ h1.parts⟩
    · obtain ⟨h1, -⟩ := reads_list style page f hs he hmap (pre ++ [t]).getLast? behind hopen
        (fun _ => hp) hn ⟨h, rfl, rfl⟩
      exact ⟨_, (unsigned_listContent style page f _ _ _ _).append (unsigned_spaceText stop behind),
        h1.parts⟩

theorem enclosed_tag {pre rest : List Token} {t : Token} {name : String}
    (h : enclosed false (pre ++ t :: rest) = true) (ht : t.kind = .tag name) :
    enclosed false (pre ++ [t]) = true := by
  rw [enclosed_append (enclosed_before (by rw [ht]; rfl) _ _ _ h), enclosed_cons, ht]
  exact ⟨rfl, rfl⟩

theorem parts_tag {pre : List Token} {t : Token} {name : String} (ht : t.kind = .tag name)
    (rest : List Token) :
    (sheetAfter style page f (pre ++ [t]) rest).draft.Parts
      ((sheetAfter style page f pre (t :: rest)).draft.text ++
        leadText page (pre.getLast?.map Token.kind) (nesting pre) ++ headText style t rest) [] [] := by
  have hmark := fun n => reads_mark page f ⟨pre.getLast?, t, rest⟩ (nesting pre) n
    (sheetAfter style page f pre (t :: rest))
  have hnil := reads_mark_nil page f ⟨pre.getLast?, t, rest⟩ (nesting pre)
    (sheetAfter style page f pre (t :: rest))
  rw [sheetAfter_snoc, ← depth_outlineAfter style pre (t :: rest)] at *
  unfold tokenEdits headText
  simp only [ht, tagEdits]
  rw [show impliesDiv style.classes ⟨none, t, rest⟩ =
    impliesDiv style.classes ⟨pre.getLast?, t, rest⟩ from rfl]
  split
  · simpa [Edit.say, Site.prev?] using (hmark name.toList).parts
  · simpa [Site.prev?] using hnil.parts

end

/-! ## Nothing takes shorthand away -/

/-- Behind the text stands shorthand. -/
def Signed (t u : Text) : Prop := ∃ c r, u = t ++ c :: r ∧ (c = '#' ∨ c = '.')

def SignedAt (place x y : Text) : Prop := ∃ u, x = place ++ u ∧ Signed [] (u ++ y)

theorem Signed.append {t u : Text} (h : Signed t u) (v : Text) : Signed t (u ++ v) := by
  obtain ⟨c, r, rfl, hc⟩ := h
  exact ⟨c, r ++ v, by simp, hc⟩

theorem SignedAt.signed {place x y : Text} (h : SignedAt place x y) : Signed place (x ++ y) := by
  obtain ⟨u, rfl, c, r, hu, hc⟩ := h
  exact ⟨c, r, by rw [List.append_assoc, hu]; rfl, hc⟩

theorem lasting_signedAt (place : Text) : Lasting (SignedAt place) where
  joinIds {x y} name h := by
    obtain ⟨u, rfl, c, r, hu, hc⟩ := h
    refine ⟨u ++ '#' :: name, by rw [List.append_assoc], ?_⟩
    cases u with
    | nil => exact ⟨'#', name ++ y, rfl, .inl rfl⟩
    | cons d u =>
      obtain rfl : d = c := (List.cons.inj hu).1
      exact ⟨d, u ++ '#' :: name ++ y, rfl, hc⟩
  joinClasses t h := by
    obtain ⟨u, rfl, hu⟩ := h
    exact ⟨u, rfl, by rw [← List.append_assoc]; exact hu.append t⟩
  mark {x y} z h := by
    obtain ⟨u, rfl, hu⟩ := h
    refine ⟨u ++ y ++ z, by simp, ?_⟩
    rw [List.append_nil]
    exact hu.append z

theorem Signed.finish {t : Text} {d : Draft} (h : Signed t d.text) : Signed t d.finish.text := by
  obtain ⟨c, r, hd, hc⟩ := h
  have ht : d.text = t ++ [c] ++ r := by rw [hd, List.append_assoc]; rfl
  -- the sign is no line feed, so what ends with it is not cut
  have hcut : ¬ (['\n', '\n'] <:+ t ++ [c] ∧ ∀ d ∈ r, d = '\n') := by
    rintro ⟨⟨a, ha⟩, -⟩
    have hfeed : a ++ ['\n'] ++ ['\n'] = t ++ [c] := by rw [← ha]; simp
    obtain rfl : '\n' = c := (List.cons.inj (List.append_inj' hfeed rfl).2).1
    revert hc
    decide
  obtain ⟨v, hv⟩ := Draft.prefix_finish ht hcut
  exact ⟨c, v, by rw [← hv, List.append_assoc]; rfl, hc⟩

section
variable {ε : Type} (style : Style) {page : Page} (hp : isBlank page.indentChar = true)
  (f : Formatter ε)
include hp

theorem signed_sheetAfter {part done more post : List Token} (hg : givenText style part ≠ [])
    {place z : Text} (he : enclosed false (done ++ (more ++ post)) = true)
    (hn : ∀ u ∈ done ++ more, u.kind ≠ .eos)
    (hz : (sheetAfter style page f done (more ++ post)).draft.Parts
      (place ++ idText (part.flatMap (Token.ids style)))
      (placedText style (part.flatMap (Token.classNames style))) z) :
    Signed place (sheetAfter style page f (done ++ more) post).draft.text := by
  obtain ⟨c, r, hgiven, hc⟩ := exists_sign_of_givenText style hg
  have hhas := has_sheetAfter (lasting_signedAt place) style hp f post more done he hn
    ⟨_, _, z, hz, _, rfl, c, r, hgiven, hc⟩
  obtain ⟨x, y, z, hparts, hs⟩ := hhas
  rw [hparts.text]
  exact hs.signed.append z

/-- Where a name is left out, shorthand stands once the first part of the head is read. -/
theorem signed_of_impliesDiv {pre part behind : List Token} {t : Token} (hpart : HeadPart part)
    (h : WellFormed (pre ++ t :: (part ++ behind))) (ht : t.kind = .tag "div") {place : Text}
    (hplace : (sheetAfter style page f (pre ++ [t]) (part ++ behind)).draft.Parts place [] [])
    (himp : impliesDiv style.classes ⟨none, t, part ++ behind⟩ = true) {more post : List Token}
    (hb : behind = more ++ post) (hn : ∀ u ∈ more, u.kind ≠ .eos) :
    Signed place (sheetAfter style page f (pre ++ t :: (part ++ more)) post).draft.text := by
  subst hb
  have hassoc : pre ++ [t] ++ part ++ (more ++ post) = pre ++ t :: (part ++ (more ++ post)) := by simp
  have htext : pre ++ t :: (part ++ more) = pre ++ [t] ++ part ++ more := by simp
  have hne : ∀ u ∈ pre ++ [t] ++ part ++ more, u.kind ≠ .eos := by
    simp only [List.forall_mem_append, List.forall_mem_singleton]
    exact ⟨⟨⟨h.ne_eos, by rw [ht]; nofun⟩, hpart.ne_eos⟩, hn⟩
  obtain ⟨z, -, hz⟩ := parts_headPart style page f hpart (enclosed_tag h.enclosed ht)
    (by rw [ht]; rfl) (by rw [ht]; rfl) (more ++ post) hplace
  rw [htext]
  exact signed_sheetAfter style hp f (givenText_ne_nil style hpart himp) (hassoc ▸ h.enclosed) hne hz

end

theorem WellFormed.exists_end {done behind : List Token} (h : WellFormed (done ++ behind)) :
    ∃ more tail, behind = more ++ tail ∧ (∀ u ∈ more, u.kind ≠ .eos) ∧
      (tail = [] ∨ ∃ e, tail = [e] ∧ e.kind = .eos) := by
  rcases List.eq_nil_or_concat behind with rfl | ⟨more, e, rfl⟩
  · exact ⟨[], [], rfl, nofun, .inl rfl⟩
  rw [List.concat_eq_append, ← List.append_assoc] at h
  have hmore : ∀ u ∈ more, u.kind ≠ .eos := fun u hu => h.ne_eos u (List.mem_append_right _ hu)
  by_cases he : e.kind = .eos
  · exact ⟨more, [e], List.concat_eq_append, hmore, .inr ⟨e, rfl, he⟩⟩
  · refine ⟨more ++ [e], [], by simp, ?_, .inl rfl⟩
    exact List.forall_mem_append.2 ⟨hmore, by simpa using he⟩

/-- **A name is left out only for shorthand.** -/
theorem name_or_shorthand {ε : Type} (style : Style) {l : Layout} {page : Page}
    (hl : page.Follows l) (f : Formatter ε) (ord : AttributeOrder) {ts pre rest : List Token}
    (h : WellFormed ts) {t : Token} {name : String} (hv : ord.arrange ts = pre ++ t :: rest)
    (ht : t.kind = .tag name) :
    let place := (sheetAfter style page f pre (t :: rest)).draft.text ++
      leadText page (pre.getLast?.map Token.kind) (nesting pre)
    let tagged := (sheetAfter style page f (pre ++ [t]) rest).draft.text
    tagged = place ++ name.toList ∨
      name = "div" ∧ tagged = place ∧ ∃ part behind, rest = part ++ behind ∧ HeadPart part ∧
        (∀ more post, behind = more ++ post → (∀ u ∈ more, u.kind ≠ .eos) →
          Signed place (sheetAfter style page f (pre ++ t :: (part ++ more)) post).draft.text) ∧
        Signed place (writeTokens style page f (ord.arrange ts)).draft.text := by
  intro place tagged
  have hp := isBlank_indentChar hl
  have hw := hv ▸ h.arrange ord
  have htag : (sheetAfter style page f (pre ++ [t]) rest).draft.Parts
      (place ++ headText style t rest) [] [] := parts_tag style page f ht rest
  have htext : tagged = place ++ headText style t rest := by simpa using htag.text
  by_cases hname : name ≠ "div" ∨ style.explicitDiv = true ∨
      impliesDiv style.classes ⟨none, t, rest⟩ = false
  · left
    rw [htext, headText, ht]
    simp only [if_pos hname]
  right
  have hnil : headText style t rest = [] := by
    rw [headText, ht]
    simp only [if_neg hname]
  simp only [not_or, not_not, Bool.not_eq_true, Bool.not_eq_false] at hname
  obtain ⟨rfl, -, himp⟩ := hname
  rw [hnil, List.append_nil] at htag htext
  have hrest : enclosed false rest = true := by
    rw [← enclosed_append (enclosed_tag hw.enclosed ht), List.append_assoc]
    exact hw.enclosed
  obtain ⟨part, behind, rfl, hpart⟩ := exists_headPart (goesOn_of_impliesDiv himp) hrest
  have hsigned : ∀ more post, behind = more ++ post → (∀ u ∈ more, u.kind ≠ .eos) →
      Signed place (sheetAfter style page f (pre ++ t :: (part ++ more)) post).draft.text := by
    intro more post hb hn
    exact signed_of_impliesDiv style hp f hpart hw ht htag himp hb hn
  refine ⟨rfl, htext, part, behind, rfl, hpart, hsigned, ?_⟩
  have hassoc : pre ++ t :: (part ++ behind) = pre ++ t :: part ++ behind := by simp
  obtain ⟨more, tail, rfl, hne, htail⟩ := (hassoc ▸ hw).exists_end
  have hbody : ord.arrange ts = pre ++ t :: (part ++ more) ++ tail := by rw [hv]; simp
  rw [hbody, (writeTokens_body style page f _ htail).1]
  exact (hsigned more tail rfl hne).finish

def promisedList : List Token :=
  [⟨.tag "div", {}⟩, ⟨.startAttributes, {}⟩, ⟨.attr ⟨"href", .source "'/'", true⟩, {}⟩,
    ⟨.attr ⟨"id", .source "'k'", true⟩, {}⟩, ⟨.endAttributes, {}⟩, ⟨.className "a", {}⟩,
    ⟨.text "t", {}⟩, ⟨.eos, {}⟩]

theorem name_or_shorthand_promisedList :
    let page : Page := ⟨' ', 2, 2, 80, -1, fun _ => false⟩
    let f : Formatter Empty := fun _ r => .ok r.code
    let printed := (writeTokens {} page f promisedList).draft.text
    WellFormed promisedList ∧
      (sheetAfter {} page f (promisedList.take 1) promisedList.tail).draft.text = [] ∧
      Signed [] printed ∧ printed = "#k.a(href=\"/\") t\n".toList := by
  intro page f printed
  have hw : WellFormed promisedList := by decide
  have hl : page.Follows {} := ⟨_, rfl⟩
  have hv : AttributeOrder.arrange {} promisedList = [] ++ ⟨.tag "div", {}⟩ :: promisedList.tail := rfl
  have htagged : (sheetAfter {} page f (promisedList.take 1) promisedList.tail).draft.text = [] := by
    decide
  rcases name_or_shorthand {} hl f {} hw hv rfl with hname | ⟨-, -, -, -, -, -, -, hsigned⟩
  · exact absurd (htagged.symm.trans hname) (by decide)
  · exact ⟨hw, htagged, hsigned, by decide⟩

end PugPretty
