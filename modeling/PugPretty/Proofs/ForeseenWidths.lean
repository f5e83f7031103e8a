import PugPretty.Proofs.ClassAttributes
import PugPretty.Proofs.InlineContent
import PugPretty.Proofs.ShorthandForecast

/-!
# What a list writes and what is forecast

For every attribute the columns that it writes are set against the columns that are forecast, and one
for what separates it from the next (`Attribute.width_le_foreseen`). The classes that wait for it and
its exclamation mark come in addition (`Attribute.width_of_waiting_le`), and so do the commas of the
list (`width_list_le`).
-/

namespace PugPretty

open Text

/-! ## The width of words -/

def wordsWidth (ws : List Text) : Nat := total (ws.map fun w => 1 + w.length)

theorem wordsWidth_append (ws vs : List Text) :
    wordsWidth (ws ++ vs) = wordsWidth ws + wordsWidth vs := by
  simp [wordsWidth]

theorem wordsWidth_eq (ws : List Text) : wordsWidth ws = total (ws.map List.length) + ws.length := by
  induction ws with
  | nil => rfl
  | cons w ws ih =>
    unfold wordsWidth at ih ⊢
    simp only [List.map_cons, total_cons, List.length_cons, ih]
    omega

theorem wordsWidth_filter (p : Text → Bool) (ws : List Text) :
    wordsWidth (ws.filter p) + wordsWidth (ws.filter (!p ·)) = wordsWidth ws := by
  induction ws with
  | nil => rfl
  | cons w ws ih =>
    unfold wordsWidth at ih ⊢
    by_cases hw : p w = true
    · simp [hw]
      omega
    · simp [hw]
      omega

theorem length_signed (sign : Char) (names : List Text) :
    (names.flatMap (sign :: ·)).length = wordsWidth names := by
  induction names with
  | nil => rfl
  | cons n names ih =>
    unfold wordsWidth at ih ⊢
    simp [ih]
    omega

theorem length_unwords {ws : List Text} (h : ws ≠ []) : (unwords ws).length + 1 = wordsWidth ws := by
  induction ws with
  | nil => exact absurd rfl h
  | cons w ws ih =>
    cases ws with
    | nil =>
      simp [unwords, wordsWidth]
      omega
    | cons v ws =>
      have ih := ih (List.cons_ne_nil v ws)
      unfold unwords wordsWidth at ih ⊢
      rw [List.intercalate_cons_cons, List.map_cons, total_cons, ← ih]
      simp
      omega

theorem length_unwords_append_le (ws vs : List Text) :
    (unwords (ws ++ vs)).length ≤ (unwords ws).length + 1 + (unwords vs).length := by
  by_cases hw : ws = []
  · subst hw
    rw [List.nil_append]
    omega
  by_cases hv : vs = []
  · subst hv
    rw [List.append_nil]
    omega
  have hboth : ws ++ vs ≠ [] := List.append_ne_nil_of_left_ne_nil hw vs
  have h1 := length_unwords hw
  have h2 := length_unwords hv
  have h3 := length_unwords hboth
  rw [wordsWidth_append] at h3
  omega

theorem wordsWidth_splitOnP (p : Char → Bool) (t : Text) :
    wordsWidth (t.splitOnP p) = t.length + 1 := by
  induction t with
  | nil => rfl
  | cons c t ih =>
    rw [List.splitOnP_cons_eq_if_modifyHead]
    split
    · unfold wordsWidth at ih ⊢
      simp [ih]
      omega
    · obtain ⟨w, ws, hw⟩ := List.exists_cons_of_ne_nil (List.splitOnP_ne_nil p t)
      rw [hw] at ih ⊢
      unfold wordsWidth at ih ⊢
      simp at ih ⊢
      omega

theorem wordsWidth_words_le (t : Text) : wordsWidth (words t) ≤ t.length + 1 := by
  have h := wordsWidth_filter (!·.isEmpty) (t.splitOnP isBlank)
  rw [wordsWidth_splitOnP] at h
  unfold words
  omega

theorem length_of_unquote? {t body : Text} (h : unquote? t = some body) :
    t.length = body.length + 2 := by
  cases t with
  | nil => cases h
  | cons q r =>
    simp only [unquote?, Option.ite_none_right_eq_some, Bool.and_eq_true, beq_iff_eq] at h
    obtain ⟨⟨-, hlast⟩, hbody⟩ := h
    obtain ⟨ys, rfl⟩ := List.getLast?_eq_some_iff.1 hlast
    rw [List.dropLast_concat, Option.some.injEq] at hbody
    rw [← hbody]
    simp

/-! ## One attribute -/

def AttrValue.sourceWidth : AttrValue → Nat
  | .flag true => 0
  | .flag false => 6
  | .source code => 1 + (trim code.toList).length

def valueWidth {ε : Type} (f : Formatter ε) (c : Session ε) : Option Content → Nat
  | some k => 1 + (k.resolve f c).1.length
  | none => 0

/-- The columns in the source of what stays in the list, with an equals sign. Of a class attribute
that is split only the classes stay that are no names. -/
def Attribute.stayingWidth (style : Style) (a : Attribute) : Nat :=
  match a.role style.classes with
  | .split (_ :: _) others => (unwords others).length + 3
  | _ => a.value.sourceWidth

/-- The value of the attribute, waiting classes aside, is written no wider than it stands in the
source. -/
def Attribute.KeepsWidth {ε : Type} (style : Style) (f : Formatter ε) (c : Session ε)
    (a : Attribute) : Prop :=
  ∀ it, a.itemWith? style [] = some it → valueWidth f c it.value ≤ a.stayingWidth style

def bangs (items : List Item) : Nat :=
  (items.filter fun it => it.value.isSome && !it.mustEscape).length

def mergedWidth (style : Style) (waiting : List Text) : Nat :=
  if waiting.isEmpty then 0 else (requoted style.quotes (unwords waiting)).length + 1

def bareContent (items : List Item) : Content := items.flatMap Item.content

theorem bangs_append (its its' : List Item) : bangs (its ++ its') = bangs its + bangs its' := by
  simp [bangs]

theorem length_classValue (style : Style) (classes : List Text) :
    (classValue style classes).length = (requoted style.quotes (unwords classes)).length + 2 := by
  simp [classValue, quote]

theorem length_classValue_append_le (style : Style) (waiting classes : List Text) :
    (classValue style (waiting ++ classes)).length ≤
      (classValue style classes).length + mergedWidth style waiting := by
  have h := length_unwords_append_le (waiting.map (requoted style.quotes))
    (classes.map (requoted style.quotes))
  rw [← List.map_append, ← requoted_unwords, ← requoted_unwords, ← requoted_unwords] at h
  unfold mergedWidth
  rw [length_classValue, length_classValue]
  split
  · next hw =>
    rw [List.isEmpty_iff.1 hw, List.nil_append]
  · omega

theorem length_trim_le (t : Text) : (trim t).length ≤ t.length :=
  (prefix_trim t).length_le.trans (List.dropWhile_sublist isBlank).length_le

namespace Attribute

variable (style : Style) {a : Attribute}

theorem expectedRole_or (a : Attribute) :
    a.expectedRole style.classes = a.role style.classes ∨ a.expectedRole style.classes = .keep := by
  by_cases ht : a.value.isTight = true
  · exact .inl (expectedRole_eq ht style.classes)
  · exact .inr (by rw [expectedRole, AttrValue.tightBody?_of_not_tight ht])

theorem sourceWidth_eq (a : Attribute) :
    a.sourceWidth = a.name.toList.length + a.value.sourceWidth := by
  unfold sourceWidth AttrValue.sourceWidth
  cases a.value with
  | flag b => cases b <;> rfl
  | source code => exact Nat.add_assoc _ _ _

theorem sourceWidth_of_body {body : Text} (h : a.value.body? = some body) :
    a.value.sourceWidth = body.length + 3 := by
  unfold AttrValue.sourceWidth
  cases hv : a.value with
  | flag b => rw [hv] at h; cases h
  | source code =>
    rw [hv] at h
    have hlen := length_of_unquote? (t := trim code.toList) h
    dsimp only
    omega

/-- The columns that are forecast of the attribute, one for each item behind it among them. -/
def foreseenWidth (a : Attribute) : Nat :=
  (a.forecast style.classes).1 + total (a.forecast style.classes).2 +
    (a.forecast style.classes).2.length

theorem foreseen_of_not_shorthand (h : (a.expectedRole style.classes).isShorthand = false) :
    a.foreseenWidth style = a.name.toList.length + a.value.sourceWidth + 1 := by
  have hforecast : a.forecast style.classes = (0, [a.sourceWidth]) := by
    unfold forecast
    cases he : a.expectedRole style.classes with
    | id n => rw [he] at h; cases h
    | split simple others =>
      cases simple with
      | nil => rfl
      | cons n ns => rw [he] at h; cases h
    | _ => rfl
  rw [foreseenWidth, hforecast, ← a.sourceWidth_eq]
  simp

theorem staying_of_not_shorthand (h : (a.role style.classes).isShorthand = false) :
    a.name.toList.length + a.stayingWidth style + 1 = a.foreseenWidth style := by
  have he : (a.expectedRole style.classes).isShorthand = false := by
    rcases a.expectedRole_or style with he | he <;> rw [he]
    · exact h
    · rfl
  rw [foreseen_of_not_shorthand style he, stayingWidth]
  split
  · next hr => rw [hr] at h; cases h
  · rfl

theorem foreseen_of_id {n : Text} (hr : a.role style.classes = .id n) :
    1 + n.length ≤ a.foreseenWidth style := by
  obtain ⟨body, hb, hof⟩ := body?_of_role (hr ▸ nofun : a.role style.classes ≠ .keep)
  obtain ⟨-, -, -, rfl⟩ := Role.of_eq_id (hof.symm.trans hr)
  rcases a.expectedRole_or style with he | he
  · rw [foreseenWidth, forecast, he, hr]
    exact Nat.le_refl _
  · have hsource := sourceWidth_of_body hb
    have htrim := length_trim_le body
    rw [foreseen_of_not_shorthand style (by rw [he]; rfl)]
    omega

theorem foreseen_of_split {n : Text} {ns others : List Text}
    (hr : a.role style.classes = .split (n :: ns) others) :
    wordsWidth (n :: ns) +
        (if others.isEmpty then 0 else a.name.toList.length + (unwords others).length + 4) ≤
      a.foreseenWidth style := by
  obtain ⟨body, hb, hof⟩ := body?_of_role (hr ▸ nofun : a.role style.classes ≠ .keep)
  obtain ⟨-, -, -, hsimple, hothers⟩ := Role.of_eq_split (hof.symm.trans hr)
  have hwords : wordsWidth (n :: ns) + wordsWidth others = wordsWidth (words body) := by
    rw [hsimple, hothers, wordsWidth_filter]
  rcases a.expectedRole_or style with he | he
  · rw [foreseenWidth, forecast, he, hr]
    cases others with
    | nil => simp [wordsWidth]
    | cons o os =>
      have hlen := length_unwords (List.cons_ne_nil o os)
      rw [wordsWidth_eq] at hlen
      simp only [List.isEmpty_cons, Bool.false_eq_true, if_false, total_cons, total_nil,
        List.length_singleton]
      unfold wordsWidth
      simp only [List.map_cons, total_cons] at hlen ⊢
      omega
  · -- the classes take no more columns than the value they stand in
    have hsource := sourceWidth_of_body hb
    have hbody := wordsWidth_words_le body
    rw [foreseen_of_not_shorthand style (by rw [he]; rfl)]
    split
    · omega
    · next ho =>
      have hlen := length_unwords (List.isEmpty_eq_false_iff.1 (Bool.eq_false_iff.2 ho))
      omega

theorem width_le_foreseen (a : Attribute) :
    (idText (a.ids style)).length + (classText (a.classNames style)).length +
        (a.itemWith? style []).toList.length * (a.name.toList.length + a.stayingWidth style + 1) ≤
      a.foreseenWidth style := by
  rw [idText, classText, length_signed, length_signed]
  by_cases hs : (a.role style.classes).isShorthand = true
  · unfold ids classNames itemWith? item?
    cases hr : a.role style.classes with
    | keep | merge => rw [hr] at hs; cases hs
    | id n =>
      have h := foreseen_of_id style hr
      simpa [wordsWidth] using h
    | split simple others =>
      cases simple with
      | nil => rw [hr] at hs; cases hs
      | cons n ns =>
        have h := foreseen_of_split style hr
        have hstay : a.stayingWidth style = (unwords others).length + 3 := by rw [stayingWidth, hr]
        rw [hstay]
        cases others with
        | nil => simpa [wordsWidth] using h
        | cons o os =>
          simp [wordsWidth] at h ⊢
          omega
  · -- nothing leaves the list, and there is one item at most
    have hnone := (a.ids_classNames_ne_nil_iff style).not.2 hs
    rw [not_or, not_not, not_not] at hnone
    have hone : (a.itemWith? style []).toList.length ≤ 1 := by
      cases a.itemWith? style [] <;> simp
    rw [hnone.1, hnone.2, staying_of_not_shorthand style (Bool.eq_false_iff.2 hs)]
    have hle := Nat.mul_le_mul_right (a.foreseenWidth style) hone
    rw [Nat.one_mul] at hle
    simpa [wordsWidth] using hle

variable {ε : Type} (f : Formatter ε)

theorem length_content (it : Item) (c : Session ε) :
    ((bareContent [it]).resolve f c).1.length =
      it.name.toList.length + valueWidth f c it.value + bangs [it] := by
  obtain ⟨name, value, mustEscape⟩ := it
  cases value with
  | none => simp [bareContent, Item.content, Content.resolve, bangs, valueWidth]
  | some k =>
    cases mustEscape <;> simp [bareContent, Item.content, Content.resolve, bangs, valueWidth] <;> omega

theorem width_of_waiting_le (a : Attribute) (waiting : List Text) (c : Session ε)
    (hk : a.KeepsWidth style f c) :
    ((bareContent (a.itemWith? style waiting).toList).resolve f c).1.length +
        (a.itemWith? style waiting).toList.length + mergedWidth style (a.leaves style waiting) ≤
      (a.itemWith? style []).toList.length * (a.name.toList.length + a.stayingWidth style + 1) +
        bangs (a.itemWith? style waiting).toList + mergedWidth style waiting := by
  by_cases hm : ∃ classes, a.role style.classes = .merge classes
  · obtain ⟨classes, hr⟩ := hm
    have hitem : ∀ ws, a.itemWith? style ws = some (a.classItem style (ws ++ classes)) := fun ws => by
      simp only [itemWith?, hr, classItem]
    have hleaves : a.leaves style waiting = [] := by simp only [leaves, hr]
    have hvalue := length_classValue_append_le style waiting classes
    have hkept := hk _ (hitem [])
    rw [hitem, hitem, hleaves, Option.toList_some, Option.toList_some, length_content]
    simp only [classItem, valueWidth, Content.resolve, List.append_nil, List.nil_append,
      List.length_singleton, mergedWidth, List.isEmpty_nil, if_true] at hvalue hkept ⊢
    omega
  · obtain ⟨hleaves, hitem⟩ := leaves_of_not_merge (not_exists.1 hm) waiting
    rw [hleaves, hitem]
    cases hi : a.itemWith? style [] with
    | none => simp [bareContent, Content.resolve]
    | some it =>
      have hkept := hk it hi
      obtain ⟨hname, -⟩ := name_itemWith? style hi
      rw [Option.toList_some, length_content, hname, List.length_singleton]
      omega

end Attribute

/-! ## The attributes of a list -/

theorem total_foreseenWidth (style : Style) (as : List Attribute) :
    total (as.map (Attribute.foreseenWidth style)) =
      total (as.map fun a => (a.forecast style.classes).1) +
        total (as.flatMap fun a => (a.forecast style.classes).2) +
        (as.flatMap fun a => (a.forecast style.classes).2).length := by
  induction as with
  | nil => rfl
  | cons a as ih =>
    simp only [List.map_cons, List.flatMap_cons, total_cons, total_append, List.length_append, ih,
      Attribute.foreseenWidth]
    omega

theorem Forecast.foreseen_le_width (style : Style) (as : List Attribute) (extra : Option Text) :
    (extra.map fun v => 7 + v.length).getD 0 + total (as.map (Attribute.foreseenWidth style)) ≤
      (Forecast.of style.classes as extra).width := by
  rw [total_foreseenWidth]
  cases extra with
  | none =>
    simp only [width, Forecast.of, Option.map_none, Option.getD_none, Option.toList_none,
      List.nil_append]
    omega
  | some v =>
    simp only [width, Forecast.of, Option.map_some, Option.getD_some, Option.toList_some,
      List.singleton_append, total_cons, List.length_cons]
    omega

section
variable (style : Style) {ε : Type} (f : Formatter ε)

theorem resolve_bareContent_append (its its' : List Item) (c : Session ε) :
    (bareContent (its ++ its')).resolve f c =
      (((bareContent its).resolve f c).1 ++
          ((bareContent its').resolve f ((bareContent its).resolve f c).2).1,
        ((bareContent its').resolve f ((bareContent its).resolve f c).2).2) := by
  rw [bareContent, List.flatMap_append, Content.resolve_append]
  rfl

def AllKeepWidth (as : List Attribute) (waiting : List Text) (c : Session ε) : Prop :=
  ∀ front a back, as = front ++ a :: back →
    a.KeepsWidth style f ((bareContent (itemsWith style waiting front)).resolve f c).2

theorem width_attributes_le {as : List Attribute} {waiting : List Text} {c : Session ε}
    (hk : AllKeepWidth style f as waiting c) :
    (idText (as.flatMap (Attribute.ids style))).length +
        (classText (as.flatMap (Attribute.classNames style))).length +
        ((bareContent (itemsWith style waiting as)).resolve f c).1.length +
        (itemsWith style waiting as).length ≤
      total (as.map (Attribute.foreseenWidth style)) + bangs (itemsWith style waiting as) +
        mergedWidth style waiting := by
  induction as generalizing waiting c with
  | nil => simp [itemsWith, bareContent, Content.resolve, idText, classText]
  | cons a as ih =>
    have hfirst : a.KeepsWidth style f c := hk [] a as rfl
    have hbehind : AllKeepWidth style f as (a.leaves style waiting)
        ((bareContent (a.itemWith? style waiting).toList).resolve f c).2 := by
      rintro front u back rfl
      have h := hk (a :: front) u back rfl
      rwa [itemsWith, resolve_bareContent_append] at h
    have hmore := ih hbehind
    have hforeseen := a.width_le_foreseen style
    have hwritten := a.width_of_waiting_le style f waiting c hfirst
    rw [itemsWith, resolve_bareContent_append, bangs_append]
    simp only [List.flatMap_cons, idText_append, classText_append, List.length_append, List.map_cons,
      total_cons]
    omega

/-! ## The text of the list -/

def commaWidth (items : List Item) : Nat :=
  total (items.map fun it => (commaBefore style it.name).length)

def unforeseenWidth (waiting : List Text) (as : List Attribute) : Nat :=
  let items := listItems style waiting as
  commaWidth style items.tail + bangs items + mergedWidth style (waitingInside style waiting as)

theorem length_gaps (l : Layout) (n : Nat) (items : List Item) (c : Session ε) :
    (Content.resolve f (items.flatMap fun it =>
        .plain (commaBefore style it.name ++ lineGap l false n [' ']) :: it.content) c).1.length =
      ((bareContent items).resolve f c).1.length + items.length + commaWidth style items := by
  induction items generalizing c with
  | nil => rfl
  | cons it its ih =>
    have ih := ih (it.content.resolve f c).2
    simp only [lineGap, Bool.false_eq_true, if_false, bareContent, commaWidth, List.flatMap_cons,
      List.cons_append, Content.resolve_plain, Content.resolve_append, List.map_cons, total_cons,
      List.length_append, List.length_cons, List.length_nil] at ih ⊢
    omega

theorem length_writtenList (l : Layout) (depth : Nat) (items : List Item) (c : Session ε) :
    ((writtenList style l false depth items).resolve f c).1.length ≤
      1 + ((bareContent items).resolve f c).1.length + items.length + commaWidth style items.tail := by
  cases items with
  | nil => exact Nat.zero_le _
  | cons it its =>
    have hlen := length_gaps style f l (depth + 1) its (it.content.resolve f c).2
    simp only [writtenList, lineGap, Bool.false_eq_true, if_false, bareContent, List.flatMap_cons,
      Content.resolve_plain, Content.resolve_append, Content.resolve, List.length_append,
      List.length_cons, List.length_nil, List.tail_cons] at hlen ⊢
    omega

/-- What a list and its attributes write, against what is forecast of them. -/
theorem width_list_le (l : Layout) (depth : Nat) {as : List Attribute} {waiting : List Text}
    {c : Session ε} (hk : AllKeepWidth style f as (waitingInside style waiting as) c) :
    (idText (as.flatMap (Attribute.ids style))).length +
        (classText (as.flatMap (Attribute.classNames style))).length +
        ((writtenList style l false depth (listItems style waiting as)).resolve f c).1.length ≤
      1 + (Forecast.of style.classes as (extraClass? style waiting as)).width +
        unforeseenWidth style waiting as := by
  have hlist := length_writtenList style f l depth (listItems style waiting as) c
  have hattrs := width_attributes_le style f hk
  have hforecast := Forecast.foreseen_le_width style as (extraClass? style waiting as)
  have hitems : ((bareContent (listItems style waiting as)).resolve f c).1.length +
        (listItems style waiting as).length =
      ((extraClass? style waiting as).map fun v => 7 + v.length).getD 0 +
        (((bareContent (itemsWith style (waitingInside style waiting as) as)).resolve f c).1.length +
          (itemsWith style (waitingInside style waiting as) as).length) := by
    unfold listItems
    cases extraClass? style waiting as with
    | none => simp
    | some v =>
      simp [bareContent, Item.content, classItem, Content.resolve]
      omega
  have hbangs : bangs (listItems style waiting as) =
      bangs (itemsWith style (waitingInside style waiting as) as) := by
    unfold listItems
    rw [bangs_append]
    cases extraClass? style waiting as with
    | none => exact Nat.zero_add _
    | some v => exact Nat.zero_add _
  unfold unforeseenWidth
  dsimp only
  omega

end

end PugPretty
