import PugPretty.Proofs.BrokenLists

/-!
# Rendered lists

What is read of a list is put together here. Every attribute has become an id, classes, or an item
(`Placed`), the items stand in a row between parentheses, and without items there are no parentheses
(`writtenList`). `text_attributeList` says that the tokens of a list write this and nothing else,
whatever is in front of them.
-/

namespace PugPretty

open Text

/-! ## What has become of the attributes -/

def Attribute.classItem (style : Style) (a : Attribute) (classes : List Text) : Item :=
  ⟨a.name, some [.plain (classValue style classes)], a.mustEscape⟩

/-- While classes wait, the attributes become the ids, the classes and the items. -/
inductive Placed (style : Style) :
    List Text → List Attribute → List Text → List Text → List Item → Prop
  | nil (waiting : List Text) : Placed style waiting [] [] [] []
  | id {waiting as ids classes items} {a : Attribute} {body : Text} :
    a.name = "id" → style.classes ≠ .asIs → a.value.body? = some body →
    isSimpleName (trim body) = true → Placed style waiting as ids classes items →
    Placed style waiting (a :: as) (trim body :: ids) classes items
  | hoist {waiting as ids classes items} {a : Attribute} {body : Text} :
    a.name = "class" → style.classes = .shorthand → a.value.body? = some body →
    isBlankText body = false → (∀ w ∈ words body, isSimpleName w = true) →
    Placed style waiting as ids classes items →
    Placed style waiting (a :: as) ids (words body ++ classes) items
  | split {waiting as ids classes items} {a : Attribute} {body : Text} :
    a.name = "class" → style.classes = .shorthand → a.value.body? = some body →
    (∃ w ∈ words body, isSimpleName w = false) → Placed style waiting as ids classes items →
    Placed style waiting (a :: as) ids ((words body).filter isSimpleName ++ classes)
      (a.classItem style ((words body).filter (!isSimpleName ·)) :: items)
  | merge {waiting as ids classes items} {a : Attribute} {body : Text} :
    a.name = "class" → style.classes = .inList → a.value.body? = some body →
    Placed style [] as ids classes items →
    Placed style waiting (a :: as) ids classes
      (a.classItem style (waiting ++ words body) :: items)
  | keep {waiting as ids classes items} {a : Attribute} :
    a.role style.classes = .keep → Placed style waiting as ids classes items →
    Placed style waiting (a :: as) ids classes
      (⟨a.name, a.content style.quotes, a.mustEscape⟩ :: items)

theorem body?_of_role {style : ClassStyle} {a : Attribute} (h : a.role style ≠ .keep) :
    ∃ body, a.value.body? = some body ∧ a.role style = .of style a.name body := by
  unfold Attribute.role at h ⊢
  cases hb : a.value.body? with
  | none => rw [hb] at h; exact absurd rfl h
  | some body => exact ⟨body, rfl, rfl⟩

theorem Role.of_eq_id {style : ClassStyle} {name : String} {body n : Text}
    (h : Role.of style name body = .id n) :
    name = "id" ∧ style ≠ .asIs ∧ isSimpleName (trim body) = true ∧ n = trim body := by
  unfold Role.of at h
  split at h
  · split at h
    · cases h
    · split at h <;> cases h
    · cases h
  · split at h
    · next hid => cases h; exact ⟨hid.1, hid.2.1, hid.2.2, rfl⟩
    · cases h

theorem Role.of_eq_split {style : ClassStyle} {name : String} {body : Text} {simple others : List Text}
    (h : Role.of style name body = .split simple others) :
    name = "class" ∧ style = .shorthand ∧ isBlankText body = false ∧
      simple = (words body).filter isSimpleName ∧ others = (words body).filter (!isSimpleName ·) := by
  unfold Role.of at h
  split at h
  · next hn =>
    split at h
    · cases h
    · split at h
      · cases h
      · next hblank => cases h; exact ⟨hn, rfl, Bool.eq_false_iff.2 hblank, rfl, rfl⟩
    · cases h
  · split at h <;> cases h

theorem Role.of_eq_merge {style : ClassStyle} {name : String} {body : Text} {classes : List Text}
    (h : Role.of style name body = .merge classes) :
    name = "class" ∧ style = .inList ∧ classes = words body := by
  unfold Role.of at h
  split at h
  · next hn =>
    split at h
    · cases h
    · split at h <;> cases h
    · cases h; exact ⟨hn, rfl, rfl⟩
  · split at h <;> cases h

theorem words_ne_nil {t : Text} (h : isBlankText t = false) : words t ≠ [] := by
  unfold words
  induction t with
  | nil => cases h
  | cons c t ih =>
    rw [List.splitOnP_cons_eq_if_modifyHead]
    by_cases hc : isBlank c = true
    · have ht : isBlankText t = false := by simpa [isBlankText, hc] using h
      simpa [hc] using ih ht
    · obtain ⟨w, ws, hw⟩ := List.exists_cons_of_ne_nil (List.splitOnP_ne_nil isBlank t)
      simp [hc, hw]

theorem Attribute.others_ne_nil {style : ClassStyle} {a : Attribute} {others : List Text}
    (h : a.role style = .split [] others) : others ≠ [] := by
  obtain ⟨body, -, hof⟩ := body?_of_role (h ▸ nofun : a.role style ≠ .keep)
  obtain ⟨-, -, hblank, hsimple, hothers⟩ := Role.of_eq_split (hof.symm.trans h)
  have hall : others = words body := by
    rw [hothers, List.filter_eq_self]
    simpa using hsimple.symm
  rw [hall]
  exact words_ne_nil hblank

theorem placed_cons (style : Style) (waiting : List Text) (a : Attribute) {as : List Attribute}
    {ids classes : List Text} {items : List Item}
    (h : Placed style (a.leaves style waiting) as ids classes items) :
    Placed style waiting (a :: as) (a.ids style ++ ids) (a.classNames style ++ classes)
      ((a.itemWith? style waiting).toList ++ items) := by
  unfold Attribute.ids Attribute.classNames Attribute.itemWith? Attribute.item?
  unfold Attribute.leaves at h
  by_cases hk : a.role style.classes = .keep
  · simp only [hk] at h ⊢
    exact .keep hk h
  obtain ⟨body, hb, hr⟩ := body?_of_role hk
  rw [hr] at h ⊢
  cases hof : Role.of style.classes a.name body with
  | keep => exact absurd (hr.trans hof) hk
  | id name =>
    obtain ⟨hn, hs, hsimple, rfl⟩ := Role.of_eq_id hof
    rw [hof] at h
    exact .id hn hs hb hsimple h
  | merge names =>
    obtain ⟨hn, hs, rfl⟩ := Role.of_eq_merge hof
    rw [hof] at h
    exact .merge hn hs hb h
  | split simple others =>
    obtain ⟨hn, hs, hblank, rfl, rfl⟩ := Role.of_eq_split hof
    rw [hof] at h
    by_cases hall : ∀ w ∈ words body, isSimpleName w = true
    · have hothers : (words body).filter (!isSimpleName ·) = [] := by simpa using hall
      simp only [List.filter_eq_self.2 hall, hothers, List.isEmpty_nil, if_true]
      exact .hoist hn hs hb hblank hall h
    · have hsome : ∃ w ∈ words body, isSimpleName w = false := by simpa using hall
      have hothers : ((words body).filter (!isSimpleName ·)).isEmpty = false := by
        obtain ⟨w, hw, hf⟩ := hsome
        rw [List.isEmpty_eq_false_iff]
        exact List.ne_nil_of_mem (List.mem_filter.2 ⟨hw, by simp [hf]⟩)
      simp only [hothers, Bool.false_eq_true, if_false]
      exact .split hn hs hb hsome h

theorem placed_itemsWith (style : Style) (as : List Attribute) : ∀ waiting : List Text,
    Placed style waiting as (as.flatMap (Attribute.ids style))
      (as.flatMap (Attribute.classNames style)) (itemsWith style waiting as) := by
  induction as with
  | nil => exact .nil
  | cons a as ih => exact fun waiting => placed_cons style waiting a (ih _)

/-! ## What is written of the items -/

def commaBefore (style : Style) (name : String) : Text :=
  if style.separator = .always ∨ style.separator = .asNeeded ∧ isAmbiguousName name.toList = true
  then [','] else []

def lineGap (l : Layout) (broken : Bool) (levels : Nat) (flat : Text) : Text :=
  if broken then '\n' :: l.units levels else flat

def writtenList (style : Style) (l : Layout) (broken : Bool) (depth : Nat) : List Item → Content
  | [] => []
  | it :: its =>
    .plain ['('] :: .plain (lineGap l broken (depth + 1) []) :: (it.content ++
      (its.flatMap (fun it => .plain (commaBefore style it.name ++
          lineGap l broken (depth + 1) [' ']) :: it.content) ++
        [.plain (lineGap l broken depth [] ++ [')'])]))

theorem breakText_eq {l : Layout} {page : Page} (hl : page.Follows l) (broken : Bool) (n : Nat)
    (flat : Text) : breakText page broken n flat = lineGap l broken n flat := by
  unfold breakText lineGap
  rw [indentation_eq_units hl]

theorem commaBefore_eq (style : Style) (name : String) :
    commaBefore style name = if needsComma style name = true then [','] else [] := by
  unfold commaBefore needsComma
  cases style.separator <;> simp

theorem listContent_eq (style : Style) {l : Layout} {page : Page} (hl : page.Follows l)
    (broken : Bool) (depth : Nat) (items : List Item) :
    listContent style page broken depth items = writtenList style l broken depth items := by
  have hrest : ∀ its : List Item, itemsContent style page broken depth false its =
      its.flatMap fun it => .plain (commaBefore style it.name ++ lineGap l broken (depth + 1) [' ']) ::
        it.content := by
    intro its
    induction its with
    | nil => rfl
    | cons it its ih =>
      simp only [itemsContent, gapText, ih, commaBefore_eq, breakText_eq hl, List.flatMap_cons,
        Bool.false_eq_true, if_false, List.cons_append]
  cases items with
  | nil => rfl
  | cons it its =>
    simp only [listContent, itemsContent, gapText, hrest, writtenList, breakText_eq hl,
      List.isEmpty_cons, Bool.false_eq_true, if_false, if_true, List.cons_append, List.append_assoc]

/-! ## The list in its stream -/

section
variable {ε : Type} (style : Style) {l : Layout} {page : Page} (hl : page.Follows l)
  (f : Formatter ε) {pre as post : List Token} {start stop : Token}
  (hs : start.kind = .startAttributes) (has : ∀ t ∈ as, t.attribute?.isSome = true)
  (he : stop.kind = .endAttributes)
include hl hs has he

/-- Where no list is open, the tokens of a list write their ids, their classes, the list, and the
space behind it. -/
theorem text_listTokens (hpre : enclosed false pre = true) {x y z : Text}
    (hp : (sheetAfter style page f pre (start :: (as ++ [stop]) ++ post)).draft.Parts x y z) :
    let before := sheetAfter style page f pre (start :: (as ++ [stop]) ++ post)
    let after := sheetAfter style page f (pre ++ start :: (as ++ [stop])) post
    let waiting := (outlineAfter style pre (start :: (as ++ [stop]) ++ post)).pending
    let broken := (sheetAfter style page f (pre ++ [start]) (as ++ [stop] ++ post)).broken
    let attrs := as.filterMap Token.attribute?
    let list := writtenList style l broken (nesting pre) (listItems style waiting attrs)
    after.draft.text = x ++ idText (attrs.flatMap (Attribute.ids style)) ++
        (y ++ z ++ classText (attrs.flatMap (Attribute.classNames style))) ++
        ((list.resolve f before.session).1 ++ spaceText stop post) ∧
      after.session = (list.resolve f before.session).2 := by
  intro before after waiting broken attrs list
  let o := outlineAfter style pre (start :: (as ++ [stop]) ++ post)
  have hopen : o.listOpen = false := listOpen_outlineAfter style _ hpre
  have hw : style.classes ≠ .inList → o.pending = [] := fun hc => pending_outlineAfter style hc pre _
  have hd : o.depth = nesting pre := depth_outlineAfter style pre _
  have hmap : as.map Token.attribute? = attrs.map some := map_attribute? has
  have hbefore : before.Reads x y z before.broken before.session := ⟨hp, rfl, rfl⟩
  have hrun : attributeRun (as ++ [stop] ++ post) = attrs := by
    rw [List.append_assoc]
    exact attributeRun_append (attribute?_of_end he) post as attrs hmap
  have hbroken : broken = (Sheet.applyAll page f (openList style attrs o).1 before).broken := by
    simp only [broken]
    rw [sheetAfter_snoc, tokenEdits_start style hs, hrun]
    rfl
  have hafter : after = Sheet.applyAll page f
      (siteEdits style (sitesUpTo pre.getLast? (start :: (as ++ [stop])) post) o).1 before :=
    sheetAfter_append style page f pre _ post
  simp only [list]
  rw [← listContent_eq style hl, hafter, hbroken]
  by_cases hn : attrs = []
  · obtain ⟨h1, -⟩ := reads_emptyList style page f hs he hmap pre.getLast? post hopen hn hbefore
    rw [hn, broken_openList_nil, resolve_listItems_empty]
    refine ⟨?_, h1.session⟩
    rw [h1.text]
    simp [idText, classText, waiting, o]
  · obtain ⟨h1, -⟩ := reads_list style page f hs he hmap pre.getLast? post hopen hw hn hbefore
    obtain ⟨a, more, hcons⟩ := List.exists_cons_of_ne_nil hn
    obtain ⟨h2, -⟩ := reads_openList style page f hbefore hw a more
    rw [hcons] at h1 ⊢
    rw [h2.broken, ← hd]
    exact ⟨h1.text, h1.session⟩

end

/-- **What an attribute list writes.** -/
theorem text_attributeList {ε : Type} (style : Style) {l : Layout} {page : Page}
    (hl : page.Follows l) (f : Formatter ε) (ord : AttributeOrder) {ts : List Token}
    (h : enclosed false ts = true) {pre as post : List Token} {start stop : Token}
    (hv : ord.arrange ts = pre ++ (start :: (as ++ [stop]) ++ post))
    (hs : start.kind = .startAttributes) (has : ∀ t ∈ as, t.attribute?.isSome = true)
    (he : stop.kind = .endAttributes) :
    let before := sheetAfter style page f pre (start :: (as ++ [stop]) ++ post)
    let after := sheetAfter style page f (pre ++ start :: (as ++ [stop])) post
    let waiting := (outlineAfter style pre (start :: (as ++ [stop]) ++ post)).pending
    let broken := (sheetAfter style page f (pre ++ [start]) (as ++ [stop] ++ post)).broken
    let attrs := as.filterMap Token.attribute?
    let ids := attrs.flatMap (Attribute.ids style)
    let classes := attrs.flatMap (Attribute.classNames style)
    let made := (extraClass? style waiting attrs).toList.map classItem
    let own := itemsWith style (waitingInside style waiting attrs) attrs
    let list := writtenList style l broken (nesting pre) (made ++ own)
    Placed style (waitingInside style waiting attrs) attrs ids classes own ∧
      ((∀ t ∈ pre, t.kind ≠ .eos) → ∃ x y z, before.draft.Parts x y z) ∧
      ∀ x y z, before.draft.Parts x y z →
        after.draft.text = x ++ idText ids ++ (y ++ z ++ classText classes) ++
            ((list.resolve f before.session).1 ++ spaceText stop post) ∧
          after.session = (list.resolve f before.session).2 := by
  intro before after waiting broken attrs ids classes made own list
  have hpre : enclosed false pre = true := by
    have harr : enclosed false (ord.arrange ts) = true :=
      ((rearranged_arrange ord ts).enclosed_eq false).trans h
    rw [hv] at harr
    exact enclosed_before (by rw [hs]; rfl) (as ++ [stop] ++ post) false pre harr
  refine ⟨placed_itemsWith style attrs _, fun hne => ?_, fun x y z hp => ?_⟩
  · obtain ⟨x, y, z, hp, -⟩ := (draws_sheetAfter style f (start :: (as ++ [stop]) ++ post)
      (isBlank_indentChar hl) hpre hne).1.parts
    exact ⟨x, y, z, hp⟩
  · exact text_listTokens style hl f hs has he hpre hp

def mixedList : List Token :=
  [⟨.tag "p", {}⟩, ⟨.startAttributes, {}⟩, ⟨.attr ⟨"id", .source "'k'", true⟩, {}⟩,
    ⟨.attr ⟨"class", .source "'a md:b'", true⟩, {}⟩, ⟨.attr ⟨"(on)", .source "x", true⟩, {}⟩,
    ⟨.attr ⟨"raw", .flag true, true⟩, {}⟩, ⟨.endAttributes, {}⟩, ⟨.text "t", {}⟩, ⟨.eos, {}⟩]

theorem text_mixedList :
    let page : Page := ⟨' ', 2, 2, 80, 2, fun _ => false⟩
    let f : Formatter Empty := fun _ r => .ok r.code
    enclosed false mixedList = true ∧
      (sheetAfter {} page f (mixedList.take 7) (mixedList.drop 7)).draft.text =
        "p#k.a(\n  class=\"md:b\",\n  (on)=x\n  raw\n) ".toList := by
  intro page f
  have h : enclosed false mixedList = true := by decide
  have hl : page.Follows { wrapThreshold := 2 } := ⟨_, rfl⟩
  have hv : ({} : AttributeOrder).arrange mixedList = mixedList.take 1 ++
      (⟨.startAttributes, {}⟩ :: ((mixedList.drop 2).take 4 ++ [⟨.endAttributes, {}⟩]) ++
        mixedList.drop 7) := rfl
  obtain ⟨-, -, htext⟩ := text_attributeList {} hl f {} h hv rfl (by decide) rfl
  obtain ⟨ht, -⟩ := htext ['p'] [] [] ⟨by decide, by decide, by decide⟩
  exact ⟨h, ht.trans (by decide)⟩

end PugPretty
