import PugPretty.Proofs.RenderedLists
import PugPretty.Proofs.WaitingClasses

/-!
# The lists of filters

A filter takes options in an attribute list, and its name is not marked as a place for shorthand. So
an option that becomes a class stands behind the name of the filter, and one that becomes an id stands
behind the element that was marked last, however far in front it is (`format_filterList`). If no
option becomes shorthand, what is in front of the filter stays as it is and every option has its item
in the list (`text_filterList`).
-/

namespace PugPretty

open Text

/-! ## Options that stay -/

def Attribute.leavesList (style : Style) (a : Attribute) : Bool :=
  (a.role style.classes).isShorthand

theorem Attribute.not_leavesList_of_asIs {style : Style} (hc : style.classes = .asIs)
    (a : Attribute) : a.leavesList style = false := by
  unfold leavesList role Role.of
  rw [hc]
  split
  · simp [Role.isShorthand]
  · rfl

section
variable {style : Style} {a : Attribute}

theorem Attribute.item_of_stays (h : a.leavesList style = false) :
    a.ids style = [] ∧ a.classNames style = [] ∧
      ∃ it, a.itemWith? style [] = some it ∧ it.name = a.name := by
  unfold leavesList at h
  unfold ids classNames itemWith? item?
  cases hr : a.role style.classes with
  | keep => exact ⟨rfl, rfl, _, rfl, rfl⟩
  | id name => rw [hr] at h; cases h
  | merge classes => exact ⟨rfl, rfl, _, rfl, rfl⟩
  | split simple others =>
    rw [hr] at h
    obtain rfl : simple = [] := by simpa [Role.isShorthand] using h
    have hne : others.isEmpty = false :=
      List.isEmpty_eq_false_iff.2 (Attribute.others_ne_nil hr)
    refine ⟨rfl, rfl, a.classItem style others, ?_, rfl⟩
    simp [hne, classItem]

theorem itemsWith_of_stay {as : List Attribute} (h : ∀ a ∈ as, a.leavesList style = false) :
    as.flatMap (Attribute.ids style) = [] ∧ as.flatMap (Attribute.classNames style) = [] ∧
      (itemsWith style [] as).map (·.name) = as.map (·.name) := by
  rw [itemsWith_nil]
  induction as with
  | nil => exact ⟨rfl, rfl, rfl⟩
  | cons a as ih =>
    obtain ⟨ha, has⟩ := List.forall_mem_cons.1 h
    obtain ⟨hids, hclasses, it, hit, hname⟩ := Attribute.item_of_stays ha
    obtain ⟨ihIds, ihClasses, ihNames⟩ := ih has
    refine ⟨?_, ?_, ?_⟩
    · rw [List.flatMap_cons, hids, ihIds]; rfl
    · rw [List.flatMap_cons, hclasses, ihClasses]; rfl
    · rw [List.filterMap_cons_some hit, List.map_cons, List.map_cons, hname, ihNames]

end

/-! ## The list behind a filter -/

section
variable {ε : Type} (style : Style) (page : Page) (f : Formatter ε)

def filterText (page : Page) (pre : List Token) (name : String) : Text :=
  leadText page (pre.getLast?.map (·.kind)) (nesting pre) ++ ':' :: name.toList

theorem sheetAfter_filter (pre rest : List Token) {filter : Token} {name : String}
    (hk : filter.kind = .filter name) :
    sheetAfter style page f (pre ++ [filter]) rest =
      (sheetAfter style page f pre (filter :: rest)).edit (·.write (filterText page pre name)) := by
  have hd := depth_outlineAfter style pre (filter :: rest)
  rw [sheetAfter_snoc]
  unfold tokenEdits
  simp only [hk, Sheet.applyAll_append, applyAll_indentation, Sheet.applyAll_cons,
    Sheet.applyAll_nil, Sheet.apply_say, Sheet.edit, write_write, hd, filterText]
  simp [Site.prev?, String.toList_append]

theorem pending_filter (pre rest : List Token) {filter : Token} {name : String}
    (hk : filter.kind = .filter name) :
    (outlineAfter style (pre ++ [filter]) rest).pending = [] :=
  pending_outlineAfter_of_last style (by simp [hk, Kind.holdsClasses]) rest

end

/-- **What a filter and its list write.** -/
theorem text_filterList {ε : Type} (style : Style) {l : Layout} {page : Page}
    (hl : page.Follows l) (f : Formatter ε) (ord : AttributeOrder) {ts : List Token}
    (h : enclosed false ts = true) {pre as post : List Token} {filter start stop : Token}
    {name : String}
    (hv : ord.arrange ts = pre ++ (filter :: start :: (as ++ [stop]) ++ post))
    (hk : filter.kind = .filter name) (hs : start.kind = .startAttributes)
    (has : ∀ t ∈ as, t.attribute?.isSome = true) (he : stop.kind = .endAttributes) :
    let before := sheetAfter style page f pre (filter :: start :: (as ++ [stop]) ++ post)
    let after := sheetAfter style page f (pre ++ filter :: start :: (as ++ [stop])) post
    let broken := (sheetAfter style page f (pre ++ [filter, start]) (as ++ [stop] ++ post)).broken
    let attrs := as.filterMap Token.attribute?
    let ids := attrs.flatMap (Attribute.ids style)
    let classes := attrs.flatMap (Attribute.classNames style)
    let items := itemsWith style [] attrs
    let list := writtenList style l broken (nesting pre) items
    Placed style [] attrs ids classes items ∧
      ((∀ t ∈ pre, t.kind ≠ .eos) → ∃ x y z, before.draft.Parts x y z) ∧
      (∀ x y z, before.draft.Parts x y z →
        after.draft.text = x ++ idText ids ++ (y ++ z ++ filterText page pre name ++ classText classes) ++
            ((list.resolve f before.session).1 ++ spaceText stop post) ∧
          after.session = (list.resolve f before.session).2) ∧
      ((∀ a ∈ attrs, a.leavesList style = false) →
        items.map (·.name) = attrs.map (·.name) ∧
          ((∀ t ∈ pre, t.kind ≠ .eos) → after.draft.text = before.draft.text ++
            filterText page pre name ++ ((list.resolve f before.session).1 ++ spaceText stop post))) ∧
      (style.classes = .asIs → ∀ a ∈ attrs, a.leavesList style = false) := by
  intro before after broken attrs ids classes items list
  have harr : enclosed false (ord.arrange ts) = true :=
    ((rearranged_arrange ord ts).enclosed_eq false).trans h
  have hpre : enclosed false pre = true := by
    rw [hv] at harr
    exact enclosed_before (by rw [hk]; rfl) (start :: (as ++ [stop]) ++ post) false pre harr
  have hfilter : enclosed false (pre ++ [filter]) = true := by
    rw [enclosed_append hpre]
    simp [enclosed, hk]
  have hparts : (∀ t ∈ pre, t.kind ≠ .eos) → ∃ x y z, before.draft.Parts x y z := fun hne => by
    obtain ⟨x, y, z, hp, -⟩ := (draws_sheetAfter style f (filter :: start :: (as ++ [stop]) ++ post)
      (isBlank_indentChar hl) hpre hne).1.parts
    exact ⟨x, y, z, hp⟩
  have hnest : nesting (pre ++ [filter]) = nesting pre := by rw [nesting_snoc, hk]; rfl
  have hlist : ∀ x y z, before.draft.Parts x y z →
      after.draft.text = x ++ idText ids ++ (y ++ z ++ filterText page pre name ++ classText classes) ++
          ((list.resolve f before.session).1 ++ spaceText stop post) ∧
        after.session = (list.resolve f before.session).2 := by
    intro x y z hp
    have hwritten := sheetAfter_filter style page f pre (start :: (as ++ [stop]) ++ post) hk
    have hbehind : (sheetAfter style page f (pre ++ [filter])
        (start :: (as ++ [stop]) ++ post)).draft.Parts x y (z ++ filterText page pre name) := by
      rw [hwritten]
      exact hp.write _
    have htext := text_listTokens style hl f hs has he hfilter hbehind
    rw [pending_filter style pre _ hk, hnest, hwritten] at htext
    rw [List.append_assoc pre, List.append_assoc pre, ← List.append_assoc y z] at htext
    exact htext
  refine ⟨placed_itemsWith style attrs [], hparts, hlist, fun hstay => ?_, fun hc a _ =>
    a.not_leavesList_of_asIs hc⟩
  obtain ⟨hids, hclasses, hnames⟩ := itemsWith_of_stay hstay
  refine ⟨hnames, fun hne => ?_⟩
  obtain ⟨x, y, z, hp⟩ := hparts hne
  rw [(hlist x y z hp).1, hp.text]
  simp [ids, classes, hids, hclasses, idText, classText]

def filterList : List Token :=
  [⟨.tag "p", {}⟩, ⟨.newline, {}⟩, ⟨.filter "markdown-it", {}⟩, ⟨.startAttributes, {}⟩,
    ⟨.attr ⟨"id", .source "\"x\"", true⟩, {}⟩, ⟨.attr ⟨"class", .source "\"y\"", true⟩, {}⟩,
    ⟨.endAttributes, {}⟩, ⟨.eos, {}⟩]

theorem text_filterList_samples :
    let page : Page := ⟨' ', 2, 2, 80, -1, fun _ => false⟩
    let f : Formatter Empty := fun _ r => .ok r.code
    let asIs : Style := { classes := .asIs }
    enclosed false filterList = true ∧
      (sheetAfter {} page f (filterList.take 7) (filterList.drop 7)).draft.text =
        "p#x\n:markdown-it.y".toList ∧
      (sheetAfter asIs page f (filterList.take 7) (filterList.drop 7)).draft.text =
        (sheetAfter asIs page f (filterList.take 2) (filterList.drop 2)).draft.text ++
          ":markdown-it(id=\"x\" class=\"y\")".toList := by
  intro page f asIs
  have h : enclosed false filterList = true := by decide
  have hl : page.Follows {} := ⟨_, rfl⟩
  have hv : ({} : AttributeOrder).arrange filterList = filterList.take 2 ++
      (⟨.filter "markdown-it", {}⟩ :: ⟨.startAttributes, {}⟩ ::
        ((filterList.drop 4).take 2 ++ [⟨.endAttributes, {}⟩]) ++ filterList.drop 7) := rfl
  obtain ⟨-, -, hlist, -⟩ := text_filterList {} hl f {} h hv rfl rfl (by decide) rfl
  obtain ⟨-, -, -, hstays, hasIs⟩ := text_filterList asIs hl f {} h hv rfl rfl (by decide) rfl
  obtain ⟨ht, -⟩ := hlist ['p'] [] ['\n'] ⟨by decide, by decide, by decide⟩
  exact ⟨h, ht.trans (by decide), ((hstays (hasIs rfl)).2 (by decide)).trans (by decide)⟩

theorem format_filterList : WellFormed filterList ∧
    (format wordReader {} (fun _ r => .ok r.code : Formatter Empty) filterList).result =
      .ok "p#x\n:markdown-it.y\n" :=
  ⟨by decide, rfl⟩

end PugPretty
