import PugPretty.Proofs.RenderedLists

/-!
# The forecast of a list

Before a list is written it is forecast what will stand in it. If no value has blanks around it, an
attribute has an entry in the forecast exactly if it has an item in the list
(`Attribute.length_forecast`), so a list that fits is broken for the number of items that are written
(`broken_iff_items`).
-/

namespace PugPretty

open Text

/-! ## Counting items -/

def AttrValue.isTight : AttrValue → Bool
  | .flag _ => true
  | .source code => trim code.toList == code.toList

theorem Attribute.expectedRole_eq {a : Attribute} (h : a.value.isTight = true) (style : ClassStyle) :
    a.expectedRole style = a.role style := by
  have hbody : a.value.tightBody? = a.value.body? := by
    cases hv : a.value with
    | flag b => rfl
    | source code =>
      rw [hv] at h
      exact congrArg unquote? (beq_iff_eq.1 h).symm
  rw [expectedRole, role, hbody]

/-- The forecast has an entry for an attribute exactly if an item is written for it. -/
theorem Attribute.length_forecast (style : Style) {a : Attribute} (h : a.value.isTight = true)
    (waiting : List Text) :
    (a.forecast style.classes).2.length = (a.itemWith? style waiting).toList.length := by
  unfold forecast itemWith? item?
  rw [expectedRole_eq h]
  cases hr : a.role style.classes with
  | id name => rfl
  | merge classes => rfl
  | keep => rfl
  | split simple others =>
    cases simple with
    | nil =>
      have hne : others.isEmpty = false := List.isEmpty_eq_false_iff.2 (others_ne_nil hr)
      simp [hne]
    | cons c cs => cases others <;> rfl

theorem length_itemsWith (style : Style) {as : List Attribute}
    (h : ∀ a ∈ as, a.value.isTight = true) (waiting : List Text) :
    (itemsWith style waiting as).length =
      (as.flatMap fun a => (a.forecast style.classes).2).length := by
  induction as generalizing waiting with
  | nil => rfl
  | cons a as ih =>
    rw [List.forall_mem_cons] at h
    rw [itemsWith, List.flatMap_cons, List.length_append, List.length_append,
      Attribute.length_forecast style h.1 waiting, ih h.2]

theorem length_kept (style : Style) {as : List Attribute} (h : ∀ a ∈ as, a.value.isTight = true)
    (waiting : List Text) :
    (Forecast.of style.classes as (extraClass? style waiting as)).kept.length =
      (listItems style waiting as).length := by
  simp only [Forecast.of, listItems, List.length_append, length_itemsWith style h]
  cases extraClass? style waiting as <;> rfl

/-! ## The list in its stream -/

section
variable {ε : Type} (style : Style) (page : Page) (f : Formatter ε)

theorem broken_openList {o : Outline} (hw : style.classes ≠ .inList → o.pending = []) (a : Attribute)
    (as : List Attribute) (s : Sheet ε) :
    (Sheet.applyAll page f (openList style (a :: as) o).1 s).broken =
      page.breaks (columnOf page.tab (s.draft.text ++ ['(']))
        (.of style.classes (a :: as) (extraClass? style o.pending (a :: as))) := by
  have hstart : ∀ fc, (Sheet.applyAll page f [.markClass, .say "(", .beginGroup fc] s).broken =
      page.breaks (columnOf page.tab (s.draft.text ++ ['('])) fc := by
    intro fc
    have hcolumn : columnOf page.tab (s.draft.text ++ ['(']) =
        (s.draft.markClass.write ['(']).column page.tab := by
      rw [← columnOf_text, Draft.text_write]
      rfl
    rw [hcolumn]
    rfl
  have he := openList_eq style hw a as
  dsimp only at he
  rw [he]
  cases extraClass? style o.pending (a :: as) with
  | none => exact hstart _
  | some v =>
    -- the item that is made up leaves the group as it is
    dsimp only
    rw [Sheet.applyAll_append]
    have hitem := applyAll_writeItem style page f
      { o with written := 0, listOpen := true, pending := [] } (classItem v)
    exact (congrArg Sheet.broken (hitem _)).trans (hstart _)

variable {pre as post : List Token} {start stop : Token} (hs : start.kind = .startAttributes)
  (has : ∀ t ∈ as, t.attribute?.isSome = true) (he : stop.kind = .endAttributes)
include hs has he

theorem tokenEdits_listStart (before : Option Token) (o : Outline) :
    tokenEdits style ⟨before, start, as ++ [stop] ++ post⟩ o =
      openList style (as.filterMap Token.attribute?) o := by
  rw [tokenEdits_start style hs, List.append_assoc]
  exact congrArg (openList style · o)
    (attributeRun_append (attribute?_of_end he) post as _ (map_attribute? has))

omit hs he in
theorem exists_attributes (hn : as ≠ []) : ∃ a more, as.filterMap Token.attribute? = a :: more := by
  refine List.exists_cons_of_ne_nil fun h => hn ?_
  have hmap := map_attribute? has
  rwa [h, List.map_nil, List.map_eq_nil_iff] at hmap

theorem broken_listStart (hn : as ≠ []) :
    let before := sheetAfter style page f pre (start :: (as ++ [stop]) ++ post)
    let waiting := (outlineAfter style pre (start :: (as ++ [stop]) ++ post)).pending
    let attrs := as.filterMap Token.attribute?
    (sheetAfter style page f (pre ++ [start]) (as ++ [stop] ++ post)).broken =
      page.breaks (columnOf page.tab (before.draft.text ++ ['(']))
        (.of style.classes attrs (extraClass? style waiting attrs)) := by
  intro before waiting attrs
  obtain ⟨a, more, hcons⟩ := exists_attributes has hn
  rw [sheetAfter_snoc, tokenEdits_listStart style hs has he, hcons]
  simp only [attrs, hcons]
  exact broken_openList style page f (fun hc => pending_outlineAfter style hc pre _) a more _

theorem written_listEnd (hn : as ≠ []) :
    let waiting := (outlineAfter style pre (start :: (as ++ [stop]) ++ post)).pending
    (outlineAfter style (pre ++ start :: as) (stop :: post)).written =
      (listItems style waiting (as.filterMap Token.attribute?)).length := by
  intro waiting
  obtain ⟨a, more, hcons⟩ := exists_attributes has hn
  -- what is counted does not depend on the sheet, so it is counted on a blank one
  let page : Page := ⟨' ', 0, 0, 0, 0, fun _ => false⟩
  let f : Formatter Empty := fun _ r => .ok r.code
  have hblank : (Sheet.blank : Sheet Empty).Reads [] [] [] false {} := ⟨.empty, rfl, rfl⟩
  have hopen := (reads_openList style page f hblank
    (fun hc => pending_outlineAfter style hc pre (start :: (as ++ [stop] ++ post))) a more).2
  have hrun := fun o => (reads_attributes style page f (stop :: post) as _ (some start) o
    (map_attribute? has) hblank).2
  have hrest : as ++ stop :: post = as ++ [stop] ++ post := List.append_cons ..
  rw [outlineAfter_append]
  simp only [List.cons_append, sitesUpTo, siteEdits, hrest]
  rw [tokenEdits_listStart style hs has he, hrun, hcons, hopen, listItems, List.length_append]
  rfl

end

theorem Page.breaks_of_fits {p : Page} {column : Nat} {fc : Forecast}
    (hx : ∀ name ∈ fc.names, p.wrapsOn name = false)
    (hw : (column + fc.width) % UInt64.size ≤ p.width) :
    p.breaks column fc = true ↔ 0 ≤ p.threshold ∧ p.threshold < fc.kept.length := by
  have hnames : fc.names.any p.wrapsOn = false := List.any_eq_false.2 fun name h => by simp [hx name h]
  simp [breaks, hnames, Nat.not_lt.2 hw]

/-- **The forecast counts what is written.** -/
theorem broken_iff_items {ε : Type} (style : Style) {l : Layout} {page : Page}
    (hl : page.Follows l) (f : Formatter ε) (ord : AttributeOrder) {ts : List Token}
    (h : enclosed false ts = true) {pre as post : List Token} {start stop : Token}
    (hv : ord.arrange ts = pre ++ (start :: (as ++ [stop]) ++ post))
    (hs : start.kind = .startAttributes) (has : ∀ t ∈ as, t.attribute?.isSome = true)
    (he : stop.kind = .endAttributes) (hn : as ≠ []) :
    let before := sheetAfter style page f pre (start :: (as ++ [stop]) ++ post)
    let after := sheetAfter style page f (pre ++ start :: (as ++ [stop])) post
    let waiting := (outlineAfter style pre (start :: (as ++ [stop]) ++ post)).pending
    let broken := (sheetAfter style page f (pre ++ [start]) (as ++ [stop] ++ post)).broken
    let attrs := as.filterMap Token.attribute?
    let extra := extraClass? style waiting attrs
    let ids := attrs.flatMap (Attribute.ids style)
    let classes := attrs.flatMap (Attribute.classNames style)
    let own := itemsWith style (waitingInside style waiting attrs) attrs
    let items := extra.toList.map classItem ++ own
    let list := writtenList style l broken (nesting pre) items
    (∀ a ∈ attrs, a.value.isTight = true) → (∀ a ∈ attrs, page.wrapsOn a.name = false) →
    (columnOf page.tab (before.draft.text ++ ['(']) + (Forecast.of style.classes attrs extra).width) %
      UInt64.size ≤ l.width →
    (broken = true ↔ 0 ≤ l.wrapThreshold ∧ l.wrapThreshold < items.length) ∧
      Placed style (waitingInside style waiting attrs) attrs ids classes own ∧
      (outlineAfter style (pre ++ start :: as) (stop :: post)).written = items.length ∧
      ((∀ t ∈ pre, t.kind ≠ .eos) → ∃ x y z, before.draft.text = x ++ y ++ z ∧
        after.draft.text = x ++ idText ids ++ (y ++ z ++ classText classes) ++
          ((list.resolve f before.session).1 ++ spaceText stop post)) := by
  intro before after waiting broken attrs extra ids classes own items list ht hx hw
  have hpage : page.threshold = l.wrapThreshold ∧ page.width = l.width := by
    obtain ⟨wrapsOn, rfl⟩ := hl
    exact ⟨rfl, rfl⟩
  have hpre : enclosed false pre = true :=
    enclosed_before (by rw [hs]; rfl) (as ++ [stop] ++ post) false pre (hv ▸ enclosed_arrange ord h)
  refine ⟨?_, placed_itemsWith style attrs _, ?_, fun hne => ?_⟩
  · have hstart : broken = page.breaks (columnOf page.tab (before.draft.text ++ ['(']))
        (.of style.classes attrs extra) := broken_listStart style page f hs has he hn
    have hcount : (Forecast.of style.classes attrs extra).kept.length = items.length :=
      length_kept style ht waiting
    have hnames : ∀ name ∈ (Forecast.of style.classes attrs extra).names, page.wrapsOn name = false :=
      List.forall_mem_map.2 hx
    rw [hstart, Page.breaks_of_fits hnames (by rw [hpage.2]; exact hw), hpage.1, hcount]
  · exact written_listEnd style hs has he hn
  · obtain ⟨x, y, z, hp, -⟩ := (draws_sheetAfter style f (start :: (as ++ [stop]) ++ post)
      (isBlank_indentChar hl) hpre hne).1.parts
    exact ⟨x, y, z, hp.text, (text_listTokens style hl f hs has he hpre hp).1⟩

def splitList : List Token :=
  [⟨.tag "p", {}⟩, ⟨.startAttributes, {}⟩, ⟨.attr ⟨"id", .source "'k'", true⟩, {}⟩,
    ⟨.attr ⟨"class", .source "'a md:b'", true⟩, {}⟩, ⟨.attr ⟨"href", .source "'/'", true⟩, {}⟩,
    ⟨.attr ⟨"raw", .flag true, true⟩, {}⟩, ⟨.endAttributes, {}⟩, ⟨.eos, {}⟩]

theorem broken_splitList :
    let page : Int → Page := fun n => ⟨' ', 2, 2, 80, n, fun _ => false⟩
    let f : Formatter Empty := fun _ r => .ok r.code
    let text := fun n => (sheetAfter {} (page n) f (splitList.take 7) (splitList.drop 7)).draft.text
    enclosed false splitList = true ∧
      (sheetAfter {} (page 2) f (splitList.take 2) (splitList.drop 2)).broken = true ∧
      (sheetAfter {} (page 3) f (splitList.take 2) (splitList.drop 2)).broken = false ∧
      text 2 = "p#k.a(\n  class=\"md:b\"\n  href=\"/\"\n  raw\n)".toList ∧
      text 3 = "p#k.a(class=\"md:b\" href=\"/\" raw)".toList := by
  intro page f text
  have h : enclosed false splitList = true := by decide
  have hl : ∀ n, (page n).Follows { wrapThreshold := n } := fun _ => ⟨_, rfl⟩
  have hv : ({} : AttributeOrder).arrange splitList = splitList.take 1 ++
      (⟨.startAttributes, {}⟩ :: ((splitList.drop 2).take 4 ++ [⟨.endAttributes, {}⟩]) ++
        splitList.drop 7) := rfl
  obtain ⟨htwo, -⟩ := broken_iff_items {} (hl 2) f {} h hv rfl (by decide) rfl (by decide)
    (by decide) (fun _ _ => rfl) (by decide)
  obtain ⟨hthree, -⟩ := broken_iff_items {} (hl 3) f {} h hv rfl (by decide) rfl (by decide)
    (by decide) (fun _ _ => rfl) (by decide)
  exact ⟨h, htwo.2 (by decide), Bool.eq_false_iff.2 fun hb => absurd (hthree.1 hb) (by decide),
    by decide, by decide⟩

end PugPretty
