import PugPretty.Proofs.Columns
import PugPretty.Proofs.ForeseenWidths

/-!
# Unbroken lists

A list that stays on one line is forecast to end on the page. Commas, the exclamation mark of a value
that is not escaped, and waiting classes that go into a value are not forecast. `unbroken_fits` says
that they are all that can take the list beyond the page, tabs apart, and `format_commaList` that a
comma does.
-/

namespace PugPretty

open Text

/-! ## The column behind the list -/

theorem isNameChar_of_simpleName {n : Text} (h : isSimpleName n = true) :
    ∀ c ∈ n, isNameChar c = true := by
  have hstart : ∀ c, isNameStart c = true → isNameChar c = true := by
    intro c hc
    simp only [isNameStart, Bool.or_eq_true] at hc
    simp only [isNameChar, Char.isAlphanum, Bool.or_eq_true]
    tauto
  unfold isSimpleName at h
  split at h
  · next c r =>
    obtain ⟨hc, hr⟩ := Bool.and_eq_true_iff.1 h
    exact List.forall_mem_cons.2 ⟨rfl, List.forall_mem_cons.2 ⟨hstart c hc, List.all_eq_true.1 hr⟩⟩
  · next c r _ =>
    obtain ⟨hc, hr⟩ := Bool.and_eq_true_iff.1 h
    exact List.forall_mem_cons.2 ⟨hstart c hc, List.all_eq_true.1 hr⟩
  · cases h

namespace Attribute

variable (style : Style)

theorem isSimpleName_of_mem_ids {a : Attribute} {n : Text} (h : n ∈ a.ids style) :
    isSimpleName n = true := by
  unfold ids at h
  split at h
  · next name hr =>
    obtain rfl := List.mem_singleton.1 h
    obtain ⟨body, -, hof⟩ := body?_of_role (hr ▸ nofun : a.role style.classes ≠ .keep)
    obtain ⟨-, -, hsimple, rfl⟩ := Role.of_eq_id (hof.symm.trans hr)
    exact hsimple
  · cases h

theorem isSimpleName_of_mem_classNames {a : Attribute} {n : Text} (h : n ∈ a.classNames style) :
    isSimpleName n = true := by
  unfold classNames at h
  split at h
  · next simple others hr =>
    obtain ⟨body, -, hof⟩ := body?_of_role (hr ▸ nofun : a.role style.classes ≠ .keep)
    obtain ⟨-, -, -, rfl, -⟩ := Role.of_eq_split (hof.symm.trans hr)
    exact List.of_mem_filter h
  · cases h

end Attribute

theorem feed_notMem_signed {sign : Char} (hs : sign ≠ '\n') {names : List Text}
    (h : ∀ n ∈ names, isSimpleName n = true) : '\n' ∉ names.flatMap (sign :: ·) := by
  intro hm
  obtain ⟨n, hn, hm⟩ := List.mem_flatMap.1 hm
  rcases List.mem_cons.1 hm with hc | hc
  · exact hs hc.symm
  · exact absurd (isNameChar_of_simpleName (h n hn) _ hc) (by decide)

theorem head?_signed {sign : Char} (hs : sign ≠ '\t') (names : List Text) :
    (names.flatMap (sign :: ·)).head? ≠ some '\t' := by
  cases names with
  | nil => nofun
  | cons n names => exact fun h => hs (Option.some.inj h)

/-- The columns of tabs that come to count: a tab that counts nothing at the start of a line counts
behind an id, and a tab inside the list can start a line. -/
def tabWidth (tab : Nat) (before list : Text) : Nat :=
  (1 - tab) * leadingTabs before + (tab - 1) * leadingTabs list

theorem columnOf_list (tab : Nat) {ids names : List Text} (hids : ∀ n ∈ ids, isSimpleName n = true)
    (hnames : ∀ n ∈ names, isSimpleName n = true) {u : Text} (hu : u.head? ≠ some '\t')
    (x y z : Text) :
    columnOf tab (x ++ idText ids ++ (y ++ z ++ classText names) ++ u) ≤
      columnOf tab (x ++ y ++ z) + (idText ids).length + (classText names).length + u.length +
        tabWidth tab (x ++ y ++ z) u := by
  have hlist := columnOf_append_le tab hu (x ++ idText ids ++ (y ++ z ++ classText names))
  have hclasses : columnOf tab (x ++ idText ids ++ (y ++ z ++ classText names)) =
      columnOf tab (x ++ idText ids ++ (y ++ z)) + (classText names).length := by
    rw [← List.append_assoc]
    exact columnOf_append tab (feed_notMem_signed (by decide) hnames) (head?_signed (by decide) names) _
  have hbefore : columnOf tab (x ++ idText ids ++ (y ++ z)) ≤
      columnOf tab (x ++ (y ++ z)) + (idText ids).length + (1 - tab) * leadingTabs (x ++ (y ++ z)) := by
    by_cases hi : idText ids = []
    · rw [hi, List.append_nil]
      exact Nat.le_add_right _ _
    · exact columnOf_insert_le tab (feed_notMem_signed (by decide) hids) (head?_signed (by decide) ids)
        hi x (y ++ z)
  unfold tabWidth
  rw [List.append_assoc x y z]
  omega

/-! ## The list in its stream -/

section
variable {ε : Type} (style : Style) {page : Page} (f : Formatter ε)

theorem session_itemsContent (broken : Bool) (depth : Nat) (first : Bool) (items : List Item)
    (c : Session ε) :
    ((itemsContent style page broken depth first items).resolve f c).2 =
      ((bareContent items).resolve f c).2 := by
  induction items generalizing first c with
  | nil => rfl
  | cons it its ih =>
    have ih := ih false (it.content.resolve f c).2
    simp only [bareContent] at ih
    simp only [itemsContent, bareContent, List.flatMap_cons, Content.resolve_plain,
      Content.resolve_append, ih]

variable {pre front back post : List Token} {start stop : Token}
  (hs : start.kind = .startAttributes) (has : ∀ t ∈ front ++ back, t.attribute?.isSome = true)
  (he : stop.kind = .endAttributes) (hn : front ++ back ≠ [])

include hs has he hn in
theorem session_inList {x y z : Text}
    (hp : (sheetAfter style page f pre (start :: (front ++ back ++ [stop]) ++ post)).draft.Parts x y z) :
    let before := sheetAfter style page f pre (start :: (front ++ back ++ [stop]) ++ post)
    let waiting := (outlineAfter style pre (start :: (front ++ back ++ [stop]) ++ post)).pending
    let inside := waitingInside style waiting ((front ++ back).filterMap Token.attribute?)
    (sheetAfter style page f (pre ++ start :: front) (back ++ [stop] ++ post)).session =
      ((bareContent (itemsWith style inside (front.filterMap Token.attribute?))).resolve f
        before.session).2 := by
  intro before waiting inside
  obtain ⟨a, more, hcons⟩ := exists_attributes has hn
  have hw : style.classes ≠ .inList → waiting = [] := fun hc => pending_outlineAfter style hc pre _
  have hread : before.Reads x y z before.broken before.session := ⟨hp, rfl, rfl⟩
  obtain ⟨hopen, ho⟩ := reads_openList style page f hread hw a more
  have hrest : front ++ (back ++ [stop] ++ post) = front ++ back ++ [stop] ++ post := by simp
  have hmap : front.map Token.attribute? = (front.filterMap Token.attribute?).map some :=
    map_attribute? fun t ht => has t (List.mem_append_left _ ht)
  rw [List.append_cons, sheetAfter_append style page f (pre ++ [start]), hrest, sheetAfter_snoc,
    outlineAfter_snoc, tokenEdits_listStart style hs has he, hcons]
  obtain ⟨hattrs, -⟩ := reads_attributes style page f (back ++ [stop] ++ post) front _
    (pre ++ [start]).getLast? (openList style (a :: more) (outlineAfter style pre
      (start :: (front ++ back ++ [stop]) ++ post))).2 hmap hopen
  refine hattrs.session.trans ?_
  -- the item that is made up asks nothing
  have hmade : ∀ extra : Option Text,
      ((bareContent (extra.toList.map classItem)).resolve f before.session).2 = before.session := by
    intro extra
    cases extra <;> rfl
  simp only [inside, hcons]
  rw [session_itemsContent, session_itemsContent, ho, hmade]

include hs he in
theorem allKeepWidth_list {as : List Token} (has : ∀ t ∈ as, t.attribute?.isSome = true)
    (hn : as ≠ []) {x y z : Text}
    (hp : (sheetAfter style page f pre (start :: (as ++ [stop]) ++ post)).draft.Parts x y z)
    (hk : ∀ front u back a, as = front ++ u :: back → u.attribute? = some a →
      a.KeepsWidth style f
        (sheetAfter style page f (pre ++ start :: front) (u :: (back ++ [stop] ++ post))).session) :
    let before := sheetAfter style page f pre (start :: (as ++ [stop]) ++ post)
    let waiting := (outlineAfter style pre (start :: (as ++ [stop]) ++ post)).pending
    let attrs := as.filterMap Token.attribute?
    AllKeepWidth style f attrs (waitingInside style waiting attrs) before.session := by
  intro before waiting attrs front a back hattrs
  have hmap : as.map Token.attribute? = (front ++ a :: back).map some := hattrs ▸ map_attribute? has
  rw [List.map_append, List.map_cons] at hmap
  obtain ⟨ts, us, rfl, hts, hus⟩ := List.map_eq_append_iff.1 hmap
  obtain ⟨u, us, rfl, hu, -⟩ := List.map_eq_cons_iff.1 hus
  have hfront : ts.filterMap Token.attribute? = front := by
    have hid : ts.filterMap Token.attribute? = (ts.map Token.attribute?).filterMap id := by
      rw [List.filterMap_map]
      rfl
    rw [hid, hts]
    simp
  have hsession := session_inList style f hs has he hn hp
  dsimp only at hsession
  rw [hfront] at hsession
  exact hsession ▸ hk ts u us a rfl hu

end

section
variable {ε : Type} (style : Style) (l : Layout) (f : Formatter ε) (broken : Bool) (depth : Nat)
  (items : List Item) (c : Session ε)

theorem head?_writtenList :
    ((writtenList style l broken depth items).resolve f c).1.head? ≠ some '\t' := by
  cases items with
  | nil => nofun
  | cons it its => simp [writtenList, Content.resolve_plain]

theorem getLast?_writtenList (hn : items ≠ []) :
    ((writtenList style l broken depth items).resolve f c).1.getLast? = some ')' := by
  cases items with
  | nil => exact absurd rfl hn
  | cons it its =>
    simp [writtenList, Content.resolve_plain, Content.resolve_append, Content.resolve,
      List.getLast?_cons]

end

theorem Page.fits_of_not_breaks {p : Page} {column : Nat} {fc : Forecast}
    (hb : p.breaks column fc = false) (hs : column + fc.width < UInt64.size) :
    column + fc.width ≤ p.width := by
  simp only [breaks, Bool.or_eq_false_iff, decide_eq_false_iff_not, Nat.mod_eq_of_lt hs] at hb
  exact Nat.not_lt.1 hb.1.2

/-- **Unbroken lists.** If every value is written no wider than it stands in the source, a list that
is not broken goes beyond the page at most by what is not forecast. -/
theorem unbroken_fits {ε : Type} (style : Style) {l : Layout} {page : Page} (hl : page.Follows l)
    (f : Formatter ε) (ord : AttributeOrder) {ts : List Token} (h : WellFormed ts)
    {pre as post : List Token} {start stop : Token}
    (hv : ord.arrange ts = pre ++ (start :: (as ++ [stop]) ++ post))
    (hs : start.kind = .startAttributes) (has : ∀ t ∈ as, t.attribute?.isSome = true)
    (he : stop.kind = .endAttributes) (hn : as ≠ []) :
    let before := sheetAfter style page f pre (start :: (as ++ [stop]) ++ post)
    let waiting := (outlineAfter style pre (start :: (as ++ [stop]) ++ post)).pending
    let attrs := as.filterMap Token.attribute?
    let forecast := Forecast.of style.classes attrs (extraClass? style waiting attrs)
    let items := listItems style waiting attrs
    let list := ((writtenList style l false (nesting pre) items).resolve f before.session).1
    (sheetAfter style page f (pre ++ [start]) (as ++ [stop] ++ post)).broken = false →
    columnOf l.indentWidth (before.draft.text ++ ['(']) + forecast.width < UInt64.size →
    (∀ front u back a, as = front ++ u :: back → u.attribute? = some a →
      a.KeepsWidth style f
        (sheetAfter style page f (pre ++ start :: front) (u :: (back ++ [stop] ++ post))).session) →
    ∃ line, (sheetAfter style page f (pre ++ start :: (as ++ [stop])) post).draft.text =
        line ++ spaceText stop post ∧
      (items ≠ [] → line.getLast? = some ')') ∧
      columnOf l.indentWidth line ≤ l.width + unforeseenWidth style waiting attrs +
        tabWidth l.indentWidth before.draft.text list ∧
      ∀ more rest, post = more ++ rest →
        (∀ u ∈ more, u.kind.isShorthand = false ∧ u.kind.listPart = false ∧ u.kind ≠ .eos) →
        line <+: (sheetAfter style page f (pre ++ start :: (as ++ [stop]) ++ more) rest).draft.text := by
  intro before waiting attrs forecast items list hb hsize hk
  have hw := hv ▸ h.arrange ord
  have hpre : enclosed false pre = true :=
    enclosed_before (by rw [hs]; rfl) (as ++ [stop] ++ post) false pre hw.enclosed
  obtain ⟨x, y, z, hp, -⟩ := (draws_sheetAfter style f (start :: (as ++ [stop]) ++ post)
    (isBlank_indentChar hl) hpre hw.ne_eos).1.parts
  have htab : page.tab = l.indentWidth ∧ page.width = l.width := by
    obtain ⟨wrapsOn, rfl⟩ := hl
    exact ⟨rfl, rfl⟩
  obtain ⟨htext, -⟩ := text_listTokens style hl f hs has he hpre hp
  rw [hb] at htext
  let ids := attrs.flatMap (Attribute.ids style)
  let names := attrs.flatMap (Attribute.classNames style)
  have hafter : (sheetAfter style page f (pre ++ start :: (as ++ [stop])) post).draft.text =
      x ++ idText ids ++ (y ++ z ++ classText names) ++ list ++ spaceText stop post := by
    rw [htext, List.append_assoc _ list]
  refine ⟨_, hafter, fun hi => ?_, ?_, ?_⟩
  · have hclosed : list.getLast? = some ')' := getLast?_writtenList style l f false _ items _ hi
    have hne : list ≠ [] := by
      intro hnil
      rw [hnil] at hclosed
      cases hclosed
    rwa [List.getLast?_append_of_ne_nil _ hne]
  · -- the list is not broken for its width
    have hfits : columnOf l.indentWidth (before.draft.text ++ ['(']) + forecast.width ≤ l.width := by
      rw [← htab.1] at hsize ⊢
      rw [← htab.2]
      exact Page.fits_of_not_breaks ((broken_listStart style page f hs has he hn).symm.trans hb) hsize
    have hids : ∀ n ∈ ids, isSimpleName n = true := fun n hname => by
      obtain ⟨a, -, ha⟩ := List.mem_flatMap.1 hname
      exact a.isSimpleName_of_mem_ids style ha
    have hnames : ∀ n ∈ names, isSimpleName n = true := fun n hname => by
      obtain ⟨a, -, ha⟩ := List.mem_flatMap.1 hname
      exact a.isSimpleName_of_mem_classNames style ha
    have hcolumn : columnOf l.indentWidth (x ++ idText ids ++ (y ++ z ++ classText names) ++ list) ≤
        columnOf l.indentWidth before.draft.text + (idText ids).length + (classText names).length +
          list.length + tabWidth l.indentWidth before.draft.text list := by
      rw [show before.draft.text = x ++ y ++ z from hp.text]
      exact columnOf_list l.indentWidth hids hnames (head?_writtenList style l f false _ items _) x y z
    have hwidth : (idText ids).length + (classText names).length + list.length ≤
        1 + forecast.width + unforeseenWidth style waiting attrs :=
      width_list_le style f l (nesting pre) (allKeepWidth_list style f hs he has hn hp hk)
    have hopen : columnOf l.indentWidth (before.draft.text ++ ['(']) =
        columnOf l.indentWidth before.draft.text + 1 :=
      columnOf_append l.indentWidth (by decide) (by decide) before.draft.text
    omega
  · rintro more rest rfl hmore
    have hgrown := prefix_sheetAfter style page f rest more (pre ++ start :: (as ++ [stop])) hmore
    rw [hafter] at hgrown
    exact (List.prefix_append _ _).trans hgrown

theorem unbroken_fits_splitList :
    let l : Layout := { width := 32 }
    let page : Page := ⟨' ', 2, 2, 32, -1, fun _ => false⟩
    let f : Formatter Empty := fun _ r => .ok r.code
    let text := (sheetAfter {} page f (splitList.take 7) (splitList.drop 7)).draft.text
    WellFormed splitList ∧
      (sheetAfter {} page f (splitList.take 2) (splitList.drop 2)).broken = false ∧
      text = "p#k.a(class=\"md:b\" href=\"/\" raw)".toList ∧
      columnOf l.indentWidth text ≤ l.width := by
  intro l page f text
  have hw : WellFormed splitList := by decide
  have hl : page.Follows l := ⟨_, rfl⟩
  have hb : (sheetAfter {} page f (splitList.take 2) (splitList.drop 2)).broken = false := by decide
  let as := (splitList.drop 2).take 4
  have hv : ({} : AttributeOrder).arrange splitList = splitList.take 1 ++
      (⟨.startAttributes, {}⟩ :: (as ++ [⟨.endAttributes, {}⟩]) ++ splitList.drop 7) := rfl
  have hkeep : ∀ a ∈ as.filterMap Token.attribute?, ∀ c : Session Empty, a.KeepsWidth {} f c := by
    intro a ha c it hit
    rcases List.mem_cons.1 ha with rfl | ha
    · cases hit
    rcases List.mem_cons.1 ha with rfl | ha
    · cases hit
      exact Nat.le_of_ble_eq_true rfl
    rcases List.mem_cons.1 ha with rfl | ha
    · cases hit
      exact Nat.le_of_ble_eq_true rfl
    rcases List.mem_singleton.1 ha with rfl
    cases hit
    exact Nat.le_refl _
  obtain ⟨line, htext, -, hfits, -⟩ := unbroken_fits {} hl f {} hw hv rfl (by decide) rfl (by decide)
    hb (by decide) fun front u back a has hu => hkeep a (List.mem_filterMap.2 ⟨u, by simp [has], hu⟩) _
  have hline : text = line := htext.trans (List.append_nil line)
  exact ⟨hw, hb, by decide, hline ▸ hfits.trans (by decide)⟩

def commaList : List Token :=
  [⟨.tag "a", {}⟩, ⟨.startAttributes, {}⟩, ⟨.attr ⟨"b", .source "\"1\"", true⟩, {}⟩,
    ⟨.attr ⟨"c", .source "\"2\"", true⟩, {}⟩, ⟨.endAttributes, {}⟩, ⟨.eos, {}⟩]

theorem format_commaList :
    let o : Options := { layout := { width := 14 }, style := { separator := .always } }
    let page : Page := ⟨' ', 2, 2, 14, -1, fun _ => false⟩
    let f : Formatter Empty := fun _ r => .ok r.code
    WellFormed commaList ∧
      (sheetAfter o.style page f (commaList.take 2) (commaList.drop 2)).broken = false ∧
      (format wordReader o f commaList).result = .ok "a(b=\"1\", c=\"2\")\n" ∧
      columnOf 2 "a(b=\"1\", c=\"2\")".toList = 15 :=
  ⟨by decide, by decide, rfl, by decide⟩

end PugPretty
