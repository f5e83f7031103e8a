import PugPretty.Proofs.AttributeText

/-!
# The text of an attribute list

A list is written by its tokens one after another, each adding to what the ones before have left.
`reads_list` says what they have written at the end of the list: ids and classes that leave the list
join those in front, and the items that stay make up the list, which is gone if there are none.
Classes that wait in front of the list go to the first attribute that takes them in, and else to an
item of their own at the beginning of the list.
-/

namespace PugPretty

open Text

/-! ## The items of a list -/

def Attribute.takesClasses (a : Attribute) : Bool := a.name == "class" && a.value.body?.isSome

def itemsWith (style : Style) : List Text → List Attribute → List Item
  | _, [] => []
  | waiting, a :: as =>
    (a.itemWith? style waiting).toList ++ itemsWith style (a.leaves style waiting) as

/-- The value of the attribute that is made up for classes no attribute takes in. -/
def extraClass? (style : Style) (waiting : List Text) (as : List Attribute) : Option Text :=
  if waiting.isEmpty || as.any Attribute.takesClasses then none
  else some (classValue style waiting)

theorem value_extraClass? {style : Style} {waiting : List Text} {as : List Attribute} {v : Text}
    (h : extraClass? style waiting as = some v) : v = classValue style waiting := by
  unfold extraClass? at h
  split at h
  · cases h
  · exact (Option.some.inj h).symm

def classItem (value : Text) : Item := ⟨"class", some [.plain value], true⟩

def waitingInside (style : Style) (waiting : List Text) (as : List Attribute) : List Text :=
  if (extraClass? style waiting as).isSome then [] else waiting

def listItems (style : Style) (waiting : List Text) (as : List Attribute) : List Item :=
  (extraClass? style waiting as).toList.map classItem ++
    itemsWith style (waitingInside style waiting as) as

theorem itemsWith_nil (style : Style) (as : List Attribute) :
    itemsWith style [] as = as.filterMap (Attribute.itemWith? style []) := by
  induction as with
  | nil => rfl
  | cons a as ih =>
    rw [itemsWith, a.leaves_nil, ih]
    cases h : a.itemWith? style [] <;> simp [h]

theorem foldl_leaves_nil (style : Style) (as : List Attribute) :
    as.foldl (Attribute.leaves style) [] = [] := by
  induction as with
  | nil => rfl
  | cons a as ih => rw [List.foldl_cons, a.leaves_nil, ih]

theorem listItems_nil {style : Style} (hc : style.classes ≠ .inList) (as : List Attribute) :
    listItems style [] as = as.filterMap (Attribute.item? style) := by
  show itemsWith style [] as = _
  rw [itemsWith_nil]
  exact congrArg as.filterMap (funext fun a => Attribute.itemWith?_eq hc [] a)

def waitingText (style : Style) (classes : List Text) : Text :=
  if classes.isEmpty then [] else "(class=".toList ++ classValue style classes ++ [')']

theorem resolve_listItems_empty {ε : Type} (style : Style) (page : Page) (f : Formatter ε)
    (depth : Nat) (waiting : List Text) (c : Session ε) :
    (listContent style page false depth (listItems style waiting [])).resolve f c =
      (waitingText style waiting, c) := by
  cases waiting with
  | nil => rfl
  | cons w ws => simp [listItems, extraClass?, waitingText, listContent, itemsContent, itemsWith,
      classItem, Item.content, gapText, breakText, Content.resolve]

/-! ## The tokens of a list -/

section
variable {ε : Type} (style : Style) (page : Page) (f : Formatter ε) {s : Sheet ε} {x y z : Text}
  {b : Bool} {c : Session ε}

def Token.attribute? (t : Token) : Option Attribute :=
  match t.kind with
  | .attr a => some a
  | _ => none

theorem kind_of_attribute? {t : Token} {a : Attribute} (h : t.attribute? = some a) :
    t.kind = .attr a := by
  unfold Token.attribute? at h
  split at h
  · next a' ha => rw [ha, Option.some.inj h]
  · cases h

/-- The attributes of a list leave ids and classes in front and their items in the list. -/
theorem reads_attributes (rest : List Token) :
    ∀ (ts : List Token) (as : List Attribute) (before : Option Token) (o : Outline) {s : Sheet ε}
      {x y z : Text} {c : Session ε}, ts.map Token.attribute? = as.map some → s.Reads x y z b c →
      let items := itemsWith style o.pending as
      let k := itemsContent style page b o.depth (o.written = 0) items
      (Sheet.applyAll page f (siteEdits style (sitesUpTo before ts rest) o).1 s).Reads
          (x ++ idText (as.flatMap (Attribute.ids style)))
          (y ++ classText (as.flatMap (Attribute.classNames style)))
          (z ++ (k.resolve f c).1) b (k.resolve f c).2 ∧
        (siteEdits style (sitesUpTo before ts rest) o).2 =
          { o with
            written := o.written + items.length
            pending := as.foldl (Attribute.leaves style) o.pending }
  | [], as, _, o, s, x, y, z, c, ht, h => by
    obtain rfl : as = [] := by simpa using ht
    simpa [sitesUpTo, siteEdits, itemsWith, itemsContent, Content.resolve, idText, classText] using h
  | t :: ts, [], before, o, s, x, y, z, c, ht, h => by cases ht
  | t :: ts, a :: as, before, o, s, x, y, z, c, ht, h => by
    obtain ⟨ha, hts⟩ := List.cons.inj ht
    have h1 := reads_writeAttribute style page f h o a
    have ho := writeAttribute_outline style o a
    obtain ⟨h2, ho2⟩ := reads_attributes rest ts as (some t) (writeAttribute style a o).2 hts h1
    have hfirst : decide (o.written + (a.itemWith? style o.pending).toList.length = 0) =
        (decide (o.written = 0) && (a.itemWith? style o.pending).toList.isEmpty) := by
      cases (a.itemWith? style o.pending).toList <;> simp
    simp only [sitesUpTo, siteEdits, itemsWith]
    rw [tokenEdits_attr style (s := ⟨before, t, ts ++ rest⟩) (kind_of_attribute? ha),
      Sheet.applyAll_append, itemsContent_append, Content.resolve_append, ho2]
    rw [ho] at h2 ⊢
    simp only [hfirst] at h2
    refine ⟨?_, ?_⟩
    · simpa only [List.flatMap_cons, idText_append, classText_append, List.append_assoc] using h2
    · rw [List.length_append, ← Nat.add_assoc]
      rfl

theorem attribute?_of_end {t : Token} (h : t.kind = .endAttributes) : t.attribute? = none := by
  unfold Token.attribute?
  rw [h]

theorem attributeRun_append {stop : Token} (hs : stop.attribute? = none) (rest : List Token) :
    ∀ (ts : List Token) (as : List Attribute), ts.map Token.attribute? = as.map some →
      attributeRun (ts ++ stop :: rest) = as
  | [], [], _ => by
    obtain ⟨kind, span⟩ := stop
    cases kind <;> first | rfl | cases hs
  | [], _ :: _, h => by cases h
  | _ :: _, [], h => by cases h
  | ⟨kind, span⟩ :: ts, a :: as, h => by
    obtain ⟨ha, hts⟩ := List.cons.inj h
    obtain rfl : kind = .attr a := kind_of_attribute? ha
    rw [List.cons_append, attributeRun, attributeRun_append hs rest ts as hts]

/-- The space behind the last token of an element, if it is a class or a list. -/
def spaceText (t : Token) (rest : List Token) : Text :=
  match t.kind, rest.head?.map Token.kind with
  | .className _, some (.text _) => [' ']
  | .endAttributes, some (.text _) => [' ']
  | .endAttributes, some (.path _) => [' ']
  | _, _ => []

theorem reads_spaceBehind (h : s.Reads x y z b c) (before : Option Token) {stop : Token}
    (hs : stop.kind = .endAttributes) (rest : List Token) :
    (Sheet.applyAll page f (spaceBehind ⟨before, stop, rest⟩) s).Reads x y
      (z ++ spaceText stop rest) b c := by
  have h1 := h.put page f [' ']
  unfold spaceBehind spaceText Site.next?
  rw [hs]
  cases rest.head?.map Token.kind with
  | none => simpa using h
  | some k =>
    cases k with
    | text val => exact h1
    | path file => exact h1
    | _ => simpa using h

theorem openList_empty {o : Outline} (hp : o.pending = []) :
    openList style [] o = ([.endGroup], { o with written := 0 }) := by
  simp [openList, flushPending, hp]

theorem openList_eq {o : Outline} (hw : style.classes ≠ .inList → o.pending = []) (a : Attribute)
    (as : List Attribute) :
    let extra := extraClass? style o.pending (a :: as)
    let start : List Edit := [.markClass, .say "(", .beginGroup (.of style.classes (a :: as) extra)]
    openList style (a :: as) o =
      match extra with
      | none => (start, { o with written := 0, listOpen := true })
      | some v =>
        let item := writeItem style "class" (some [.plain v]) true
          { o with written := 0, listOpen := true, pending := [] }
        (start ++ item.1, item.2) := by
  intro extra start
  have he : (if style.classes = .inList ∧ o.pending ≠ [] ∧
      (a :: as).any Attribute.takesClasses = false
      then some (classValue style o.pending) else none) = extra := by
    simp only [extra, extraClass?]
    by_cases hp : o.pending = []
    · rw [if_neg fun h => h.2.1 hp, hp]
      rfl
    · have hc : style.classes = .inList := by
        by_contra hc
        exact hp (hw hc)
      cases (a :: as).any Attribute.takesClasses <;> simp [hc, hp]
  have ht : ((a :: as).any fun a => a.name == "class" && a.value.body?.isSome) =
      (a :: as).any Attribute.takesClasses := rfl
  unfold openList
  cases hx : extra <;>
    simp only [List.isEmpty_cons, Bool.false_eq_true, if_false, ht, he, start, hx]

theorem reads_openList (h : s.Reads x y z b c) {o : Outline}
    (hw : style.classes ≠ .inList → o.pending = []) (a : Attribute) (as : List Attribute) :
    let extra := extraClass? style o.pending (a :: as)
    let broken := page.breaks (columnOf page.tab (x ++ y ++ z ++ ['(']))
      (.of style.classes (a :: as) extra)
    let items := extra.toList.map classItem
    let k := itemsContent style page broken o.depth true items
    let es := openList style (a :: as) o
    (Sheet.applyAll page f es.1 s).Reads x (y ++ z) ('(' :: (k.resolve f c).1) broken
        (k.resolve f c).2 ∧
      es.2 = { o with
        written := items.length
        listOpen := true
        pending := waitingInside style o.pending (a :: as) } := by
  have h1 := fun fc => ((h.markClass page f).put page f ['(']).beginGroup page f fc
  rw [List.nil_append, List.append_assoc x, List.append_assoc y, ← List.append_assoc x,
    ← List.append_assoc (x ++ y)] at h1
  have he := openList_eq style hw a as
  dsimp only [waitingInside] at he ⊢
  rw [he]
  generalize extraClass? style o.pending (a :: as) = extra
  cases extra with
  | none => exact ⟨h1 _, rfl⟩
  | some v =>
    have h2 := reads_writeItem style page f (h1 (.of style.classes (a :: as) (some v)))
      { o with written := 0, listOpen := true, pending := [] } (classItem v)
    exact ⟨h2, rfl⟩

theorem reads_flushPending (h : s.Reads x y z b c) (o : Outline) :
    (Sheet.applyAll page f (flushPending style o).1 s).Reads x y (z ++ waitingText style o.pending) b
      c := by
  unfold flushPending waitingText
  split
  · simpa using h
  · exact h.put page f _

theorem flushPending_eq (o : Outline) : (flushPending style o).2 = { o with pending := [] } := by
  unfold flushPending
  split
  · next h => rw [← List.isEmpty_iff.1 h]
  · rfl

theorem reads_closing {items : List Item} {o : Outline} (hl : o.listOpen = true)
    (hw : o.written = items.length)
    (h : s.Reads x y ('(' :: ((itemsContent style page b o.depth true items).resolve f c).1) b
      ((itemsContent style page b o.depth true items).resolve f c).2) :
    let k := listContent style page b o.depth items
    (Sheet.applyAll page f (closing o) s).Reads x y (k.resolve f c).1 b (k.resolve f c).2 := by
  unfold closing listContent
  cases items with
  | nil =>
    simp only [hl, hw]
    exact Sheet.Reads.dropOpenParen (z := []) page f h
  | cons it its =>
    have h1 := (h.softBreak page f o.depth []).put page f [')']
    have hw0 : o.written ≠ 0 := by rw [hw]; simp
    simp only [hl, Bool.true_eq_false, if_false, if_neg hw0, List.isEmpty_cons, Bool.false_eq_true,
      Content.resolve_plain, Content.resolve_append, Content.resolve, List.append_nil]
    rw [List.append_assoc] at h1
    exact h1

theorem siteEdits_list {start stop : Token} (hs : start.kind = .startAttributes)
    (he : stop.kind = .endAttributes) {ts : List Token} {as : List Attribute}
    (ht : ts.map Token.attribute? = as.map some) (before : Option Token) (rest : List Token)
    (o : Outline) :
    let last : Site := ⟨ts.getLast?.or (some start), stop, rest⟩
    let mid := siteEdits style (sitesUpTo (some start) ts ([stop] ++ rest)) (openList style as o).2
    siteEdits style (sitesUpTo before (start :: (ts ++ [stop])) rest) o =
      ((openList style as o).1 ++ (mid.1 ++ (closeList last mid.2).1), (closeList last mid.2).2) := by
  intro last mid
  have hrun : attributeRun (ts ++ [stop] ++ rest) = as := by
    rw [List.append_assoc]
    exact attributeRun_append (attribute?_of_end he) rest ts as ht
  have hstart := tokenEdits_start style (s := ⟨before, start, ts ++ [stop] ++ rest⟩) (o := o) hs
  have hstop := tokenEdits_end style (s := last) (o := mid.2) he
  rw [hrun] at hstart
  simp only [sitesUpTo, siteEdits, sitesUpTo_append, siteEdits_append, hstart, List.append_nil]
  rw [← hstop]
  rfl

variable {start stop : Token} (hs : start.kind = .startAttributes)
  (he : stop.kind = .endAttributes) {ts : List Token} {as : List Attribute}
  (ht : ts.map Token.attribute? = as.map some) (before : Option Token) (rest : List Token)
  {o : Outline} (hl : o.listOpen = false)
include hs he ht hl

theorem reads_emptyList (has : as = []) (h : s.Reads x y z b c) :
    let es := siteEdits style (sitesUpTo before (start :: (ts ++ [stop])) rest) o
    (Sheet.applyAll page f es.1 s).Reads x y
        (z ++ waitingText style o.pending ++ spaceText stop rest) false c ∧
      es.2 = { o with written := 0, pending := [] } := by
  intro es
  have hes : es = _ := siteEdits_list style hs he ht before rest o
  subst has
  obtain rfl : ts = [] := by simpa using ht
  have h1 := reads_flushPending style page f (h.endGroup page f) { o with written := 0 }
  have h2 := reads_spaceBehind page f (h1.endGroup page f) ((List.getLast? []).or (some start)) he rest
  rw [hes]
  simp only [openList, List.isEmpty_nil, if_true, sitesUpTo, siteEdits, flushPending_eq, closeList_eq]
  refine ⟨?_, by simp [hl]⟩
  simpa [closing, hl] using h2

/-- What the tokens of a list with attributes do. It is broken, or not, for the column behind its
parenthesis. -/
theorem reads_list (hw : style.classes ≠ .inList → o.pending = []) (has : as ≠ [])
    (h : s.Reads x y z b c) :
    let extra := extraClass? style o.pending as
    let broken := page.breaks (columnOf page.tab (x ++ y ++ z ++ ['('])) (.of style.classes as extra)
    let k := listContent style page broken o.depth (listItems style o.pending as)
    let es := siteEdits style (sitesUpTo before (start :: (ts ++ [stop])) rest) o
    (Sheet.applyAll page f es.1 s).Reads (x ++ idText (as.flatMap (Attribute.ids style)))
        (y ++ z ++ classText (as.flatMap (Attribute.classNames style)))
        ((k.resolve f c).1 ++ spaceText stop rest) false (k.resolve f c).2 ∧
      es.2 = { o with
        written := 0
        pending := as.foldl (Attribute.leaves style) (waitingInside style o.pending as) } := by
  intro extra broken k es
  have hes : es = _ := siteEdits_list style hs he ht before rest o
  obtain ⟨a, as, rfl⟩ := List.exists_cons_of_ne_nil has
  obtain ⟨h1, ho1⟩ := reads_openList style page f h hw a as
  let o1 : Outline := { o with
    written := (extra.toList.map classItem).length
    listOpen := true
    pending := waitingInside style o.pending (a :: as) }
  have ho1 : (openList style (a :: as) o).2 = o1 := ho1
  obtain ⟨h2, hm⟩ := reads_attributes style page f ([stop] ++ rest) ts (a :: as) (some start) o1 ht h1
  -- the attributes go on with the items that the opening has begun
  have hk : itemsContent style page broken o.depth true (listItems style o.pending (a :: as)) =
      itemsContent style page broken o.depth true (extra.toList.map classItem) ++
        itemsContent style page broken o1.depth (o1.written = 0) (itemsWith style o1.pending (a :: as)) := by
    have hfirst : (extra.toList.map classItem).isEmpty = decide (o1.written = 0) := by
      cases hx : extra <;> simp [o1, hx]
    rw [listItems, itemsContent_append, ← hfirst]
    rfl
  rw [hes, ho1]
  generalize siteEdits style (sitesUpTo (some start) ts ([stop] ++ rest)) o1 = mid at h2 hm ⊢
  have hlo : mid.2.listOpen = true := by rw [hm]
  have hlen : mid.2.written = (listItems style o.pending (a :: as)).length := by
    rw [hm, listItems, List.length_append]
  have hd : mid.2.depth = o.depth := by rw [hm]
  -- the parenthesis stays if an item has been written, and else it is taken back
  have h3 := reads_closing style page f hlo hlen (by rw [hd, hk, Content.resolve_append]; exact h2)
  have h4 := reads_spaceBehind page f (h3.endGroup page f) (ts.getLast?.or (some start)) he rest
  rw [hd] at h4
  rw [closeList_eq, Sheet.applyAll_append, Sheet.applyAll_append, Sheet.applyAll_append]
  refine ⟨h4, ?_⟩
  rw [hm]
  simp [o1, hl]

theorem reads_plainList (hc : style.classes ≠ .inList) (hp : o.pending = []) (h : s.Reads x y [] b c) :
    let broken := page.breaks (columnOf page.tab (x ++ y ++ ['('])) (.of style.classes as none)
    let k := listContent style page broken o.depth (as.filterMap (Attribute.item? style))
    let es := siteEdits style (sitesUpTo before (start :: (ts ++ [stop])) rest) o
    (Sheet.applyAll page f es.1 s).Reads (x ++ idText (as.flatMap (Attribute.ids style)))
        (y ++ classText (as.flatMap (Attribute.classNames style)))
        ((k.resolve f c).1 ++ spaceText stop rest) false (k.resolve f c).2 ∧
      es.2 = { o with written := 0 } := by
  intro broken k es
  by_cases has : as = []
  · obtain ⟨h1, ho⟩ := reads_emptyList style page f hs he ht before rest hl has h
    subst has
    rw [hp] at h1
    exact ⟨by simpa [k, listContent, Content.resolve, idText, classText, waitingText] using h1,
      by rw [ho, ← hp]⟩
  · obtain ⟨h1, ho⟩ := reads_list style page f hs he ht before rest hl (fun _ => hp) has h
    have hin : waitingInside style [] as = [] := rfl
    rw [hp, hin, foldl_leaves_nil] at ho
    rw [hp, listItems_nil hc, List.append_nil, List.append_nil] at h1
    exact ⟨h1, by rw [ho, ← hp]⟩

end

end PugPretty
