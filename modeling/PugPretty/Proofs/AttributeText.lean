import PugPretty.Proofs.Conversation
import PugPretty.Proofs.Step

/-!
# The text of an attribute

The three parts of a draft, the state of its group and the conversation make up what is read of a
sheet. `reads_writeAttribute` says what an attribute does to them: its id and its classes join those
in front, and the item that stays goes to the end of the list, with the classes that wait for it.
-/

namespace PugPretty

open Text

/-! ## What is read of a sheet -/

structure Sheet.Reads {ε : Type} (s : Sheet ε) (x y z : Text) (b : Bool) (c : Session ε) : Prop where
  parts : s.draft.Parts x y z
  broken : s.broken = b
  session : s.session = c

def breakText (page : Page) (broken : Bool) (levels : Nat) (flat : Text) : Text :=
  if broken then '\n' :: Sheet.indentation page levels else flat

def columnOf (tab : Nat) (t : Text) : Nat :=
  let line := (t.reverse.takeWhile (· != '\n')).reverse
  (line.takeWhile (· == '\t')).length * tab + (line.dropWhile (· == '\t')).length

theorem columnOf_text (d : Draft) (tab : Nat) : columnOf tab d.text = d.column tab := by
  simp [columnOf, Draft.column, Draft.text]

namespace Sheet.Reads

variable {ε : Type} {s : Sheet ε} {x y z : Text} {b : Bool} {c : Session ε} (page : Page)
  (f : Formatter ε)

theorem text (h : s.Reads x y z b c) : s.draft.text = x ++ y ++ z := h.parts.text

theorem put (h : s.Reads x y z b c) (t : Text) :
    (s.apply page f (.put t)).Reads x y (z ++ t) b c := by
  rw [apply_put]
  exact ⟨h.parts.write t, h.broken, h.session⟩

theorem write (h : s.Reads x y z b c) (k : Content) :
    (s.apply page f (.write k)).Reads x y (z ++ (k.resolve f c).1) b (k.resolve f c).2 := by
  obtain ⟨hp, hb, rfl⟩ := h
  exact ⟨hp.write _, hb, rfl⟩

theorem softBreak (h : s.Reads x y z b c) (n : Nat) (flat : Text) :
    (s.apply page f (.softBreak n flat)).Reads x y (z ++ breakText page b n flat) b c := by
  obtain ⟨hp, rfl, hc⟩ := h
  exact ⟨hp.write _, rfl, hc⟩

theorem addClass (h : s.Reads x y z b c) (name : Text) :
    (s.apply page f (.addClass name)).Reads x (y ++ '.' :: name) z b c :=
  ⟨h.parts.addClass name, h.broken, h.session⟩

theorem addId (h : s.Reads x y z b c) (name : Text) :
    (s.apply page f (.addId name)).Reads (x ++ '#' :: name) y z b c :=
  ⟨h.parts.addId name, h.broken, h.session⟩

theorem markClass (h : s.Reads x y z b c) :
    (s.apply page f .markClass).Reads x (y ++ z) [] b c :=
  ⟨h.parts.markClass, h.broken, h.session⟩

theorem beginGroup (h : s.Reads x y z b c) (fc : Forecast) :
    (s.apply page f (.beginGroup fc)).Reads x y z
      (page.breaks (columnOf page.tab (x ++ y ++ z)) fc) c := by
  refine ⟨h.parts, ?_, h.session⟩
  rw [← h.text, columnOf_text]
  rfl

theorem endGroup (h : s.Reads x y z b c) : (s.apply page f .endGroup).Reads x y z false c :=
  ⟨h.parts, rfl, h.session⟩

theorem dropOpenParen (h : s.Reads x y (z ++ ['(']) b c) :
    (s.apply page f .dropOpenParen).Reads x y z b c :=
  ⟨h.parts.dropOpenParen, h.broken, h.session⟩

end Sheet.Reads

/-! ## Content in sequence -/

namespace Content

variable {ε : Type} (f : Formatter ε)

theorem resolve_plain (t : Text) (k : Content) (c : Session ε) :
    resolve f (.plain t :: k) c = (t ++ (resolve f k c).1, (resolve f k c).2) := rfl

theorem resolve_append (k l : Content) (c : Session ε) :
    resolve f (k ++ l) c =
      ((resolve f k c).1 ++ (resolve f l (resolve f k c).2).1, (resolve f l (resolve f k c).2).2) := by
  induction k generalizing c with
  | nil => rfl
  | cons p k ih =>
    cases p with
    | plain t => simp only [List.cons_append, resolve_plain, ih, List.append_assoc]
    | code r => simp only [List.cons_append, resolve, ih, List.append_assoc]

end Content

section
variable {ε : Type} (page : Page) (f : Formatter ε)

theorem apply_write_write (k l : Content) (s : Sheet ε) :
    (s.apply page f (.write k)).apply page f (.write l) = s.apply page f (.write (k ++ l)) := by
  simp only [Sheet.apply_write, Content.resolve_append, write_write]

theorem apply_softBreak (n : Nat) (flat : Text) (s : Sheet ε) :
    s.apply page f (.softBreak n flat) =
      s.apply page f (.write [.plain (breakText page s.broken n flat)]) := by
  rw [Sheet.apply_write, Content.resolve_plain]
  simp [Content.resolve, Sheet.apply, Sheet.edit, breakText]

end

/-! ## Items -/

structure Item where
  name : String
  value : Option Content
  mustEscape : Bool

def Item.content (it : Item) : Content :=
  .plain it.name.toList :: match it.value with
    | some k => .plain (if it.mustEscape then "=" else "!=").toList :: k
    | none => []

def needsComma (style : Style) (name : String) : Bool :=
  match style.separator with
  | .always => true
  | .asNeeded => isAmbiguousName name.toList
  | .never => false

def gapText (style : Style) (page : Page) (broken : Bool) (depth : Nat) (first : Bool)
    (name : String) : Text :=
  if first then breakText page broken (depth + 1) []
  else (if needsComma style name then [','] else []) ++ breakText page broken (depth + 1) [' ']

def itemsContent (style : Style) (page : Page) (broken : Bool) (depth : Nat) :
    Bool → List Item → Content
  | _, [] => []
  | first, it :: its =>
    .plain (gapText style page broken depth first it.name) ::
      (it.content ++ itemsContent style page broken depth false its)

def listContent (style : Style) (page : Page) (broken : Bool) (depth : Nat) (items : List Item) :
    Content :=
  if items.isEmpty then []
  else .plain ['('] :: (itemsContent style page broken depth true items ++
    [.plain (breakText page broken depth [] ++ [')'])])

/-! ## What becomes of an attribute -/

namespace Attribute

/-- The item that stays in the list. The classes that cannot be shorthand make up one. -/
def item? (style : Style) (a : Attribute) : Option Item :=
  match a.role style.classes with
  | .keep => some ⟨a.name, a.content style.quotes, a.mustEscape⟩
  | .split _ others =>
    if others.isEmpty then none
    else some ⟨a.name, some [.plain (classValue style others)], a.mustEscape⟩
  | _ => none

def ids (style : Style) (a : Attribute) : List Text :=
  match a.role style.classes with
  | .id name => [name]
  | _ => []

def classNames (style : Style) (a : Attribute) : List Text :=
  match a.role style.classes with
  | .split simple _ => simple
  | _ => []

theorem role_ne_merge {style : ClassStyle} (hc : style ≠ .inList) (a : Attribute)
    (classes : List Text) : a.role style ≠ .merge classes := by
  unfold role Role.of
  split
  · split
    · cases style with
      | asIs => simp
      | shorthand => dsimp only; split <;> simp
      | inList => exact absurd rfl hc
    · split <;> simp
  · simp

/-- The item that is written while classes wait. Those go in front of the ones it takes in. -/
def itemWith? (style : Style) (waiting : List Text) (a : Attribute) : Option Item :=
  match a.role style.classes with
  | .merge classes =>
    some ⟨a.name, some [.plain (classValue style (waiting ++ classes))], a.mustEscape⟩
  | _ => a.item? style

theorem itemWith?_eq {style : Style} (hc : style.classes ≠ .inList) (waiting : List Text)
    (a : Attribute) : a.itemWith? style waiting = a.item? style := by
  unfold itemWith?
  split
  · next hr => exact absurd hr (role_ne_merge hc a _)
  · rfl

/-- The classes that still wait behind the attribute. -/
def leaves (style : Style) (waiting : List Text) (a : Attribute) : List Text :=
  match a.role style.classes with
  | .merge _ => []
  | _ => waiting

theorem leaves_nil (style : Style) (a : Attribute) : a.leaves style [] = [] := by
  unfold leaves; split <;> rfl

end Attribute

def idText (ids : List Text) : Text := ids.flatMap ('#' :: ·)

def classText (names : List Text) : Text := names.flatMap ('.' :: ·)

theorem idText_append (ids ids' : List Text) : idText (ids ++ ids') = idText ids ++ idText ids' :=
  List.flatMap_append

theorem classText_append (names names' : List Text) :
    classText (names ++ names') = classText names ++ classText names' := List.flatMap_append

section
variable {ε : Type} (style : Style) (page : Page) (f : Formatter ε) {s : Sheet ε} {x y z : Text}
  {b : Bool} {c : Session ε}

theorem applyAll_gap (o : Outline) (name : String) (s : Sheet ε) :
    Sheet.applyAll page f (if o.written = 0 then [.softBreak (o.depth + 1) []]
      else (if needsComma style name then [.say ","] else []) ++ [.softBreak (o.depth + 1) [' ']]) s =
      s.apply page f (.write [.plain (gapText style page s.broken o.depth (o.written = 0) name)]) := by
  unfold gapText
  by_cases h0 : o.written = 0
  · simp only [h0, if_true, decide_true]
    exact apply_softBreak page f _ _ s
  by_cases hn : needsComma style name = true
  · have hc := apply_write_write page f [.plain [',']]
      [.plain (breakText page s.broken (o.depth + 1) [' '])] s
    simp only [h0, hn, if_true, if_false, decide_false, Bool.false_eq_true]
    exact (apply_softBreak page f _ _ (s.apply page f (.say ","))).trans hc
  · simp only [h0, hn, if_false, decide_false, Bool.false_eq_true]
    exact apply_softBreak page f _ _ s

theorem writeItem_eq (o : Outline) (it : Item) :
    writeItem style it.name it.value it.mustEscape o =
      ((if o.written = 0 then [.softBreak (o.depth + 1) []]
        else (if needsComma style it.name then [.say ","] else []) ++
          [.softBreak (o.depth + 1) [' ']]) ++
        .say it.name :: (match it.value with
          | some k => [.say (if it.mustEscape then "=" else "!="), .write k]
          | none => []), { o with written := o.written + 1 }) := by
  unfold writeItem needsComma
  cases it.value <;> rfl

theorem applyAll_writeItem (o : Outline) (it : Item) (s : Sheet ε) :
    Sheet.applyAll page f (writeItem style it.name it.value it.mustEscape o).1 s =
      s.apply page f (.write (itemsContent style page s.broken o.depth (o.written = 0) [it])) := by
  rw [writeItem_eq, Sheet.applyAll_append, applyAll_gap]
  simp only [itemsContent, Item.content, List.append_nil]
  cases it.value with
  | none => exact apply_write_write page f [.plain _] [.plain it.name.toList] s
  | some k =>
    show (((s.apply page f (.write [.plain _])).apply page f (.write [.plain it.name.toList])).apply
      page f (.write [.plain (if it.mustEscape then "=" else "!=").toList])).apply page f (.write k) = _
    rw [apply_write_write, apply_write_write, apply_write_write]
    rfl

theorem reads_writeItem (h : s.Reads x y z b c) (o : Outline) (it : Item) :
    (Sheet.applyAll page f (writeItem style it.name it.value it.mustEscape o).1 s).Reads x y
      (z ++ ((itemsContent style page b o.depth (o.written = 0) [it]).resolve f c).1) b
      ((itemsContent style page b o.depth (o.written = 0) [it]).resolve f c).2 := by
  rw [applyAll_writeItem, h.broken]
  exact h.write page f _

theorem reads_addClasses (h : s.Reads x y z b c) (names : List Text) :
    (Sheet.applyAll page f (names.map .addClass) s).Reads x (y ++ classText names) z b c := by
  induction names generalizing s y with
  | nil => simpa [classText] using h
  | cons n names ih =>
    have h1 := ih (h.addClass page f n)
    rw [List.append_assoc] at h1
    exact h1

theorem reads_writeAttribute (h : s.Reads x y z b c) (o : Outline) (a : Attribute) :
    let k := itemsContent style page b o.depth (o.written = 0) (a.itemWith? style o.pending).toList
    (Sheet.applyAll page f (writeAttribute style a o).1 s).Reads (x ++ idText (a.ids style))
        (y ++ classText (a.classNames style)) (z ++ (k.resolve f c).1) b (k.resolve f c).2 := by
  unfold writeAttribute Attribute.ids Attribute.classNames Attribute.itemWith? Attribute.item?
  cases hr : a.role style.classes with
  | merge classes =>
    have h1 := reads_writeItem style page f h { o with pending := [] }
      ⟨a.name, some [.plain (classValue style (o.pending ++ classes))], a.mustEscape⟩
    simp only [Option.toList, idText, classText, List.flatMap_nil, List.append_nil]
    exact h1
  | id name =>
    have h1 := h.addId page f name
    simp only [Option.toList, itemsContent, Content.resolve, idText, classText, List.flatMap_nil,
      List.flatMap_singleton, List.append_nil]
    exact h1
  | keep =>
    have h1 := reads_writeItem style page f h o
      ⟨a.name, a.content style.quotes, a.mustEscape⟩
    simp only [Option.toList, idText, classText, List.flatMap_nil, List.append_nil]
    exact h1
  | split simple others =>
    have h1 := reads_addClasses page f h simple
    simp only [idText, List.flatMap_nil, List.append_nil, Sheet.applyAll_append]
    by_cases ho : others.isEmpty = true
    · simp only [ho, if_true, Option.toList, itemsContent, Content.resolve, List.append_nil]
      exact h1
    · have h2 := reads_writeItem style page f h1 o
        ⟨a.name, some [.plain (classValue style others)], a.mustEscape⟩
      simp only [ho, Bool.false_eq_true, if_false, Option.toList]
      exact h2

theorem writeAttribute_outline (o : Outline) (a : Attribute) :
    (writeAttribute style a o).2 =
      { o with
        written := o.written + (a.itemWith? style o.pending).toList.length
        pending := a.leaves style o.pending } := by
  unfold writeAttribute Attribute.leaves Attribute.itemWith? Attribute.item?
  cases hr : a.role style.classes with
  | split simple others =>
    by_cases ho : others.isEmpty = true
    · simp only [ho, if_true]; rfl
    · simp only [ho, Bool.false_eq_true, if_false]; rfl
  | _ => rfl

theorem itemsContent_append (depth : Nat) (first : Bool) (its its' : List Item) :
    itemsContent style page b depth first (its ++ its') =
      itemsContent style page b depth first its ++
        itemsContent style page b depth (first && its.isEmpty) its' := by
  cases its with
  | nil => simp [itemsContent]
  | cons it its =>
    have hf : ∀ its : List Item, itemsContent style page b depth false (its ++ its') =
        itemsContent style page b depth false its ++ itemsContent style page b depth false its' := by
      intro its
      induction its with
      | nil => rfl
      | cons it its ih => simp [itemsContent, ih]
    simp [itemsContent, hf]

end

end PugPretty
