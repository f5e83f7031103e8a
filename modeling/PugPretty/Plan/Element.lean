import PugPretty.Plan.AttributeList

/-!
# Elements

An element begins with a tag, or with a class or an id that opens a line. Shorthand is not written
where its token stands but behind the name of the element, so the name is followed by a mark.
-/

namespace PugPretty

/-! ## Tags -/

/-- Whether shorthand is expected to follow, so that the name `div` is implied. -/
def impliesDiv (style : ClassStyle) (s : Site) : Bool :=
  match s.next? with
  | some (.idName _) => true
  | some (.className _) => style ≠ .inList
  | some .startAttributes => (attributeRun s.rest.tail).any fun a => (a.expectedRole style).isShorthand
  | _ => false

def tagEdits (style : Style) (s : Site) (o : Outline) (name : String) : List Edit :=
  let name :=
    if name ≠ "div" ∨ style.explicitDiv = true ∨ impliesDiv style.classes s = false then [.say name]
    else []
  s.indentation o.depth ++ name ++ [.mark]

/-! ## Shorthand tokens -/

def headContinues (s : Site) : Bool :=
  match s.next? with
  | some (.className _) | some (.idName _) | some .startAttributes => true
  | _ => false

/-- Writes the waiting classes when the head of the element ends without a list to put them in. -/
def flushAtHeadEnd (style : Style) (s : Site) (o : Outline) : List Edit × Outline :=
  if headContinues s then ([], o) else flushPending style o

def classEdits (style : Style) (s : Site) (o : Outline) (name : Text) : List Edit × Outline :=
  let lead :=
    if s.opensLine then
      s.indentation o.depth ++ (if style.classes = .inList then [.say "div"] else []) ++ [.mark]
    else []
  let (es, o) :=
    if style.classes = .inList then
      flushAtHeadEnd style s { o with pending := o.pending ++ [name] }
    else ([.addClass name], o)
  let space := if s.next?.any Kind.isText then [.say " "] else []
  (lead ++ es ++ space, o)

def idEdits (style : Style) (s : Site) (o : Outline) (name : Text) : List Edit × Outline :=
  let lead := if s.opensLine then s.indentation o.depth ++ [.mark] else []
  let (es, o) := flushAtHeadEnd style s o
  (lead ++ .addId name :: es, o)

end PugPretty
