import PugPretty.Outline

/-!
# Attribute lists

The parts of a list are written as the tokens of the list come by: the opening, one item for every
attribute that is not moved to shorthand, and the closing. The list is a group, so that the layout
can break it. A list that ends up without items leaves no trace.
-/

namespace PugPretty

open Text

/-! ## The forecast -/

namespace Attribute

/-- Columns of the attribute if it stays as it is. -/
def sourceWidth (a : Attribute) : Nat :=
  let name := a.name.toList.length
  match a.value with
  | .flag true => name
  | .flag false => name + 6
  | .source code => name + 1 + (trim code.toList).length

/-- Columns of the shorthand the attribute is expected to become, and of what is expected to stay. -/
def forecast (style : ClassStyle) (a : Attribute) : Nat × List Nat :=
  match a.expectedRole style with
  | .id n => (1 + n.length, [])
  | .split (c :: cs) others =>
    (total ((c :: cs).map fun c => 1 + c.length),
      if others.isEmpty then []
      else [a.name.toList.length + 1 + (total (others.map List.length) + others.length + 1)])
  | _ => (0, [a.sourceWidth])

end Attribute

/-- The forecast for a list of attributes, with the value of a `class` attribute put in front. -/
def Forecast.of (style : ClassStyle) (run : List Attribute) (extra : Option Text) : Forecast where
  names := run.map (·.name)
  moved := total (run.map fun a => (a.forecast style).1)
  kept := (extra.map fun v => 6 + v.length).toList ++ run.flatMap fun a => (a.forecast style).2

/-! ## Items -/

def writeItem (style : Style) (name : String) (value : Option Content) (mustEscape : Bool)
    (o : Outline) : List Edit × Outline :=
  let comma := match style.separator with
    | .always => true
    | .asNeeded => isAmbiguousName name.toList
    | .never => false
  let gap :=
    if o.written = 0 then [.softBreak (o.depth + 1) []]
    else (if comma then [.say ","] else []) ++ [.softBreak (o.depth + 1) [' ']]
  let sign := if mustEscape then "=" else "!="
  let value := match value with
    | some c => [.say sign, .write c]
    | none => []
  (gap ++ .say name :: value, { o with written := o.written + 1 })

def classValue (style : Style) (classes : List Text) : Text := quote style.quotes (unwords classes)

def flushPending (style : Style) (o : Outline) : List Edit × Outline :=
  if o.pending.isEmpty then ([], o)
  else ([.put ("(class=".toList ++ classValue style o.pending ++ [')'])], { o with pending := [] })

/-! ## The three tokens of a list -/

/-- Opens a list with these attributes. Waiting classes that no attribute of the list will take in
become its first item; without attributes they become a list of their own. -/
def openList (style : Style) (run : List Attribute) (o : Outline) : List Edit × Outline :=
  let o := { o with written := 0 }
  if run.isEmpty then
    let (es, o) := flushPending style o
    (.endGroup :: es, o)
  else
    let taken := run.any fun a => a.name == "class" && a.value.body?.isSome
    let extra :=
      if style.classes = .inList ∧ o.pending ≠ [] ∧ taken = false then
        some (classValue style o.pending)
      else none
    let start := [.markClass, .say "(", .beginGroup (.of style.classes run extra)]
    let o := { o with listOpen := true }
    match extra with
    | none => (start, o)
    | some v =>
      let (es, o) := writeItem style "class" (some [.plain v]) true { o with pending := [] }
      (start ++ es, o)

def writeAttribute (style : Style) (a : Attribute) (o : Outline) : List Edit × Outline :=
  let classItem (classes : List Text) :=
    writeItem style a.name (some [.plain (classValue style classes)]) a.mustEscape
  match a.role style.classes with
  | .split simple others =>
    let (es, o) := if others.isEmpty then ([], o) else classItem others o
    (simple.map .addClass ++ es, o)
  | .merge classes => classItem (o.pending ++ classes) { o with pending := [] }
  | .id name => ([.addId name], o)
  | .keep => writeItem style a.name (a.content style.quotes) a.mustEscape o

def closeList (s : Site) (o : Outline) : List Edit × Outline :=
  let close :=
    if !o.listOpen then []
    else if o.written = 0 then [.dropOpenParen]
    else [.softBreak o.depth [], .say ")"]
  let space := match s.next? with
    | some (.text _) | some (.path _) => [.say " "]
    | _ => []
  (close ++ .endGroup :: space, { o with listOpen := false, written := 0 })

end PugPretty
