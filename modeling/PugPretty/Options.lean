import PugPretty.Text.Quoted

/-!
# Options

Options come in two groups. The layout decides only where blanks and line breaks go. The style
decides everything else that is printed.
-/

namespace PugPretty

/-! ## Layout -/

inductive LineBreak where
  | lf
  | crlf
deriving DecidableEq, Repr, Inhabited

/-- Where blanks and line breaks go. A list is broken over several lines when it does not fit
`width` columns, when it holds more attributes than a `wrapThreshold` that is not negative, or when
one of its names matches `wrapPattern`. -/
structure Layout where
  width : Nat := 80
  useTabs : Bool := false
  indentWidth : Nat := 2
  lineBreak : LineBreak := .lf
  wrapThreshold : Int := -1
  wrapPattern : Option String := none
deriving DecidableEq, Repr, Inhabited

/-- A level of indentation is one tab or `indentWidth` spaces. -/
def Layout.indentChar (l : Layout) : Char := if l.useTabs then '\t' else ' '

def Layout.indentLength (l : Layout) : Nat := if l.useTabs then 1 else l.indentWidth

/-! ## Style -/

/-- Which attributes of a list have a comma in front: all but the first, of those only the ones
whose name could be read as part of the value before it, or none. -/
inductive Separator where
  | always
  | asNeeded
  | never
deriving DecidableEq, Repr, Inhabited

/-- Classes and ids stay as they are written, move to shorthand where they can, or (classes only)
move to a `class` attribute. -/
inductive ClassStyle where
  | asIs
  | shorthand
  | inList
deriving DecidableEq, Repr, Inhabited

inductive CommentBlanks where
  | keepAll
  | keepLeading
  | trimAll
deriving DecidableEq, Repr, Inhabited

/-- How attributes are ordered that no pattern claims. -/
inductive NameOrder where
  | asIs
  | ascending
  | descending
deriving DecidableEq, Repr, Inhabited

structure Style where
  quotes : Quotes := .double
  separator : Separator := .asNeeded
  classes : ClassStyle := .shorthand
  comments : CommentBlanks := .keepAll
  explicitDiv : Bool := false
  semicolons : Bool := true
  order : NameOrder := .asIs
  /-- Patterns of the names that come first, in this order. -/
  leading : List String := []
  /-- Patterns of the names that come last, in this order. -/
  trailing : List String := []
  pragma : Bool := false
deriving DecidableEq, Repr, Inhabited

structure Options where
  layout : Layout := {}
  style : Style := {}
deriving DecidableEq, Repr, Inhabited

end PugPretty
