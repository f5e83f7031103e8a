import PugPretty.Edit
import PugPretty.Shorthand

/-!
# The outline and the surroundings of a token

What is written for a token depends on its neighbours and on a few things to be remembered from the
tokens before: the nesting depth, whether a block of text is being read, how far the attribute list
has come, and the classes that wait for a `class` attribute.
-/

namespace PugPretty

/-- How a line of text is read: as part of the markup, or as it stands in a block of text or of
comments. -/
inductive Flow where
  | markup
  | text
  | comment
deriving DecidableEq, Repr, Inhabited

structure Outline where
  depth : Nat := 0
  flow : Flow := .markup
  listOpen : Bool := false
  written : Nat := 0
  /-- Classes that wait for a `class` attribute, in order. -/
  pending : List Text := []
deriving DecidableEq, Repr, Inhabited

structure Site where
  before : Option Token
  token : Token
  rest : List Token

namespace Site

def prev? (s : Site) : Option Kind := s.before.map (·.kind)

def next? (s : Site) : Option Kind := s.rest.head?.map (·.kind)

def opensLine (s : Site) : Bool := s.prev?.all Kind.endsLine

def afterBlankLine (s : Site) : Bool := s.before.any (·.blankLineBetween s.token)

/-- The indentation of a line at the depth. An `indent` has written all levels but the last. -/
def indentation (s : Site) (depth : Nat) : List Edit :=
  match s.prev? with
  | some .newline | some .outdent => [.indent depth]
  | some .indent => [.indent 1]
  | _ => []

end Site

end PugPretty
