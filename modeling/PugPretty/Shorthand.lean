import PugPretty.AttributeValue

/-!
# Shorthand

Classes and ids can be written after the tag name, a class behind a dot and an id behind a hash. Only
names of a simple shape can. `Role.of` says what an attribute is to become under a class style.
-/

namespace PugPretty

open Text

def isNameStart (c : Char) : Bool := c.isAlpha || c == '_'

def isNameChar (c : Char) : Bool := c.isAlphanum || c == '_' || c == '-'

/-- A name that can stand in shorthand: an optional hyphen, a letter or underscore, then letters,
digits, underscores and hyphens, all in ASCII. -/
def isSimpleName : Text → Bool
  | '-' :: c :: r => isNameStart c && r.all isNameChar
  | c :: r => isNameStart c && r.all isNameChar
  | [] => false

example : isSimpleName "-foo_bar-1".toList = true := by decide

example : [[], ['-'], "1foo".toList, "md:flex".toList].any isSimpleName = false := by decide

inductive Role where
  /-- Its classes that have simple names become shorthand, the others stay in the list. -/
  | split (simple others : List Text)
  /-- Its classes are written after the ones that are waiting for a `class` attribute. -/
  | merge (classes : List Text)
  | id (name : Text)
  | keep
deriving DecidableEq, Repr

def Role.of (style : ClassStyle) (name : String) (body : Text) : Role :=
  if name = "class" then
    match style with
    | .asIs => .keep
    | .shorthand =>
      if isBlankText body then .keep
      else .split ((words body).filter isSimpleName) ((words body).filter (!isSimpleName ·))
    | .inList => .merge (words body)
  else if name = "id" ∧ style ≠ .asIs ∧ isSimpleName (trim body) = true then .id (trim body)
  else .keep

namespace Role

def isShorthand : Role → Bool
  | split simple _ => !simple.isEmpty
  | id _ => true
  | _ => false

end Role

/-! ## Roles of attributes -/

/-- The text between the quotes of a value that is quoted, blanks around it aside. -/
def AttrValue.body? : AttrValue → Option Text
  | .flag _ => none
  | .source code => unquote? (trim code.toList)

/-- The text between the quotes of a value without blanks around it. -/
def AttrValue.tightBody? : AttrValue → Option Text
  | .flag _ => none
  | .source code => unquote? code.toList

namespace Attribute

def role (style : ClassStyle) (a : Attribute) : Role :=
  match a.value.body? with
  | some body => .of style a.name body
  | none => .keep

/-- What the attribute is expected to become before it is read. Of a value with blanks around its
quotes nothing is expected. -/
def expectedRole (style : ClassStyle) (a : Attribute) : Role :=
  match a.value.tightBody? with
  | some body => .of style a.name body
  | none => .keep

end Attribute

end PugPretty
