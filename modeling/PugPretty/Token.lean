/-!
# Tokens

A template arrives as the list of tokens its lexer cut it into. Every token has a kind, which carries
the text that matters, and the range of source lines it came from.
-/

namespace PugPretty

/-! ## Locations -/

structure Position where
  line : Nat := 0
  column : Nat := 0
deriving DecidableEq, Repr, Inhabited

structure Span where
  start : Position := {}
  stop : Position := {}
deriving DecidableEq, Repr, Inhabited

/-- The range that covers one line, without columns. -/
def Span.onLine (line : Nat) : Span := ⟨⟨line, 0⟩, ⟨line, 0⟩⟩

/-! ## Kinds -/

/-- An attribute without a value is a flag that is set; any other value is the text in the source,
quotes included. -/
inductive AttrValue where
  | flag (set : Bool)
  | source (code : String)
deriving DecidableEq, Repr, Inhabited

structure Attribute where
  name : String
  value : AttrValue
  mustEscape : Bool
deriving DecidableEq, Repr, Inhabited

inductive BlockMode where
  | replace
  | append
  | prepend
deriving DecidableEq, Repr, Inhabited

inductive Keyword where
  | mixinBlock
  | elseBranch
  | defaultBranch
  | codeBlock
  | yieldBlock
deriving DecidableEq, Repr, Inhabited

/-- Keywords that are followed by an expression, except the plain condition. -/
inductive Clause where
  | elseIf
  | whileLoop
  | caseOf
  | whenCase
deriving DecidableEq, Repr, Inhabited

inductive Kind where
  | tag (name : String)
  | startAttributes
  | attr (a : Attribute)
  | endAttributes
  | className (name : String)
  | idName (name : String)
  | text (val : String)
  | interpolatedCode (code : String) (mustEscape buffer : Bool)
  | code (code : String) (mustEscape buffer : Bool)
  | indent
  | outdent
  | newline
  | comment (body : String) (buffer : Bool)
  | startPipeless
  | endPipeless
  | doctype (name : Option String)
  | dot
  | block (name : String) (mode : BlockMode)
  | extending
  | including
  | path (file : String)
  | filter (name : String)
  /-- The opening `#[` of a tag inside a line of text. -/
  | startInline
  | endInline
  | interpolation (code : String)
  | call (name : String) (args : Option String)
  | mixin (name : String) (args : Option String)
  | condition (test : String)
  | each (item : String) (key : Option String) (code : String)
  | eachOf (item : String) (code : String)
  | keyword (word : Keyword)
  | clause (word : Clause) (operand : String)
  | andAttributes (code : String)
  | html (source : String)
  | colon
  | slash
  | eos
deriving DecidableEq, Repr, Inhabited

structure Token where
  kind : Kind
  span : Span := {}
deriving DecidableEq, Repr, Inhabited

namespace Kind

def endsLine : Kind → Bool
  | newline | indent | outdent => true
  | _ => false

def isText : Kind → Bool
  | text _ => true
  | _ => false

def isInlineCode : Kind → Bool
  | interpolatedCode .. | startInline => true
  | _ => false

end Kind

def attributeRun : List Token → List Attribute
  | ⟨.attr a, _⟩ :: ts => a :: attributeRun ts
  | _ => []

def Token.blankLineBetween (before after : Token) : Bool :=
  1 < after.span.start.line - before.span.stop.line

end PugPretty
