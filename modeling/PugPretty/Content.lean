import PugPretty.Request
import PugPretty.Text.Mustache

/-!
# Content

What is written between marks of the template: text that is known, and code whose text is the
answer to a request. The requests of a content are known before any of them is answered.
-/

namespace PugPretty

inductive Part where
  | plain (t : Text)
  | code (r : Request)
deriving DecidableEq, Repr

abbrev Content := List Part

def Part.request? : Part → Option Request
  | .plain _ => none
  | .code r => some r

namespace Content

def requests (c : Content) : List Request := c.filterMap Part.request?

variable {ε : Type}

/-- The text of the parts in order, each request made in its turn. -/
def resolve (f : Formatter ε) : Content → Session ε → Text × Session ε
  | [], s => ([], s)
  | .plain t :: ps, s =>
    let (u, s) := resolve f ps s
    (t ++ u, s)
  | .code r :: ps, s =>
    let (t, s) := s.resolve f r
    let (u, s) := resolve f ps s
    (t ++ u, s)

end Content

/-! ## Embedded code -/

def expression (q : Quotes) (g : Grammar) (code : Text) : Content :=
  if Text.isBlankText code then []
  else [.code ⟨String.ofList (Text.trim code), embeddedWidth, q.opposite, g, false⟩]

def statement (q : Quotes) (semicolons : Bool) (code : Text) : Content :=
  [.code ⟨String.ofList code, embeddedWidth, q.opposite, .statement, semicolons⟩]

def mustacheContent (q : Quotes) (t : Text) : Content :=
  (Text.pieces t).flatMap fun
    | .plain t => [.plain t]
    | .code c => .plain ['{', '{', ' '] :: expression q .expression c ++ [.plain [' ', '}', '}']]
    | .unclosed t => [.plain ('{' :: '{' :: t)]

end PugPretty
