import PugPretty.Options

/-!
# Requests for embedded code

Code inside a template is not formatted here. A `Request` hands it to a formatter that is given from
outside. That formatter may keep a state, so its answer can depend on the requests made before.
`Session` is the record of such a conversation: all requests in order, and the first failure that
counts. A statement that cannot be formatted is printed as it is and is no failure.
-/

namespace PugPretty

inductive Grammar where
  | expression
  | vueExpression
  | angularBinding
  | angularDirective
  | statement
deriving DecidableEq, Repr, Inhabited

/-- A piece of code with what the formatter has to know about its place. Code inside a value uses
the quotes that do not stand around the value. -/
structure Request where
  code : String
  width : Nat
  quotes : Quotes
  grammar : Grammar
  semicolons : Bool
deriving DecidableEq, Repr, Inhabited

/-- Wide enough that no code is broken over lines for its width. -/
def embeddedWidth : Nat := 9000

/-- Answers a request, given the requests before it, oldest first. -/
abbrev Formatter (ε : Type) := List Request → Request → Except ε String

structure Session (ε : Type) where
  requests : List Request := []
  /-- The first failure together with the code that caused it. -/
  failure : Option (ε × String) := none

namespace Session

variable {ε : Type}

def ask (f : Formatter ε) (r : Request) (s : Session ε) : Except ε String × Session ε :=
  (f s.requests r, { s with requests := s.requests ++ [r] })

def fail (e : ε) (r : Request) (s : Session ε) : Session ε :=
  { s with failure := s.failure.or (some (e, r.code)) }

end Session

/-! ## What is made of an answer -/

def expressionText (answer : Text) : Text :=
  Text.joinLines (Text.dropEndWhile (· == ';') (Text.trim answer))

example : expressionText "foo(\n  a,\n  b\n);\n".toList = "foo(a,b)".toList := by decide

/-- A statement is printed as answered, without one final line feed, unless it takes several lines;
then it stays as it was. -/
def statementText (code answer : Text) : Text :=
  let line := (['\n'].isSuffixOf? answer).getD answer
  if Text.isOneLine line then line else code

namespace Session

variable {ε : Type}

def resolve (f : Formatter ε) (r : Request) (s : Session ε) : Text × Session ε :=
  let code := r.code.toList
  match r.grammar, s.ask f r with
  | .statement, (.ok a, s) => (statementText code a.toList, s)
  | .statement, (.error _, s) => (code, s)
  | _, (.ok a, s) => (expressionText a.toList, s)
  | _, (.error e, s) => (expressionText code, s.fail e r)

end Session

end PugPretty
