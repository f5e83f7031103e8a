import PugPretty.Text.Basic

/-!
# Quoted text

A value counts as quoted when it begins and ends with the same quote. `quote` writes a body between
the quotes of the chosen style: the style's own quote is escaped, and the escape of the other quote,
which is needless now, is dropped. Every other escape stays as it is.
-/

namespace PugPretty

inductive Quotes where
  | double
  | single
deriving DecidableEq, Repr, Inhabited

namespace Quotes

def char : Quotes → Char
  | double => '"'
  | single => '\''

def opposite : Quotes → Quotes
  | double => single
  | single => double

end Quotes

namespace Text

def isQuote (c : Char) : Bool := c == '"' || c == '\''

def unquote? : Text → Option Text
  | q :: r => if isQuote q && r.getLast? == some q then some r.dropLast else none
  | [] => none

example : unquote? "'a b'".toList = some "a b".toList := by decide

example : unquote? "\"a'".toList = none := by decide

example : unquote? ['"'] = none := by decide

/-- The body as it reads between the quotes of the style. -/
def requoted (q : Quotes) : Text → Text
  | [] => []
  | '\\' :: c :: r =>
    if c = q.opposite.char then c :: requoted q r else '\\' :: c :: requoted q r
  | c :: r => if c = q.char then '\\' :: c :: requoted q r else c :: requoted q r

def quote (q : Quotes) (body : Text) : Text :=
  q.char :: (requoted q body ++ [q.char])

example : quote .single "it's".toList = "'it\\'s'".toList := by decide

example : quote .single "say \\\"hi\\\"".toList = "'say \"hi\"'".toList := by decide

example : quote .double "a\\nb\\".toList = "\"a\\nb\\\"".toList := by decide

end Text

end PugPretty
