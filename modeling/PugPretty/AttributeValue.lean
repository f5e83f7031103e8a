import PugPretty.Content
import PugPretty.Token

/-!
# Attribute values

The name of an attribute tells which grammar its value is in: directives of the two template
frameworks hold code even between quotes. Otherwise a quoted value is a string, or a single mustache
span, and an unquoted value is an expression.
-/

namespace PugPretty

open Text

def vueMarks : List Text :=
  [":", "v-bind:", "v-slot:", "v-model", "v-on", "@"].map String.toList

/-- The grammar of the code in a directive's value; no grammar if the name is not a directive. -/
def Grammar.ofDirective? (name : Text) : Option Grammar :=
  if vueMarks.any (·.isPrefixOf name) then some .vueExpression
  else if (betweenOnLine? ['('] [')'] name).isSome || (betweenOnLine? ['['] [']'] name).isSome then
    some .angularBinding
  else if name.head? == some '*' then some .angularDirective
  else none

example : Grammar.ofDirective? "v-on:click".toList = some .vueExpression := by decide

example : Grammar.ofDirective? "[(model)]".toList = some .angularBinding := by decide

example : Grammar.ofDirective? "v-bind".toList = none := by decide

/-- A name that could be taken for a part of the value before it. -/
def isAmbiguousName (name : Text) : Bool :=
  name.head?.any fun c => c == '(' || c == '[' || c == ':'

/-- The inside of a quoted value that is one mustache span; the quotes may differ. -/
def mustacheValue? : Text → Option Text
  | q :: r =>
    if isQuote q && r.getLast?.any isQuote then betweenOnLine? ['{', '{'] ['}', '}'] r.dropLast
    else none
  | [] => none

/-- The value as it is written after the name, or nothing if the name alone is written. -/
def sourceContent (q : Quotes) (name : Text) (mustEscape : Bool) (source : Text) :
    Option Content :=
  let v := trim source
  match Grammar.ofDirective? name with
  | some g =>
    match unquote? v with
    | some code => some (.plain [q.char] :: expression q g code ++ [.plain [q.char]])
    | none => some (expression q g v)
  | none =>
    match mustacheValue? v, unquote? v with
    | some code, _ =>
      some [.plain (q.char :: '{' :: '{' :: ' ' :: collapse (trim code) ++ [' ', '}', '}', q.char])]
    | none, some body => some [.plain (quote q body)]
    | none, none =>
      if v = "true".toList then none
      else if mustEscape then some (expression q .expression v)
      else
        let line := collapse v
        match ['{', ' '].isPrefixOf? line with
        | some r => some [.plain ('{' :: r)]
        | none => some [.plain line]

/-- A flag that is set has no value; one that is not set has the value `false`. -/
def Attribute.content (q : Quotes) (a : Attribute) : Option Content :=
  match a.value with
  | .flag true => none
  | .flag false => some [.plain "false".toList]
  | .source code => sourceContent q a.name.toList a.mustEscape code.toList

end PugPretty
