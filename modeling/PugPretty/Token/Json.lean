import PugPretty.Json
import PugPretty.Token

/-!
# Tokens as JSON

A token is an object with its type, the fields of its type and its location. Fields that are not
known are ignored. A location may be missing; then it is all zeros. An optional field may be missing
or `null`; it is always written. A type may also be given by its number, and a location and its ends
by the list of their parts.
-/

namespace PugPretty

open Json

/-! ## Locations -/

def Position.toJson (p : Position) : Json := obj [("line", nat p.line), ("column", nat p.column)]

def Position.ofJson? : Json → Option Position
  | .obj fs => do
    return { line := ← Fields.need fs "line" nat?, column := ← Fields.need fs "column" nat? }
  | .arr [line, column] => do return { line := ← line.nat?, column := ← column.nat? }
  | _ => none

def Span.toJson (s : Span) : Json := obj [("start", s.start.toJson), ("end", s.stop.toJson)]

def Span.ofJson? : Json → Option Span
  | .obj fs => do
    let start ← Fields.need fs "start" Position.ofJson?
    return { start, stop := ← Fields.need fs "end" Position.ofJson? }
  | .arr [start, stop] => do
    return { start := ← Position.ofJson? start, stop := ← Position.ofJson? stop }
  | _ => none

/-! ## Values -/

def AttrValue.toJson : AttrValue → Json
  | flag b => bool b
  | source s => str s

def AttrValue.ofJson? : Json → Option AttrValue
  | .bool b => some (flag b)
  | .str s => some (source s)
  | _ => none

def BlockMode.choice : Choice BlockMode where
  all := [.replace, .append, .prepend]
  name
    | .replace => "replace"
    | .append => "append"
    | .prepend => "prepend"
  mem_all a := by cases a <;> simp
  name_inj a b := by cases a <;> cases b <;> simp

def BlockMode.toJson : BlockMode → Json := choice.toJson

def BlockMode.ofJson? : Json → Option BlockMode := choice.ofJson?

/-! ## Kinds -/

def Keyword.type : Keyword → String
  | mixinBlock => "mixin-block"
  | elseBranch => "else"
  | defaultBranch => "default"
  | codeBlock => "blockcode"
  | yieldBlock => "yield"

def Clause.type : Clause → String
  | elseIf => "else-if"
  | whileLoop => "while"
  | caseOf => "case"
  | whenCase => "when"

namespace Kind

/-- The value of the field `type`. No two kinds share one. -/
def type : Kind → String
  | tag _ => "tag"
  | startAttributes => "start-attributes"
  | attr _ => "attribute"
  | endAttributes => "end-attributes"
  | className _ => "class"
  | idName _ => "id"
  | text _ => "text"
  | interpolatedCode .. => "interpolated-code"
  | code .. => "code"
  | indent => "indent"
  | outdent => "outdent"
  | newline => "newline"
  | comment .. => "comment"
  | startPipeless => "start-pipeless-text"
  | endPipeless => "end-pipeless-text"
  | doctype _ => "doctype"
  | dot => "dot"
  | block .. => "block"
  | extending => "extends"
  | including => "include"
  | path _ => "path"
  | filter _ => "filter"
  | startInline => "start-pug-interpolation"
  | endInline => "end-pug-interpolation"
  | interpolation _ => "interpolation"
  | call .. => "call"
  | mixin .. => "mixin"
  | condition _ => "if"
  | each .. => "each"
  | eachOf .. => "eachOf"
  | keyword w => w.type
  | clause w _ => w.type
  | andAttributes _ => "&attributes"
  | html _ => "text-html"
  | colon => ":"
  | slash => "slash"
  | eos => "eos"

/-- All types by their numbers. -/
def types : List String :=
  ["tag", "start-attributes", "attribute", "end-attributes", "class", "id", "text",
    "interpolated-code", "code", "indent", "outdent", "newline", "comment", "start-pipeless-text",
    "end-pipeless-text", "doctype", "dot", "block", "extends", "include", "path", "filter",
    "start-pug-interpolation", "end-pug-interpolation", "interpolation", "call", "mixin",
    "mixin-block", "if", "else-if", "else", "each", "eachOf", "while", "case", "when", "default",
    "&attributes", "text-html", ":", "blockcode", "yield", "slash", "eos"]

def typeOfJson? : Json → Option String
  | .str type => some type
  | j => j.nat?.bind fun n => types[n]?

def fields : Kind → Fields
  | attr a =>
    [("name", str a.name), ("val", a.value.toJson), ("mustEscape", bool a.mustEscape)]
  | interpolatedCode val mustEscape buffer =>
    [("val", str val), ("mustEscape", bool mustEscape), ("buffer", bool buffer)]
  | code val mustEscape buffer =>
    [("val", str val), ("mustEscape", bool mustEscape), ("buffer", bool buffer)]
  | comment val buffer => [("val", str val), ("buffer", bool buffer)]
  | doctype val => [("val", opt str val)]
  | block val mode => [("val", str val), ("mode", mode.toJson)]
  | call val args => [("val", str val), ("args", opt str args)]
  | mixin val args => [("val", str val), ("args", opt str args)]
  | each val key list => [("val", str val), ("key", opt str key), ("code", str list)]
  | eachOf val list => [("val", str val), ("code", str list)]
  | tag val | className val | idName val | text val | path val | filter val | interpolation val
  | condition val | clause _ val | andAttributes val | html val => [("val", str val)]
  | startAttributes | endAttributes | indent | outdent | newline | startPipeless | endPipeless
  | dot | extending | including | startInline | endInline | keyword _ | colon | slash | eos => []

def ofFields? (type : String) (fs : Fields) : Option Kind :=
  let val := fs.need "val" str?
  let optional (key : String) := fs.getD key (nullable? str?) none
  match type with
  | "tag" => val.map tag
  | "start-attributes" => some startAttributes
  | "attribute" => do
    let name ← fs.need "name" str?
    let value ← fs.need "val" AttrValue.ofJson?
    return attr ⟨name, value, ← fs.need "mustEscape" bool?⟩
  | "end-attributes" => some endAttributes
  | "class" => val.map className
  | "id" => val.map idName
  | "text" => val.map text
  | "interpolated-code" => do
    return interpolatedCode (← val) (← fs.need "mustEscape" bool?) (← fs.need "buffer" bool?)
  | "code" => do
    return code (← val) (← fs.need "mustEscape" bool?) (← fs.need "buffer" bool?)
  | "indent" => some indent
  | "outdent" => some outdent
  | "newline" => some newline
  | "comment" => do return comment (← val) (← fs.need "buffer" bool?)
  | "start-pipeless-text" => some startPipeless
  | "end-pipeless-text" => some endPipeless
  | "doctype" => do return doctype (← optional "val")
  | "dot" => some dot
  | "block" => do return block (← val) (← fs.need "mode" BlockMode.ofJson?)
  | "extends" => some extending
  | "include" => some including
  | "path" => val.map path
  | "filter" => val.map filter
  | "start-pug-interpolation" => some startInline
  | "end-pug-interpolation" => some endInline
  | "interpolation" => val.map interpolation
  | "call" => do return call (← val) (← optional "args")
  | "mixin" => do return mixin (← val) (← optional "args")
  | "mixin-block" => some (keyword .mixinBlock)
  | "if" => val.map condition
  | "else-if" => val.map (clause .elseIf)
  | "else" => some (keyword .elseBranch)
  | "each" => do return each (← val) (← optional "key") (← fs.need "code" str?)
  | "eachOf" => do return eachOf (← val) (← fs.need "code" str?)
  | "while" => val.map (clause .whileLoop)
  | "case" => val.map (clause .caseOf)
  | "when" => val.map (clause .whenCase)
  | "default" => some (keyword .defaultBranch)
  | "&attributes" => val.map andAttributes
  | "text-html" => val.map html
  | ":" => some colon
  | "blockcode" => some (keyword .codeBlock)
  | "yield" => some (keyword .yieldBlock)
  | "slash" => some slash
  | "eos" => some eos
  | _ => none

end Kind

/-! ## Tokens -/

def Token.toJson (t : Token) : Json :=
  obj (("type", str t.kind.type) :: t.kind.fields ++ [("loc", t.span.toJson)])

def Token.ofJson? (j : Json) : Option Token := do
  let fs ← j.obj?
  let type ← fs.need "type" Kind.typeOfJson?
  let kind ← Kind.ofFields? type fs
  return { kind, span := ← fs.getD "loc" Span.ofJson? {} }

/-- A list of tokens; one that cannot be read spoils the list. -/
def Token.listOfJson? (j : Json) : Option (List Token) := j.arr?.bind fun js => js.mapM Token.ofJson?

end PugPretty
