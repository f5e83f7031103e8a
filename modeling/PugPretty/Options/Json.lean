import PugPretty.Json
import PugPretty.Options

/-!
# Options as JSON

All options are fields of one object. Each may be missing and then has its default; fields that are
not known are ignored.
-/

namespace PugPretty

open Json

/-! ## Choices -/

def LineBreak.choice : Choice LineBreak where
  all := [.lf, .crlf]
  name
    | .lf => "lf"
    | .crlf => "crlf"
  mem_all a := by cases a <;> simp
  name_inj a b := by cases a <;> cases b <;> simp

def Quotes.choice : Choice Quotes where
  all := [.double, .single]
  name
    | .double => "double"
    | .single => "single"
  mem_all a := by cases a <;> simp
  name_inj a b := by cases a <;> cases b <;> simp

def Separator.choice : Choice Separator where
  all := [.always, .asNeeded, .never]
  name
    | .always => "always"
    | .asNeeded => "as-needed"
    | .never => "none"
  mem_all a := by cases a <;> simp
  name_inj a b := by cases a <;> cases b <;> simp

def ClassStyle.choice : Choice ClassStyle where
  all := [.asIs, .shorthand, .inList]
  name
    | .asIs => "as-is"
    | .shorthand => "literal"
    | .inList => "attribute"
  mem_all a := by cases a <;> simp
  name_inj a b := by cases a <;> cases b <;> simp

def CommentBlanks.choice : Choice CommentBlanks where
  all := [.keepAll, .keepLeading, .trimAll]
  name
    | .keepAll => "keep-all"
    | .keepLeading => "keep-leading"
    | .trimAll => "trim-all"
  mem_all a := by cases a <;> simp
  name_inj a b := by cases a <;> cases b <;> simp

def NameOrder.choice : Choice NameOrder where
  all := [.asIs, .ascending, .descending]
  name
    | .asIs => "as-is"
    | .ascending => "asc"
    | .descending => "desc"
  mem_all a := by cases a <;> simp
  name_inj a b := by cases a <;> cases b <;> simp

def LineBreak.toJson : LineBreak → Json := choice.toJson

def LineBreak.ofJson? : Json → Option LineBreak := choice.ofJson?

def Quotes.toJson : Quotes → Json := choice.toJson

def Quotes.ofJson? : Json → Option Quotes := choice.ofJson?

def Separator.toJson : Separator → Json := choice.toJson

def Separator.ofJson? : Json → Option Separator := choice.ofJson?

def ClassStyle.toJson : ClassStyle → Json := choice.toJson

def ClassStyle.ofJson? : Json → Option ClassStyle := choice.ofJson?

def CommentBlanks.toJson : CommentBlanks → Json := choice.toJson

def CommentBlanks.ofJson? : Json → Option CommentBlanks := choice.ofJson?

def NameOrder.toJson : NameOrder → Json := choice.toJson

def NameOrder.ofJson? : Json → Option NameOrder := choice.ofJson?

/-! ## The two groups -/

def Layout.fields (l : Layout) : Fields :=
  [("printWidth", nat l.width),
   ("useTabs", bool l.useTabs),
   ("indentWidth", nat l.indentWidth),
   ("lineBreak", l.lineBreak.toJson),
   ("wrapAttributesThreshold", int l.wrapThreshold),
   ("wrapAttributesPattern", opt str l.wrapPattern)]

def Layout.ofFields? (fs : Fields) : Option Layout := do
  let d : Layout := {}
  return {
    width := ← fs.getD "printWidth" nat? d.width
    useTabs := ← fs.getD "useTabs" bool? d.useTabs
    indentWidth := ← fs.getD "indentWidth" nat? d.indentWidth
    lineBreak := ← fs.getD "lineBreak" LineBreak.ofJson? d.lineBreak
    wrapThreshold := ← fs.getD "wrapAttributesThreshold" int? d.wrapThreshold
    wrapPattern := ← fs.getD "wrapAttributesPattern" (nullable? str?) d.wrapPattern }

def Style.fields (s : Style) : Fields :=
  [("quotes", s.quotes.toJson),
   ("attributeSeparator", s.separator.toJson),
   ("classNotation", s.classes.toJson),
   ("commentPreserveSpaces", s.comments.toJson),
   ("explicitDiv", bool s.explicitDiv),
   ("semi", bool s.semicolons),
   ("sortAttributes", s.order.toJson),
   ("sortAttributesBeginning", strs s.leading),
   ("sortAttributesEnd", strs s.trailing),
   ("insertPragma", bool s.pragma)]

def Style.ofFields? (fs : Fields) : Option Style := do
  let d : Style := {}
  return {
    quotes := ← fs.getD "quotes" Quotes.ofJson? d.quotes
    separator := ← fs.getD "attributeSeparator" Separator.ofJson? d.separator
    classes := ← fs.getD "classNotation" ClassStyle.ofJson? d.classes
    comments := ← fs.getD "commentPreserveSpaces" CommentBlanks.ofJson? d.comments
    explicitDiv := ← fs.getD "explicitDiv" bool? d.explicitDiv
    semicolons := ← fs.getD "semi" bool? d.semicolons
    order := ← fs.getD "sortAttributes" NameOrder.ofJson? d.order
    leading := ← fs.getD "sortAttributesBeginning" strs? d.leading
    trailing := ← fs.getD "sortAttributesEnd" strs? d.trailing
    pragma := ← fs.getD "insertPragma" bool? d.pragma }

def Options.toJson (o : Options) : Json := obj (o.layout.fields ++ o.style.fields)

def Options.ofJson? (j : Json) : Option Options := do
  let fs ← j.obj?
  return { layout := ← Layout.ofFields? fs, style := ← Style.ofFields? fs }

end PugPretty
