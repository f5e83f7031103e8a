import PugPretty.Plan.Element
import PugPretty.Plan.TextLine
import PugPretty.Html

/-!
# The plan

`plan` turns tokens into edits. It reads the tokens once from left to right, looking at the
neighbours of each, and carries an `Outline`. What has been written when the first `k` tokens are
done is `siteEdits` of the first `k` sites.
-/

namespace PugPretty

open Text

/-! ## Lines that begin with a word -/

def Keyword.word : Keyword → String
  | .mixinBlock => "block"
  | .elseBranch => "else"
  | .defaultBranch => "default"
  | .codeBlock => "-"
  | .yieldBlock => "yield"

def Clause.word : Clause → String
  | .elseIf => "else if"
  | .whileLoop => "while"
  | .caseOf => "case"
  | .whenCase => "when"

def BlockMode.word : BlockMode → String
  | .replace => ""
  | .append => "append "
  | .prepend => "prepend "

/-- A condition that is a negation on one line reads `unless`. -/
def conditionLine (test : Text) : Text :=
  match betweenOnLine? ['!', '('] [')'] test with
  | some t => "unless ".toList ++ t
  | none => "if ".toList ++ test

def argumentList (args : Option String) : Text :=
  match args.map fun a => trim a.toList with
  | none | some [] => []
  | some t => '(' :: collapse t ++ [')']

def eachLine (item : String) (key : Option String) (code : String) : String :=
  match key with
  | some k => "each " ++ item ++ ", " ++ k ++ " in " ++ code
  | none => "each " ++ item ++ " in " ++ code

/-! ## Code -/

/-- What separates inline code from the token before it: a space after the head of an element, a pipe
at the start of a line or of an inline tag. -/
def inlineCodeLead (s : Site) (o : Outline) : List Edit :=
  match s.prev? with
  | some (.tag _) | some (.className _) | some (.idName _) | some .endAttributes => [.say " "]
  | some .startInline => [.say "| "]
  | some .indent | some .newline | some .outdent => s.indentation o.depth ++ [.say "| "]
  | _ => []

def inlineCode (code : Text) (mustEscape : Bool) : Text :=
  (if mustEscape then '#' else '!') :: '{' :: (code ++ ['}'])

/-- A line of code. Only code that is neither escaped nor output is a statement that may end with a
semicolon. -/
def codeEdits (style : Style) (code : Text) (mustEscape buffer : Bool) : List Edit :=
  let sign := if buffer then (if mustEscape then "=" else "!=") else "-"
  let semicolons := style.semicolons && !mustEscape && !buffer
  .say sign ::
    if isBlankText code then [] else [.say " ", .write (statement style.quotes semicolons code)]

/-! ## Line ends -/

/-- A line break, doubled if the source has an empty line here. -/
def lineBreaks (s : Site) : List Edit :=
  (if s.afterBlankLine then [.say "\n"] else []) ++ [.say "\n"]

/-- Only the first of several outdents breaks the line. -/
def outdentEdits (s : Site) : List Edit :=
  match s.prev? with
  | none | some .outdent => []
  | some _ => lineBreaks s

def newlineEdits (s : Site) : List Edit := lineBreaks s

/-! ## Comments -/

def commentEdits (style : Style) (s : Site) (o : Outline) (body : String) (buffer : Bool) :
    List Edit :=
  s.indentation o.depth ++ (if s.opensLine then [] else [.say " "]) ++
    [.say (if buffer then "//" else "//-"), .put (commentBody style.comments false body.toList)]

/-- The flow inside a block that begins here. A block inside a block of comments is one too. -/
def Site.blockFlow (s : Site) (o : Outline) : Flow :=
  match s.prev? with
  | some (.comment ..) => .comment
  | _ => if o.flow = .comment then .comment else .text

/-! ## All tokens -/

def tokenEdits (style : Style) (s : Site) (o : Outline) : List Edit × Outline :=
  let line (es : List Edit) := (s.indentation o.depth ++ es, o)
  match s.token.kind with
  | .tag name => (tagEdits style s o name, o)
  | .startAttributes => openList style (attributeRun s.rest) o
  | .attr a => writeAttribute style a o
  | .endAttributes => closeList s o
  | .className name => classEdits style s o name.toList
  | .idName name => idEdits style s o name.toList
  | .text val => (textEdits style s o val.toList, o)
  | .interpolatedCode code mustEscape _ =>
    (inlineCodeLead s o ++ [.put (inlineCode code.toList mustEscape)], o)
  | .code code mustEscape buffer => line (codeEdits style code.toList mustEscape buffer)
  | .indent => ([.say "\n", .indent o.depth], { o with depth := o.depth + 1 })
  | .outdent => (outdentEdits s, { o with depth := o.depth - 1 })
  | .newline => (newlineEdits s, o)
  | .comment body buffer => (commentEdits style s o body buffer, o)
  | .startPipeless => ([.say "\n", .indent o.depth], { o with flow := s.blockFlow o })
  | .endPipeless => ([], { o with flow := .markup })
  | .doctype name =>
    match name with
    | none | some "" => ([.say "doctype"], o)
    | some n => ([.say ("doctype " ++ n)], o)
  | .dot => ([.say "."], o)
  | .block name mode => line [.say ("block " ++ mode.word ++ name)]
  | .extending => ([.say "extends "], o)
  | .including => line [.say "include"]
  | .path file =>
    match s.prev? with
    | some .including | some (.filter _) => ([.say (" " ++ file)], o)
    | _ => ([.say file], o)
  | .filter name => line [.say (":" ++ name)]
  | .startInline => ([.say "#["], o)
  | .endInline => ([.say "]"], o)
  | .interpolation code => line [.put (inlineCode code.toList true), .mark]
  | .call name args => line [.put ('+' :: name.toList ++ argumentList args), .mark]
  | .mixin name args => line [.put ("mixin ".toList ++ name.toList ++ argumentList args)]
  | .condition test => line [.put (conditionLine test.toList)]
  | .each item key code => line [.say (eachLine item key code)]
  | .eachOf item code => line [.say ("each " ++ item ++ " of " ++ code)]
  | .keyword w => line [.say w.word]
  | .clause w operand => line [.say (w.word ++ " " ++ operand)]
  | .andAttributes code => ([.say ("&attributes(" ++ code ++ ")")], o)
  | .html source => line [.put (htmlLine source.toList)]
  | .colon => ([.say ": ", .mark], o)
  | .slash => ([.say "/"], o)
  | .eos => ([.finish], o)

/-! ## Streams -/

/-- The tokens that follow `before`, each with its surroundings. -/
def sites : Option Token → List Token → List Site
  | _, [] => []
  | before, t :: ts => ⟨before, t, ts⟩ :: sites (some t) ts

def siteEdits (style : Style) : List Site → Outline → List Edit × Outline
  | [], o => ([], o)
  | s :: ss, o =>
    let (es, o) := tokenEdits style s o
    let (fs, o) := siteEdits style ss o
    (es ++ fs, o)

/-- A stream that begins with text begins with a pipe. -/
def opening : List Token → List Edit
  | ⟨.text _, _⟩ :: _ => [.say "| "]
  | _ => []

/-- The edits that write the whole stream: the opening, those of the tokens, and the end. -/
def plan (style : Style) (ts : List Token) : List Edit :=
  opening ts ++ (siteEdits style (sites none ts) {}).1 ++ [.finish]

/-! ## The parts of a run -/

theorem siteEdits_append (style : Style) (ss ss' : List Site) (o : Outline) :
    siteEdits style (ss ++ ss') o =
      ((siteEdits style ss o).1 ++ (siteEdits style ss' (siteEdits style ss o).2).1,
        (siteEdits style ss' (siteEdits style ss o).2).2) := by
  induction ss generalizing o with
  | nil => rfl
  | cons s ss ih => simp [siteEdits, ih]

end PugPretty
