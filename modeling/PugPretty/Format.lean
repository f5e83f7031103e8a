import PugPretty.AttributeOrder
import PugPretty.Plan
import PugPretty.Pragma

/-!
# Formatting

`format` reads the patterns, sorts the attributes, plans the edits, performs them under the layout,
and gives the text its pragma and its kind of line breaks. It answers with the text or an error, and
with the requests that were made for embedded code. What reads the patterns and what formats the
embedded code are given to it.
-/

namespace PugPretty

/-! ## Errors and outcomes -/

inductive FormatError (ε : Type) where
  | invalidPattern (reason : String)
  /-- Shorthand had no place in the text. -/
  | strayShorthand
  | external (reason : ε) (code : String)
deriving DecidableEq, Repr

def FormatError.message {ε : Type} [ToString ε] : FormatError ε → String
  | invalidPattern reason => "invalid attribute pattern: " ++ reason
  | strayShorthand => "shorthand has no place in the text"
  | external reason code =>
    "failed to format code with external formatter: `" ++ code ++ "`:\n" ++ toString reason

structure Outcome (ε : Type) where
  requests : List Request
  result : Except (FormatError ε) String

/-! ## Reading the options -/

def Style.readOrder (read : PatternReader) (s : Style) : Except String AttributeOrder :=
  AttributeOrder.ofPatterns read s.order s.leading s.trailing

/-- The names that break a list. An empty pattern is no pattern. -/
def Layout.readWraps (read : PatternReader) (l : Layout) : Except String (String → Bool) :=
  match l.wrapPattern with
  | none | some "" => .ok fun _ => false
  | some p => read p

def Layout.page (l : Layout) (wrapsOn : String → Bool) : Page :=
  { indentChar := l.indentChar, indentLength := l.indentLength, tab := l.indentWidth,
    width := l.width, threshold := l.wrapThreshold, wrapsOn }

/-- The patterns of the order are read before the one of the layout. -/
def Options.readPatterns (read : PatternReader) (o : Options) :
    Except String (AttributeOrder × Page) := do
  let ord ← o.style.readOrder read
  let wrapsOn ← o.layout.readWraps read
  return (ord, o.layout.page wrapsOn)

/-! ## The run -/

variable {ε : Type}

def writeTokens (style : Style) (page : Page) (f : Formatter ε) (ts : List Token) : Sheet ε :=
  Sheet.applyAll page f (plan style ts) .blank

/-- What is said of a sheet that is done. A failure comes to light only now. -/
def Sheet.result (s : Sheet ε) : Except (FormatError ε) String :=
  if s.draft.astray then .error .strayShorthand
  else match s.session.failure with
    | some (e, code) => .error (.external e code)
    | none => .ok (String.ofList s.draft.text)

def LineBreak.apply (b : LineBreak) (t : Text) : Text :=
  match b with
  | .lf => t
  | .crlf => t.flatMap fun c => if c = '\n' then ['\r', '\n'] else [c]

def finishText (o : Options) (text : String) : String :=
  let text := if o.style.pragma then insertPragma text else text
  String.ofList (o.layout.lineBreak.apply text.toList)

def format (read : PatternReader) (o : Options) (f : Formatter ε) (ts : List Token) : Outcome ε :=
  match o.readPatterns read with
  | .ok (ord, page) =>
    let s := writeTokens o.style page f (ord.arrange ts)
    { requests := s.session.requests, result := s.result.map (finishText o) }
  | .error reason => { requests := [], result := .error (.invalidPattern reason) }

end PugPretty
