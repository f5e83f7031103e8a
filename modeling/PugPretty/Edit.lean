import PugPretty.Content
import PugPretty.Draft
import PugPretty.Text.Inert

/-!
# Edits

Between the tokens and the finished text stands a list of edits to a draft. It does not depend on
the layout or on the answers of the formatter for embedded code: indentation is counted in levels,
an attribute list is a group that can be broken over lines, and code stands for its answer. `Page`
carries the layout, and `Sheet.apply` performs an edit under it.
-/

namespace PugPretty

/-! ## Groups -/

/-- What is known of an attribute list before it is written. The widths are those of the source, so
they are an estimate. -/
structure Forecast where
  names : List String
  /-- Columns of the shorthand that is put in front of the list. -/
  moved : Nat
  kept : List Nat
deriving DecidableEq, Repr

/-- The columns of the list on one line: one between attributes, one for the closing parenthesis. -/
def Forecast.width (f : Forecast) : Nat :=
  f.moved + total f.kept + (f.kept.length - 1) + 1

structure Page where
  /-- A level of indentation is this character, so many times. -/
  indentChar : Char
  indentLength : Nat
  tab : Nat
  width : Nat
  threshold : Int
  wrapsOn : String → Bool

/-- Whether a group that begins at the column is broken over lines. Columns are counted in 64 bits. -/
def Page.breaks (p : Page) (column : Nat) (f : Forecast) : Bool :=
  f.names.any p.wrapsOn || p.width < (column + f.width) % UInt64.size ||
    (0 ≤ p.threshold && p.threshold < f.kept.length)

/-! ## The edits -/

inductive Edit where
  | write (c : Content)
  /-- Writes a line of text so that nothing in it begins an interpolation. -/
  | writeInert (c : Content)
  | indent (levels : Nat)
  | mark
  | markClass
  | addClass (name : Text)
  | addId (name : Text)
  | beginGroup (f : Forecast)
  /-- In a broken group a line break with an indentation, else the text. -/
  | softBreak (levels : Nat) (flat : Text)
  | endGroup
  | dropOpenParen
  | finish
deriving DecidableEq, Repr

namespace Edit

def put (t : Text) : Edit := write [.plain t]

def say (s : String) : Edit := put s.toList

def requests : Edit → List Request
  | write c => c.requests
  | writeInert c => c.requests
  | _ => []

end Edit

/-! ## Performing them -/

structure Sheet (ε : Type) where
  draft : Draft := {}
  broken : Bool := false
  session : Session ε := {}

namespace Sheet

variable {ε : Type}

def blank : Sheet ε := {}

def edit (g : Draft → Draft) (s : Sheet ε) : Sheet ε := { s with draft := g s.draft }

def indentation (p : Page) (levels : Nat) : Text :=
  List.replicate (levels * p.indentLength) p.indentChar

def apply (p : Page) (f : Formatter ε) : Edit → Sheet ε → Sheet ε
  | .write c, s =>
    let (t, session) := c.resolve f s.session
    { s with draft := s.draft.write t, session }
  | .writeInert c, s =>
    let (t, session) := c.resolve f s.session
    { s with draft := s.draft.write (Text.inert t), session }
  | .indent n, s => s.edit (·.write (indentation p n))
  | .mark, s => s.edit (·.mark)
  | .markClass, s => s.edit (·.markClass)
  | .addClass name, s => s.edit (·.addClass name)
  | .addId name, s => s.edit (·.addId name)
  | .beginGroup fc, s => { s with broken := p.breaks (s.draft.column p.tab) fc }
  | .softBreak n flat, s =>
    s.edit (·.write (if s.broken then '\n' :: indentation p n else flat))
  | .endGroup, s => { s with broken := false }
  | .dropOpenParen, s => s.edit (·.dropOpenParen)
  | .finish, s => s.edit (·.finish)

def applyAll (p : Page) (f : Formatter ε) (es : List Edit) (s : Sheet ε) : Sheet ε :=
  es.foldl (fun s e => s.apply p f e) s

end Sheet

end PugPretty
