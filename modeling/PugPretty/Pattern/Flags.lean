import PugPretty.Pattern.Regex

/-!
# Pattern flags

Flags say how the parts of a pattern are to be understood from their place to the end of the group.
-/

namespace PugPretty

structure PatternFlags where
  ignoreCase : Bool := false
  multiLine : Bool := false
  dotAll : Bool := false
  /-- A carriage return ends a line too. -/
  anyLineEnd : Bool := false
  /-- Classes, case and words are those of ASCII, and a class must not reach beyond it. -/
  ascii : Bool := false
  /-- Blanks and comments between the parts of a pattern are skipped. -/
  extended : Bool := false
deriving DecidableEq, Repr

/-! ## Blanks and comments -/

/-- Drops blanks and comments; the flag says whether a comment has begun. -/
def skipComments : Bool → Text → Text
  | _, [] => []
  | true, c :: r => skipComments (c != '\n') r
  | false, c :: r =>
    if isBlank c then skipComments false r
    else if c = '#' then skipComments true r
    else c :: r

namespace PatternFlags

def skip (f : PatternFlags) (t : Text) : Text := if f.extended then skipComments false t else t

/-- The character that comes next as far as one looks ahead: past blanks and one number sign, but
not to the end of the comment it begins. -/
def peek? (f : PatternFlags) (t : Text) : Option Char :=
  if f.extended then
    match t.dropWhile isBlank with
    | '#' :: r => (r.dropWhile isBlank).head?
    | r => r.head?
  else t.head?

/-- Cuts off the characters that satisfy `p`, skipping after each what may be skipped. The fuel
bounds their number. -/
def takeWhile (f : PatternFlags) (p : Char → Bool) : Nat → Text → Text × Text
  | 0, t => ([], t)
  | _ + 1, [] => ([], [])
  | n + 1, c :: r =>
    if p c then
      let (cs, rest) := takeWhile f p n (f.skip r)
      (c :: cs, rest)
    else ([], c :: r)

/-! ## What the flags mean -/

def fold (f : PatternFlags) (c : CharClass) : CharClass :=
  if !f.ignoreCase then c
  else if f.ascii then .union c (.inter (.folded (.inter c .ascii)) .ascii)
  else .folded c

def complement? (f : PatternFlags) (c : CharClass) : Option CharClass :=
  if f.ascii then none else some (.compl c)

def literal (f : PatternFlags) (c : Char) : Regex := .char (f.fold (.single c))

def dot? (f : PatternFlags) : Option Regex :=
  let left := if f.dotAll then .nothing
    else if f.anyLineEnd then .union (.single '\r') (.single '\n')
    else .single '\n'
  (f.complement? left).map .char

def caret (f : PatternFlags) : Regex :=
  .look (if !f.multiLine then .startOfText
    else if f.anyLineEnd then .startOfAnyLine else .startOfLine)

def dollar (f : PatternFlags) : Regex :=
  .look (if !f.multiLine then .endOfText else if f.anyLineEnd then .endOfAnyLine else .endOfLine)

def digit (f : PatternFlags) : CharClass := if f.ascii then .inter .digit .ascii else .digit

def blank (f : PatternFlags) : CharClass := if f.ascii then .inter .blank .ascii else .blank

def word (f : PatternFlags) : CharClass := if f.ascii then .inter .word .ascii else .word

/-! ## Letters -/

/-- Sets one flag. The letter `U` chooses between matches and not whether there is one. -/
def set? (f : PatternFlags) (on : Bool) : Char → Option PatternFlags
  | 'i' => some { f with ignoreCase := on }
  | 'm' => some { f with multiLine := on }
  | 's' => some { f with dotAll := on }
  | 'R' => some { f with anyLineEnd := on }
  | 'u' => some { f with ascii := !on }
  | 'x' => some { f with extended := on }
  | 'U' => some f
  | _ => none

/-- Sets the flags before a hyphen and unsets those after it. Nothing may stand twice, and a hyphen
not at the end. -/
def update? (on : Bool) : Text → PatternFlags → Option PatternFlags
  | [], f => some f
  | c :: r, f =>
    if r.contains c then none
    else if c = '-' then (if r.isEmpty then none else update? false r f)
    else (f.set? on c).bind (update? on r)

end PatternFlags

end PugPretty
