import PugPretty.AttributeOrder
import PugPretty.Pattern.ClassReader
import PugPretty.Pattern.GroupName
import PugPretty.Pattern.Size

/-!
# Reading patterns

`Regex.reader` is one reader of patterns, to run the program with; nothing else depends on it. It reads
literals, escapes, classes, groups with and without names, alternatives, repetitions, and flags for
the rest of a group. What is not understood is refused: unbalanced brackets, a repetition of nothing,
counts that are not numbers or not in order, look-around, back references and unknown escapes. So is a
pattern that is nested too deep or makes too large an automaton. Unicode properties (`\p`, `\P`) are
not read either, although they are patterns.
-/

namespace PugPretty

/-! ## Parts -/

structure PatternPart where
  regex : Regex
  /-- How deep groups, repetitions, classes, sequences and alternatives are nested in it. -/
  depth : Nat := 0
  /-- Flags cannot be repeated. -/
  repeatable : Bool := true
deriving Repr

namespace PatternPart

/-- The greatest depth among the parts, one more if there are several. -/
def commonDepth (ps : List PatternPart) : Nat :=
  (ps.foldl (fun n p => max n p.depth) 0) + if ps.length ≤ 1 then 0 else 1

def sequence (ps : List PatternPart) : PatternPart :=
  { regex := ps.foldr (fun p r => p.regex.andThen r) .empty, depth := commonDepth ps }

def choice (p : PatternPart) (ps : List PatternPart) : PatternPart :=
  { regex := Regex.oneOf p.regex (ps.map (·.regex)), depth := commonDepth (p :: ps) }

end PatternPart

/-- What has been read of a group: the parts of the present alternative and the alternatives before
it, both with the last one first. -/
structure GroupBody where
  parts : List PatternPart := []
  alternatives : List PatternPart := []
deriving Repr

namespace GroupBody

def push (p : PatternPart) (b : GroupBody) : GroupBody := { b with parts := p :: b.parts }

def nextAlternative (b : GroupBody) : GroupBody :=
  { alternatives := PatternPart.sequence b.parts.reverse :: b.alternatives }

def toPart (b : GroupBody) : PatternPart :=
  let current := PatternPart.sequence b.parts.reverse
  match b.alternatives.reverse with
  | [] => current
  | p :: ps => .choice p (ps ++ [current])

def repeatLast? (min : Nat) (max : Option Nat) (b : GroupBody) : Option GroupBody :=
  match b.parts with
  | p :: ps =>
    if p.repeatable then
      some { b with parts := { regex := p.regex.times min max, depth := p.depth + 1 } :: ps }
    else none
  | [] => none

end GroupBody

/-! ## Repetitions -/

def readNumber (f : PatternFlags) (t : Text) : Option (Nat × Text) :=
  let (digits, rest) := f.takeWhile Char.isDigit t.length (t.dropWhile isBlank)
  let n := digits.foldl (fun n c => 10 * n + (c.toNat - 48)) 0
  if digits.isEmpty ∨ UInt32.size ≤ n then none else some (n, rest.dropWhile isBlank)

def readBounds (f : PatternFlags) (t : Text) : Option ((Nat × Option Nat) × Text) := do
  let (lo, t) ← readNumber f (f.skip t)
  match t with
  | '}' :: r => return ((lo, some lo), r)
  | ',' :: t =>
    match f.skip t with
    | '}' :: r => return ((lo, none), r)
    | t =>
      let (hi, t) ← readNumber f t
      match t with
      | '}' :: r => if lo ≤ hi then return ((lo, some hi), r) else none
      | _ => none
  | _ => none

/-- A question mark after a repetition makes it prefer fewer rounds, on which no match depends. -/
def dropLazyMark : Text → Text
  | '?' :: r => r
  | t => t

def readRepetition (f : PatternFlags) : Text → Option ((Nat × Option Nat) × Text)
  | '?' :: r => some ((0, some 1), dropLazyMark r)
  | '*' :: r => some ((0, none), dropLazyMark r)
  | '+' :: r => some ((1, none), dropLazyMark r)
  | '{' :: r => (readBounds f r).map fun (b, r) => (b, dropLazyMark (f.skip r))
  | _ => none

/-! ## Groups -/

inductive GroupFront where
  /-- Flags for the rest of the group around it. -/
  | flags (f : PatternFlags)
  /-- A group with flags of its own and the names given so far. -/
  | group (f : PatternFlags) (remembered : Bool) (names : List Text)
deriving Repr

def readGroupName (f : PatternFlags) (names : List Text) (t : Text) : Option (GroupFront × Text) :=
  let name := t.takeWhile (· != '>')
  match t.dropWhile (· != '>') with
  | _ :: r =>
    if isGroupName name && !names.contains name then some (.group f true (name :: names), r)
    else none
  | [] => none

def readGroupFront (f : PatternFlags) (names : List Text) (t : Text) : Option (GroupFront × Text) :=
  match f.skip t with
  | '?' :: '<' :: '=' :: _ => none
  | '?' :: '<' :: '!' :: _ => none
  | '?' :: 'P' :: '<' :: r => readGroupName f names r
  | '?' :: '<' :: r => readGroupName f names r
  | '?' :: r =>
    let letters := r.takeWhile fun c => c != ':' && c != ')'
    match r.drop letters.length with
    | ':' :: r => (f.update? true letters).map fun f => (.group f false names, r)
    | ')' :: r => if letters.isEmpty then none else (f.update? true letters).map fun f => (.flags f, r)
    | _ => none
  | t => some (.group f true names, t)

/-! ## Patterns -/

/-- Reads the body of a group up to its closing parenthesis or the end. The result holds the names
given to groups so far and what is left. -/
def readGroup : Nat → PatternFlags → List Text → GroupBody → Text →
    Option (PatternPart × List Text × Text)
  | 0, _, _, _, _ => none
  | n + 1, f, names, body, t =>
    let add (r : Option Regex) (rest : Text) := match r with
      | some r => readGroup n f names (body.push { regex := r }) rest
      | none => none
    match f.skip t with
    | [] => some (body.toPart, names, [])
    | ')' :: r => some (body.toPart, names, ')' :: r)
    | '|' :: r => readGroup n f names body.nextAlternative r
    | '(' :: r =>
      match readGroupFront f names r with
      | none => none
      | some (.flags f, r) =>
        readGroup n f names (body.push { regex := .empty, repeatable := false }) r
      | some (.group g remembered names, r) =>
        match readGroup n g names {} r with
        | some (p, names, ')' :: r) =>
          let regex := if remembered then .group p.regex else p.regex
          readGroup n f names (body.push { regex, depth := p.depth + 1 }) r
        | _ => none
    | '[' :: r =>
      let (negated, front, r) := readClassFront f r
      match readClass f n negated none front r with
      | some (c, depth, r) => readGroup n f names (body.push { regex := .char c, depth }) r
      | none => none
    | '\\' :: r =>
      match readEscape f r with
      | some (e, r) => add (some (e.toRegex f)) r
      | none => none
    | '.' :: r => add f.dot? r
    | '^' :: r => add (some f.caret) r
    | '$' :: r => add (some f.dollar) r
    | c :: r =>
      if c = '?' ∨ c = '*' ∨ c = '+' ∨ c = '{' then
        match readRepetition f (c :: r) with
        | some ((min, max), r) =>
          match body.repeatLast? min max with
          | some body => readGroup n f names body r
          | none => none
        | none => none
      else add (some (f.literal c)) r

def depthLimit : Nat := 250

/-- Reads a pattern. Every step takes a character, so one step more than there are characters is
enough. -/
def Regex.parse? (pattern : Text) : Option Regex :=
  match readGroup (pattern.length + 1) {} [] {} pattern with
  | some (p, _, []) =>
    if p.depth ≤ depthLimit ∧ p.regex.isTooLarge = false then some p.regex else none
  | _ => none

def Regex.reader : PatternReader := fun p =>
  match parse? p.toList with
  | some r => .ok fun name => r.isMatch name.toList
  | none => .error "regex parse error:"

/-! ## Examples -/

section Examples

private def found? (pattern text : String) : Option Bool :=
  (Regex.parse? pattern.toList).map (·.isMatch text.toList)

example : found? "^(?:a)|(b)$" "xb" = some true := by decide +kernel

example : found? "^(a|ab)(c|bcd)$" "abcd" = some true := by decide +kernel

example : found? "(?i)HR[e-f]F" "href" = some true := by decide +kernel

example : found? "[[:alpha:]&&[^aeiou]]+" "aeb" = some true := by decide +kernel

example : found? "\\bfor\\b" "v-for" = some true := by decide +kernel

example : found? "(?x) a # b" "ba" = some true := by decide +kernel

example : found? "a**" "" = some true := by decide +kernel

example : ["(", ")", "*", "+", "[", "[z-a]", "\\", "\\1", "\\q", "\\Z", "(?=a)", "a\x7b3,2\x7d",
    "a\x7b,2\x7d", "a\x7b2, \x7d", "a\x7b2", "\x7b", "(?i)*", "(?P<n>a)(?P<n>b)"].map (found? · "") =
    List.replicate 18 none := by decide +kernel

end Examples

end PugPretty
