import PugPretty.Pattern.CharClass
import PugPretty.Pattern.Relation
import PugPretty.Text.Basic

/-!
# Regular expressions

A regular expression relates the gaps of a text where a match begins to those where it ends.
`relation` follows the expression and takes every part of it once, so that no pattern is slow.
-/

namespace PugPretty

/-- A place between two characters, or at an end of the text. -/
structure Gap where
  before : Option Char
  after : Option Char
deriving Repr

def gapsFrom (before : Option Char) : Text → List Gap
  | [] => [⟨before, none⟩]
  | c :: r => ⟨before, some c⟩ :: gapsFrom (some c) r

/-! ## Conditions -/

/-- Where a gap lies in respect of words. The halves look at one side only. -/
inductive WordEdge where
  | boundary
  | noBoundary
  | start
  | stop
  | startHalf
  | stopHalf
deriving DecidableEq, Repr

def WordEdge.holds (before after : Bool) : WordEdge → Bool
  | boundary => before != after
  | noBoundary => before == after
  | start => !before && after
  | stop => before && !after
  | startHalf => !before
  | stopHalf => !after

inductive Look where
  | startOfText
  | endOfText
  | startOfLine
  | endOfLine
  /-- As the two before, where a carriage return ends a line too, but not inside a pair with a line
  feed. -/
  | startOfAnyLine
  | endOfAnyLine
  /-- With `ascii`, only ASCII characters belong to words. -/
  | word (edge : WordEdge) (ascii : Bool)
deriving DecidableEq, Repr

def Look.holds (g : Gap) : Look → Bool
  | startOfText => g.before.isNone
  | endOfText => g.after.isNone
  | startOfLine => g.before.all (· == '\n')
  | endOfLine => g.after.all (· == '\n')
  | startOfAnyLine =>
    g.before.all (· == '\n') || (g.before == some '\r' && g.after != some '\n')
  | endOfAnyLine =>
    g.after.all (· == '\r') || (g.after == some '\n' && g.before != some '\r')
  | word edge ascii =>
    let isWord (c : Char) := isWordChar c && (!ascii || c.toNat < 128)
    edge.holds (g.before.any isWord) (g.after.any isWord)

/-! ## Expressions -/

inductive Regex where
  | empty
  | char (c : CharClass)
  | look (l : Look)
  | seq (a b : Regex)
  | alt (a b : Regex)
  /-- Matches as its inside does, and remembers where. -/
  | group (a : Regex)
  | repeated (a : Regex) (min : Nat) (max : Option Nat)
deriving Repr

namespace Regex

/-- Where matches of the expression begin and end. -/
def relation (gaps : List Gap) : Regex → Relation
  | empty => .identity gaps.length
  | char c => gaps.zipIdx.map fun (g, i) => if g.after.any c.contains then 1 <<< (i + 1) else 0
  | look l => gaps.zipIdx.map fun (g, i) => if l.holds g then 1 <<< i else 0
  | seq a b => (a.relation gaps).comp (b.relation gaps)
  | alt a b => (a.relation gaps).union (b.relation gaps)
  | group a => a.relation gaps
  | repeated a min max =>
    let once := a.relation gaps
    (once.power min).comp <| match max with
      | none => once.closure
      | some n => ((Relation.identity gaps.length).union once).power (n - min)

def isMatch (r : Regex) (t : Text) : Bool := (r.relation (gapsFrom none t)).isInhabited

example : (repeated (char (.single 'a')) 2 (some 3)).isMatch ['b', 'a', 'a'] = true := by decide

example : (seq (look .startOfText) (seq (char (.range 'a' 'c')) (look .endOfText))).isMatch
    ['d', 'c'] = false := by decide

/-! ## Building expressions -/

def isEmptyWidth : Regex → Bool
  | empty => true
  | char _ => false
  | look _ => true
  | seq a b => a.isEmptyWidth && b.isEmptyWidth
  | alt a b => a.isEmptyWidth && b.isEmptyWidth
  | group a => a.isEmptyWidth
  | repeated a _ _ => a.isEmptyWidth

def andThen (a b : Regex) : Regex :=
  match a, b with
  | empty, b => b
  | a, empty => a
  | a, b => seq a b

/-- Repetition. What has only empty matches need not be matched twice. -/
def times (a : Regex) (min : Nat) (max : Option Nat) : Regex :=
  let (min, max) := if a.isEmptyWidth then (Nat.min min 1, some (Nat.min (max.getD 1) 1)) else (min, max)
  if max = some 0 then empty else if min = 1 ∧ max = some 1 then a else repeated a min max

/-- The class of the characters that match, if single characters are all that does. -/
def class? : Regex → Option CharClass
  | char c => some c
  | _ => none

/-- Alternatives. Single characters are put together in one class. -/
def oneOf (a : Regex) (rest : List Regex) : Regex :=
  match (a :: rest).mapM class? with
  | some cs => char (cs.foldr .union .nothing)
  | none => rest.foldl alt a

end Regex

end PugPretty
