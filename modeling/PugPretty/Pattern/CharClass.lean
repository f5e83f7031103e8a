import PugPretty.Text.Blank
import PugPretty.Text.CaseFold
import PugPretty.Text.WordChar

/-!
# Character classes

A class is built from ranges and Unicode properties by the operations of sets. `folded` closes a
class under case variants. `contains` decides membership, and `ranges` lists the members.
-/

namespace PugPretty

inductive CharClass where
  | nothing
  | range (lo hi : Char)
  | blank
  | digit
  | word
  | union (a b : CharClass)
  | inter (a b : CharClass)
  | diff (a b : CharClass)
  | symmDiff (a b : CharClass)
  | compl (a : CharClass)
  | folded (a : CharClass)
deriving Repr

namespace CharClass

def single (c : Char) : CharClass := range c c

def ascii : CharClass := range '\x00' '\x7f'

def contains : CharClass → Char → Bool
  | nothing, _ => false
  | range lo hi, c => lo ≤ c && c ≤ hi
  | blank, c => isBlank c
  | digit, c => isDecimalDigit c
  | word, c => isWordChar c
  | union a b, c => a.contains c || b.contains c
  | inter a b, c => a.contains c && b.contains c
  | diff a b, c => a.contains c && !b.contains c
  | symmDiff a b, c => a.contains c != b.contains c
  | compl a, c => !a.contains c
  | folded a, c => (caseVariants c).any a.contains

def ofRanges (rs : List (Char × Char)) : CharClass :=
  rs.foldr (fun r a => union (range r.1 r.2) a) nothing

/-- The classes that have a name between colons. They hold ASCII characters only. -/
def ofName? : List Char → Option CharClass
  | ['a', 'l', 'n', 'u', 'm'] => some (ofRanges [('0', '9'), ('A', 'Z'), ('a', 'z')])
  | ['a', 'l', 'p', 'h', 'a'] => some (ofRanges [('A', 'Z'), ('a', 'z')])
  | ['a', 's', 'c', 'i', 'i'] => some ascii
  | ['b', 'l', 'a', 'n', 'k'] => some (ofRanges [('\t', '\t'), (' ', ' ')])
  | ['c', 'n', 't', 'r', 'l'] => some (ofRanges [('\x00', '\x1f'), ('\x7f', '\x7f')])
  | ['d', 'i', 'g', 'i', 't'] => some (range '0' '9')
  | ['g', 'r', 'a', 'p', 'h'] => some (range '!' '~')
  | ['l', 'o', 'w', 'e', 'r'] => some (range 'a' 'z')
  | ['p', 'r', 'i', 'n', 't'] => some (range ' ' '~')
  | ['p', 'u', 'n', 'c', 't'] =>
    some (ofRanges [('!', '/'), (':', '@'), ('[', '\x60'), ('\x7b', '~')])
  | ['s', 'p', 'a', 'c', 'e'] => some (ofRanges [('\t', '\r'), (' ', ' ')])
  | ['u', 'p', 'p', 'e', 'r'] => some (range 'A' 'Z')
  | ['w', 'o', 'r', 'd'] => some (ofRanges [('0', '9'), ('A', 'Z'), ('_', '_'), ('a', 'z')])
  | ['x', 'd', 'i', 'g', 'i', 't'] => some (ofRanges [('0', '9'), ('A', 'F'), ('a', 'f')])
  | _ => none

/-! ## The members -/

def blankCodes : CodeRanges :=
  [(0x9, 0xD), (0x20, 0x20), (0x85, 0x85), (0xA0, 0xA0), (0x1680, 0x1680), (0x2000, 0x200A),
   (0x2028, 0x2029), (0x202F, 0x202F), (0x205F, 0x205F), (0x3000, 0x3000)]

def digitCodes : CodeRanges := (0x30, 0x39) :: digitRanges

def wordCodes : CodeRanges :=
  [(0x41, 0x5A), (0x5F, 0x5F), (0x61, 0x7A)].foldr CodeRanges.add
    (digitCodes.union (markRanges.union letterRanges))

def ranges : CharClass → CodeRanges
  | nothing => []
  | range lo hi => if lo ≤ hi then [(lo.toNat, hi.toNat)] else []
  | blank => blankCodes
  | digit => digitCodes
  | word => wordCodes
  | union a b => a.ranges.union b.ranges
  | inter a b => a.ranges.inter b.ranges
  | diff a b => a.ranges.diff b.ranges
  | symmDiff a b => a.ranges.symmDiff b.ranges
  | compl a => a.ranges.compl
  | folded a => withVariants a.ranges

end CharClass

end PugPretty
