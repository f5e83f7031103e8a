/-!
# Ranges of code points

A set of characters as a list of inclusive ranges. The operations of sets take and give lists in
ascending order whose ranges do not touch; each set has one such list.
-/

namespace PugPretty

/-- Inclusive ranges of code points. -/
abbrev CodeRanges := List (Nat × Nat)

namespace CodeRanges

def contains (rs : CodeRanges) (n : Nat) : Bool := rs.any fun r => r.1 ≤ n && n ≤ r.2

def last : Nat := 0x10FFFF

def add (r : Nat × Nat) : CodeRanges → CodeRanges
  | [] => [r]
  | s :: rest =>
    if r.2 + 1 < s.1 then r :: s :: rest
    else if s.2 + 1 < r.1 then s :: add r rest
    else add (min r.1 s.1, max r.2 s.2) rest

def union (rs ss : CodeRanges) : CodeRanges := rs.foldr add ss

/-- What the ranges leave out from `n` on. -/
def complFrom (n : Nat) : CodeRanges → CodeRanges
  | [] => if n ≤ last then [(n, last)] else []
  | r :: rest => (if n < r.1 then [(n, r.1 - 1)] else []) ++ complFrom (r.2 + 1) rest

def compl (rs : CodeRanges) : CodeRanges := complFrom 0 rs

def inter (rs ss : CodeRanges) : CodeRanges := (rs.compl.union ss.compl).compl

def diff (rs ss : CodeRanges) : CodeRanges := (rs.compl.union ss).compl

def symmDiff (rs ss : CodeRanges) : CodeRanges := (rs.union ss).diff (rs.inter ss)

example : union [(1, 3), (8, 9)] [(4, 5), (20, 30)] = [(1, 5), (8, 9), (20, 30)] := by decide

example : compl [(0, 4), (9, 0x10FFFE)] = [(5, 8), (0x10FFFF, 0x10FFFF)] := by decide

end CodeRanges

end PugPretty
