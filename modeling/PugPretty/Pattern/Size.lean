import PugPretty.Pattern.Regex
import PugPretty.Text.Utf8Ranges

/-!
# The size of a pattern

A pattern is too large when an automaton that reads its matches byte by byte, forwards or backwards,
takes more room than a fixed limit. Both automata have a state for each byte to be read and for each
place where they branch; what is repeated a number of times is there as often.
-/

namespace PugPretty

inductive Direction where
  | forward
  | backward
deriving DecidableEq, Repr

/-! ## Units of size -/

/-- The bytes of a state. -/
def stateSize : Nat := 32

/-- The bytes of a range of bytes in a state that reads several. -/
def rangeSize : Nat := 8

/-- The bytes of a target in a state that branches. -/
def targetSize : Nat := 4

/-! ## Classes -/

/-- What may follow each first range, the first ranges being grouped. -/
def ByteRanges.tails (bs : List ByteRanges) : List (List ByteRanges) :=
  (bs.splitBy fun a b => a.head? == b.head?).map (·.map List.tail)

/-- The states of a forward automaton: what may be left to read, level by level. States with the same
rest are one. -/
def ByteRanges.rests : Nat → List (List ByteRanges) → List (List ByteRanges)
  | 0, states => states
  | n + 1, states =>
    states ++ ByteRanges.rests n ((states.flatMap ByteRanges.tails).filter (· != [[]])).eraseDups

def ByteRanges.forwardSize (bs : List ByteRanges) : Nat :=
  let states := (ByteRanges.rests 3 [bs]).eraseDups
  stateSize + total (states.map fun s => stateSize + rangeSize * (ByteRanges.tails s).length)

def sharedLength {α : Type} [BEq α] : List α → List α → Nat
  | a :: as, b :: bs => if a == b then sharedLength as bs + 1 else 0
  | _, _ => 0

/-- The states of a backward automaton that is entered behind `previous`: sequences share what they
have in common at their beginning. -/
def ByteRanges.prefixCount (previous : ByteRanges) : List ByteRanges → Nat
  | [] => 0
  | b :: bs => b.length - sharedLength previous b + ByteRanges.prefixCount b bs

def ByteRanges.backwardSize (bs : List ByteRanges) : Nat :=
  stateSize * (2 + ByteRanges.prefixCount [] bs) + targetSize * bs.length

/-- The size of a class. A single character is read as the bytes it has, and ASCII by one state. -/
def CodeRanges.size (d : Direction) (rs : CodeRanges) : Nat :=
  let bs := rs.byteRanges
  match bs with
  | [b] => if rs.all fun r => r.1 = r.2 then stateSize * b.length else multi bs
  | _ => multi bs
where
  multi (bs : List ByteRanges) : Nat :=
    if bs.all (·.length = 1) then 2 * stateSize + rangeSize * bs.length
    else match d with
      | .forward => ByteRanges.forwardSize bs
      | .backward => ByteRanges.backwardSize bs

/-! ## Expressions -/

namespace Regex

def isNonempty : Regex → Bool
  | empty => false
  | char _ => true
  | look _ => false
  | seq a b => a.isNonempty || b.isNonempty
  | alt a b => a.isNonempty && b.isNonempty
  | group a => a.isNonempty
  | repeated a min _ => min != 0 && a.isNonempty

def repeatedSize (size : Nat) (nonempty : Bool) : Nat → Option Nat → Nat
  | 0, some 1 => size + 2 * stateSize + 2 * targetSize
  | 0, none =>
    if nonempty then size + stateSize + 2 * targetSize
    else size + 3 * stateSize + 4 * targetSize
  | min, none => min * size + stateSize + 2 * targetSize
  | min, some max =>
    if min = max then min * size
    else (if min = 0 then stateSize else min * size) + stateSize +
      (max - min) * (size + stateSize + 2 * targetSize)

/-- The size of something together with the target that leads there, if it is a branch. -/
def asBranch (branch : Bool) (size : Nat) : Nat := if branch then targetSize + size else size

/-- The size as a branch of alternatives or by itself. Groups are remembered forwards only. -/
def sizeIn (d : Direction) : Bool → Regex → Nat
  | branch, empty => asBranch branch stateSize
  | branch, char c => asBranch branch (c.ranges.size d)
  | branch, look _ => asBranch branch stateSize
  | branch, seq a b => asBranch branch (sizeIn d false a + sizeIn d false b)
  | true, alt a b => sizeIn d true a + sizeIn d true b
  | false, alt a b => sizeIn d true a + sizeIn d true b + 2 * stateSize
  | branch, group a =>
    asBranch branch (sizeIn d false a + if d = .forward then 2 * stateSize else 0)
  | branch, repeated a min max =>
    asBranch branch (repeatedSize (sizeIn d false a) a.isNonempty min max)

/-- The room there is for an automaton, in bytes. -/
def sizeLimit : Nat := 10 * 1024 * 1024

def isTooLarge (r : Regex) : Bool :=
  sizeLimit < max (sizeIn .forward false r) (sizeIn .backward false r)

example : (repeated (char (.single 'a')) 327680 (some 327680)).isTooLarge = false := by decide

example : (repeated (char (.single 'a')) 327681 none).isTooLarge = true := by decide

end Regex

end PugPretty
