import PugPretty.Text.CodeRanges

/-!
# Ranges of encoded characters

In UTF-8 a character takes up to four bytes. The encodings of the code points in a range are those
of a few sequences of byte ranges: a text is in such a sequence when each of its bytes is in its
range. `byteRanges` cuts a range of code points into such sequences, in ascending order.
-/

namespace PugPretty

/-- One inclusive range for each byte of an encoded character. -/
abbrev ByteRanges := List (Nat × Nat)

namespace ByteRanges

/-- The bytes of the numbers from `lo` to `hi`: the first one is added to `mark` and takes what six
bits for each of `rest` more bytes leave. -/
def between (mark : Nat) : Nat → Nat → Nat → List ByteRanges
  | 0, lo, hi => [[(mark + lo, mark + hi)]]
  | rest + 1, lo, hi =>
    let size := 64 ^ (rest + 1)
    let first := lo / size
    let final := hi / size
    let withHead (head : Nat) (tails : List ByteRanges) :=
      tails.map ((mark + head, mark + head) :: ·)
    if first = final then withHead first (between 0x80 rest (lo % size) (hi % size))
    else
      let lower := if lo % size = 0 then [] else
        withHead first (between 0x80 rest (lo % size) (size - 1))
      let upper := if hi % size = size - 1 then [] else
        withHead final (between 0x80 rest 0 (hi % size))
      let a := if lo % size = 0 then first else first + 1
      let z := if hi % size = size - 1 then final + 1 else final
      let inner := if a < z then
        [(mark + a, mark + z - 1) :: List.replicate (rest + 1) (0x80, 0xBF)] else []
      lower ++ inner ++ upper

/-- The code points that take the same number of bytes, with the mark of the first byte and the
number of the others. The surrogates have no encoding. -/
def lengths : List ((Nat × Nat) × Nat × Nat) :=
  [((0, 0x7F), 0, 0), ((0x80, 0x7FF), 0xC0, 1), ((0x800, 0xD7FF), 0xE0, 2),
   ((0xE000, 0xFFFF), 0xE0, 2), ((0x10000, 0x10FFFF), 0xF0, 3)]

end ByteRanges

def CodeRanges.byteRanges (rs : CodeRanges) : List ByteRanges :=
  rs.flatMap fun r => ByteRanges.lengths.flatMap fun ((lo, hi), mark, rest) =>
    if max r.1 lo ≤ min r.2 hi then ByteRanges.between mark rest (max r.1 lo) (min r.2 hi) else []

example : CodeRanges.byteRanges [(0x61, 0x7A), (0x7F0, 0x801)] =
    [[(0x61, 0x7A)], [(0xDF, 0xDF), (0xB0, 0xBF)], [(0xE0, 0xE0), (0xA0, 0xA0), (0x80, 0x81)]] := by
  decide

end PugPretty
