/-!
# Blank characters

The formatter calls a character blank when it has the Unicode property `White_Space`. The property
holds of 25 characters. It includes the no-break spaces and the two Unicode separators, and leaves
out the zero-width space and the byte order mark.
-/

namespace PugPretty

/-- The Unicode property `White_Space`. -/
def isBlank (c : Char) : Bool :=
  let n := c.toNat
  (0x9 ≤ n && n ≤ 0xD) || n == 0x20 || n == 0x85 || n == 0xA0 || n == 0x1680 ||
    (0x2000 ≤ n && n ≤ 0x200A) || n == 0x2028 || n == 0x2029 || n == 0x202F || n == 0x205F ||
    n == 0x3000

example : [' ', '\t', '\n', '\r', '\u0085', '\u00a0', '\u2029', '\u3000'].all isBlank = true := by
  decide

example : ['x', '\u001c', '\u200b', '\ufeff'].any isBlank = false := by decide

end PugPretty
