import PugPretty.Pattern.Flags

/-!
# Escapes

What a backslash and the characters after it stand for: a character, a class or a condition.
-/

namespace PugPretty

inductive Escaped where
  | char (c : Char)
  | class (c : CharClass)
  | look (l : Look)
deriving Repr

def Escaped.toRegex (f : PatternFlags) : Escaped → Regex
  | char c => f.literal c
  | .class c => .char c
  | look l => .look l

/-! ## Code points -/

def hexDigit? (c : Char) : Option Nat :=
  if c.isDigit then some (c.toNat - 48)
  else if 'a' ≤ c ∧ c ≤ 'f' then some (c.toNat - 87)
  else if 'A' ≤ c ∧ c ≤ 'F' then some (c.toNat - 55)
  else none

def hexChar? (digits : Text) : Option Char := do
  if digits.isEmpty then none
  let n ← digits.foldlM (fun n c => (hexDigit? c).map (16 * n + ·)) 0
  if n.isValidChar then some (Char.ofNat n) else none

def takeSkipping (f : PatternFlags) : Nat → Text → Option (Text × Text)
  | 0, t => some ([], t)
  | n + 1, t =>
    match f.skip t with
    | [] => none
    | c :: r => (takeSkipping f n r).map fun (a, b) => (c :: a, b)

/-- A code point in hexadecimal, in braces or with `n` digits. Two digits write a byte, which in ASCII
is no character if it is beyond it. -/
def readCodePoint (f : PatternFlags) (n : Nat) (t : Text) : Option (Char × Text) :=
  match f.skip t with
  | '{' :: r =>
    match f.takeWhile (· != '}') r.length (f.skip r) with
    | (digits, '}' :: rest) => (hexChar? digits).map (·, rest)
    | _ => none
  | t => do
    let (digits, rest) ← takeSkipping f n t
    let c ← hexChar? digits
    if f.ascii ∧ n = 2 ∧ 128 ≤ c.toNat then none else some (c, rest)

/-! ## Word boundaries -/

def WordEdge.ofName? : List Char → Option WordEdge
  | ['s', 't', 'a', 'r', 't'] => some .start
  | ['e', 'n', 'd'] => some .stop
  | ['s', 't', 'a', 'r', 't', '-', 'h', 'a', 'l', 'f'] => some .startHalf
  | ['e', 'n', 'd', '-', 'h', 'a', 'l', 'f'] => some .stopHalf
  | _ => none

def isEdgeNameChar (c : Char) : Bool := c.isAlpha || c == '-'

/-- A kind of edge by its name in braces; without a name there, any boundary. -/
def readWordEdge (f : PatternFlags) : Text → Option (WordEdge × Text)
  | '{' :: r =>
    match f.skip r with
    | [] => none
    | c :: s =>
      if isEdgeNameChar c then
        match f.takeWhile isEdgeNameChar r.length (c :: s) with
        | (name, '}' :: rest) => (WordEdge.ofName? name).map (·, rest)
        | _ => none
      else some (.boundary, '{' :: r)
  | t => some (.boundary, t)

/-! ## All escapes -/

def isEscapable (c : Char) : Bool := c.toNat < 128 && !c.isAlphanum && c != '<' && c != '>'

def readEscape (f : PatternFlags) : Text → Option (Escaped × Text)
  | [] => none
  | c :: r =>
    let codePoint (n : Nat) := (readCodePoint f n r).map fun (c, r) => (Escaped.char c, r)
    let without (c : CharClass) := (f.complement? c).map fun c => (Escaped.class c, r)
    let edge (e : WordEdge) (r : Text) := some (Escaped.look (.word e f.ascii), r)
    if isEscapable c then some (.char c, r)
    else match c with
      | 'x' => codePoint 2
      | 'u' => codePoint 4
      | 'U' => codePoint 8
      | 'd' => some (.class f.digit, r)
      | 's' => some (.class f.blank, r)
      | 'w' => some (.class f.word, r)
      | 'D' => without f.digit
      | 'S' => without f.blank
      | 'W' => without f.word
      | 'a' => some (.char '\x07', r)
      | 'f' => some (.char '\x0c', r)
      | 't' => some (.char '\t', r)
      | 'n' => some (.char '\n', r)
      | 'r' => some (.char '\r', r)
      | 'v' => some (.char '\x0b', r)
      | 'A' => some (.look .startOfText, r)
      | 'z' => some (.look .endOfText, r)
      | 'b' => (readWordEdge f r).bind fun (e, r) => edge e r
      | 'B' => edge .noBoundary r
      | '<' => edge .start r
      | '>' => edge .stop r
      | _ => none

end PugPretty
