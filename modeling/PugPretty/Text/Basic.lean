import PugPretty.Text.Blank

/-!
# Text

Text under construction is a list of characters. This module holds the operations the rules of the
formatter are made of: trimming, collapsing blanks, cutting into lines and words, and recognising a
text by how it begins and ends. `String` appears only where text enters or leaves the library.
-/

namespace PugPretty

abbrev Text := List Char

def total (ns : List Nat) : Nat := ns.foldr (· + ·) 0

@[simp] theorem total_nil : total [] = 0 := rfl

@[simp] theorem total_cons (n : Nat) (ns : List Nat) : total (n :: ns) = n + total ns := rfl

@[simp] theorem total_append (ms ns : List Nat) : total (ms ++ ns) = total ms + total ns := by
  induction ms with
  | nil => simp
  | cons m ms ih => simp [ih, Nat.add_assoc]

@[simp] theorem total_reverse (ns : List Nat) : total ns.reverse = total ns := by
  induction ns with
  | nil => rfl
  | cons n ns ih => simp [ih, Nat.add_comm]

namespace Text

/-! ## Trimming -/

def dropEndWhile (p : Char → Bool) (t : Text) : Text :=
  (t.reverse.dropWhile p).reverse

def trimStart (t : Text) : Text := t.dropWhile isBlank

def trimEnd (t : Text) : Text := dropEndWhile isBlank t

def trim (t : Text) : Text := trimEnd (trimStart t)

def isBlankText (t : Text) : Bool := t.all isBlank

/-! ## Collapsing -/

/-- Every maximal run of two or more blanks becomes one space; a single blank stays what it is. -/
def collapse : Text → Text
  | [] => []
  | c :: r =>
    if isBlank c && r.head?.any isBlank then ' ' :: (collapse r).drop 1 else c :: collapse r

example : collapse "a  b \t c\td".toList = "a b c\td".toList := by decide

/-! ## Lines and words -/

def lines (t : Text) : List Text := t.splitOn '\n'

def unlines (ls : List Text) : Text := ['\n'].intercalate ls

def words (t : Text) : List Text := (t.splitOnP isBlank).filter (!·.isEmpty)

def unwords (ws : List Text) : Text := [' '].intercalate ws

example : words " a  b\tc ".toList = [['a'], ['b'], ['c']] := by decide

def isOneLine (t : Text) : Bool := !t.contains '\n'

/-- Several lines become one: each is trimmed and they are joined without a separator. A text of
one line is left as it is. -/
def joinLines (t : Text) : Text :=
  if isOneLine t then t else ((lines t).map trim).flatten

example : joinLines "a(\n  b,\n  c\n)".toList = "a(b,c)".toList := by decide

example : joinLines " a + b ".toList = " a + b ".toList := by decide

/-! ## Beginnings and ends -/

/-- The body of a text that reads `front`, body, `back`. -/
def between? (front back t : Text) : Option Text :=
  (front.isPrefixOf? t).bind back.isSuffixOf?

/-- As `between?`, for a body without line feeds. -/
def betweenOnLine? (front back t : Text) : Option Text :=
  (between? front back t).filter isOneLine

example : between? ['('] [')'] "(a)".toList = some ['a'] := by decide

example : between? ['('] [')'] ['('] = none := by decide

/-! ## Widths -/

def byteLength (t : Text) : Nat := total (t.map Char.utf8Size)

theorem byteLength_append (a b : Text) : byteLength (a ++ b) = byteLength a + byteLength b := by
  simp [byteLength]

theorem byteLength_reverse (t : Text) : byteLength t.reverse = byteLength t := by
  simp [byteLength]

/-- Cuts the text at a byte offset. There is no cut past the end or inside a character. -/
def splitAtByte? : Nat → Text → Option (Text × Text)
  | 0, t => some ([], t)
  | _ + 1, [] => none
  | n + 1, c :: r =>
    if c.utf8Size ≤ n + 1 then (splitAtByte? (n + 1 - c.utf8Size) r).map fun (a, b) => (c :: a, b)
    else none

theorem append_of_splitAtByte? {n : Nat} {t a b : Text} (h : splitAtByte? n t = some (a, b)) :
    a ++ b = t := by
  fun_induction splitAtByte? n t generalizing a b with
  | case1 t => simp_all
  | case2 => simp at h
  | case3 n c r hc ih =>
    obtain ⟨⟨x, y⟩, hxy, h⟩ := Option.map_eq_some_iff.1 h
    simp only [Prod.mk.injEq] at h
    obtain ⟨rfl, rfl⟩ := h
    simp [ih hxy]
  | case4 => simp at h

theorem splitAtByte?_append (a b : Text) :
    splitAtByte? (byteLength a) (a ++ b) = some (a, b) := by
  induction a with
  | nil => cases b <;> rfl
  | cons c a ih =>
    obtain ⟨n, hn⟩ : ∃ n, byteLength (c :: a) = n + 1 :=
      Nat.exists_eq_succ_of_ne_zero (by have := c.utf8Size_pos; simp [byteLength]; omega)
    have hs : byteLength (c :: a) = c.utf8Size + byteLength a := by simp [byteLength]
    rw [hn, List.cons_append, splitAtByte?, if_pos (by omega),
      show n + 1 - c.utf8Size = byteLength a by omega, ih]
    rfl

example : splitAtByte? 3 "éa!".toList = some (['é', 'a'], ['!']) := by decide

example : splitAtByte? 1 "éa!".toList = none := by decide

end Text

end PugPretty
