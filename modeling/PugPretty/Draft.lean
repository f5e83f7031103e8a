import PugPretty.Text.Basic

/-!
# The draft

The draft is the text written so far. It remembers two places, where an id and where a class is put
in as shorthand; both are byte offsets, since text before them never changes its length. Apart from
growing at the end, the text changes by insertion at these places, by losing an opening parenthesis
that nothing followed, and by `finish`, which leaves one line feed at the end.

An end of stream in the middle can shorten the text so far that a remembered place lies past its end,
or, once the text has grown again, inside a character. An insertion there has no meaning. It leaves
the text alone and marks the draft as astray.

All changes are near the end of the text, so it is kept from the end to the beginning. `text` reads
it in order, and the lemmas say what the operations do to it.
-/

namespace PugPretty

structure Draft where
  reversed : Text := []
  size : Nat := 0
  idAt : Nat := 0
  classAt : Nat := 0
  /-- Shorthand was to be inserted where there is no place in the text. -/
  astray : Bool := false
  size_eq : size = Text.byteLength reversed := by rfl
deriving DecidableEq, Repr

namespace Draft

open Text

def text (d : Draft) : Text := d.reversed.reverse

theorem size_eq_byteLength_text (d : Draft) : d.size = byteLength d.text := by
  rw [text, byteLength_reverse, d.size_eq]

/-! ## Growing -/

def write (t : Text) (d : Draft) : Draft :=
  { d with
    reversed := t.reverse ++ d.reversed
    size := d.size + byteLength t
    size_eq := by rw [byteLength_append, byteLength_reverse, d.size_eq, Nat.add_comm] }

@[simp] theorem text_write (t : Text) (d : Draft) : (d.write t).text = d.text ++ t := by
  simp [write, text]

/-! ## Shorthand -/

/-- Shorthand goes after what has been written. -/
def mark (d : Draft) : Draft := { d with idAt := d.size, classAt := d.size }

/-- Classes go after what has been written; an id still goes where it did. -/
def markClass (d : Draft) : Draft := { d with classAt := d.size }

/-- The text behind a byte offset and the text before it, both with the last character first. -/
def splitAt? (n : Nat) (d : Draft) : Option (Text × Text) :=
  if n ≤ d.size then splitAtByte? (d.size - n) d.reversed else none

def insertAt (n : Nat) (t : Text) (d : Draft) : Draft :=
  match h : d.splitAt? n with
  | some (behind, before) =>
    { d with
      reversed := behind ++ (t.reverse ++ before)
      size := d.size + byteLength t
      size_eq := by
        have hs : splitAtByte? (d.size - n) d.reversed = some (behind, before) := by
          unfold splitAt? at h
          split at h
          · exact h
          · cases h
        rw [d.size_eq, ← append_of_splitAtByte? hs]
        simp only [byteLength_append, byteLength_reverse]
        omega }
  | none => { d with astray := true }

def addClass (name : Text) (d : Draft) : Draft :=
  let t := '.' :: name
  { d.insertAt d.classAt t with classAt := d.classAt + byteLength t }

/-- Adds an id in front of the classes and behind the ids that are there. -/
def addId (name : Text) (d : Draft) : Draft :=
  let t := '#' :: name
  { d.insertAt d.idAt t with
    idAt := d.idAt + byteLength t
    classAt := if d.idAt ≤ d.classAt then d.classAt + byteLength t else d.classAt }

theorem splitAt?_of_text_eq {d : Draft} {a b : Text} (h : d.text = a ++ b) :
    d.splitAt? (byteLength a) = some (b.reverse, a.reverse) := by
  have hr : d.reversed = b.reverse ++ a.reverse := by
    rw [← List.reverse_append, ← h, text, List.reverse_reverse]
  have hs : d.size = byteLength a + byteLength b := by
    rw [size_eq_byteLength_text, h, byteLength_append]
  rw [splitAt?, if_pos (by omega), hr, show d.size - byteLength a = byteLength b.reverse by
    rw [byteLength_reverse]; omega]
  exact splitAtByte?_append _ _

theorem text_insertAt {d : Draft} {a b : Text} (h : d.text = a ++ b) (t : Text) :
    (d.insertAt (byteLength a) t).text = a ++ t ++ b := by
  unfold insertAt
  split
  · next behind before hs =>
    rw [splitAt?_of_text_eq h] at hs
    cases hs
    simp [text]
  · next hs =>
    rw [splitAt?_of_text_eq h] at hs
    cases hs

/-! ## Shrinking -/

def dropOpenParen (d : Draft) : Draft :=
  match h : d.reversed with
  | '(' :: r =>
    { d with
      reversed := r
      size := d.size - 1
      size_eq := by
        have hc : '('.utf8Size = 1 := rfl
        rw [d.size_eq, h]
        simp [byteLength, hc] }
  | _ => d

/-- The text ends with exactly one line feed. -/
def finish (d : Draft) : Draft :=
  let reversed := '\n' :: d.reversed.dropWhile (· == '\n')
  { d with reversed, size := byteLength reversed, size_eq := rfl }

theorem text_finish (d : Draft) : d.finish.text = dropEndWhile (· == '\n') d.text ++ ['\n'] := by
  simp [finish, text, dropEndWhile]

/-! ## Measuring -/

/-- The columns the last line takes, a tab at its start counting `tab` columns. -/
def column (tab : Nat) (d : Draft) : Nat :=
  let line := (d.reversed.takeWhile (· != '\n')).reverse
  (line.takeWhile (· == '\t')).length * tab + (line.dropWhile (· == '\t')).length

example : ((({} : Draft).write ['a']).mark.write "(x)".toList |>.addClass ['f'] |>.addId ['m']
    |>.addClass ['g']).text = "a#m.f.g(x)".toList := by decide

example : (({} : Draft).write "ul\n\t\tli(".toList).column 4 = 11 := by decide

end Draft

end PugPretty
