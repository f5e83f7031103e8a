import Mathlib.Data.List.DropRight
import PugPretty.Draft

/-!
# The draft in three parts

A draft remembers its two places as byte offsets. `Draft.Parts d x y z` says what they stand for:
the text is `x ++ y ++ z`, ids go behind `x` and classes behind `y`. Every change of a draft is a
change of one part, and none of the changes sends the draft astray.
-/

namespace PugPretty.Draft

open Text

structure Parts (d : Draft) (x y z : Text) : Prop where
  text : d.text = x ++ y ++ z
  idAt : d.idAt = byteLength x
  classAt : d.classAt = byteLength (x ++ y)

theorem Parts.empty : ({} : Draft).Parts [] [] [] := ⟨rfl, rfl, rfl⟩

/-! ## Changes -/

section
variable {d : Draft} {x y z : Text}

theorem Parts.write (h : d.Parts x y z) (t : Text) : (d.write t).Parts x y (z ++ t) :=
  ⟨by rw [text_write, h.text, List.append_assoc _ z], h.idAt, h.classAt⟩

theorem Parts.mark (d : Draft) : d.mark.Parts d.text [] [] := by
  have hs := d.size_eq_byteLength_text
  exact ⟨by simp [Draft.mark, Draft.text], hs, by rw [List.append_nil]; exact hs⟩

theorem Parts.markClass (h : d.Parts x y z) : d.markClass.Parts x (y ++ z) [] := by
  have ht : d.text = x ++ (y ++ z) := by rw [h.text, List.append_assoc]
  refine ⟨by rw [List.append_nil]; exact ht, h.idAt, ?_⟩
  rw [← ht]; exact d.size_eq_byteLength_text

theorem idAt_insertAt (n : Nat) (t : Text) (d : Draft) : (d.insertAt n t).idAt = d.idAt := by
  unfold insertAt; split <;> rfl

theorem Parts.addClass (h : d.Parts x y z) (n : Text) :
    (d.addClass n).Parts x (y ++ '.' :: n) z := by
  refine ⟨?_, ?_, ?_⟩
  · show (d.insertAt d.classAt ('.' :: n)).text = _
    rw [h.classAt, text_insertAt h.text, List.append_assoc x]
  · show (d.insertAt d.classAt ('.' :: n)).idAt = _
    rw [idAt_insertAt, h.idAt]
  · show d.classAt + byteLength ('.' :: n) = _
    rw [h.classAt, ← byteLength_append, List.append_assoc]

theorem Parts.addId (h : d.Parts x y z) (n : Text) :
    (d.addId n).Parts (x ++ '#' :: n) y z := by
  have ht : d.text = x ++ (y ++ z) := by rw [h.text, List.append_assoc]
  refine ⟨?_, ?_, ?_⟩
  · show (d.insertAt d.idAt ('#' :: n)).text = _
    rw [h.idAt, text_insertAt ht, ← List.append_assoc]
  · show d.idAt + byteLength ('#' :: n) = _
    rw [h.idAt, ← byteLength_append]
  · show (if d.idAt ≤ d.classAt then d.classAt + byteLength ('#' :: n) else d.classAt) = _
    rw [h.idAt, h.classAt, byteLength_append x y, if_pos (Nat.le_add_right _ _)]
    simp only [byteLength_append]
    omega

theorem text_dropOpenParen {t : Text} (h : d.text = t ++ ['(']) : d.dropOpenParen.text = t := by
  have hr : d.reversed = '(' :: t.reverse := by
    rw [← List.reverse_reverse d.reversed, ← Draft.text, h, List.reverse_append]; rfl
  unfold dropOpenParen
  split
  · next r hd =>
    rw [hr] at hd
    cases hd
    exact List.reverse_reverse t
  · next hd => exact absurd hr (hd _)

theorem Parts.dropOpenParen (h : d.Parts x y (z ++ ['('])) : d.dropOpenParen.Parts x y z := by
  have ht := text_dropOpenParen (d := d) (t := x ++ y ++ z) (by rw [h.text]; simp)
  refine ⟨ht, ?_, ?_⟩
  · rw [← h.idAt]; unfold Draft.dropOpenParen; split <;> rfl
  · rw [← h.classAt]; unfold Draft.dropOpenParen; split <;> rfl

/-! ## Staying on the page -/

theorem astray_insertAt {a b : Text} (h : d.text = a ++ b) (t : Text) :
    (d.insertAt (byteLength a) t).astray = d.astray := by
  unfold insertAt
  split
  · rfl
  · next hs =>
    rw [splitAt?_of_text_eq h] at hs
    cases hs

theorem Parts.astray_addClass (h : d.Parts x y z) (n : Text) : (d.addClass n).astray = d.astray := by
  show (d.insertAt d.classAt ('.' :: n)).astray = _
  rw [h.classAt, astray_insertAt h.text]

theorem Parts.astray_addId (h : d.Parts x y z) (n : Text) : (d.addId n).astray = d.astray := by
  show (d.insertAt d.idAt ('#' :: n)).astray = _
  rw [h.idAt, astray_insertAt (by rw [h.text, List.append_assoc])]

theorem astray_dropOpenParen (d : Draft) : d.dropOpenParen.astray = d.astray := by
  unfold dropOpenParen; split <;> rfl

end

theorem finish_finish (d : Draft) : d.finish.finish = d.finish := by
  simp [finish, List.dropWhile_idempotent]

end PugPretty.Draft
