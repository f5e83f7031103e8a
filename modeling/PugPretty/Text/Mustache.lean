import PugPretty.Text.Basic

/-!
# Mustache spans

`pieces` cuts a text at its mustache spans. A span runs from the leftmost double opening brace to
the leftmost double closing brace after it. An opening without a closing keeps the rest of the text
as it is. `source` writes pieces back, and `source_pieces` states that the cut loses nothing.
-/

namespace PugPretty.Text

/-- A stretch of text between spans, the code inside a span, or what follows an opening that is
never closed. -/
inductive Piece where
  | plain (t : Text)
  | code (t : Text)
  | unclosed (t : Text)
deriving DecidableEq, Repr

namespace Piece

def push (c : Char) : Piece → Piece
  | plain t => plain (c :: t)
  | code t => code (c :: t)
  | unclosed t => unclosed (c :: t)

def source : Piece → Text
  | plain t => t
  | code t => '{' :: '{' :: (t ++ ['}', '}'])
  | unclosed t => '{' :: '{' :: t

def isPlain : Piece → Bool
  | plain _ => true
  | _ => false

theorem source_push_of_isPlain {p : Piece} (h : p.isPlain = true) (c : Char) :
    (p.push c).source = c :: p.source := by
  cases p <;> simp_all [push, source, isPlain]

theorem source_push_of_not_isPlain {p : Piece} (h : p.isPlain = false) (c : Char) :
    (p.push c).source = '{' :: '{' :: c :: p.source.drop 2 := by
  cases p <;> simp_all [push, source, isPlain]

end Piece

/-- Cuts a text, the second argument telling whether a span has been opened before it. -/
def cut : Text → Bool → List Piece
  | [], false => [.plain []]
  | [], true => [.unclosed []]
  | '{' :: '{' :: r, false => .plain [] :: cut r true
  | '}' :: '}' :: r, true => .code [] :: cut r false
  | c :: r, inside => (cut r inside).modifyHead (.push c)

def pieces (t : Text) : List Piece := cut t false

def source (ps : List Piece) : Text := ps.flatMap Piece.source

theorem exists_cut_eq_cons (t : Text) (inside : Bool) :
    ∃ p ps, cut t inside = p :: ps ∧ p.isPlain = !inside := by
  fun_induction cut t inside with
  | case5 c r inside _ _ ih =>
    obtain ⟨p, ps, h, hp⟩ := ih
    exact ⟨p.push c, ps, by rw [h]; rfl, by cases p <;> exact hp⟩
  | _ => exact ⟨_, _, rfl, rfl⟩

theorem source_cut (t : Text) (inside : Bool) :
    source (cut t inside) = (if inside then ['{', '{'] else []) ++ t := by
  fun_induction cut t inside with
  | case5 c r inside _ _ ih =>
    obtain ⟨p, ps, h, hp⟩ := exists_cut_eq_cons r inside
    rw [h] at ih ⊢
    cases inside with
    | false => simp_all [source, Piece.source_push_of_isPlain]
    | true =>
      rw [source, List.flatMap_cons] at ih
      rw [List.modifyHead_cons, source, List.flatMap_cons, Piece.source_push_of_not_isPlain hp]
      cases p <;> simp_all [Piece.source, Piece.isPlain]
  | _ => simp_all [source, Piece.source]

theorem source_pieces (t : Text) : source (pieces t) = t := source_cut t false

example : pieces ['a', '{', '{', '{', 'b', '}', '}', '}'] =
    [.plain ['a'], .code ['{', 'b'], .plain ['}']] := by decide

example : pieces ['{', '{', '}', '}', '{', '{', '}'] =
    [.plain [], .code [], .plain [], .unclosed ['}']] := by decide

end PugPretty.Text
