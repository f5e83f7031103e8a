import PugPretty.Text.Basic

/-!
# Inert text

In a line of text `#` or `!` before an opening brace, and `#` before an opening bracket, begin an
interpolation. `inert` puts a backslash before each, so that the text is read as it stands.
-/

namespace PugPretty.Text

def opensInterpolation : Text → Bool
  | '#' :: '{' :: _ => true
  | '#' :: '[' :: _ => true
  | '!' :: '{' :: _ => true
  | _ => false

def inert : Text → Text
  | [] => []
  | c :: r => if opensInterpolation (c :: r) then '\\' :: c :: inert r else c :: inert r

example : inert "a #[c] #d !".toList = "a \\#[c] #d !".toList := by decide

example : inert ['!', '{', '#', '{'] = ['\\', '!', '{', '\\', '#', '{'] := by decide

end PugPretty.Text
