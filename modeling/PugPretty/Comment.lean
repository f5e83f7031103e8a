import PugPretty.Options

/-!
# Comments

The body of a comment keeps all its blanks, loses those at its end, or has every line trimmed and
collapsed. In the last case a body that stood apart from the comment mark keeps one space there,
unless it is the line of a block.
-/

namespace PugPretty

def Text.tidyLines (t : Text) : Text :=
  unlines ((lines t).map fun l => collapse (trim l))

/-- The body of a comment, or with `inBlock` of one line of a block of comments. -/
def commentBody (mode : CommentBlanks) (inBlock : Bool) (body : Text) : Text :=
  match mode with
  | .keepAll => body
  | .keepLeading => Text.trimEnd body
  | .trimAll =>
    let tidy := Text.tidyLines body
    if !inBlock && body.head?.any isBlank && !tidy.isEmpty then ' ' :: tidy else tidy

example : commentBody .trimAll false "   leading  and   interior ".toList =
    " leading and interior".toList := by decide

example : commentBody .trimAll true "  a  \n   b  ".toList = "a\nb".toList := by decide

example : commentBody .trimAll false "   ".toList = [] := by decide

end PugPretty
