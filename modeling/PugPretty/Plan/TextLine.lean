import PugPretty.Outline
import PugPretty.Comment

/-!
# Text

In the markup, text is collapsed, trimmed, its mustache spans are formatted, and what would begin an
interpolation is made inert; blanks that separate it from inline code are put back. In a block, text
stands as it is one level deeper.
-/

namespace PugPretty

open Text

/-- Whether the text starts with a space that would be lost behind a pipe. -/
def hasLeadingSpace (t : Text) : Bool :=
  t.head? == some ' ' && 1 < t.length && isOneLine t

/-- Whether a space separates text from the token before it. The tokens of classes and attribute
lists write that space themselves. -/
def Kind.spaceBeforeText : Kind → Bool
  | .tag _ | .idName _ | .interpolation _ | .call .. | .andAttributes _ | .filter _ => true
  | _ => false

def blockLineEdits (style : Style) (s : Site) (o : Outline) (inComment : Bool) (t : Text) :
    List Edit :=
  let lead := match s.prev? with
    | some .newline => [.indent (o.depth + 1)]
    | some .startPipeless => [.indent 1]
    | _ => []
  let space := if s.prev?.any Kind.spaceBeforeText then [.say " "] else []
  lead ++ space ++ [.put (if inComment then commentBody style.comments true t else t)]

/-- What stands before a text of the markup: at the start of a line its indentation and a pipe, an
empty piped line if the text starts with a space, and a space. -/
def textLead (s : Site) (o : Outline) (t : Text) : List Edit :=
  let leading := hasLeadingSpace (collapse t)
  match s.prev? with
  | some .newline | some .outdent | some .indent =>
    let space := t.any (!isBlank ·) || s.next? == some .startInline
    s.indentation o.depth ++ (if leading then [.say "|\n", .indent o.depth] else []) ++
      .say "|" :: (if space then [.say " "] else [])
  | some (.interpolatedCode ..) | some .endInline => if leading then [.say " "] else []
  | some k => if k.spaceBeforeText then [.say " "] else []
  | none => []

def markupTextEdits (style : Style) (s : Site) (o : Outline) (t : Text) : List Edit :=
  let space :=
    if t.getLast? = some ' ' ∧ s.next?.any Kind.isInlineCode = true then [.say " "] else []
  textLead s o t ++
    .writeInert (mustacheContent style.quotes (trim (collapse t))) :: space

def textEdits (style : Style) (s : Site) (o : Outline) (t : Text) : List Edit :=
  match o.flow with
  | .markup => markupTextEdits style s o t
  | .text => blockLineEdits style s o false t
  | .comment => blockLineEdits style s o true t

end PugPretty
