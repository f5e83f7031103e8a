import PugPretty.Text.Basic
import PugPretty.Text.WordChar

/-!
# Lines of HTML

A line of HTML that is one element is written as that element, and a document type declaration that
has a short name as the short name. Everything else stays HTML.
-/

namespace PugPretty

def isTagName : Text → Bool
  | c :: r => c.isAlpha && r.all fun d => isWordChar d || d == '-'
  | [] => false

/-- The name and the body of a line that opens an element, has a body and closes an element of the
same name. -/
def inlineElement? (html : Text) : Option (Text × Text) :=
  match html with
  | '<' :: r =>
    let name := r.takeWhile (· != '>')
    if isTagName name then
      (Text.betweenOnLine? ('<' :: name ++ ['>']) (['<', '/'] ++ name ++ ['>']) html).map (name, ·)
    else none
  | _ => none

example : inlineElement? "<b>x</b>".toList = some (['b'], ['x']) := by decide +kernel

example : inlineElement? "<b>x</i>".toList = none := by decide +kernel

example : inlineElement? "<b></b".toList = none := by decide +kernel

def doctypes : List (String × String) :=
  [("<?xml version=\"1.0\" encoding=\"utf-8\" ?>", "doctype xml"),
   ("<!doctype html>", "doctype html"),
   ("<!doctype html public \"-//w3c//dtd xhtml 1.0 transitional//en\" \"http://www.w3.org/tr/xhtml1/dtd/xhtml1-transitional.dtd\">",
    "doctype transitional"),
   ("<!doctype html public \"-//w3c//dtd xhtml 1.0 strict//en\" \"http://www.w3.org/tr/xhtml1/dtd/xhtml1-strict.dtd\">",
    "doctype strict"),
   ("<!doctype html public \"-//w3c//dtd xhtml 1.0 frameset//en\" \"http://www.w3.org/tr/xhtml1/dtd/xhtml1-frameset.dtd\">",
    "doctype frameset"),
   ("<!doctype html public \"-//w3c//dtd xhtml 1.1//en\" \"http://www.w3.org/tr/xhtml11/dtd/xhtml11.dtd\">",
    "doctype 1.1"),
   ("<!doctype html public \"-//w3c//dtd xhtml basic 1.1//en\" \"http://www.w3.org/tr/xhtml-basic/xhtml-basic11.dtd\">",
    "doctype basic"),
   ("<!doctype html public \"-//wapforum//dtd xhtml mobile 1.2//en\" \"http://www.openmobilealliance.org/tech/dtd/xhtml-mobile12.dtd\">",
    "doctype mobile"),
   ("<!doctype plist public \"-//apple//dtd plist 1.0//en\" \"http://www.apple.com/dtds/propertylist-1.0.dtd\">",
    "doctype plist")]

def doctypeShortcut? (html : Text) : Option Text :=
  (doctypes.lookup (String.ofList (html.map Char.toLower))).map String.toList

example : doctypeShortcut? "<!DOCTYPE html>".toList = some "doctype html".toList := by
  decide +kernel

def htmlLine (html : Text) : Text :=
  match inlineElement? html with
  | some (name, body) => name ++ ' ' :: body
  | none => (doctypeShortcut? html).getD html

end PugPretty
