/-!
# The pragma

A file that begins with one of two comments is marked as formatted. The mark is put in front of a
text that has none.
-/

namespace PugPretty

def pragmaLine : String := "//- @prettier\n"

def hasPragma (text : String) : Bool :=
  pragmaLine.toList.isPrefixOf text.toList || "//- @format\n".toList.isPrefixOf text.toList

def insertPragma (text : String) : String :=
  if hasPragma text then text else pragmaLine ++ text

end PugPretty
