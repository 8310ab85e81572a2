import AtomicStyles.Text.Blank

/-!
# Splitting texts

The parts of a text between the places where a separator stands. Separators are found
from left to right and do not overlap.
-/

namespace AtomicStyles
namespace Text

/-- The parts of a text between separators; `part` holds the current part, last character
first, and `skip` how many characters of a separator are still to come. -/
def splitFrom (sep : List Char) (skip : Nat) (part : List Char) : List Char → List (List Char)
  | [] => [part.reverse]
  | c :: cs =>
    match skip with
    | skip + 1 => splitFrom sep skip part cs
    | 0 =>
      if startsWith sep (c :: cs) then part.reverse :: splitFrom sep (sep.length - 1) [] cs
      else splitFrom sep 0 (c :: part) cs

/-- The parts of a text between the separators in it, which may not be empty. -/
def split (sep s : String) : List String :=
  (splitFrom sep.toList 0 [] s.toList).map String.ofList

end Text
end AtomicStyles
