/-!
# JSON documents

A document keeps the fields of an object in the order in which their names first
came; a repeated name keeps its place and takes the last value. A number written
without fraction and exponent that fits 64 bits is an integer, every other number is
a binary64 number.
-/

namespace AtomicStyles

/-- A JSON document. -/
inductive Json where
  | null
  | bool (b : Bool)
  | int (n : Int)
  | real (x : Float)
  | str (s : String)
  | arr (items : List Json)
  | obj (fields : List (String × Json))
deriving Inhabited

namespace Json

/-- The field of an object, `null` where there is none. -/
def field (name : String) : Json → Json
  | obj fields => ((fields.find? fun f => f.1 == name).map (·.2)).getD null
  | _ => null

/-- The field of an object, if there is one. -/
def field? (name : String) : Json → Option Json
  | obj fields => (fields.find? fun f => f.1 == name).map (·.2)
  | _ => none

/-- The text of a string document, empty for any other. -/
def text : Json → String
  | str s => s
  | _ => ""

/-- The items of an array document, none for any other. -/
def items : Json → List Json
  | arr xs => xs
  | _ => []

end Json
end AtomicStyles
