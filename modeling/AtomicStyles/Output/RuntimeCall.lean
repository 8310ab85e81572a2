import AtomicStyles.OrderedMap
import AtomicStyles.Output.Quoted

/-!
# The call a compiled style call becomes

A compiled call is replaced by a call of the runtime primitive with two object
literals: the classes of every slot and the rules of every group.
-/

namespace AtomicStyles
namespace RuntimeCall

def array (items : List String) : String := "[" ++ ",".intercalate (items.map Quoted.string) ++ "]"

/-- The classes of a slot: a string for exactly one class, otherwise an array. -/
def classes : List String → String
  | [c] => Quoted.string c
  | cs => array cs

/-- An object literal of printed values. -/
def object (fields : List (String × String)) : String :=
  "\x7b" ++ ",".intercalate (fields.map fun (k, v) => Quoted.key k ++ ":" ++ v) ++ "\x7d"

def text (callee : String) (classMap groups : OrderedMap String (List String)) : String :=
  callee ++ "(" ++ object (classMap.entries.map fun (k, v) => (k, classes v)) ++ ","
    ++ object (groups.entries.map fun (k, v) => (k, array v)) ++ ")"

end RuntimeCall
end AtomicStyles
