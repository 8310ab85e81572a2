import AtomicStyles.Output.Splice
import AtomicStyles.Script.Names
import AtomicStyles.Script.Node

/-!
# How a unit reaches the runtime primitive

A unit that imports the primitive uses its own name for it. To any other unit an import
is added after its directives, under a name that occurs nowhere in the unit.
-/

namespace AtomicStyles

open Script

namespace RuntimeImport

/-- The name under which specifiers import `imported`. -/
def nameIn (imported : String) (specifiers : List ImportSpecifier) : Option String :=
  specifiers.findSome? fun s =>
    match s with
    | .named id _ false => if s.importedName? = some imported then some id.name else none
    | _ => none

/-- The name under which a module imports `imported` from `source`. -/
def nameIn? (m : Module) (source imported : String) : Option String :=
  m.items.findSome? fun
    | .imports specifiers from? false =>
      if from? = source then nameIn imported specifiers else none
    | _ => none

/-- The first of `base`, `base2`, `base3`, … that is not in `taken`, counting from `n`. -/
def freshFrom (base : String) (taken : List String) (n : Nat) : Nat → String
  | 0 => base
  | fuel + 1 =>
    let name := if n = 1 then base else base ++ toString n
    if taken.contains name then freshFrom base taken (n + 1) fuel else name

/-- The first of `base`, `base2`, `base3`, … that is not in `taken`. -/
def fresh (base : String) (taken : List String) : String :=
  freshFrom base taken 1 (taken.length + 1)

def directiveEnd? : Item → Option Nat
  | .stmt (.expr (.str _) span) => some span.stop
  | _ => none

def directivesEnd? (last : Option Nat) : List Item → Option Nat
  | [] => last
  | i :: is =>
    match directiveEnd? i with
    | some stop => directivesEnd? (some stop) is
    | none => last

/-- The length in bytes of the first line with its end. -/
def firstLine (source : List Char) : Nat :=
  let line := source.takeWhile (· ≠ '\n')
  (String.ofList line).utf8ByteSize + (if line.length < source.length then 1 else 0)

/-- Where an import can be added: after the directives, after a first line that starts with
`#!`, or at the start. -/
def insertionPoint (m : Module) (source : String) : Nat :=
  match directivesEnd? none m.items with
  | some stop => stop
  | none => if "#!".isPrefixOf source then firstLine source.toList else 0

/-- How `m`, whose text is `text`, refers to `imported` from `source`. -/
def plan (m : Module) (text source imported : String) : RuntimeImport :=
  match nameIn? m source imported with
  | some name => .existing name
  | none => .insert (fresh imported m.names) (insertionPoint m text)

end RuntimeImport
end AtomicStyles
