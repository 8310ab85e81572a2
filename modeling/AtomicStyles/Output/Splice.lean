import AtomicStyles.Json.Printer

/-!
# Splicing edits into a source

Edits replace ranges of bytes of a source text. They are applied in the order of
their ranges; an edit that starts inside an earlier one is dropped, and everything
outside the ranges is kept byte for byte.

## Main definitions

* `Edit`, `Splice.apply` — replacing ranges.
* `RuntimeImport`, `RuntimeImport.statement` — how a unit reaches the runtime primitive.
* `Splice.replaceCalls` — replacing calls and adding the import they need.
-/

namespace AtomicStyles

/-- A replacement of the bytes from `start` to `stop`. -/
structure Edit where
  start : Nat
  stop : Nat
  text : String
deriving Repr, DecidableEq, Inhabited

/-- How rewritten calls reach the runtime primitive. -/
inductive RuntimeImport where
  /-- The unit imports it under this name. -/
  | existing (name : String)
  /-- An import is added at a byte offset. -/
  | insert (name : String) (offset : Nat)
deriving Repr, DecidableEq

namespace RuntimeImport

/-- The name rewritten calls use. -/
def name : RuntimeImport → String
  | existing n => n
  | insert n _ => n

/-- The text of an import of `imported` under the name `name`. -/
def statement (name imported source : String) : String :=
  let clause := if name = imported then imported else imported ++ " as " ++ name
  "import \x7b " ++ clause ++ " \x7d from " ++ Json.quote source ++ ";"

end RuntimeImport

namespace Splice

/-- The characters that fill the first `n` bytes. -/
def takeBytes (n : Nat) : List Char → List Char
  | [] => []
  | c :: cs => if n = 0 then [] else c :: takeBytes (n - c.utf8Size) cs

/-- The characters after the first `n` bytes. -/
def dropBytes (n : Nat) : List Char → List Char
  | [] => []
  | c :: cs => if n = 0 then c :: cs else dropBytes (n - c.utf8Size) cs

/-- Whether an edit comes before another: by start, then by end. -/
def before (a b : Edit) : Bool := a.start < b.start || (a.start == b.start && a.stop ≤ b.stop)

/-- Applies sorted edits to what follows byte `cursor`. -/
def applySorted (cursor : Nat) (rest : List Char) : List Edit → List Char
  | [] => rest
  | e :: es =>
    if e.start < cursor then applySorted cursor rest es
    else
      takeBytes (e.start - cursor) rest ++ e.text.toList
        ++ applySorted e.stop (dropBytes (e.stop - cursor) rest) es

/-- Applies edits in any order. -/
def apply (source : String) (edits : List Edit) : String :=
  String.ofList (applySorted 0 source.toList (edits.mergeSort before))

/-- The edit that adds an import statement: on a line of its own before what follows, or after
what stands before it. -/
def importEdit (source statement : String) (offset : Nat) : Edit :=
  let atLineStart := offset == 0 || (takeBytes offset source.toList).getLast? == some '\n'
  ⟨offset, offset, if atLineStart then statement ++ "\n" else "\n" ++ statement⟩

/-- Replaces calls and adds the import they need; without calls the source stays as it is. -/
def replaceCalls (source : String) (calls : List Edit) (imported : Option (RuntimeImport × String)) :
    String :=
  if calls.isEmpty then source
  else match imported with
    | some (.insert _ offset, statement) =>
      apply source (calls ++ [importEdit source statement offset])
    | _ => apply source calls

end Splice
end AtomicStyles
