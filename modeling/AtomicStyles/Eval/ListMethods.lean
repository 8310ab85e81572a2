import AtomicStyles.Eval.Methods

/-!
# Methods of arrays

Methods that take a function go over the items that were there when they were called. Sorting
inserts item after item and writes the array only once all comparisons have been made.

## Main definitions

* `Eval.insertSorted`, `Eval.sortItems` — sorting with a comparison that can fail.
* `Eval.callList` — the methods of arrays.
-/

namespace AtomicStyles

/-- The items of arrays inside arrays, down to the given depth. -/
def Machine.flatten (m : Machine) : Nat → List Value → List Value
  | 0, vs => vs
  | depth + 1, vs => vs.flatMap fun
    | .array a => m.flatten depth (m.arrayCell a).content.toList
    | v => [v]

namespace Eval

/-- Values with the items of arrays in place of the arrays, down to the given depth. -/
def flattened (depth : Nat) (vs : List Value) : Eval (List Value) :=
  return (← get).flatten depth vs

/-! ### Functions as arguments -/

def checkCallable (v : Value) : Eval Unit := do
  if !v.isFunction then throw (.type (.notCallable (← text v)))

/-- Calls a function on an item with its index and the array. -/
def visitItem (r : Interp) (f : Value) (a : ArrayRef) (item : Value × Nat) : Eval Value :=
  r.call f [item.1, .number item.2.toFloat, .array a]

def indexedItems (a : ArrayRef) : Eval (List (Value × Nat)) := return (← items a).toList.zipIdx

/-- The first item for which a function gives a value that is true, or is not, as `wanted`
says. -/
def searchItems (r : Interp) (f : Value) (a : ArrayRef) (wanted : Bool) :
    List (Value × Nat) → Eval (Option (Value × Nat))
  | [] => return none
  | item :: rest => do
    if (← visitItem r f a item).isTrue == wanted then return some item
    else searchItems r f a wanted rest

/-- The items of an array, or the value itself if it is none. -/
def spreadItems (v : Value) : Eval (List Value) := do
  match v with
  | .array a => return (← items a).toList
  | v => return [v]

def reduceItems (r : Interp) (f : Value) (a : ArrayRef) (args : List Value) : Eval Value := do
  let step (acc : Value) (item : Value × Nat) : Eval Value :=
    r.call f [acc, item.1, .number item.2.toFloat, .array a]
  match args[1]?, ← indexedItems a with
  | some initial, items => items.foldlM step initial
  | none, first :: items => items.foldlM step first.1
  | none, [] => throw (.type .emptyReduce)

/-! ### Sorting -/

/-- The order of two items that a function gives, or else that of their texts. -/
def compareBy (r : Interp) (comparator a b : Value) : Eval Ordering := do
  if comparator.isFunction then
    let x ← number (← r.call comparator [a, b])
    return if 0.0 < x then .gt else if x < 0.0 then .lt else .eq
  else return Text.compareUnits (Text.units (← text a)) (Text.units (← text b))

/-- The order of two items. What is undefined comes last. -/
def compareItems (r : Interp) (comparator a b : Value) : Eval Ordering :=
  match a, b with
  | .undefined, .undefined => return .eq
  | .undefined, _ => return .gt
  | _, .undefined => return .lt
  | a, b => compareBy r comparator a b

/-- Inserts an item into sorted ones, which stand in descending order: it moves before those
that are greater. -/
def insertSorted (order : Value → Value → Eval Ordering) (v : Value) :
    List Value → Eval (List Value)
  | [] => return [v]
  | w :: ws => do
    match ← order w v with
    | .gt => return w :: (← insertSorted order v ws)
    | _ => return v :: w :: ws

/-- Items in ascending order; equal ones keep theirs. -/
def sortItems (order : Value → Value → Eval Ordering) (vs : List Value) : Eval (List Value) := do
  return (← vs.foldlM (fun sorted v => insertSorted order v sorted) []).reverse

/-- Sorts an array unless it is frozen. -/
def sortArray (order : Value → Value → Eval Ordering) (a : ArrayRef) : Eval Unit := do
  beforeArrayWrite a
  let sorted ← sortItems order (← items a).toList
  modifyItems a fun _ => sorted.toArray

/-! ### Methods -/

def changeItems (a : ArrayRef) (method : ListMethod) (args : List Value) : Eval Value := do
  let xs ← items a
  match method with
  | .push =>
    changeArray a (return fun xs => xs ++ args)
    return .number (← items a).size.toFloat
  | .unshift =>
    changeArray a (return fun xs => args.toArray ++ xs)
    return .number (← items a).size.toFloat
  | .pop =>
    changeArray a (return Array.pop)
    return xs.back?.getD .undefined
  | .shift =>
    changeArray a (return fun xs => xs.drop 1)
    return xs[0]?.getD .undefined
  | _ =>
    changeArray a (return Array.reverse)
    return .array a

def callList (r : Interp) (a : ArrayRef) (method : ListMethod) (args : List Value) :
    Eval Value := do
  let f := argument args 0
  match method with
  | .map =>
    checkCallable f
    newArray (← (← indexedItems a).mapM (visitItem r f a)).toArray
  | .filter =>
    checkCallable f
    let kept ← (← indexedItems a).filterM fun item => return (← visitItem r f a item).isTrue
    newArray (kept.map (·.1)).toArray
  | .forEach =>
    checkCallable f
    (← indexedItems a).forM fun item => do let _ ← visitItem r f a item
    return .undefined
  | .flatMap =>
    checkCallable f
    let parts ← (← indexedItems a).mapM fun item => do spreadItems (← visitItem r f a item)
    newArray parts.flatten.toArray
  | .find =>
    checkCallable f
    return ((← searchItems r f a true (← indexedItems a)).map (·.1)).getD .undefined
  | .findIndex =>
    checkCallable f
    match ← searchItems r f a true (← indexedItems a) with
    | some item => return .number item.2.toFloat
    | none => return .number (-1.0)
  | .some =>
    checkCallable f
    return .bool (← searchItems r f a true (← indexedItems a)).isSome
  | .every =>
    checkCallable f
    return .bool (← searchItems r f a false (← indexedItems a)).isNone
  | .reduce =>
    checkCallable f
    reduceItems r f a args
  | .join =>
    let sep ← optional f "," text
    return .string (sep.intercalate (← itemTexts (← items a).toList))
  | .toString => return .string (",".intercalate (← itemTexts (← items a).toList))
  | .flat =>
    let depth ← optional f 1 count
    newArray (← flattened depth (← items a).toList).toArray
  | .slice =>
    let xs ← items a
    let start ← relativePlace xs.size 0 (argument args 0)
    let stop ← relativePlace xs.size xs.size (argument args 1)
    newArray (xs.extract start stop)
  | .concat =>
    let parts ← args.mapM spreadItems
    newArray ((← items a) ++ parts.flatten.toArray)
  | .includes => return .bool ((← items a).any fun v => v.sameValue f)
  | .indexOf =>
    match (← items a).findIdx? fun v => v.strictEquals f with
    | some i => return .number i.toFloat
    | none => return .number (-1.0)
  | .at =>
    let xs ← items a
    match ← itemPlace xs.size true f with
    | some i => return xs.getD i .undefined
    | none => return .undefined
  | .sort =>
    sortArray (compareItems r f) a
    return .array a
  | method => changeItems a method args

end Eval
end AtomicStyles
