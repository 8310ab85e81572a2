import AtomicStyles.OrderedMap

/-!
# Values computed once

A `Memo` holds at most one value per key: the first request for a key runs its
initializer, and every later request gets the value that run gave.
-/

namespace AtomicStyles

/-- Values by key, each computed at most once. -/
structure Memo (κ ν : Type) where
  cells : OrderedMap κ ν := {}

namespace Memo

variable {κ ν : Type} [BEq κ]

def empty : Memo κ ν := {}

/-- The value under a key, if it has been computed. -/
def get? (m : Memo κ ν) (k : κ) : Option ν := m.cells.get? k

/-- The value under `k`, computed by `init` when there is none yet; tells whether `init` ran. -/
def getOrInit (m : Memo κ ν) (k : κ) (init : Unit → ν) : ν × Bool × Memo κ ν :=
  match m.get? k with
  | some v => (v, false, m)
  | none =>
    let v := init ()
    (v, true, ⟨m.cells.insert k v⟩)

def size (m : Memo κ ν) : Nat := m.cells.size

def isEmpty (m : Memo κ ν) : Bool := m.cells.isEmpty

end Memo
end AtomicStyles
