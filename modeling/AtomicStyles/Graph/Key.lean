import AtomicStyles.Files.Loader

/-!
# What is evaluated

The units of evaluation: one top-level name of a module, the whole top-level code of a
module, or the object of all its exports.
-/

namespace AtomicStyles

/-- A unit of evaluation. -/
inductive BindingKey where
  | name (module : ModuleId) (name : String)
  /-- The top-level code of a module. -/
  | body (module : ModuleId)
  /-- The object of a module's exports. -/
  | everything (module : ModuleId)
deriving Repr, DecidableEq, Inhabited, Hashable

namespace BindingKey

def module : BindingKey → ModuleId
  | name m _ => m
  | body m => m
  | everything m => m

def text : BindingKey → String
  | name m n => m ++ "#" ++ n
  | body m => m
  | everything m => "* as " ++ m

/-- The rank of the kinds of keys. -/
def rank : BindingKey → Nat
  | name _ _ => 0
  | body _ => 1
  | everything _ => 2

/-- The texts by which keys of one kind are compared, most important first. -/
def texts : BindingKey → List String
  | name m n => [m, n]
  | body m => [m]
  | everything m => [m]

/-- Whether one list of texts comes before another or equals it. -/
def textsLe : List String → List String → Bool
  | [], _ => true
  | _ :: _, [] => false
  | a :: as, b :: bs => a < b || (a == b && textsLe as bs)

/-- The order of keys: names before bodies before whole modules, and by their texts within
each kind. -/
def le (a b : BindingKey) : Bool :=
  a.rank < b.rank || (a.rank == b.rank && textsLe a.texts b.texts)

/-- Keys in their order. -/
def sort (ks : List BindingKey) : List BindingKey := ks.mergeSort le

end BindingKey
end AtomicStyles
