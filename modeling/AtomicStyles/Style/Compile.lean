import AtomicStyles.ClassName
import AtomicStyles.Style.Declaration
import AtomicStyles.Style.Object

/-!
# Atomic rules

Every longhand in every context becomes one rule with one class. The class is a
function of the key of the rule, which spells out its at-rules, its selectors, the
property and the value; equal declarations anywhere share a class and a rule.

In a slot a later declaration of a property replaces an earlier one of the same
context, and takes its place.

## Main definitions

* `Atom`, `Atom.key` — a longhand, and the text its class name is the fingerprint of.
* `AtomicRule`, `AtomicRule.make` — a class and the rule that defines it.
* `Compiled`, `StyleObject.compile` — the classes of every slot and the rules by group.
-/

namespace AtomicStyles

/-- The declarations of one rule, with the value text its key holds. -/
structure Atom where
  property : String
  keyValue : String
  declarations : List Declaration
deriving Repr, DecidableEq

namespace Atom

/-- Separates at-rules, selectors and fallback values in a key. -/
def itemMark : String := "\x1e"

/-- Separates the fields of a key. -/
def fieldMark : String := "\x1f"

/-- The rules a literal gives: one for each longhand of a value, one for a list of fallbacks. -/
def ofLiteral (property : String) : Literal → List Atom
  | .value v => (Declaration.expand property v).map fun d => ⟨d.property, d.value, d.withVendors⟩
  | .fallbacks vs =>
    [⟨property, itemMark.intercalate vs, vs.flatMap fun v => Declaration.withVendors ⟨property, v⟩⟩]

def key (path : List Segment) (a : Atom) : String :=
  itemMark.intercalate (Selector.atRules path) ++ fieldMark
    ++ String.join ((Selector.selectors path).map (· ++ itemMark)) ++ fieldMark
    ++ a.property ++ fieldMark ++ a.keyValue

end Atom

/-- One class and the rule that defines it. -/
structure AtomicRule where
  token : String
  className : String
  text : String
  group : Group
deriving Repr, DecidableEq

/-- Drops the later copies of repeated items. -/
def dedup {α : Type} [BEq α] : List α → List α
  | [] => []
  | x :: xs => x :: (dedup xs).filter fun y => !(y == x)

namespace AtomicRule

def braced (head body : String) : String := head ++ "\x7b" ++ body ++ "\x7d"

/-- Wraps a rule in its at-rules, the first outermost. -/
def wrap : List String → String → String
  | [], rule => rule
  | p :: ps, rule => braced p (wrap ps rule)

def make (pre : String) (path : List Segment) (a : Atom) : AtomicRule :=
  let token := ClassName.token (a.key path)
  let className := pre ++ token
  let body := String.join (dedup (a.declarations.map Declaration.css))
  { token, className
    text := wrap (Selector.atRules path) (braced (Selector.resolve className path) body)
    group := Selector.group path }

end AtomicRule

/-- The classes of every slot, the rules by group, and the distinct rules. -/
structure Compiled where
  classes : OrderedMap String (List String) := {}
  /-- The rules of every group by its key, groups in cascade order. -/
  groups : OrderedMap String (List String) := {}
  /-- Every rule a slot uses, in the order in which the classes first came. -/
  rules : List AtomicRule := []

namespace Compiled

def ruleTexts (c : Compiled) : List String := c.groups.values.flatten

end Compiled

namespace StyleObject

def blockRules (pre : String) (b : Block) : List (String × AtomicRule) :=
  b.declarations.entries.flatMap fun (property, l) =>
    (Atom.ofLiteral (Declaration.hyphenate property) l).map fun a =>
      (a.property, AtomicRule.make pre b.path a)

/-- The rules of a slot with the context and the property each sets, in source order. -/
def slotRules (pre : String) (blocks : List Block) : List ((List Segment × String) × AtomicRule) :=
  blocks.flatMap fun b => (blockRules pre b).map fun (p, r) => ((b.path, p), r)

/-- The classes of a slot: for each context and property the class that came last. -/
def slotClasses (rules : List ((List Segment × String) × AtomicRule)) : List String :=
  (OrderedMap.ofList (rules.map fun (k, r) => (k, r.className))).values

def groupTexts (rules : List AtomicRule) (g : Group) : List String :=
  dedup ((rules.filter fun r => r.group == g).map (·.text))

/-- Compiles a style object under a class prefix. -/
def compileObject (pre : String) (o : StyleObject) : Compiled :=
  let bySlot := o.slots.entries.map fun (slot, blocks) => (slot, slotRules pre blocks)
  let classes := OrderedMap.ofList (bySlot.map fun (slot, rules) => (slot, slotClasses rules))
  let used := classes.values.flatten
  let found := (bySlot.flatMap (·.2)).foldl
    (fun (m : OrderedMap String AtomicRule) (_, r) => m.insertNew r.className r) {}
  let rules := found.values.filter fun r => used.contains r.className
  let groups := Group.all.filterMap fun g =>
    match groupTexts rules g with
    | [] => none
    | texts => some (g.key, texts)
  { classes, rules, groups := ⟨groups⟩ }

/-- Compiles a value under a class prefix. -/
def compile (pre : String) (v : StyleValue) : Except StyleError Compiled :=
  return compileObject pre (← ofValue v)

end StyleObject
end AtomicStyles
