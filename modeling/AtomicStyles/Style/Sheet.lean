import AtomicStyles.Style.Compile

/-!
# Style sheets

A sheet holds every rule at most once per group and lists the groups in cascade
order. It serves as the build-wide registry of extracted rules and as the document
sheet that running code inserts its rules into.

## Main definitions

* `Sheet.insert`, `Sheet.add` — one rule, and the rules of compiled styles.
* `Sheet.apply` — inserts rules and joins the classes of every slot, as running code does.
* `Sheet.applyValue` — compiles a value on the spot, then applies it.
-/

namespace AtomicStyles

/-- Rules by group, each stored once. -/
structure Sheet where
  rulesOf : List (Group × List String) := []

namespace Sheet

def empty : Sheet := {}

def group (s : Sheet) (g : Group) : List String := (s.rulesOf.lookup g).getD []

def setGroup (s : Sheet) (g : Group) (rules : List String) : Sheet :=
  ⟨(g, rules) :: s.rulesOf.filter fun e => !(e.1 == g)⟩

/-- Stores a rule; tells whether it is new. -/
def insert (s : Sheet) (g : Group) (rule : String) : Bool × Sheet :=
  if (s.group g).contains rule then (false, s) else (true, s.setGroup g (s.group g ++ [rule]))

/-- Stores rules of one group; gives those that are new. -/
def insertAll (s : Sheet) (g : Group) : List String → List String × Sheet
  | [] => ([], s)
  | r :: rs =>
    let (new, s) := s.insert g r
    let (added, s) := s.insertAll g rs
    (if new then r :: added else added, s)

/-- Stores the rules of all groups with a known key; gives those that are new. -/
def add (s : Sheet) : List (String × List String) → List String × Sheet
  | [] => ([], s)
  | (key, rules) :: rest =>
    match Group.ofKey? key with
    | none => s.add rest
    | some g =>
      let (added, s) := s.insertAll g rules
      let (more, s) := s.add rest
      (added ++ more, s)

/-- All rules, groups in cascade order. -/
def rules (s : Sheet) : List String := Group.all.flatMap s.group

def size (s : Sheet) : Nat := s.rules.length

def isEmpty (s : Sheet) : Bool := s.size == 0

/-- All rules, each followed by a line feed. -/
def text (s : Sheet) : String := String.join (s.rules.map (· ++ "\n"))

/-- Stores the rules of all groups; an unknown key counts as the default group. -/
def insertGroups (s : Sheet) : List (String × List String) → Sheet
  | [] => s
  | (key, rules) :: rest =>
    ((s.insertAll ((Group.ofKey? key).getD .default) rules).2).insertGroups rest

/-- Inserts the rules and joins the classes of every slot. -/
def apply (s : Sheet) (classes groups : OrderedMap String (List String)) :
    List (String × String) × Sheet :=
  (classes.entries.map fun (slot, cs) => (slot, " ".intercalate cs), s.insertGroups groups.entries)

def applyValue (s : Sheet) (pre : String) (v : StyleValue) :
    Except StyleError (List (String × String) × Sheet) := do
  let c ← StyleObject.compile pre v
  return s.apply c.classes c.groups

end Sheet
end AtomicStyles
