/-!
# Rule groups

Every rule stands in one of twelve groups. A style sheet lists the groups in the
order of `Group.all`, so that among rules of one specificity a rule of a later group
wins: `:hover` over the default, `:active` over `:hover`, conditional rules over all
pseudo-classes.

## Main definitions

* `Group.all`, `Group.rank` — the groups in cascade order.
* `Group.key`, `Group.ofKey?` — the one-letter key of a group.
* `Group.ofAtRuleName?`, `Group.ofPseudo?` — the group an at-rule or a pseudo-class opens.
-/

namespace AtomicStyles

/-- A group of rules. -/
inductive Group where
  | default
  | link
  | visited
  | focusWithin
  | focus
  | focusVisible
  | hover
  | active
  | supports
  | media
  | container
  | layer
deriving Repr, DecidableEq, Inhabited

namespace Group

/-- The groups in cascade order. -/
def all : List Group :=
  [.default, .link, .visited, .focusWithin, .focus, .focusVisible, .hover, .active,
    .supports, .media, .container, .layer]

/-- The position of a group in the cascade. -/
def rank (g : Group) : Nat := all.idxOf g

/-- The key of a group in printed rule groups. -/
def key : Group → String
  | default => "d"
  | link => "l"
  | visited => "v"
  | focusWithin => "w"
  | focus => "f"
  | focusVisible => "i"
  | hover => "h"
  | active => "a"
  | supports => "t"
  | media => "m"
  | container => "c"
  | layer => "y"

def ofKey? (k : String) : Option Group := all.find? fun g => g.key == k

/-- The at-rules a style object may nest, with their groups. -/
def atRules : List (String × Group) :=
  [("media", .media), ("supports", .supports), ("container", .container), ("layer", .layer)]

def pseudoClasses : List (String × Group) :=
  [("link", .link), ("visited", .visited), ("focus-within", .focusWithin), ("focus", .focus),
    ("focus-visible", .focusVisible), ("hover", .hover), ("active", .active)]

def ofAtRuleName? (name : String) : Option Group := atRules.lookup name

def ofPseudo? (name : String) : Option Group := pseudoClasses.lookup name

/-- The later of two groups in the cascade. -/
def max (g h : Group) : Group := if g.rank < h.rank then h else g

theorem ofKey?_key (g : Group) : ofKey? g.key = some g := by cases g <;> rfl

end Group
end AtomicStyles
