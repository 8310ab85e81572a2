import AtomicStyles.Decimal.Fixed
import AtomicStyles.Graph.Closure

/-!
# Why an evaluation fails

The causes for which evaluated code gives no value, and their wording. Two kinds can be
caught by the code itself: faults of type, and exceptions.

## Main definitions

* `Unsupported`, `Unavailable`, `TypeFault` — causes of the three kinds with many cases.
* `Fault` — the exceptions that the language itself raises.
* `EvalError` — why an evaluation fails.
-/

namespace AtomicStyles

/-- Parts of the language that evaluated code cannot use. -/
inductive Unsupported where
  | classDeclaration
  | classExpression
  | topLevelJump
  | moduleDialect
  | namedArrayProperty
  | sparseArray
  | functionProperty
  | asyncFunction
  | generatorFunction
  | bodilessFunction
  | usingDeclaration
  | expressionPattern
  | enumAfterText
  | label
  | forAwait
  | loopDestructuring
  | bigIntLiteral
  | bigIntKey
  | regularExpression
  | markup
  | specialCall
  | constructor
  | this
  | taggedTemplate
  | suspension
  | otherExpression
  | accessor
  | shorthandDefault
  | destructuringAssignment
  | assignmentTarget
  | privateName
  | instanceOf
  | logicalOperator
  | random
  | assignTarget
  /-- The digits of a number in a base other than ten. -/
  | radix (base : Nat) (x : Float)
deriving Repr, Inhabited

def Unsupported.text : Unsupported → String
  | classDeclaration => "class declarations"
  | classExpression => "class expressions"
  | topLevelJump => "top-level return, break or continue"
  | moduleDialect => "TypeScript module syntax"
  | namedArrayProperty => "named properties on arrays"
  | sparseArray => "sparse arrays"
  | functionProperty => "properties on functions"
  | asyncFunction => "async functions"
  | generatorFunction => "generator functions"
  | bodilessFunction => "functions without a body"
  | usingDeclaration => "using declarations"
  | expressionPattern => "expression patterns in declarations"
  | enumAfterText => "enum members after a string member without an initializer"
  | label => "labeled statements"
  | forAwait => "for await"
  | loopDestructuring => "destructuring assignment in loop heads"
  | bigIntLiteral => "BigInt literals"
  | bigIntKey => "BigInt property names"
  | regularExpression => "regular expressions"
  | markup => "JSX"
  | specialCall => "super and dynamic import calls"
  | constructor => "constructors other than Error"
  | this => "this"
  | taggedTemplate => "tagged templates"
  | suspension => "await and yield"
  | otherExpression => "this kind of expression"
  | accessor => "getters and setters"
  | shorthandDefault => "shorthand defaults outside patterns"
  | destructuringAssignment => "destructuring assignment"
  | assignmentTarget => "this assignment target"
  | privateName => "private names"
  | instanceOf => "instanceof"
  | logicalOperator => "logical operators outside expressions"
  | random => "Math.random() is not deterministic"
  | assignTarget => "Object.assign() with a non-object target"
  | radix base x => "Number.prototype.toString(" ++ toString base ++ ") on " ++ Decimal.plainText x

/-- Global names that have no meaning at build time. -/
inductive Unavailable where
  | host (name : String)
  | undefined (name : String)
  | assignment (name : String)
deriving Repr, DecidableEq, Inhabited

def Unavailable.text : Unavailable → String
  | host name => "'" ++ name ++ "' is a runtime host API"
  | undefined name => "'" ++ name ++ "' is not defined"
  | assignment name => "assignment to undeclared '" ++ name ++ "'"

/-- Values that do not fit what is done with them. -/
inductive TypeFault where
  | nullishEntries
  | notCallable (value : String)
  | emptyReduce
  | cyclicJson
  | deepStyle
deriving Repr, DecidableEq, Inhabited

def TypeFault.text : TypeFault → String
  | nullishEntries => "Cannot convert undefined or null to object"
  | notCallable value => value ++ " is not a function"
  | emptyReduce => "Reduce of empty array with no initial value"
  | cyclicJson => "Converting circular structure to JSON"
  | deepStyle => "Style value is nested too deeply or contains a cycle"

/-- The kinds of error objects. -/
inductive ErrorKind where
  | error
  | type
  | range
deriving Repr, DecidableEq, Inhabited

def ErrorKind.name : ErrorKind → String
  | error => "Error"
  | type => "TypeError"
  | range => "RangeError"

/-- The exceptions that the language itself raises. Values stand in them by their text. -/
inductive Fault where
  | constantAssignment (name : String)
  | importAssignment (name : String)
  | readNullish (value key : String)
  | writeNullish (value key : String)
  | deleteNullish (value : String)
  | frozenProperty (key : String)
  | frozenDelete (key : String)
  | frozenArray
  | moduleProperty (key : String)
  | arrayLength
  | notIterable (value : String)
  | notCallable (value : String)
  | notConstructor (value : String)
  | destructure (value : String)
  | notContainer (key value : String)
  | fixedDigits
  | repeatCount (x : Float)
  | malformedJson
deriving Repr, Inhabited

namespace Fault

/-- The kind of the error object that is thrown. -/
def kind : Fault → ErrorKind
  | arrayLength => .range
  | fixedDigits => .range
  | repeatCount _ => .range
  | malformedJson => .error
  | _ => .type

/-- What the error object says. -/
def text : Fault → String
  | constantAssignment name => "Assignment to constant variable '" ++ name ++ "'"
  | importAssignment name => "Assignment to imported binding '" ++ name ++ "'"
  | readNullish value key =>
    "Cannot read properties of " ++ value ++ " (reading '" ++ key ++ "')"
  | writeNullish value key =>
    "Cannot set properties of " ++ value ++ " (setting '" ++ key ++ "')"
  | deleteNullish value => "Cannot convert " ++ value ++ " to object"
  | frozenProperty key => "Cannot assign to read only property '" ++ key ++ "' of object"
  | frozenDelete key => "Cannot delete property '" ++ key ++ "' of a frozen object"
  | frozenArray => "Cannot modify a frozen array"
  | moduleProperty key =>
    "Cannot assign to read only property '" ++ key ++ "' of module namespace"
  | arrayLength => "Invalid array length"
  | notIterable value => value ++ " is not iterable"
  | notCallable value => value ++ " is not a function"
  | notConstructor value => value ++ " is not a constructor"
  | destructure value => "Cannot destructure '" ++ value ++ "'"
  | notContainer key value =>
    "Cannot use 'in' operator to search for '" ++ key ++ "' in " ++ value
  | fixedDigits => "toFixed() digits argument must be between 0 and 100"
  | repeatCount x => "Invalid count value: " ++ Decimal.plainText x
  | malformedJson => "JSON.parse: malformed document"

end Fault

inductive EvalError where
  | unsupported (what : Unsupported)
  | unavailable (what : Unavailable)
  | uninitialized (name : String)
  | type (fault : TypeFault)
  /-- An exception, described. -/
  | thrown (text : String)
  | unresolvedImport (importer : ModuleId) (specifier : String) (cause : ResolveError)
  | missingExport (module : ModuleId) (name : String)
  | load (cause : LoadError)
  | circular (module : ModuleId) (name : String)
  | stepBudget (limit : Nat)
  | callDepth (limit : Nat)
  /-- The evaluation never ends: re-exports lead back to themselves. -/
  | endless
  /-- The text of an array that contains itself never ends. -/
  | endlessText
deriving Repr, Inhabited

namespace EvalError

def message : EvalError → String
  | unsupported what => "Unsupported in evaluated code: " ++ what.text
  | unavailable what => "Unavailable at build time: " ++ what.text
  | uninitialized name => "'" ++ name ++ "' is read before it is initialized"
  | type fault => "TypeError: " ++ fault.text
  | thrown text => "Uncaught " ++ text
  | unresolvedImport importer specifier cause =>
    Unresolved.importText importer specifier cause
  | missingExport module name => Unresolved.exportText module name
  | load cause => cause.message
  | circular module name =>
    "Circular evaluation of " ++ (BindingKey.name module name).text
  | stepBudget limit => "Evaluation exceeded the budget of " ++ toString limit ++ " steps"
  | callDepth limit =>
    "Evaluation exceeded the maximum call depth of " ++ toString limit
  | endless => "Evaluation does not end"
  | endlessText => "Evaluation does not end"

/-- What kind of failure of a style call the error is. -/
def kind : EvalError → FailureKind
  | unresolvedImport _ _ _ => .unresolvableDependency
  | missingExport _ _ => .unresolvableDependency
  | load _ => .unresolvableDependency
  | circular _ _ => .unresolvableDependency
  | uninitialized _ => .unresolvableDependency
  | _ => .evaluationFailure

def isCatchable : EvalError → Bool
  | type _ => true
  | thrown _ => true
  | _ => false

/-- Whether the error means that a limit was reached. -/
def isExhaustion : EvalError → Bool
  | stepBudget _ => true
  | callDepth _ => true
  | _ => false

/-- Whether the evaluation never ends, so that nothing comes after it. -/
def isEndless : EvalError → Bool
  | endless => true
  | endlessText => true
  | _ => false

end EvalError
end AtomicStyles
