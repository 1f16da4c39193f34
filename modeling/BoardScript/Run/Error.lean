/-
What can go wrong while a program runs, and what it is warned about. An
error is a fault and the span at which it is reported, or the failure to
compile the program in the first place; the wording of each fault stands
here and nowhere else.
-/
import BoardScript.Code.Compile
import BoardScript.Host.Error
import BoardScript.Value.Basic

namespace BoardScript

/-- A fault met while a program runs. -/
inductive Fault where
  | undefinedFunction (name : String)
  | notCallable (name : String) (actual : ValueType)
  | readOnlyProperty (name : String)
  | operandTypes (operator : String) (left right : ValueType)
  | operandType (operator : String) (operand : ValueType)
  | argumentType (function : String) (expected : List ValueType) (actual : ValueType)
  | creatorFailed (name : String) (cause : HostError)
  | unexpectedAttributes
  | unexpectedReturn
  | cancelled
  | stackOverflow (limit : Nat)
  | invalidTarget (target : String) (actual : ValueType)
  | propertyOfNonObject (property : String) (actual : ValueType)
  | unknownProperty (name : String)
  | notFormula
  | arity (name : String) (expected : String) (actual : Nat)
  | unknownBoard (name : String)
  | builtinFailed (name : String) (message : String)
  | host (cause : HostError)
  | output
deriving Repr, DecidableEq

namespace Fault

def message : Fault → String
  | undefinedFunction name => s!"Function '{name}' is undefined."
  | notCallable _ actual => s!"Cannot call {actual.withArticle}"
  | readOnlyProperty _ => "Left-hand side of assignment is read-only."
  | operandTypes operator left right =>
      s!"Operation {operator} not defined on operands {left.text} and {right.text}"
  | operandType operator operand => s!"Operation {operator} not defined on operand {operand.text}"
  | argumentType function expected actual =>
      function ++ " expects " ++ ValueType.anyOf expected ++ ", but found " ++ actual.withArticle
  | creatorFailed name cause => s!"Creator {name} failed: {cause.message}"
  | unexpectedAttributes =>
      "Unexpected value. Only element creators are allowed to have a value after the function call."
  | unexpectedReturn => "Unexpected return."
  | cancelled => "Maximum runtime exceeded."
  | stackOverflow _ => "Maximum call depth exceeded."
  | invalidTarget target actual => s!"Cannot assign to {target} of {actual.withArticle}"
  | propertyOfNonObject _ _ => "Only objects, arrays and elements have properties"
  | unknownProperty name => s!"unknown property {name}"
  | notFormula => "In a map only function calls and mathematical expressions are allowed."
  | arity name expected actual => s!"{name} expects {expected} arguments but got {actual}"
  | unknownBoard name => s!"Board '{name}' not found!"
  | builtinFailed name message => s!"{name}: {message}"
  | host cause => cause.message
  | output => "Could not write output"

/-- What stands at the place of a fault in a report. -/
def label : Fault → String
  | undefinedFunction name =>
      s!"no function, builtin, creator or math function is called '{name}'"
  | notCallable name actual => s!"'{name}' is {actual.withArticle} here"
  | readOnlyProperty name => s!"'{name}' cannot be assigned"
  | operandTypes .. => "here"
  | operandType .. => "here"
  | argumentType .. => "in this call"
  | creatorFailed .. => "while creating this"
  | unexpectedAttributes => "attributes given here"
  | unexpectedReturn => "return outside of a function"
  | cancelled => "stopped here"
  | stackOverflow limit => s!"more than {limit} nested calls"
  | invalidTarget .. => "assignment here"
  | propertyOfNonObject property actual =>
      s!"Attempted to access {property} on {actual.withArticle} here"
  | unknownProperty _ => "This property is unknown"
  | notFormula => "not allowed in a map"
  | arity .. => "On this function call"
  | unknownBoard _ => "in this use statement"
  | builtinFailed .. => "in this call"
  | host _ => "in this operation"
  | output => "while running this"

end Fault

/-- Why a run failed. -/
inductive RuntimeError where
  | fault (fault : Fault) (span : Span)
  | compile (cause : CompileError)
deriving Repr, DecidableEq

namespace RuntimeError

def message : RuntimeError → String
  | fault f _ => f.message
  | compile cause => cause.message

/-- What stands at which place in a report. -/
def labels : RuntimeError → List (String × Span)
  | fault f span => [(f.label, span)]
  | compile cause => cause.labels

/-- A failure to compile, as a run reports it. A map whose body is no
formula is the same fault whether compiled or not. -/
def ofCompile : CompileError → RuntimeError
  | .notFormula span => .fault .notFormula span
  | cause => .compile cause

end RuntimeError

/-- What a program is warned about without being stopped. -/
inductive Warning where
  | shadowed (name : String) (span : Span)
  | deprecatedUse (span : Span)
  | deprecatedDelete (span : Span)
deriving Repr, DecidableEq

namespace Warning

def message : Warning → String
  | shadowed name _ => s!"\"{name}\" is a predefined value."
  | deprecatedUse _ => "Use of the 'use' operator is deprecated."
  | deprecatedDelete _ =>
      "Use of the 'delete' operator is deprecated. Please use the remove() function."

def labels : Warning → List (String × Span)
  | shadowed _ span => [("assigned here", span)]
  | deprecatedUse span => [("here", span)]
  | deprecatedDelete span => [("here", span)]

end Warning

end BoardScript
