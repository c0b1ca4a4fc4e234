import Monkey.Value

/-! What can go wrong in an evaluation, and the words for it. -/
namespace Monkey

inductive RuntimeFault where
  | unbound (name : String)
  | cannotNegate (operand : ValueType)
  | mixedOperands (left : ValueType) (op : InfixOp) (right : ValueType)
  | unknownOperator (left : ValueType) (op : InfixOp) (right : ValueType)
  | notCallable (callee : ValueType)
  | argumentCount (want got : Nat)
  | builtinArgumentCount (b : Builtin) (want got : Nat)
  | unhashable (key : ValueType)
  | divisionByZero (dividend : Int64)
  | notIndexable (base subscript : ValueType)
  | builtinArgument (b : Builtin) (got : ValueType)
  | callsTooDeep
  deriving DecidableEq, Repr

/-- Calls may be nested this deep. -/
def maxCallDepth : Nat := 10000

/-- The kinds of fault that an error message names. -/
inductive RuntimeFault.Category where
  | unbound | typeMismatch | unknownOperator | notCallable | argumentCount | unhashable
  | divisionByZero | notIndexable | unsupportedArgument | callDepth
  deriving DecidableEq, Repr

def RuntimeFault.Category.text : Category → String
  | unbound => "identifier not found"
  | typeMismatch => "type mismatch"
  | unknownOperator => "unknown operator"
  | notCallable => "not a function"
  | argumentCount => "wrong number of arguments"
  | unhashable => "unusable as hash key"
  | divisionByZero => "division by zero"
  | notIndexable => "index operator not supported"
  | unsupportedArgument => "unsupported argument"
  | callDepth => "maximum call depth exceeded"

namespace RuntimeFault

def category : RuntimeFault → Category
  | unbound _ => .unbound
  | cannotNegate _ => .typeMismatch
  | mixedOperands _ _ _ => .typeMismatch
  | unknownOperator _ _ _ => .unknownOperator
  | notCallable _ => .notCallable
  | argumentCount _ _ => .argumentCount
  | builtinArgumentCount _ _ _ => .argumentCount
  | unhashable _ => .unhashable
  | divisionByZero _ => .divisionByZero
  | notIndexable _ _ => .notIndexable
  | builtinArgument _ _ => .unsupportedArgument
  | callsTooDeep => .callDepth

/-- What a builtin wants in the place of an argument it does not take. -/
def wanted : Builtin → String
  | .len => "STRING or ARRAY"
  | _ => "ARRAY"

def detail : RuntimeFault → String
  | unbound name => name
  | cannotNegate operand => "-" ++ operand.text
  | mixedOperands left op right => left.text ++ " " ++ op.text ++ " " ++ right.text
  | unknownOperator left op right => left.text ++ " " ++ op.text ++ " " ++ right.text
  | notCallable callee => callee.text
  | argumentCount want got => "want " ++ toString want ++ ", got " ++ toString got
  | builtinArgumentCount b want got => "`" ++ b.name ++ "` takes " ++ toString want ++ ", got " ++ toString got
  | unhashable key => key.text
  | divisionByZero dividend => toString dividend.toInt ++ " / 0"
  | notIndexable base subscript => base.text ++ "[" ++ subscript.text ++ "]"
  | builtinArgument b got => "`" ++ b.name ++ "` expects " ++ wanted b ++ ", got " ++ got.text
  | callsTooDeep => toString maxCallDepth

end RuntimeFault

/-- A fault, with the line of the innermost node around it that records one. -/
structure RuntimeError where
  fault : RuntimeFault
  line : Option Nat
  deriving DecidableEq, Repr

namespace RuntimeError

/-- Sets the line if there is none yet. -/
def atLine (e : RuntimeError) (line : Nat) : RuntimeError := { e with line := e.line.or (some line) }

def message (e : RuntimeError) : String :=
  let place :=
    match e.line with
    | some line => " at line " ++ toString line
    | none => ""
  "Runtime error" ++ place ++ ": " ++ e.fault.category.text ++ ": " ++ e.fault.detail

end RuntimeError
end Monkey
