import Monkey.Token

/-! Operators, and how strongly each binds. -/
namespace Monkey
open Token (Kind)

inductive PrefixOp where
  | not
  | negate
  deriving DecidableEq, Repr

inductive InfixOp where
  | divide | multiply
  | add | subtract
  | greater | less
  | notEqual | equal
  deriving DecidableEq, Repr

def PrefixOp.text : PrefixOp → String
  | not => "!"
  | negate => "-"

def InfixOp.text : InfixOp → String
  | divide => "/"
  | multiply => "*"
  | add => "+"
  | subtract => "-"
  | greater => ">"
  | less => "<"
  | notEqual => "!="
  | equal => "=="

/-- How strongly an operator binds, the loosest first. -/
inductive Precedence where
  | lowest | equals | lessGreater | sum | product | unary | call
  deriving DecidableEq, Repr

def Precedence.level : Precedence → Nat
  | lowest => 0
  | equals => 1
  | lessGreater => 2
  | sum => 3
  | product => 4
  | unary => 5
  | call => 6

def InfixOp.precedence : InfixOp → Precedence
  | equal | notEqual => .equals
  | greater | less => .lessGreater
  | add | subtract => .sum
  | multiply | divide => .product

/-- What a token that follows an operand makes of it: an operator's left side, the function of a call, or
the base of an index expression. -/
inductive Continuation where
  | operator (op : InfixOp)
  | call
  | index
  deriving DecidableEq, Repr

def Continuation.precedence : Continuation → Precedence
  | operator op => op.precedence
  | call | index => .call

namespace Token.Kind

def prefixOp? : Kind → Option PrefixOp
  | bang => some .not
  | minus => some .negate
  | _ => none

def infixOp? : Kind → Option InfixOp
  | slash => some .divide
  | star => some .multiply
  | plus => some .add
  | minus => some .subtract
  | greater => some .greater
  | less => some .less
  | bangEqual => some .notEqual
  | equalEqual => some .equal
  | _ => none

def continuation? : Kind → Option Continuation
  | leftParen => some .call
  | leftBracket => some .index
  | kind => kind.infixOp?.map .operator

/-- The strength of a token after an operand. A token that continues no expression binds lowest. -/
def precedence (kind : Kind) : Precedence := (kind.continuation?.map Continuation.precedence).getD .lowest

end Token.Kind
end Monkey
