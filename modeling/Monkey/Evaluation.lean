import Monkey.RuntimeError
import Monkey.Store
import Monkey.Value.Text

/-! Evaluation of programs. Statements and expressions are evaluated by recursion on their syntax, given how
functions are applied; a function is applied by evaluating its body with one call less to go. -/
namespace Monkey

/-- What leaves an evaluation before its end. -/
inductive Exit where
  | error (e : RuntimeError)
  | returned (value : Value)

/-- A computation on the store. The store keeps what was done to it also when the computation is left. -/
abbrev Run := EStateM Exit Store

namespace Run

variable {α : Type}

def raise (fault : RuntimeFault) : Run α := throw (.error ⟨fault, none⟩)

/-- Says which line the errors of `x` come from, unless they say so themselves. -/
@[inline] def atLine (line : Nat) (x : Run α) : Run α := fun st =>
  match x st with
  | .error (.error e) st => .error (.error (e.atLine line)) st
  | result => result

/-- The value of a function's body: a `return` in it ends here. -/
@[inline] def catchReturn (x : Run Value) : Run Value := fun st =>
  match x st with
  | .error (.returned v) st => .ok v st
  | result => result

def lookup (env : Env) (name : String) : Run Value := fun st =>
  match st.lookup env name with
  | some v => .ok v st
  | none => raise (.unbound name) st

def bind (env : Env) (name : String) (value : Value) : Run Unit := modify fun st => st.bind env name value

def enter (parent : Option Env) (bindings : Bindings) : Run Env := modifyGet fun st => st.enter parent bindings

def print (text : String) : Run Unit := modify fun st => st.print text

def newArray (elems : List Value) : Run Value := modifyGet fun st => st.fresh.map (Value.array · elems) id

def newHash (entries : Entries) : Run Value := modifyGet fun st => st.fresh.map (Value.hash · entries) id

def newFunction (f : Closure) : Run Value := modifyGet fun st => st.fresh.map (Value.function · f) id

def key (v : Value) : Run Key :=
  match v.key? with
  | some k => pure k
  | none => raise (.unhashable v.type)

end Run

open Run

/-- Applies a builtin. -/
def Builtin.apply (b : Builtin) (args : List Value) : Run Value :=
  match b, args with
  | .len, [.string s] => pure (.integer (Int64.ofNat s.utf8ByteSize))
  | .len, [.array _ elems] => pure (.integer (Int64.ofNat elems.length))
  | .first, [.array _ elems] => pure (elems.head?.getD .null)
  | .last, [.array _ elems] => pure (elems.getLast?.getD .null)
  | .rest, [.array _ []] => pure .null
  | .rest, [.array _ (_ :: elems)] => newArray elems
  | .push, [.array _ elems, v] => newArray (elems ++ [v])
  | .puts, args => do
    print (String.join (args.map fun v => v.display ++ "\n"))
    pure .null
  | .push, [v, _] => raise (.builtinArgument .push v.type)
  | .push, args => raise (.builtinArgumentCount .push 2 args.length)
  | b, [v] => raise (.builtinArgument b v.type)
  | b, args => raise (.builtinArgumentCount b 1 args.length)

/-- A builtin counts its arguments before it looks at them. -/
theorem Builtin.apply_of_arity {b : Builtin} {n : Nat} (hb : b.arity = some n) {args : List Value}
    (hargs : args.length ≠ n) : b.apply args = raise (.builtinArgumentCount b n args.length) := by
  cases b with
  | puts => cases hb
  | push =>
    obtain rfl := Option.some.inj hb
    match args, hargs with
    | [], _ => rfl
    | [v], _ | v :: _ :: _ :: _, _ => cases v <;> rfl
  | len | first | last | rest =>
    obtain rfl := Option.some.inj hb
    match args, hargs with
    | [], _ => rfl
    | v :: _ :: _, _ =>
      cases v with
      | array id elems => cases elems <;> rfl
      | _ => rfl

namespace Eval

def literal : Literal → Value
  | .integer n => .integer n
  | .string s => .string s
  | .boolean b => .boolean b

def unary (op : PrefixOp) (v : Value) : Run Value :=
  match op, v with
  | .not, v => pure (.boolean !v.truthy)
  | .negate, .integer n => pure (.integer (-n))
  | .negate, v => raise (.cannotNegate v.type)

/-- Operators on two integers: arithmetic is modulo 2 ^ 64, and division cuts toward zero. -/
def integers (op : InfixOp) (l r : Int64) : Run Value :=
  match op with
  | .add => pure (.integer (l + r))
  | .subtract => pure (.integer (l - r))
  | .multiply => pure (.integer (l * r))
  | .divide => if r = 0 then raise (.divisionByZero l) else pure (.integer (l / r))
  | .greater => pure (.boolean (r < l))
  | .less => pure (.boolean (l < r))
  | .equal => pure (.boolean (l = r))
  | .notEqual => pure (.boolean (l ≠ r))

def binary (op : InfixOp) (l r : Value) : Run Value :=
  match op, l, r with
  | op, .integer m, .integer n => integers op m n
  | .add, .string s, .string t => pure (.string (s ++ t))
  | .equal, l, r => pure (.boolean (l.identical r))
  | .notEqual, l, r => pure (.boolean !(l.identical r))
  | op, l, r =>
    if l.type = r.type then raise (.unknownOperator l.type op r.type)
    else raise (.mixedOperands l.type op r.type)

def index (base subscript : Value) : Run Value :=
  match base, subscript with
  | .array _ elems, .integer i => pure (if i < 0 then .null else elems[i.toInt.toNat]?.getD .null)
  | .hash _ entries, v => do
    let k ← key v
    pure ((entries.lookup k).getD .null)
  | base, subscript => raise (.notIndexable base.type subscript.type)

/-- How a function is applied to arguments. -/
abbrev Apply := Closure → List Value → Run Value

mutual

def expr (apply : Apply) (env : Env) : Expr → Run Value
  | .name line x => atLine line (lookup env x)
  | .literal l => pure (literal l)
  | .unary line op e => atLine line do
    let v ← expr apply env e
    unary op v
  | .binary line op l r => atLine line do
    let l ← expr apply env l
    let r ← expr apply env r
    binary op l r
  | .conditional condition consequence none => do
    let c ← expr apply env condition
    if c.truthy then stmts apply env .null consequence else pure .null
  | .conditional condition consequence (some alternative) => do
    let c ← expr apply env condition
    if c.truthy then stmts apply env .null consequence else stmts apply env .null alternative
  | .function params body => newFunction ⟨params, body, env⟩
  | .call line callee args => atLine line do
    let f ← expr apply env callee
    match f with
    | .function _ f => do
      let args ← exprs apply env args
      apply f args
    | .builtin b => do
      let args ← exprs apply env args
      b.apply args
    | v => raise (.notCallable v.type)
  | .array elems => do
    let elems ← exprs apply env elems
    newArray elems
  | .hash line ps => atLine line do
    let entries ← pairs apply env [] ps
    newHash entries
  | .index line base subscript => atLine line do
    let base ← expr apply env base
    let subscript ← expr apply env subscript
    index base subscript

/-- The values of expressions, evaluated from left to right. -/
def exprs (apply : Apply) (env : Env) : List Expr → Run (List Value)
  | [] => pure []
  | e :: es => do
    let v ← expr apply env e
    let vs ← exprs apply env es
    pure (v :: vs)

/-- Puts the values of pairs into `entries`: of two pairs with one key the later wins. -/
def pairs (apply : Apply) (env : Env) (entries : Entries) : List (Expr × Expr) → Run Entries
  | [] => pure entries
  | (k, v) :: ps => do
    let k ← expr apply env k
    let k ← key k
    let v ← expr apply env v
    pairs apply env (entries.put k v) ps

def stmt (apply : Apply) (env : Env) : Stmt → Run Value
  | .binding x e => do
    let v ← expr apply env e
    bind env x v
    pure .null
  | .returning none => throw (.returned .null)
  | .returning (some e) => do
    let v ← expr apply env e
    throw (.returned v)
  | .expression e => expr apply env e

/-- The value of the last statement, or `last` if there is none. -/
def stmts (apply : Apply) (env : Env) (last : Value) : List Stmt → Run Value
  | [] => pure last
  | s :: ss => do
    let v ← stmt apply env s
    stmts apply env v ss

end

/-- Applies a function when `left` more calls may be nested. The body is evaluated in an environment of
its own, inside of the one in which the function was defined. -/
def apply : Nat → Apply
  | 0, f, args =>
    if f.params.length = args.length then raise .callsTooDeep
    else raise (.argumentCount f.params.length args.length)
  | left + 1, f, args =>
    if f.params.length = args.length then do
      let env ← enter (some f.env) (f.params.zip args).reverse
      catchReturn (stmts (apply left) env .null f.body)
    else raise (.argumentCount f.params.length args.length)

end Eval
end Monkey
