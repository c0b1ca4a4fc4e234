import Monkey.Interpreter
import Mathlib.Logic.Relation

/-! Evaluation step by step. A machine has one current environment and one call depth: a call sets both, and
its end puts them back by hand. What is under way stands on a stack. No step recurs: looking a name up takes
one step for each environment on the way, and an exception leaves one frame of the stack at a time. -/
namespace Monkey

/-- A piece of syntax to evaluate. -/
inductive Node where
  | expr (e : Expr)
  | stmt (s : Stmt)
  | block (b : Block)

/-- The line that the errors of a node get. -/
def Node.line? : Node → Option Nat
  | .expr e => e.line?
  | .stmt _ | .block _ => none

namespace Outcome

def atLine (line : Nat) : Outcome → Outcome
  | .error e => .error (e.atLine line)
  | o => o

/-- A return signal ends at the call. -/
def caught : Outcome → Outcome
  | .returned v => .value v
  | o => o

end Outcome

inductive Callable where
  | function (f : Closure)
  | builtin (b : Builtin)

def Value.callable? : Value → Option Callable
  | .function _ f => some (.function f)
  | .builtin b => some (.builtin b)
  | _ => none

/-- What an interpreter can be told to do. -/
inductive Task where
  | evaluate (n : Node)
  | call (c : Callable) (args : List Value)

structure Interpreter where
  env : Env
  depth : Nat
  store : Store

namespace Machine

/-- What the values of a list of expressions are for. -/
inductive Use where
  | arguments (c : Callable)
  | elements

/-- What waits for the value of a part: the parts still to be evaluated, and the values there are. -/
inductive Pending where
  | operand (op : PrefixOp)
  | left (op : InfixOp) (right : Expr)
  | right (op : InfixOp) (left : Value)
  | condition (consequence : Block) (alternative : Option Block)
  | callee (args : List Expr)
  | item (use : Use) (done : List Value) (rest : List Expr)
  | key (entries : Entries) (value : Expr) (rest : List (Expr × Expr))
  | entry (entries : Entries) (key : Key) (rest : List (Expr × Expr))
  | base (subscript : Expr)
  | subscript (base : Value)
  | binding (x : String)
  | returning
  | statement (rest : Block)

inductive Frame where
  /-- The evaluation of a node, which is not over. -/
  | node (n : Node)
  | pending (p : Pending)
  /-- A call whose body is being evaluated, and the environment to go back to. -/
  | body (env : Env)

inductive Control where
  | task (t : Task)
  /-- Looking a name up, from this environment on. -/
  | find (x : String) (env : Env)
  | done (o : Outcome)

end Machine

structure Machine extends Interpreter where
  control : Machine.Control
  stack : List Machine.Frame

namespace Machine

def push (m : Machine) (f : Frame) : Machine := { m with stack := f :: m.stack }

def evaluate (m : Machine) (n : Node) : Machine := { m with control := .task (.evaluate n) }

def call (m : Machine) (c : Callable) (args : List Value) : Machine :=
  { m with control := .task (.call c args) }

def finish (m : Machine) (o : Outcome) : Machine := { m with control := .done o }

/-- Carries out an operation on the store at once. -/
def perform (m : Machine) (x : Run Value) : Machine :=
  { m with control := .done (m.store.run x).1, store := (m.store.run x).2 }

/-- Evaluates the rest of a list of expressions, whose values are `done` so far, the last one first. -/
def items (m : Machine) (use : Use) (done : List Value) : List Expr → Machine
  | e :: es => (m.push (.pending (.item use done es))).evaluate (.expr e)
  | [] =>
    match use with
    | .arguments c => m.call c done.reverse
    | .elements => m.perform (Run.newArray done.reverse)

def pairs (m : Machine) (entries : Entries) : List (Expr × Expr) → Machine
  | (k, v) :: ps => (m.push (.pending (.key entries v ps))).evaluate (.expr k)
  | [] => m.perform (Run.newHash entries)

def statements (m : Machine) (last : Value) : Block → Machine
  | s :: ss => (m.push (.pending (.statement ss))).evaluate (.stmt s)
  | [] => m.finish (.value last)

/-- The first step of the rule of a node. -/
def expand (m : Machine) : Node → Machine
  | .expr (.name _ x) => { m with control := .find x m.env }
  | .expr (.literal l) => m.finish (.value (Eval.literal l))
  | .expr (.unary _ op e) => (m.push (.pending (.operand op))).evaluate (.expr e)
  | .expr (.binary _ op l r) => (m.push (.pending (.left op r))).evaluate (.expr l)
  | .expr (.conditional c consequence alternative) =>
    (m.push (.pending (.condition consequence alternative))).evaluate (.expr c)
  | .expr (.function params body) => m.perform (Run.newFunction ⟨params, body, m.env⟩)
  | .expr (.call _ callee args) => (m.push (.pending (.callee args))).evaluate (.expr callee)
  | .expr (.array elems) => m.items .elements [] elems
  | .expr (.hash _ ps) => m.pairs [] ps
  | .expr (.index _ base subscript) => (m.push (.pending (.base subscript))).evaluate (.expr base)
  | .stmt (.binding x e) => (m.push (.pending (.binding x))).evaluate (.expr e)
  | .stmt (.returning none) => m.finish (.returned .null)
  | .stmt (.returning (some e)) => (m.push (.pending .returning)).evaluate (.expr e)
  | .stmt (.expression e) => m.evaluate (.expr e)
  | .block b => m.statements .null b

/-- Goes on with the value that was waited for. -/
def advance (m : Machine) (v : Value) : Pending → Machine
  | .operand op => m.perform (Eval.unary op v)
  | .left op r => (m.push (.pending (.right op v))).evaluate (.expr r)
  | .right op l => m.perform (Eval.binary op l v)
  | .condition consequence alternative =>
    if v.truthy then m.evaluate (.block consequence)
    else
      match alternative with
      | some alternative => m.evaluate (.block alternative)
      | none => m.finish (.value .null)
  | .callee args =>
    match v.callable? with
    | some c => m.items (.arguments c) [] args
    | none => m.perform (Run.raise (.notCallable v.type))
  | .item use done rest => m.items use (v :: done) rest
  | .key entries value rest =>
    match v.key? with
    | some k => (m.push (.pending (.entry entries k rest))).evaluate (.expr value)
    | none => m.perform (Run.raise (.unhashable v.type))
  | .entry entries k rest => m.pairs (entries.put k v) rest
  | .base subscript => (m.push (.pending (.subscript v))).evaluate (.expr subscript)
  | .subscript base => m.perform (Eval.index base v)
  | .binding x => { m with store := m.store.bind m.env x v }.finish (.value .null)
  | .returning => m.finish (.returned v)
  | .statement rest => m.statements v rest

/-- Begins a call. The environment there was stays on the stack while the body is evaluated. -/
def enter (m : Machine) : Callable → List Value → Machine
  | .builtin b, args => m.perform (b.apply args)
  | .function f, args =>
    if f.params.length = args.length then
      if m.depth < maxCallDepth then
        let (env, store) := m.store.enter (some f.env) (f.params.zip args).reverse
        { m with env, store, depth := m.depth + 1, stack := .body m.env :: m.stack }.evaluate (.block f.body)
      else m.perform (Run.raise .callsTooDeep)
    else m.perform (Run.raise (.argumentCount f.params.length args.length))

def search (m : Machine) (x : String) (env : Env) : Machine :=
  match (m.store.bindings env).lookup x with
  | some v => m.finish (.value v)
  | none =>
    match m.store.parent? env with
    | some parent => { m with control := .find x parent }
    | none => m.perform (Run.raise (.unbound x))

/-- Leaves the innermost frame: what waits for a value goes on with it, and is left by an exception. -/
def resume (m : Machine) (o : Outcome) : Frame → Machine
  | .node n => m.finish (n.line?.elim o (o.atLine ·))
  | .body env => { m with env, depth := m.depth - 1 }.finish o.caught
  | .pending p =>
    match o with
    | .value v => m.advance v p
    | o => m.finish o

def step (m : Machine) : Option Machine :=
  match m.control with
  | .task (.evaluate n) => some ((m.push (.node n)).expand n)
  | .task (.call c args) => some (m.enter c args)
  | .find x env => some (m.search x env)
  | .done o =>
    match m.stack with
    | [] => none
    | f :: stack => some ({ m with stack }.resume o f)

theorem resume_node (m : Machine) (o : Outcome) (n : Node) :
    m.resume o (.node n) = m.finish (n.line?.elim o (o.atLine ·)) := rfl

section
variable {m : Machine} {f : Closure} {args : List Value}

theorem enter_of_lt (hargs : f.params.length = args.length) (hdepth : m.depth < maxCallDepth) :
    m.enter (.function f) args =
      let (env, store) := m.store.enter (some f.env) (f.params.zip args).reverse
      { m with env, store, depth := m.depth + 1, stack := .body m.env :: m.stack }.evaluate
        (.block f.body) := by
  simp only [enter, if_pos hargs, if_pos hdepth]

theorem enter_of_not_lt (hargs : f.params.length = args.length) (hdepth : ¬ m.depth < maxCallDepth) :
    m.enter (.function f) args = m.perform (Run.raise .callsTooDeep) := by
  simp only [enter, if_pos hargs, if_neg hdepth]

theorem enter_of_ne (hargs : f.params.length ≠ args.length) :
    m.enter (.function f) args = m.perform (Run.raise (.argumentCount f.params.length args.length)) := by
  simp only [enter, if_neg hargs]

end

/-- Any number of steps. -/
abbrev Steps : Machine → Machine → Prop := Relation.ReflTransGen fun m m' => m.step = some m'

/-- A machine that comes to an end goes on for finitely many steps only. -/
theorem acc_of_steps {m last : Machine} (h : Steps m last) (hlast : last.step = none) :
    Acc (fun m' m => m.step = some m') m := by
  induction h using Relation.ReflTransGen.head_induction_on with
  | refl => exact ⟨last, fun m' hm' => nomatch hlast.symm.trans hm'⟩
  | head hstep _ ih =>
    refine ⟨_, fun m' hm' => ?_⟩
    obtain rfl := Option.some.inj (hstep.symm.trans hm')
    exact ih

/-- Of two states on the way from one, the machine comes first to the one and then to the other. -/
theorem steps_total {start m m' : Machine} (h : Steps start m) (h' : Steps start m') : Steps m m' ∨ Steps m' m :=
  Relation.ReflTransGen.total_of_right_unique (fun _ _ _ hb hc => Option.some.inj (hb.symm.trans hc)) h h'

/-- There is one end to come to. -/
theorem eq_of_steps {m last m' : Machine} (h : Steps m last) (hlast : last.step = none) (h' : Steps m m')
    (hm' : m'.step = none) : m' = last := by
  rcases steps_total h h' with h | h
  · rcases h.cases_head with rfl | ⟨c, hc, _⟩
    · rfl
    · exact nomatch hlast.symm.trans hc
  · rcases h.cases_head with rfl | ⟨c, hc, _⟩
    · rfl
    · exact nomatch hm'.symm.trans hc

end Machine

/-- The machine of an interpreter that is told to do something. -/
def Interpreter.start (i : Interpreter) (t : Task) : Machine := { i with control := .task t, stack := [] }

end Monkey
