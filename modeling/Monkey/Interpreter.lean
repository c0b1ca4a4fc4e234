import Monkey.Token.Cursor
import Monkey.Syntax.Parser
import Monkey.Evaluation

/-! Running source text in an environment. -/
namespace Monkey

/-- Why a source has no value: its tokens, its syntax, or an error while it ran. -/
inductive Failure where
  | lexical (errors : List LexError)
  | syntactic (errors : List SyntaxError)
  | runtime (error : RuntimeError)

def Failure.messages : Failure → List String
  | lexical errors => errors.map LexError.message
  | syntactic errors => errors.map SyntaxError.message
  | runtime error => [error.message]

/-- The program of a source that has neither lexical nor syntax errors. -/
def Program.ofSource (source : String) : Except Failure Program :=
  match Token.significant source with
  | .error errors => .error (.lexical errors)
  | .ok tokens =>
    match Program.ofTokens? tokens with
    | .error errors => .error (.syntactic errors)
    | .ok p => .ok p

/-- How one evaluation ended. -/
inductive Outcome where
  | value (v : Value)
  | returned (v : Value)
  | error (e : RuntimeError)

namespace Store

/-- Carries out a computation. -/
def run (st : Store) (x : Run Value) : Outcome × Store :=
  match x st with
  | .ok v st => (.value v, st)
  | .error (.returned v) st => (.returned v, st)
  | .error (.error e) st => (.error e, st)

/-- Evaluates one statement from outside of all calls. -/
def runStatement (st : Store) (env : Env) (s : Stmt) : Outcome × Store :=
  st.run (Eval.stmt (Eval.apply maxCallDepth) env s)

/-- Evaluates the statements of a program: its value is that of the last one, or the first that is
returned. -/
def runProgram (st : Store) (env : Env) (p : Program) : Except RuntimeError Value × Store :=
  match st.run (Eval.stmts (Eval.apply maxCallDepth) env .null p) with
  | (.value v, st) | (.returned v, st) => (.ok v, st)
  | (.error e, st) => (.error e, st)

/-- Reads and evaluates a source. Nothing is evaluated if it has lexical or syntax errors. -/
def runSource (st : Store) (env : Env) (text : String) : Except Failure Value × Store :=
  match Program.ofSource text with
  | .error failure => (.error failure, st)
  | .ok p =>
    match st.runProgram env p with
    | (.ok v, st) => (.ok v, st)
    | (.error e, st) => (.error (.runtime e), st)

/-- Reads and evaluates sources from left to right, up to the first that fails. -/
def runSources (st : Store) (env : Env) : List String → Except Failure (List Value) × Store
  | [] => (.ok [], st)
  | text :: texts =>
    match st.runSource env text with
    | (.error failure, st) => (.error failure, st)
    | (.ok v, st) =>
      match st.runSources env texts with
      | (.error failure, st) => (.error failure, st)
      | (.ok vs, st) => (.ok (v :: vs), st)

/-- Applies a value to arguments from outside of all calls, if it can be applied. -/
def call? (st : Store) (callee : Value) (args : List Value) : Option (Outcome × Store) :=
  match callee with
  | .function _ f => some (st.run (Eval.apply maxCallDepth f args))
  | .builtin b => some (st.run (b.apply args))
  | _ => none

/-- A store with one global environment. -/
def start : Env × Store := empty.enter none globals

end Store
end Monkey
