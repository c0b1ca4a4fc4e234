import Monkey.Interpreter

/-! A session: interpreters numbered from 0, each with an environment of its own in one store, and the commands by
which a host drives them. -/
namespace Monkey

structure Session where
  envs : Array Env
  store : Store

inductive Command where
  /-- Runs a source and words its errors. -/
  | run (source : String)
  /-- Evaluates a source. -/
  | evaluate (source : String)
  /-- Evaluates each statement of a source that is free of mistakes, whatever became of those before it. -/
  | statements (source : String)
  /-- Calls the value of a source with the values of others. -/
  | call (callee : String) (args : List String)
  /-- Looks a name up. -/
  | get (name : String)
  /-- Binds a name to the value of a source. -/
  | set (name : String) (source : String)
  /-- Adds an interpreter with a new global environment. -/
  | newGlobal
  /-- Adds an interpreter with an empty environment. -/
  | newBare
  /-- Adds an interpreter with an environment inside of this one's. -/
  | newChild
  /-- Asks which interpreter's environment is around this one's. -/
  | parent
  /-- Compares the values of sources. -/
  | compare (sources : List String)

inductive Answer where
  | ran (result : Except (List String) Value)
  | evaluated (result : Except Failure Value)
  | statements (syntaxErrors : List SyntaxError) (results : List (Outcome × String))
  | called (outcome : Outcome)
  | notCallable
  | bound (value : Option Value)
  | added (number : Nat)
  | parent (number : Option Nat)
  | compared (values : List Value)
  | failed (failure : Failure)

namespace Session

/-- A session with one interpreter, whose environment is global. -/
def start : Session :=
  let (env, store) := Store.start
  ⟨#[env], store⟩

/-- Evaluates statements one by one, each with the text that it prints. -/
def statementwise (st : Store) (env : Env) : List Stmt → List (Outcome × String) × Store
  | [] => ([], st)
  | s :: ss =>
    let (outcome, st) := st.runStatement env s
    let (printed, st) := st.flush
    let (outcomes, st) := statementwise st env ss
    ((outcome, printed) :: outcomes, st)

def add (s : Session) (parent : Option Env) (bindings : Bindings) : Answer × Session :=
  let (env, store) := s.store.enter parent bindings
  (.added s.envs.size, ⟨s.envs.push env, store⟩)

/-- Carries out a command for the interpreter with the given environment. -/
def perform (s : Session) (env : Env) : Command → Answer × Session
  | .run source =>
    let (result, store) := s.store.runSource env source
    (.ran (result.mapError Failure.messages), { s with store })
  | .evaluate source =>
    let (result, store) := s.store.runSource env source
    (.evaluated result, { s with store })
  | .statements source =>
    match Token.significant source with
    | .error errors => (.failed (.lexical errors), s)
    | .ok tokens =>
      let (program, errors) := Program.ofTokens tokens
      let (results, store) := statementwise s.store env program
      (.statements errors results, { s with store })
  | .call callee args =>
    match s.store.runSources env (callee :: args) with
    | (.error failure, store) => (.failed failure, { s with store })
    | (.ok [], store) => (.notCallable, { s with store })
    | (.ok (callee :: args), store) =>
      match store.call? callee args with
      | none => (.notCallable, { s with store })
      | some (outcome, store) => (.called outcome, { s with store })
  | .get name => (.bound (s.store.lookup env name), s)
  | .set name source =>
    match s.store.runSource env source with
    | (.error failure, store) => (.failed failure, { s with store })
    | (.ok v, store) => (.bound (some v), { s with store := store.bind env name v })
  | .newGlobal => s.add none Store.globals
  | .newBare => s.add none []
  | .newChild => s.add (some env) []
  | .parent => (.parent ((s.store.parent? env).bind fun p => s.envs.findIdx? (· = p)), s)
  | .compare sources =>
    match s.store.runSources env sources with
    | (.error failure, store) => (.failed failure, { s with store })
    | (.ok values, store) => (.compared values, { s with store })

/-- Carries out a command for the interpreter of the given number, if there is one. The text printed
meanwhile comes with the answer. -/
def step? (s : Session) (number : Nat) (command : Command) : Option (Answer × String × Session) :=
  s.envs[number]?.map fun env =>
    let (answer, s) := s.perform env command
    let (printed, store) := s.store.flush
    (answer, printed, { s with store })

end Session
end Monkey
