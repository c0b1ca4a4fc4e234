import Monkey.Interpreter
import Monkey.Text.Blank

/-! The read loop: each line is run on its own, in one global environment that keeps what the lines before it have
bound. -/
namespace Monkey

/-- What a run writes to the two outputs. -/
structure Transcript where
  out : String
  err : String
  deriving DecidableEq, Repr

namespace Transcript

def empty : Transcript := ⟨"", ""⟩

def append (s t : Transcript) : Transcript := ⟨s.out ++ t.out, s.err ++ t.err⟩

end Transcript

namespace ReadLoop

def prompt : String := ">> "

/-- Runs a source and writes what it prints, then its value or its errors. -/
def run (st : Store) (env : Env) (source : String) : Transcript × Store :=
  let (result, st) := st.runSource env source
  let (printed, st) := st.flush
  match result with
  | .ok v => (⟨printed ++ v.display ++ "\n", ""⟩, st)
  | .error failure => (⟨printed, String.join (failure.messages.map (· ++ "\n"))⟩, st)

/-- Answers one line, which is nothing if the line is blank. -/
def line (st : Store) (env : Env) (text : String) : Transcript × Store :=
  if Blank.isBlankText text then (.empty, st) else run st env text

/-- Cuts a text after each of its line breaks. -/
def lines (text : String) : List String := cut [] text.toList
where
  cut (seen : List Char) : List Char → List String
    | [] => if seen.isEmpty then [] else [String.ofList seen.reverse]
    | c :: cs => if c = '\n' then String.ofList (c :: seen).reverse :: cut [] cs else cut (c :: seen) cs

/-- Answers lines one by one, with a prompt before each of them and one more at the end. -/
def answer (st : Store) (env : Env) : List String → Transcript
  | [] => ⟨prompt, ""⟩
  | text :: texts =>
    let (t, st) := line st env text
    (Transcript.mk prompt "").append (t.append (answer st env texts))

/-- The whole dialogue over an input. -/
def dialogue (input : String) : Transcript :=
  let (env, st) := Store.start
  answer st env (lines input)

/-- The run of a script. -/
def script (source : String) : Transcript :=
  let (env, st) := Store.start
  (run st env source).1

end ReadLoop
end Monkey
