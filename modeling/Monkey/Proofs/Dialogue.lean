import Monkey.Proofs.Confinement
import Monkey.Proofs.ErrorLines
import Monkey.Proofs.OneLine
import Monkey.Proofs.StoreEffects
import Monkey.Proofs.UpToLines

/-! A dialogue is a sequence of turns, one for each line of the input. Each turn goes on from the store that the one
before it has left; what it writes is told by its run; and its errors are those of line 1, also where a function that
was defined on an earlier line makes them. -/
namespace Monkey
open Machine

theorem Expr.line_eq_one {e : Expr} {line : Nat} (h : e.mapLines (fun _ => 1) = e) (hline : e.line? = some line) :
    line = 1 := by
  cases e with
  | name => exact (Option.some.inj hline).symm.trans (Expr.name.inj h).1.symm
  | unary => exact (Option.some.inj hline).symm.trans (Expr.unary.inj h).1.symm
  | binary => exact (Option.some.inj hline).symm.trans (Expr.binary.inj h).1.symm
  | call => exact (Option.some.inj hline).symm.trans (Expr.call.inj h).1.symm
  | hash => exact (Option.some.inj hline).symm.trans (Expr.hash.inj h).1.symm
  | index => exact (Option.some.inj hline).symm.trans (Expr.index.inj h).1.symm
  | literal | conditional | function | array => cases hline

/-- Whatever is referred to, all syntax is on line 1. -/
def firstLine : Bounds := ⟨fun _ => True, fun _ => 1⟩

namespace Machine

variable {m m' k : Machine} {e : Expr} {fault : RuntimeFault}

theorem Confined.steps_firstLine (h : Confined firstLine m) (hsteps : Steps m m') : Confined firstLine m' := by
  induction hsteps with
  | refl => exact h
  | tail _ hstep ih => exact ih.step hstep (fun _ _ _ _ => trivial) fun _ => trivial

/-- An error on its way out leaves the store alone. -/
theorem store_of_error {err : RuntimeError} (h : m.step = some m') (hm : m.control = .done (.error err)) :
    m'.store = m.store := by
  simp only [step, hm] at h
  split at h
  · cases h
  · next f stack _ =>
    cases h
    cases f <;> rfl

theorem Raises.store (h : Raises m m' e fault) (hk : Steps m' k) : k.store = m'.store := by
  induction hk with
  | refl => rfl
  | tail hk hstep ih =>
    obtain ⟨err, herr⟩ := h.error hk
    exact (store_of_error hstep herr).trans ih

/-- The node that has made an error is on line 1, if all is. -/
theorem Raises.line_eq_one (h : Raises m m' e fault) (hm : Confined firstLine m') {line : Nat}
    (hline : e.line? = some line) : line = 1 := by
  have htop : .node (.expr e) ∈ m'.stack := List.mem_of_mem_head? h.top
  exact Expr.line_eq_one (hm.stack _ htop) hline

end Machine

namespace ReadLoop

/-- One line of a dialogue: the store that it finds, what it writes, and the store that it leaves. -/
structure Turn where
  text : String
  before : Store
  written : Transcript
  after : Store

/-- The message of an error of this kind names line 1. -/
def NamesFirstLine (kind message : String) : Prop := ∃ detail, message = kind ++ " error at line 1: " ++ detail

/-- The error output of these messages. -/
def messageLines (messages : List String) : String := String.join (messages.map (· ++ "\n"))

/-- The machine that is about to run a program. -/
def begin (env : Env) (st : Store) (p : Program) : Machine :=
  Interpreter.start { env, depth := 0, store := st } (.evaluate (.block p))

/-- What a turn can be. -/
inductive Turn.Answers (env : Env) : Turn → Prop where
  | blank {text : String} {st : Store} (hblank : Blank.isBlankText text = true) : Answers env ⟨text, st, .empty, st⟩
  /-- Some part of the line is no token. -/
  | lexical {text : String} {st : Store} {errors : List LexError} (hblank : Blank.isBlankText text = false)
      (herrors : Token.significant text = .error errors) (hlines : ∀ e ∈ errors, NamesFirstLine "Lex" e.message) :
      Answers env ⟨text, st, ⟨"", messageLines (errors.map LexError.message)⟩, st⟩
  /-- The tokens are no program. The only mistakes that name no line are those about the end of the tokens. -/
  | syntactic {text : String} {st : Store} {tokens : List Token} {errors : List SyntaxError}
      (hblank : Blank.isBlankText text = false) (htokens : Token.significant text = .ok tokens)
      (herrors : (Program.ofTokens tokens).2 = errors) (hne : errors ≠ [])
      (hlines : ∀ e ∈ errors, if e.position tokens < tokens.length then NamesFirstLine "Parse" e.message
        else ∃ detail, e.message = "Parse error: " ++ detail ++ "end of stream") :
      Answers env ⟨text, st, ⟨"", messageLines (errors.map SyntaxError.message)⟩, st⟩
  /-- The run ends in a value, that of its last statement or one that is returned. -/
  | value {text : String} {st : Store} {p : Program} {calls : List (List Value)} {last : Machine} {v : Value}
      (hblank : Blank.isBlankText text = false) (hp : Program.ofSource text = .ok p)
      (hrun : Prints (begin env st p) calls last) (hend : last.step = none)
      (hv : last.control = .done (.value v) ∨ last.control = .done (.returned v)) :
      Answers env ⟨text, st, ⟨String.join (calls.map putsText) ++ v.display ++ "\n", ""⟩, last.store.flush.2⟩
  /-- One step of the run makes an error. The bindings are those that have been made by then. -/
  | runtime {text : String} {st : Store} {p : Program} {calls : List (List Value)} {m m' : Machine} {x : Expr}
      {fault : RuntimeFault} (hblank : Blank.isBlankText text = false) (hp : Program.ofSource text = .ok p)
      (hrun : Prints (begin env st p) calls m') (hsteps : Steps (begin env st p) m) (hraises : Raises m m' x fault)
      (hline : x.line? = some 1) (hnames : NamesFirstLine "Runtime" (RuntimeError.message ⟨fault, some 1⟩)) :
      Answers env ⟨text, st, ⟨String.join (calls.map putsText), messageLines [RuntimeError.message ⟨fault, some 1⟩]⟩,
        m'.store.flush.2⟩

/-- Each turn finds the store that the one before it has left. -/
def Follows : Store → List Turn → Prop
  | _, [] => True
  | st, t :: ts => t.before = st ∧ Follows t.after ts

/-- The transcript of turns: a prompt before each, and one more at the end. -/
def transcript (turns : List Turn) : Transcript :=
  ⟨String.join (turns.map fun t => prompt ++ t.written.out) ++ prompt, String.join (turns.map fun t => t.written.err)⟩

/-- What holds between two lines: nothing has been left unprinted, and all functions are on line 1. -/
structure Ready (st : Store) : Prop where
  output : st.output = ""
  bound : st.AllBound fun v => firstLine.Covers v.closures

theorem names_of_lexError {e : LexError} (h : e.line = 1) : NamesFirstLine "Lex" e.message := by
  have hplace : "Lex error at line " ++ toString 1 ++ ": " = "Lex" ++ " error at line 1: " := by decide
  have hmessage : e.message = "Lex error at line " ++ toString e.line ++ ": " ++ e.fault.text ++ " " ++ e.lexeme := rfl
  rw [h, hplace] at hmessage
  refine ⟨e.fault.text ++ (" " ++ e.lexeme), ?_⟩
  rw [hmessage, String.append_assoc, String.append_assoc]

/-- A mistake at one of these tokens, which are on the first line, or at their end. -/
theorem names_of_syntaxError {tokens : List Token} (h : ∀ t ∈ tokens, t.line = 0) {e : SyntaxError}
    (he : e.Within tokens) :
    if e.position tokens < tokens.length then NamesFirstLine "Parse" e.message
      else ∃ detail, e.message = "Parse error: " ++ detail ++ "end of stream" := by
  split
  · next hlt =>
    have hline : e.line? = some 1 := by
      rw [SyntaxError.line?, he.found, List.getElem?_eq_getElem hlt]
      simp [h _ (List.getElem_mem hlt)]
    have hplace : "Parse error at line " ++ toString 1 ++ ": " = "Parse" ++ " error at line 1: " := by decide
    obtain ⟨detail, hmessage⟩ := e.message_eq
    rw [hline] at hmessage
    exact ⟨detail, hplace ▸ hmessage⟩
  · next hle =>
    have hfound : e.fault.found? = none := he.found.trans (List.getElem?_eq_none (Nat.le_of_not_lt hle))
    exact SyntaxError.message_of_none hfound

theorem names_of_runtime (fault : RuntimeFault) : NamesFirstLine "Runtime" (RuntimeError.message ⟨fault, some 1⟩) := by
  have hplace : "Runtime error" ++ (" at line " ++ toString 1) ++ ": " = "Runtime" ++ " error at line 1: " := by decide
  have hmessage : RuntimeError.message ⟨fault, some 1⟩ =
      "Runtime error" ++ (" at line " ++ toString 1) ++ ": " ++ fault.category.text ++ ": " ++ fault.detail := rfl
  rw [hplace] at hmessage
  refine ⟨fault.category.text ++ (": " ++ fault.detail), ?_⟩
  rw [hmessage, String.append_assoc, String.append_assoc]

variable {env : Env} {st : Store} {text : String}

theorem ready_start : Ready Store.start.2 where
  output := rfl
  bound := Store.covers_start firstLine

/-- A run begins on line 1. -/
theorem Ready.confined (h : Ready st) {p : Program} (hp : stmtsMapLines (fun _ => 1) p = p) :
    Confined firstLine (begin env st p) := ⟨⟨trivial, h.bound, List.forall_mem_nil _⟩, hp⟩

theorem ready_of_confined {m : Machine} (h : Confined firstLine m) : Ready m.store.flush.2 :=
  ⟨rfl, h.store.of_scopes rfl⟩

theorem Ready.output_of_prints (h : Ready st) {p : Program} {calls : List (List Value)} {m : Machine}
    (hrun : Prints (begin env st p) calls m) : m.store.output = String.join (calls.map putsText) := by
  have hbegin : (begin env st p).store.output = "" := h.output
  rw [hrun.output, hbegin, String.empty_append]

theorem run_of_value {p : Program} (hp : Program.ofSource text = .ok p) {o : Outcome} {v : Value} {st' : Store}
    (ho : o = .value v ∨ o = .returned v)
    (hrun : st.run (Eval.stmts (Eval.apply maxCallDepth) env .null p) = (o, st')) :
    run st env text = (⟨st'.output ++ v.display ++ "\n", ""⟩, st'.flush.2) := by
  rw [run, Store.runSource_of_ok hp, Store.runProgram, hrun]
  rcases ho with rfl | rfl <;> rfl

theorem run_of_error {p : Program} (hp : Program.ofSource text = .ok p) {e : RuntimeError} {st' : Store}
    (hrun : st.run (Eval.stmts (Eval.apply maxCallDepth) env .null p) = (.error e, st')) :
    run st env text = (⟨st'.output, messageLines [e.message]⟩, st'.flush.2) := by
  rw [run, Store.runSource_of_ok hp, Store.runProgram, hrun]
  rfl

theorem run_of_failure (hst : Ready st) {failure : Failure} (h : Program.ofSource text = .error failure) :
    run st env text = (⟨"", messageLines failure.messages⟩, st) := by
  have hflush : st.flush = ("", st) := by
    obtain ⟨scopes, nextId, output, hlt⟩ := st
    obtain rfl : output = "" := hst.output
    rfl
  rw [run, Store.runSource, h]
  dsimp only
  rw [hflush]
  rfl

/-- The turn of this line with the store that it finds. -/
structure IsTurn (env : Env) (st : Store) (text : String) (t : Turn) : Prop where
  text_eq : t.text = text
  before_eq : t.before = st
  answers : t.Answers env
  line_eq : line st env text = (t.written, t.after)
  ready : Ready t.after

theorem line_of_not_blank (hblank : Blank.isBlankText text = false) : line st env text = run st env text := by
  rw [line, hblank]
  rfl

section
variable {p : Program} {st' : Store} (hst : Ready st) (hblank : Blank.isBlankText text = false)
  (hp : Program.ofSource text = .ok p) (hline : stmtsMapLines (fun _ => 1) p = p)
include hst hblank hp hline

theorem exists_turn_of_value {o : Outcome} {v : Value} (ho : o = .value v ∨ o = .returned v)
    (hrun : st.run (Eval.stmts (Eval.apply maxCallDepth) env .null p) = (o, st'))
    (hsteps : Steps (begin env st p) (Interpreter.finished ⟨env, 0, st⟩ o st')) : ∃ t, IsTurn env st text t := by
  obtain ⟨calls, hcalls⟩ := exists_prints hsteps
  have houtput : st'.output = String.join (calls.map putsText) := hst.output_of_prints hcalls
  have hend := (hst.confined hline).steps_firstLine hsteps
  refine ⟨_, rfl, rfl, .value hblank hp hcalls rfl (ho.imp (congrArg _) (congrArg _)), ?_, ready_of_confined hend⟩
  rw [line_of_not_blank hblank, run_of_value hp ho hrun, houtput]
  rfl

/-- The error has been made on line 1, by an expression that is on line 1. From then on the store has not changed. -/
theorem exists_turn_of_error {e : RuntimeError}
    (hrun : st.run (Eval.stmts (Eval.apply maxCallDepth) env .null p) = (.error e, st'))
    (hsteps : Steps (begin env st p) (Interpreter.finished ⟨env, 0, st⟩ (.error e) st')) :
    ∃ t, IsTurn env st text t := by
  obtain ⟨m, m', x, line, hm, hraises, hx, hl⟩ :=
    Interpreter.exists_raises ⟨env, 0, st⟩ (.block p) e (Nat.zero_le _) (congrArg Prod.fst hrun)
  have hm' : Steps (begin env st p) m' := hm.tail hraises.step
  have hraised := (hst.confined hline).steps_firstLine hm'
  obtain rfl := hraises.line_eq_one hraised hx
  have hlast : Steps m' (Interpreter.finished ⟨env, 0, st⟩ (.error e) st') := by
    rcases steps_total hm' hsteps with hlast | hback
    · exact hlast
    · rcases hback.cases_head with heq | ⟨k, hk, -⟩
      · exact heq ▸ .refl
      · cases hk
  have hstore : st' = m'.store := hraises.store hlast
  obtain ⟨calls, hcalls⟩ := exists_prints hm'
  have houtput : st'.output = String.join (calls.map putsText) := hstore ▸ hst.output_of_prints hcalls
  obtain ⟨fault, own⟩ := e
  obtain rfl : own = some 1 := hl
  refine ⟨_, rfl, rfl, .runtime hblank hp hcalls hm hraises hx (names_of_runtime fault), ?_, ready_of_confined hraised⟩
  rw [line_of_not_blank hblank, run_of_error hp hrun, houtput, hstore]

theorem exists_turn_of_program : ∃ t, IsTurn env st text t := by
  have hsteps := Interpreter.steps_finished ⟨env, 0, st⟩ (.evaluate (.block p)) (Nat.zero_le _)
  obtain ⟨o, st', hrun⟩ : ∃ o st', st.run (Eval.stmts (Eval.apply maxCallDepth) env .null p) = (o, st') := ⟨_, _, rfl⟩
  have hfinished : Steps (begin env st p) (Interpreter.finished ⟨env, 0, st⟩ o st') := by
    have hsame := congrArg (fun r : Outcome × Store => Interpreter.finished ⟨env, 0, st⟩ r.1 r.2) hrun
    exact hsame ▸ hsteps
  cases o with
  | value v => exact exists_turn_of_value hst hblank hp hline (.inl rfl) hrun hfinished
  | returned v => exact exists_turn_of_value hst hblank hp hline (.inr rfl) hrun hfinished
  | error e => exact exists_turn_of_error hst hblank hp hline hrun hfinished

end

theorem ofSource_of_tokens {tokens : List Token} (htokens : Token.significant text = .ok tokens) :
    Program.ofSource text =
      match (Program.ofTokens tokens).2 with
      | [] => .ok (Program.ofTokens tokens).1
      | errors => .error (.syntactic errors) := by
  rw [Program.ofSource, htokens]
  dsimp only [Program.ofTokens?]
  generalize Program.ofTokens tokens = r
  obtain ⟨p, errors⟩ := r
  cases errors <;> rfl

theorem exists_turn (hst : Ready st) (htext : IsLine text.toList) : ∃ t, IsTurn env st text t := by
  cases hblank : Blank.isBlankText text with
  | true =>
    have hline : line st env text = (.empty, st) := by rw [line, if_pos hblank]
    exact ⟨_, rfl, rfl, .blank hblank, hline, hst⟩
  | false =>
    cases htokens : Token.significant text with
    | error errors =>
      have hfailure : Program.ofSource text = .error (.lexical errors) := by rw [Program.ofSource, htokens]
      have hlines := Token.errors_on_first_line htext htokens
      refine ⟨_, rfl, rfl, .lexical hblank htokens fun e he => names_of_lexError (hlines e he), ?_, hst⟩
      exact (line_of_not_blank hblank).trans (run_of_failure hst hfailure)
    | ok tokens =>
      have hzero := Token.tokens_on_first_line htext htokens
      cases herrors : (Program.ofTokens tokens).2 with
      | nil =>
        have hp : Program.ofSource text = .ok (Program.ofTokens tokens).1 := by
          rw [ofSource_of_tokens htokens, herrors]
        exact exists_turn_of_program hst hblank hp (Program.onFirstLine_of_tokens hzero)
      | cons e es =>
        have hfailure : Program.ofSource text = .error (.syntactic (e :: es)) := by
          rw [ofSource_of_tokens htokens, herrors]
        refine ⟨_, rfl, rfl, .syntactic hblank htokens herrors (List.cons_ne_nil e es) fun e he => ?_, ?_, hst⟩
        · exact names_of_syntaxError hzero ((Parser.raised_program tokens).within e (herrors ▸ he))
        · exact (line_of_not_blank hblank).trans (run_of_failure hst hfailure)

theorem transcript_cons (t : Turn) (turns : List Turn) :
    transcript (t :: turns) = (Transcript.mk prompt "").append (t.written.append (transcript turns)) := by
  simp [transcript, Transcript.append, String.append_assoc]

/-- By induction on the lines: each finds the store ready, and leaves it so. -/
theorem exists_turns (hst : Ready st) (texts : List String) (htexts : ∀ text ∈ texts, IsLine text.toList) :
    ∃ turns : List Turn, turns.map Turn.text = texts ∧ Follows st turns ∧ (∀ t ∈ turns, t.Answers env) ∧
      answer st env texts = transcript turns := by
  induction texts generalizing st with
  | nil => exact ⟨[], rfl, trivial, List.forall_mem_nil _, rfl⟩
  | cons text texts ih =>
    obtain ⟨htext, hbehind⟩ := List.forall_mem_cons.mp htexts
    obtain ⟨t, rfl, rfl, hanswers, hline, hready⟩ : ∃ t, IsTurn env st text t := exists_turn hst htext
    obtain ⟨turns, rfl, hfollows, hall, hrest⟩ := ih hready hbehind
    refine ⟨t :: turns, rfl, ⟨rfl, hfollows⟩, List.forall_mem_cons.mpr ⟨hanswers, hall⟩, ?_⟩
    rw [answer, hline, transcript_cons, ← hrest]

/-- The input is cut into its lines, each of which gets a prompt and a turn: it is blank, has errors and changes
nothing, comes to a value, or comes to an error and keeps what had been bound. All errors are those of line 1. -/
theorem dialogue_is_turns (input : String) :
    Cuts input.toList (lines input) ∧
      ∃ turns : List Turn, turns.map Turn.text = lines input ∧ Follows Store.start.2 turns ∧
        (∀ t ∈ turns, t.Answers Store.start.1) ∧ dialogue input = transcript turns :=
  ⟨cuts_lines input, exists_turns ready_start (lines input) (cuts_lines input).isLine⟩

end ReadLoop
end Monkey
