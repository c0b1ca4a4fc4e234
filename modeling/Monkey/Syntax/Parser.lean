import Monkey.Syntax
import Monkey.Syntax.Reply
import Monkey.Text.Decimal

/-! Reading tokens as a program. Every rule leaves a bounded number of tokens unread, and that number bounds
the recursion; a block recovers from the mistakes of its own statements and goes on. -/
namespace Monkey
open Token (Kind)

namespace Parser

/-- The tokens after the first one, if that is of kind `kind`. -/
def accept? (kind : Kind) : (ts : List Token) → Option { rest : List Token // rest.length < ts.length }
  | [] => none
  | t :: ts => if t.kind = kind then some ⟨ts, Nat.lt_succ_self _⟩ else none

/-- The first token, which has to be of kind `kind`. -/
def expect (kind : Kind) : (ts : List Token) → Reply ts.length Token
  | [] => .fail (.expected kind none) []
  | t :: ts =>
    if t.kind = kind then (Reply.done t ts).relax (Nat.le_succ _)
    else .fail (.expected kind (some t)) (t :: ts)

/-- Skips to the next statement of the block, given how many braces are open: behind a semicolon, before
`let` or `return`, or before the brace that closes the block. Nested braces are skipped with all inside. -/
def skipToStatement : Nat → List Token → List Token
  | _, [] => []
  | 0, t :: ts =>
    match t.kind with
    | .rightBrace | .letWord | .returnWord => t :: ts
    | .semicolon => ts
    | .leftBrace => skipToStatement 1 ts
    | _ => skipToStatement 0 ts
  | depth + 1, t :: ts =>
    match t.kind with
    | .leftBrace => skipToStatement (depth + 2) ts
    | .rightBrace => skipToStatement depth ts
    | _ => skipToStatement (depth + 1) ts

theorem skipToStatement_suffix (depth : Nat) (ts : List Token) : skipToStatement depth ts <:+ ts := by
  fun_induction skipToStatement depth ts with
  | case1 | case2 | case3 | case4 => exact List.suffix_refl _
  | case5 => exact List.suffix_cons ..
  | case6 t ts _ ih | case7 t ts _ _ _ _ _ ih => exact ih.trans (List.suffix_cons t ts)
  | case8 _ t ts _ ih | case9 _ t ts _ ih | case10 _ t ts _ _ ih => exact ih.trans (List.suffix_cons t ts)

theorem length_skipToStatement_le (depth : Nat) (ts : List Token) :
    (skipToStatement depth ts).length ≤ ts.length := (skipToStatement_suffix depth ts).length_le

/-- What one attempt at a statement adds to a program: the statement if there was one, and the errors. -/
structure Attempt (n : Nat) where
  stmts : List Stmt
  errors : List SyntaxError
  rest : List Token
  length_rest_le : rest.length ≤ n

/-- Ends an attempt: after a mistake, the tokens up to the next statement are skipped. -/
def recover {n : Nat} (r : Reply n Stmt) : Attempt n :=
  match r with
  | ⟨errors, .ok s, rest, h⟩ => ⟨[s], errors, rest, h⟩
  | ⟨errors, .error e, rest, h⟩ =>
    ⟨[], errors ++ [e], skipToStatement 0 rest, Nat.le_trans (length_skipToStatement_le 0 rest) h⟩

/-- A statement's semicolon may be left out. -/
def endOfStatement (s : Stmt) (ts : List Token) : Reply ts.length Stmt :=
  match accept? .semicolon ts with
  | some ⟨rest, h⟩ => (Reply.done s rest).relax (Nat.le_of_lt h)
  | none => .done s ts

/-- Whether a `return` with these tokens after it returns no value. -/
def bare : List Token → Bool
  | [] => true
  | t :: _ => t.kind = .semicolon || t.kind = .rightBrace

/-- The names of a parameter list, whose opening parenthesis has been read and which is not empty. -/
def paramNames (ts : List Token) : Reply ts.length (List String) :=
  (expect .identifier ts).andThen fun t rest _ =>
    match accept? .comma rest with
    | some ⟨rest, h'⟩ => ((paramNames rest).map (t.lexeme :: ·)).relax (Nat.le_of_lt h')
    | none => (expect .rightParen rest).map fun _ => [t.lexeme]
termination_by ts.length

def params (ts : List Token) : Reply ts.length (List String) :=
  match accept? .rightParen ts with
  | some ⟨rest, h⟩ => (Reply.done [] rest).relax (Nat.le_of_lt h)
  | none => paramNames ts

/-! The rules call each other with fewer tokens, or with the same tokens from a higher rank to a lower: a
construct with its opening token read (5), a bracketed list or a block (4), its items (3), a statement (2), an
expression (1), an operand (0). -/

mutual

/-- An expression all of whose operators bind more strongly than `least`. -/
def expr (least : Precedence) (ts : List Token) : Reply (ts.length - 1) Expr :=
  (operand ts).andThen fun left rest _ => continued least left rest
termination_by 6 * ts.length + 1
decreasing_by all_goals omega

def operand (ts : List Token) : Reply (ts.length - 1) Expr :=
  match ts with
  | [] => .fail .endOfTokens []
  | t :: ts =>
    match t.kind with
    | .identifier => .done (.name (t.line + 1) t.lexeme) ts
    | .integer =>
      match Decimal.integer? t.lexeme with
      | some n => .done (.literal (.integer n)) ts
      | none => .refuse (.badInteger t) ts
    | .string => .done (.literal (.string t.lexeme)) ts
    | .trueWord => .done (.literal (.boolean true)) ts
    | .falseWord => .done (.literal (.boolean false)) ts
    | .bang => (expr .unary ts).weaken.map (.unary (t.line + 1) .not)
    | .minus => (expr .unary ts).weaken.map (.unary (t.line + 1) .negate)
    | .leftParen =>
      (expr .lowest ts).weaken.andThen fun e rest _ =>
        (expect .rightParen rest).map fun _ => e
    | .ifWord => conditional ts
    | .fnWord => function ts
    | .leftBracket => (exprList .rightBracket ts).map .array
    | .leftBrace => (pairs ts).inBraces.map (.hash (t.line + 1))
    | _ => .refuse (.noOperand t) ts
termination_by 6 * ts.length
decreasing_by
  all_goals try simp only [List.length_cons] at *
  all_goals omega

/-- The operand `left` with every operator, call and index after it that binds more strongly than `least`. -/
def continued (least : Precedence) (left : Expr) (ts : List Token) : Reply ts.length Expr :=
  match ts with
  | [] => .done left []
  | t :: ts =>
    match t.kind.continuation? with
    | none => .done left (t :: ts)
    | some c =>
      if c.precedence.level ≤ least.level then .done left (t :: ts)
      else
        ((continuation left c (t.line + 1) ts).andThen fun e rest _ => continued least e rest).relax
          (Nat.le_succ _)
termination_by 6 * ts.length
decreasing_by
  all_goals try simp only [List.length_cons] at *
  all_goals omega

def continuation (left : Expr) (c : Continuation) (line : Nat) (ts : List Token) : Reply ts.length Expr :=
  match c with
  | .call => (exprList .rightParen ts).map (.call line left)
  | .index =>
    (expr .lowest ts).weaken.andThen fun subscript rest _ =>
      (expect .rightBracket rest).map fun _ => .index line left subscript
  | .operator op => (expr op.precedence ts).weaken.map (.binary line op left)
termination_by 6 * ts.length + 5
decreasing_by all_goals omega

/-- The rest of an `if` expression. -/
def conditional (ts : List Token) : Reply ts.length Expr :=
  (expect .leftParen ts).andThen fun _ rest _ =>
    (expr .lowest rest).weaken.andThen fun condition rest _ =>
      (expect .rightParen rest).andThen fun _ rest _ =>
        (block rest).andThen fun consequence rest _ =>
          match accept? .elseWord rest with
          | some ⟨rest, h⟩ =>
            ((block rest).map fun b => .conditional condition consequence (some b)).relax (Nat.le_of_lt h)
          | none => .done (.conditional condition consequence none) rest
termination_by 6 * ts.length + 5
decreasing_by all_goals omega

/-- The rest of a function literal. -/
def function (ts : List Token) : Reply ts.length Expr :=
  (expect .leftParen ts).andThen fun _ rest _ =>
    (params rest).andThen fun names rest _ =>
      (block rest).map (.function names)
termination_by 6 * ts.length + 5
decreasing_by all_goals omega

/-- Expressions set apart by commas up to `close`, of which there may be none. -/
def exprList (close : Kind) (ts : List Token) : Reply ts.length (List Expr) :=
  match accept? close ts with
  | some ⟨rest, h⟩ => (Reply.done [] rest).relax (Nat.le_of_lt h)
  | none => exprItems close ts
termination_by 6 * ts.length + 4
decreasing_by all_goals omega

def exprItems (close : Kind) (ts : List Token) : Reply ts.length (List Expr) :=
  (expr .lowest ts).weaken.andThen fun e rest _ =>
    match accept? .comma rest with
    | some ⟨rest, h⟩ => ((exprItems close rest).map (e :: ·)).relax (Nat.le_of_lt h)
    | none => (expect close rest).map fun _ => [e]
termination_by 6 * ts.length + 3
decreasing_by all_goals omega

/-- The pairs of a hash literal up to its closing brace. The last pair may have a comma after it. -/
def pairs (ts : List Token) : Reply ts.length (List (Expr × Expr)) :=
  match accept? .rightBrace ts with
  | some ⟨rest, h⟩ => (Reply.done [] rest).relax (Nat.le_of_lt h)
  | none =>
    (expr .lowest ts).weaken.andThen fun key rest _ =>
      (expect .colon rest).andThen fun _ rest _ =>
        (expr .lowest rest).weaken.andThen fun value rest _ =>
          match accept? .comma rest with
          | some ⟨rest, h⟩ => ((pairs rest).map ((key, value) :: ·)).relax (Nat.le_of_lt h)
          | none => (expect .rightBrace rest).map fun _ => [(key, value)]
termination_by 6 * ts.length + 3
decreasing_by all_goals omega

def block (ts : List Token) : Reply ts.length Block :=
  (expect .leftBrace ts).andThen fun _ rest _ => (blockBody rest).inBraces
termination_by 6 * ts.length + 4
decreasing_by all_goals omega

/-- The statements of a block up to its closing brace. -/
def blockBody (ts : List Token) : Reply ts.length Block :=
  match ts with
  | [] => .fail (.expected .rightBrace none) []
  | t :: ts =>
    if t.kind = .rightBrace then (Reply.done [] ts).relax (Nat.le_succ _)
    else
      match recover (statement t ts) with
      | ⟨stmts, errors, rest, h⟩ =>
        let r := blockBody rest
        ⟨errors ++ r.errors, r.outcome.map (stmts ++ ·), r.rest,
          Nat.le_trans r.length_rest_le (Nat.le_succ_of_le h)⟩
termination_by 6 * ts.length + 3
decreasing_by
  all_goals try simp only [List.length_cons] at *
  all_goals omega

/-- The statement that starts with the token `t`. -/
def statement (t : Token) (ts : List Token) : Reply ts.length Stmt :=
  match t.kind with
  | .letWord =>
    (expect .identifier ts).andThen fun name rest _ =>
      (expect .equal rest).andThen fun _ rest _ =>
        (expr .lowest rest).weaken.andThen fun e rest _ =>
          endOfStatement (.binding name.lexeme e) rest
  | .returnWord =>
    if bare ts then endOfStatement (.returning none) ts
    else (expr .lowest ts).weaken.andThen fun e rest _ => endOfStatement (.returning (some e)) rest
  | _ => (expr .lowest (t :: ts)).andThen fun e rest _ => endOfStatement (.expression e) rest
termination_by 6 * (ts.length + 1) + 2
decreasing_by
  all_goals try simp only [List.length_cons] at *
  all_goals omega

end

/-- The program that the tokens hold, without the statements that have mistakes, and the mistakes. -/
def program (ts : List Token) : Program × List SyntaxError :=
  match ts with
  | [] => ([], [])
  | t :: ts =>
    match recover (statement t ts) with
    | ⟨stmts, errors, rest, _⟩ =>
      let r := program rest
      (stmts ++ r.1, errors ++ r.2)
termination_by ts.length

theorem blockBody_cons {t : Token} (ts : List Token) (ht : t.kind ≠ .rightBrace) :
    let a := recover (statement t ts)
    let r := blockBody a.rest
    (blockBody (t :: ts)).errors = a.errors ++ r.errors ∧
      (blockBody (t :: ts)).outcome = r.outcome.map (a.stmts ++ ·) ∧
      (blockBody (t :: ts)).rest = r.rest := by
  rw [blockBody, if_neg ht]
  exact ⟨rfl, rfl, rfl⟩

theorem program_cons (t : Token) (ts : List Token) :
    program (t :: ts) =
      ((recover (statement t ts)).stmts ++ (program (recover (statement t ts)).rest).1,
        (recover (statement t ts)).errors ++ (program (recover (statement t ts)).rest).2) := by
  rw [program]

end Parser

namespace Program

/-- Reads with recovery: the program of all the statements without mistakes, and all the mistakes. -/
def ofTokens (ts : List Token) : Program × List SyntaxError := Parser.program ts

/-- Reads a program that has no mistakes. -/
def ofTokens? (ts : List Token) : Except (List SyntaxError) Program :=
  match ofTokens ts with
  | (p, []) => .ok p
  | (_, errors) => .error errors

end Program
end Monkey
