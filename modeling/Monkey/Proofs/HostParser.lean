import Monkey.Syntax.Parser
import Monkey.Proofs.HostFault

/-! A parser that takes its own checks for granted. It looks a token up in one table, for its precedence, and
takes it for an operator of another, and it counts braces down without a look at the count. No tokens make it
fail, and it answers as the rules do. -/
namespace Monkey
open Token (Kind)

/-- A rule's answer, if the host gets to one. -/
abbrev HostReply (n : Nat) (α : Type) := Hosted (Reply n α)

namespace HostReply
variable {α β : Type} {m n : Nat}

def relax (x : HostReply m α) (h : m ≤ n) : HostReply n α := Except.map (Reply.relax · h) x

def weaken (x : HostReply (n - 1) α) : HostReply n α := Except.map Reply.weaken x

def map (f : α → β) (x : HostReply n α) : HostReply n β := Except.map (Reply.map f) x

def inBraces (x : HostReply n α) : HostReply n α := Except.map Reply.inBraces x

def andThen (x : HostReply n α)
    (next : α → (rest : List Token) → rest.length ≤ n → HostReply rest.length β) : HostReply n β :=
  match x with
  | .error fault => .error fault
  | .ok ⟨errors, .error e, rest, h⟩ => .ok ⟨errors, .error e, rest, h⟩
  | .ok ⟨errors, .ok a, rest, h⟩ =>
    Except.map (fun s => ⟨errors ++ s.errors, s.outcome, s.rest, Nat.le_trans s.length_rest_le h⟩) (next a rest h)

@[simp] theorem relax_ok (r : Reply m α) (h : m ≤ n) : relax (.ok r) h = .ok (r.relax h) := rfl

@[simp] theorem weaken_ok (r : Reply (n - 1) α) : weaken (.ok r) = .ok r.weaken := rfl

@[simp] theorem map_ok (f : α → β) (r : Reply n α) : map f (.ok r) = .ok (r.map f) := rfl

@[simp] theorem inBraces_ok (r : Reply n α) : inBraces (.ok r) = .ok r.inBraces := rfl

theorem andThen_ok {r : Reply n α} {next : α → (rest : List Token) → rest.length ≤ n → Reply rest.length β}
    {next' : α → (rest : List Token) → rest.length ≤ n → HostReply rest.length β}
    (h : ∀ a rest hrest, next' a rest hrest = .ok (next a rest hrest)) :
    andThen (.ok r) next' = .ok (r.andThen next) := by
  obtain ⟨errors, outcome, rest, hrest⟩ := r
  cases outcome with
  | error e => rfl
  | ok a =>
    rw [andThen, h]
    rfl

end HostReply

namespace HostParser
open Monkey.Parser (Attempt accept? expect params bare endOfStatement)

/-- The precedence of a token behind an operand. -/
def precedence : Kind → Precedence
  | .equalEqual | .bangEqual => .equals
  | .less | .greater => .lessGreater
  | .plus | .minus => .sum
  | .star | .slash => .product
  | .leftParen | .leftBracket => .call
  | _ => .lowest

/-- Skips to the next statement, given how many braces are open. -/
def sync (depth : Nat) (ts : List Token) : HostReply ts.length Unit :=
  match ts with
  | [] => .ok (.done () [])
  | t :: ts =>
    match t.kind, depth with
    | .rightBrace, 0 | .letWord, 0 | .returnWord, 0 => .ok (.done () (t :: ts))
    | .semicolon, 0 => HostReply.relax (.ok (.done () ts)) (length_le_length_cons t ts)
    | .leftBrace, depth => (sync (depth + 1) ts).relax (length_le_length_cons t ts)
    | .rightBrace, depth =>
      match countDown .noOpenBrace depth with
      | .error fault => .error fault
      | .ok depth => (sync depth ts).relax (length_le_length_cons t ts)
    | _, depth => (sync depth ts).relax (length_le_length_cons t ts)

/-- Ends an attempt at a statement. -/
def recover {n : Nat} (x : HostReply n Stmt) : Hosted (Attempt n) :=
  match x with
  | .error fault => .error fault
  | .ok ⟨errors, .ok s, rest, h⟩ => .ok ⟨[s], errors, rest, h⟩
  | .ok ⟨errors, .error e, rest, h⟩ =>
    Except.map (fun r => ⟨[], errors ++ [e], r.rest, Nat.le_trans r.length_rest_le h⟩) (sync 0 rest)

mutual

def expr (least : Precedence) (ts : List Token) : HostReply (ts.length - 1) Expr :=
  (operand ts).andThen fun left rest _ => continued least left rest
termination_by 6 * ts.length + 1
decreasing_by all_goals omega

def operand (ts : List Token) : HostReply (ts.length - 1) Expr :=
  match ts with
  | [] => .ok (.fail .endOfTokens [])
  | t :: ts =>
    match t.kind with
    | .identifier => .ok (.done (.name (t.line + 1) t.lexeme) ts)
    | .integer =>
      match Decimal.integer? t.lexeme with
      | some n => .ok (.done (.literal (.integer n)) ts)
      | none => .ok (.refuse (.badInteger t) ts)
    | .string => .ok (.done (.literal (.string t.lexeme)) ts)
    | .trueWord => .ok (.done (.literal (.boolean true)) ts)
    | .falseWord => .ok (.done (.literal (.boolean false)) ts)
    | .bang | .minus =>
      match t.kind.prefixOp? with
      | some op => (expr .unary ts).weaken.map (.unary (t.line + 1) op)
      | none => .error (.noOperator t.kind)
    | .leftParen =>
      (expr .lowest ts).weaken.andThen fun e rest _ =>
        HostReply.map (fun _ => e) (.ok (expect .rightParen rest))
    | .ifWord => conditional ts
    | .fnWord => function ts
    | .leftBracket => (exprList .rightBracket ts).map .array
    | .leftBrace => (pairs ts).inBraces.map (.hash (t.line + 1))
    | _ => .ok (.refuse (.noOperand t) ts)
termination_by 6 * ts.length
decreasing_by
  all_goals try simp only [List.length_cons] at *
  all_goals omega

/-- The precedence alone decides whether the expression goes on with the token. -/
def continued (least : Precedence) (left : Expr) (ts : List Token) : HostReply ts.length Expr :=
  match ts with
  | [] => .ok (.done left [])
  | t :: ts =>
    if (precedence t.kind).level ≤ least.level then .ok (.done left (t :: ts))
    else
      ((continuation left t ts).andThen fun e rest _ => continued least e rest).relax (Nat.le_succ _)
termination_by 6 * ts.length
decreasing_by
  all_goals try simp only [List.length_cons] at *
  all_goals omega

def continuation (left : Expr) (t : Token) (ts : List Token) : HostReply ts.length Expr :=
  match t.kind with
  | .leftParen => (exprList .rightParen ts).map (.call (t.line + 1) left)
  | .leftBracket =>
    (expr .lowest ts).weaken.andThen fun subscript rest _ =>
      HostReply.map (fun _ => .index (t.line + 1) left subscript) (.ok (expect .rightBracket rest))
  | kind =>
    match kind.infixOp? with
    | some op => (expr (precedence kind) ts).weaken.map (.binary (t.line + 1) op left)
    | none => .error (.noOperator kind)
termination_by 6 * ts.length + 5
decreasing_by all_goals omega

def conditional (ts : List Token) : HostReply ts.length Expr :=
  HostReply.andThen (.ok (expect .leftParen ts)) fun _ rest _ =>
    (expr .lowest rest).weaken.andThen fun condition rest _ =>
      HostReply.andThen (.ok (expect .rightParen rest)) fun _ rest _ =>
        (block rest).andThen fun consequence rest _ =>
          match accept? .elseWord rest with
          | some ⟨rest, h⟩ =>
            ((block rest).map fun b => .conditional condition consequence (some b)).relax (Nat.le_of_lt h)
          | none => .ok (.done (.conditional condition consequence none) rest)
termination_by 6 * ts.length + 5
decreasing_by all_goals omega

def function (ts : List Token) : HostReply ts.length Expr :=
  HostReply.andThen (.ok (expect .leftParen ts)) fun _ rest _ =>
    HostReply.andThen (.ok (params rest)) fun names rest _ => (block rest).map (.function names)
termination_by 6 * ts.length + 5
decreasing_by all_goals omega

def exprList (close : Kind) (ts : List Token) : HostReply ts.length (List Expr) :=
  match accept? close ts with
  | some ⟨rest, h⟩ => .ok ((Reply.done [] rest).relax (Nat.le_of_lt h))
  | none => exprItems close ts
termination_by 6 * ts.length + 4
decreasing_by all_goals omega

def exprItems (close : Kind) (ts : List Token) : HostReply ts.length (List Expr) :=
  (expr .lowest ts).weaken.andThen fun e rest _ =>
    match accept? .comma rest with
    | some ⟨rest, h⟩ => ((exprItems close rest).map (e :: ·)).relax (Nat.le_of_lt h)
    | none => HostReply.map (fun _ => [e]) (.ok (expect close rest))
termination_by 6 * ts.length + 3
decreasing_by all_goals omega

def pairs (ts : List Token) : HostReply ts.length (List (Expr × Expr)) :=
  match accept? .rightBrace ts with
  | some ⟨rest, h⟩ => .ok ((Reply.done [] rest).relax (Nat.le_of_lt h))
  | none =>
    (expr .lowest ts).weaken.andThen fun key rest _ =>
      HostReply.andThen (.ok (expect .colon rest)) fun _ rest _ =>
        (expr .lowest rest).weaken.andThen fun value rest _ =>
          match accept? .comma rest with
          | some ⟨rest, h⟩ => ((pairs rest).map ((key, value) :: ·)).relax (Nat.le_of_lt h)
          | none => HostReply.map (fun _ => [(key, value)]) (.ok (expect .rightBrace rest))
termination_by 6 * ts.length + 3
decreasing_by all_goals omega

def block (ts : List Token) : HostReply ts.length Block :=
  HostReply.andThen (.ok (expect .leftBrace ts)) fun _ rest _ => (blockBody rest).inBraces
termination_by 6 * ts.length + 4
decreasing_by all_goals omega

def blockBody (ts : List Token) : HostReply ts.length Block :=
  match ts with
  | [] => .ok (.fail (.expected .rightBrace none) [])
  | t :: ts =>
    if t.kind = .rightBrace then .ok ((Reply.done [] ts).relax (Nat.le_succ _))
    else
      match recover (statement t ts) with
      | .error fault => .error fault
      | .ok ⟨stmts, errors, rest, h⟩ =>
        Except.map (fun r => ⟨errors ++ r.errors, r.outcome.map (stmts ++ ·), r.rest,
          Nat.le_trans r.length_rest_le (Nat.le_succ_of_le h)⟩) (blockBody rest)
termination_by 6 * ts.length + 3
decreasing_by
  all_goals try simp only [List.length_cons] at *
  all_goals omega

def statement (t : Token) (ts : List Token) : HostReply ts.length Stmt :=
  match t.kind with
  | .letWord =>
    HostReply.andThen (.ok (expect .identifier ts)) fun name rest _ =>
      HostReply.andThen (.ok (expect .equal rest)) fun _ rest _ =>
        (expr .lowest rest).weaken.andThen fun e rest _ => .ok (endOfStatement (.binding name.lexeme e) rest)
  | .returnWord =>
    if bare ts then .ok (endOfStatement (.returning none) ts)
    else (expr .lowest ts).weaken.andThen fun e rest _ => .ok (endOfStatement (.returning (some e)) rest)
  | _ => (expr .lowest (t :: ts)).andThen fun e rest _ => .ok (endOfStatement (.expression e) rest)
termination_by 6 * (ts.length + 1) + 2
decreasing_by
  all_goals try simp only [List.length_cons] at *
  all_goals omega

end

def program (ts : List Token) : Hosted (Program × List SyntaxError) :=
  match ts with
  | [] => .ok ([], [])
  | t :: ts =>
    match recover (statement t ts) with
    | .error fault => .error fault
    | .ok ⟨stmts, errors, rest, _⟩ => Except.map (fun r => (stmts ++ r.1, errors ++ r.2)) (program rest)
termination_by ts.length

/-- The count of open braces is above zero wherever it goes down. -/
theorem sync_eq (depth : Nat) (ts : List Token) :
    sync depth ts =
      .ok ⟨[], .ok (), Parser.skipToStatement depth ts, Parser.length_skipToStatement_le depth ts⟩ := by
  induction ts generalizing depth with
  | nil =>
    cases depth <;> rfl
  | cons t ts ih =>
    cases depth <;> cases hkind : t.kind <;>
      simp [sync, Parser.skipToStatement, countDown, Reply.done, Reply.relax, hkind, ih]

theorem recover_ok {n : Nat} (r : Reply n Stmt) : recover (.ok r) = .ok (Parser.recover r) := by
  obtain ⟨errors, outcome, rest, h⟩ := r
  cases outcome with
  | ok s => rfl
  | error e =>
    rw [recover, sync_eq]
    rfl

/-- The two tables fit each other: what binds behind an operand is an operator, a call or an index. -/
theorem precedence_eq (kind : Kind) : precedence kind = kind.precedence := by
  cases kind <;> rfl

mutual

theorem expr_eq (least : Precedence) (ts : List Token) : expr least ts = .ok (Parser.expr least ts) := by
  rw [expr, Parser.expr, operand_eq ts]
  exact HostReply.andThen_ok fun left rest _ => continued_eq least left rest
termination_by 6 * ts.length + 1
decreasing_by all_goals omega

theorem operand_eq (ts : List Token) : operand ts = .ok (Parser.operand ts) := by
  match ts with
  | [] => rw [operand, Parser.operand]
  | t :: ts =>
    rw [operand, Parser.operand]
    cases hkind : t.kind
    case integer => cases Decimal.integer? t.lexeme <;> rfl
    case bang | minus => simp only [Kind.prefixOp?, expr_eq .unary ts, HostReply.weaken_ok, HostReply.map_ok]
    case leftParen =>
      simp only [expr_eq .lowest ts, HostReply.weaken_ok]
      exact HostReply.andThen_ok fun _ _ _ => rfl
    case ifWord => exact conditional_eq ts
    case fnWord => exact function_eq ts
    case leftBracket => simp only [exprList_eq .rightBracket ts, HostReply.map_ok]
    case leftBrace => simp only [pairs_eq ts, HostReply.inBraces_ok, HostReply.map_ok]
    all_goals rfl
termination_by 6 * ts.length
decreasing_by
  all_goals try simp only [List.length_cons] at *
  all_goals omega

theorem continued_eq (least : Precedence) (left : Expr) (ts : List Token) :
    continued least left ts = .ok (Parser.continued least left ts) := by
  match ts with
  | [] => rw [continued, Parser.continued]
  | t :: ts =>
    rw [continued, Parser.continued, precedence_eq, Kind.precedence]
    cases hc : t.kind.continuation? with
    | none => exact if_pos (Nat.zero_le _)
    | some c =>
      simp only [Option.map_some, Option.getD_some]
      split
      · rfl
      · rw [continuation_eq left hc ts]
        exact congrArg (HostReply.relax · _) (HostReply.andThen_ok fun e rest _ => continued_eq least e rest)
termination_by 6 * ts.length
decreasing_by
  all_goals try simp only [List.length_cons] at *
  all_goals omega

theorem continuation_eq (left : Expr) {t : Token} {c : Continuation} (hc : t.kind.continuation? = some c)
    (ts : List Token) : continuation left t ts = .ok (Parser.continuation left c (t.line + 1) ts) := by
  rw [continuation]
  cases hkind : t.kind <;> rw [hkind] at hc <;> cases hc <;> rw [Parser.continuation]
  case leftParen => simp only [exprList_eq .rightParen ts, HostReply.map_ok]
  case leftBracket =>
    simp only [expr_eq .lowest ts, HostReply.weaken_ok]
    exact HostReply.andThen_ok fun _ _ _ => rfl
  all_goals
    simp only [Kind.infixOp?, expr_eq _ ts, HostReply.weaken_ok, HostReply.map_ok]
    rfl
termination_by 6 * ts.length + 5
decreasing_by all_goals omega

theorem conditional_eq (ts : List Token) : conditional ts = .ok (Parser.conditional ts) := by
  rw [conditional, Parser.conditional]
  refine HostReply.andThen_ok fun _ rest _ => ?_
  rw [expr_eq .lowest rest]
  refine HostReply.andThen_ok fun condition rest _ => HostReply.andThen_ok fun _ rest _ => ?_
  rw [block_eq rest]
  refine HostReply.andThen_ok fun consequence rest _ => ?_
  cases accept? .elseWord rest with
  | none => rfl
  | some u =>
    obtain ⟨rest, h⟩ := u
    simp only [block_eq rest, HostReply.map_ok, HostReply.relax_ok]
termination_by 6 * ts.length + 5
decreasing_by all_goals omega

theorem function_eq (ts : List Token) : function ts = .ok (Parser.function ts) := by
  rw [function, Parser.function]
  refine HostReply.andThen_ok fun _ rest _ => HostReply.andThen_ok fun names rest _ => ?_
  rw [block_eq rest, HostReply.map_ok]
termination_by 6 * ts.length + 5
decreasing_by all_goals omega

theorem exprList_eq (close : Kind) (ts : List Token) : exprList close ts = .ok (Parser.exprList close ts) := by
  rw [exprList, Parser.exprList]
  cases accept? close ts with
  | some u => rfl
  | none => exact exprItems_eq close ts
termination_by 6 * ts.length + 4
decreasing_by all_goals omega

theorem exprItems_eq (close : Kind) (ts : List Token) :
    exprItems close ts = .ok (Parser.exprItems close ts) := by
  rw [exprItems, Parser.exprItems, expr_eq .lowest ts]
  refine HostReply.andThen_ok fun e rest _ => ?_
  cases accept? .comma rest with
  | none => rfl
  | some u =>
    obtain ⟨rest, h⟩ := u
    simp only [exprItems_eq close rest, HostReply.map_ok, HostReply.relax_ok]
termination_by 6 * ts.length + 3
decreasing_by all_goals omega

theorem pairs_eq (ts : List Token) : pairs ts = .ok (Parser.pairs ts) := by
  rw [pairs, Parser.pairs]
  cases accept? .rightBrace ts with
  | some u => rfl
  | none =>
    simp only [expr_eq .lowest ts]
    refine HostReply.andThen_ok fun key rest _ => HostReply.andThen_ok fun _ rest _ => ?_
    rw [expr_eq .lowest rest]
    refine HostReply.andThen_ok fun value rest _ => ?_
    cases accept? .comma rest with
    | none => rfl
    | some u =>
      obtain ⟨rest, h⟩ := u
      simp only [pairs_eq rest, HostReply.map_ok, HostReply.relax_ok]
termination_by 6 * ts.length + 3
decreasing_by all_goals omega

theorem block_eq (ts : List Token) : block ts = .ok (Parser.block ts) := by
  rw [block, Parser.block]
  refine HostReply.andThen_ok fun _ rest _ => ?_
  rw [blockBody_eq rest, HostReply.inBraces_ok]
termination_by 6 * ts.length + 4
decreasing_by all_goals omega

theorem blockBody_eq (ts : List Token) : blockBody ts = .ok (Parser.blockBody ts) := by
  match ts with
  | [] => rw [blockBody, Parser.blockBody]
  | t :: ts =>
    rw [blockBody, Parser.blockBody]
    split
    · rfl
    · rw [statement_eq t ts, recover_ok]
      obtain ⟨stmts, errors, rest, h⟩ := Parser.recover (Parser.statement t ts)
      simp only [blockBody_eq rest]
      rfl
termination_by 6 * ts.length + 3
decreasing_by
  all_goals try simp only [List.length_cons] at *
  all_goals omega

theorem statement_eq (t : Token) (ts : List Token) : statement t ts = .ok (Parser.statement t ts) := by
  rw [statement, Parser.statement]
  cases t.kind
  case letWord =>
    refine HostReply.andThen_ok fun name rest _ => HostReply.andThen_ok fun _ rest _ => ?_
    rw [expr_eq .lowest rest]
    exact HostReply.andThen_ok fun _ _ _ => rfl
  case returnWord =>
    cases bare ts with
    | true => rfl
    | false =>
      simp only [expr_eq .lowest ts]
      exact HostReply.andThen_ok fun _ _ _ => rfl
  all_goals
    simp only [expr_eq .lowest (t :: ts)]
    exact HostReply.andThen_ok fun _ _ _ => rfl
termination_by 6 * (ts.length + 1) + 2
decreasing_by
  all_goals try simp only [List.length_cons] at *
  all_goals omega

end

/-- No tokens make the host fail, and it reads them as the rules do. -/
theorem program_eq (ts : List Token) : program ts = .ok (Parser.program ts) := by
  match ts with
  | [] => rw [program, Parser.program]
  | t :: ts =>
    rw [program, Parser.program, statement_eq t ts, recover_ok]
    obtain ⟨stmts, errors, rest, h⟩ := Parser.recover (Parser.statement t ts)
    simp only [program_eq rest]
    rfl
termination_by ts.length

end HostParser
end Monkey
