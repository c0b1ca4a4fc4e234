import Monkey.Proofs.Lines
import Monkey.Syntax.Parser

/-! Tokens that stand elsewhere in a source. The rules of the grammar go by kinds and lexemes, so they take the same
tokens there and answer the same, with the lines moved. -/
namespace Monkey
open Token (Kind)

/-- The token where the text before it is longer by so many bytes and lines. -/
def Token.behind (bytes lines : Nat) (t : Token) : Token :=
  { t with start := t.start + bytes, stop := t.stop + bytes, line := t.line + lines }

def SyntaxFault.behind (bytes lines : Nat) : SyntaxFault → SyntaxFault
  | .endOfTokens => .endOfTokens
  | .noOperand found => .noOperand (found.behind bytes lines)
  | .badInteger found => .badInteger (found.behind bytes lines)
  | .expected kind found => .expected kind (found.map (.behind bytes lines))

def SyntaxError.behind (bytes lines : Nat) (e : SyntaxError) : SyntaxError :=
  { e with fault := e.fault.behind bytes lines }

/-- Other places for tokens: kinds and lexemes stay, and the new lines, counted from 1, depend on the old ones. -/
structure Token.Move where
  token : Token → Token
  line : Nat → Nat
  kind_token : ∀ t, (token t).kind = t.kind
  lexeme_token : ∀ t, (token t).lexeme = t.lexeme
  line_token : ∀ t, (token t).line + 1 = line (t.line + 1)

namespace Token.Move
variable (M : Move)

def fault : SyntaxFault → SyntaxFault
  | .endOfTokens => .endOfTokens
  | .noOperand found => .noOperand (M.token found)
  | .badInteger found => .badInteger (M.token found)
  | .expected kind found => .expected kind (found.map M.token)

def error (e : SyntaxError) : SyntaxError := { e with fault := M.fault e.fault }

/-- Text comes in before the tokens. -/
def behind (bytes lines : Nat) : Move where
  token := .behind bytes lines
  line := (· + lines)
  kind_token _ := rfl
  lexeme_token _ := rfl
  line_token t := Nat.add_right_comm t.line lines 1

/-- All tokens are on the first line, and none has a range. -/
def nowhere : Move where
  token t := { t with start := 0, stop := 0, line := 0 }
  line _ := 1
  kind_token _ := rfl
  lexeme_token _ := rfl
  line_token _ := rfl

/-- All tokens are on the lines that they are on, and none has a range. -/
def onLines : Move where
  token t := { t with start := 0, stop := 0 }
  line := id
  kind_token _ := rfl
  lexeme_token _ := rfl
  line_token _ := rfl

theorem error_behind (bytes lines : Nat) : (behind bytes lines).error = .behind bytes lines := by
  funext e
  obtain ⟨fault, unread, unclosed⟩ := e
  cases fault <;> rfl

/-- Messages name lines and no ranges. -/
theorem message_onLines (e : SyntaxError) : (onLines.error e).message = e.message := by
  obtain ⟨fault, unread, unclosed⟩ := e
  cases fault with
  | expected kind found => cases found <;> rfl
  | _ => rfl

end Token.Move

variable {M : Token.Move}

namespace Reply
variable {α β α' β' : Type} {m n m' n' : Nat}

/-- The reply `r'` is `r` for tokens that are moved; `f` makes its result from that of `r`. -/
structure Relocates (M : Token.Move) (f : α → β) (r : Reply n α) (r' : Reply m β) : Prop where
  errors : r'.errors = r.errors.map M.error
  outcome : r'.outcome = (r.outcome.map f).mapError M.error
  rest : r'.rest = r.rest.map M.token

variable {f : α → β} {f' : α' → β'} {r : Reply n α} {r' : Reply m β}

theorem relocates_done (a : α) (us : List Token) :
    (done a us).Relocates M f (done (f a) (us.map M.token)) := ⟨rfl, rfl, rfl⟩

theorem relocates_fail (fault : SyntaxFault) (us : List Token) :
    (fail fault us : Reply us.length α).Relocates M f
      (fail (M.fault fault) (us.map M.token)) := by
  refine ⟨rfl, ?_, rfl⟩
  simp only [fail, List.length_map]
  rfl

theorem relocates_refuse (fault : SyntaxFault) (us : List Token) :
    (refuse fault us : Reply us.length α).Relocates M f
      (refuse (M.fault fault) (us.map M.token)) := by
  refine ⟨rfl, ?_, rfl⟩
  simp only [refuse, List.length_map]
  rfl

namespace Relocates

theorem map {g : α → α'} {g' : β → β'} (h : r.Relocates M f r') (hg : ∀ a, g' (f a) = f' (g a)) :
    (r.map g).Relocates M f' (r'.map g') := by
  refine ⟨h.errors, ?_, h.rest⟩
  have houtcome := congrArg (Except.map g') h.outcome
  obtain ⟨es, o, us, hl⟩ := r
  cases o with
  | error e => exact houtcome
  | ok a => exact houtcome.trans (congrArg Except.ok (hg a))

theorem relax (h : r.Relocates M f r') (hn : n ≤ n') (hm : m ≤ m') :
    (r.relax hn).Relocates M f (r'.relax hm) := ⟨h.errors, h.outcome, h.rest⟩

theorem weaken {r : Reply (n - 1) α} {r' : Reply (m - 1) β} (h : r.Relocates M f r') :
    r.weaken.Relocates M f r'.weaken := h.relax (Nat.sub_le n 1) (Nat.sub_le m 1)

theorem inBraces (h : r.Relocates M f r') : r.inBraces.Relocates M f r'.inBraces := by
  refine ⟨h.errors, ?_, h.rest⟩
  have houtcome := congrArg (Except.mapError fun e => { e with unclosed := e.unclosed + 1 }) h.outcome
  obtain ⟨es, o, us, hl⟩ := r
  cases o <;> exact houtcome

theorem andThen {next : α → (us : List Token) → Reply us.length α'}
    {next' : β → (us : List Token) → Reply us.length β'} (h : r.Relocates M f r')
    (hn : ∀ a us, us.length ≤ n →
      (next a us).Relocates M f' (next' (f a) (us.map M.token))) :
    (r.andThen fun a us _ => next a us).Relocates M f' (r'.andThen fun a us _ => next' a us) := by
  obtain ⟨es, o, us, hl⟩ := r
  obtain ⟨es', o', us', hl'⟩ := r'
  obtain ⟨rfl, rfl, rfl⟩ := h
  cases o with
  | error e => exact ⟨rfl, rfl, rfl⟩
  | ok a =>
    have hnext := hn a us hl
    exact ⟨(congrArg (es.map _ ++ ·) hnext.errors).trans List.map_append.symm, hnext.outcome, hnext.rest⟩

end Relocates
end Reply

namespace Parser
open Reply
variable (M : Token.Move)

theorem relocates_expect (kind : Kind) (ts : List Token) :
    (expect kind ts).Relocates M M.token
      (expect kind (ts.map M.token)) := by
  cases ts with
  | nil => exact relocates_fail _ []
  | cons t ts =>
    rw [List.map_cons, expect, expect]
    by_cases ht : t.kind = kind
    · have ht' : (M.token t).kind = kind := (M.kind_token t).trans ht
      rw [if_pos ht, if_pos ht']
      exact (relocates_done t ts).relax _ _
    · have ht' : (M.token t).kind ≠ kind := fun h => ht ((M.kind_token t).symm.trans h)
      rw [if_neg ht, if_neg ht']
      exact relocates_fail (.expected kind (some t)) (t :: ts)

theorem accept?_move (kind : Kind) (ts : List Token) :
    accept? kind ts = none ∧ accept? kind (ts.map M.token) = none ∨
      ∃ us h h', accept? kind ts = some ⟨us, h⟩ ∧
        accept? kind (ts.map M.token) = some ⟨us.map M.token, h'⟩ := by
  cases ts with
  | nil => exact .inl ⟨rfl, rfl⟩
  | cons t ts =>
    by_cases ht : t.kind = kind
    · have ht' : (M.token t).kind = kind := (M.kind_token t).trans ht
      exact .inr ⟨ts, _, _, if_pos ht, if_pos ht'⟩
    · have ht' : (M.token t).kind ≠ kind := fun h => ht ((M.kind_token t).symm.trans h)
      exact .inl ⟨if_neg ht, if_neg ht'⟩

theorem relocates_endOfStatement (s : Stmt) (ts : List Token) :
    (endOfStatement s ts).Relocates M (Stmt.mapLines M.line)
      (endOfStatement (s.mapLines M.line) (ts.map M.token)) := by
  rw [endOfStatement, endOfStatement]
  rcases accept?_move M .semicolon ts with ⟨h, h'⟩ | ⟨us, _, _, h, h'⟩
  · simp only [h, h']
    exact relocates_done s ts
  · simp only [h, h']
    exact (relocates_done s us).relax _ _

theorem bare_move (ts : List Token) : bare (ts.map M.token) = bare ts := by
  cases ts with
  | nil => rfl
  | cons t ts => rw [List.map_cons, bare, bare, M.kind_token]

theorem relocates_paramNames (ts : List Token) :
    (paramNames ts).Relocates M id (paramNames (ts.map M.token)) := by
  rw [paramNames, paramNames]
  refine (relocates_expect M .identifier ts).andThen fun t us _ => ?_
  rcases accept?_move M .comma us with ⟨h, h'⟩ | ⟨vs, hvs, _, h, h'⟩
  · simp only [h, h']
    refine (relocates_expect M .rightParen us).map fun _ => ?_
    rw [M.lexeme_token]
    rfl
  · simp only [h, h']
    refine .relax (.map (relocates_paramNames vs) fun _ => ?_) _ _
    rw [M.lexeme_token]
    rfl
termination_by ts.length

theorem relocates_params (ts : List Token) :
    (params ts).Relocates M id (params (ts.map M.token)) := by
  rw [params, params]
  rcases accept?_move M .rightParen ts with ⟨h, h'⟩ | ⟨us, _, _, h, h'⟩
  · simp only [h, h']
    exact relocates_paramNames M ts
  · simp only [h, h']
    exact (relocates_done [] us).relax _ _

theorem skipToStatement_move (depth : Nat) (ts : List Token) :
    skipToStatement depth (ts.map M.token) = (skipToStatement depth ts).map M.token := by
  induction ts generalizing depth with
  | nil => cases depth <;> rfl
  | cons t ts ih =>
    rw [List.map_cons]
    cases depth with
    | zero =>
      rw [skipToStatement, skipToStatement, M.kind_token]
      split
      · rfl
      · rfl
      · rfl
      · rfl
      · exact ih 1
      · exact ih 0
    | succ depth =>
      rw [skipToStatement, skipToStatement, M.kind_token]
      split
      · exact ih (depth + 2)
      · exact ih depth
      · exact ih (depth + 1)

variable {M} in
theorem recover_move {n m : Nat} {r : Reply n Stmt} {r' : Reply m Stmt}
    (h : r.Relocates M (Stmt.mapLines M.line) r') :
    (recover r').stmts = stmtsMapLines M.line (recover r).stmts ∧
      (recover r').errors = (recover r).errors.map M.error ∧
        (recover r').rest = (recover r).rest.map M.token := by
  obtain ⟨es, o, us, hl⟩ := r
  obtain ⟨es', o', us', hl'⟩ := r'
  obtain ⟨rfl, rfl, rfl⟩ := h
  cases o with
  | error e =>
    have herrors : (es ++ [e]).map M.error = es.map M.error ++ [M.error e] :=
      List.map_append
    exact ⟨rfl, herrors.symm, skipToStatement_move M 0 us⟩
  | ok s => exact ⟨rfl, rfl, rfl⟩

mutual

theorem relocates_expr (least : Precedence) (ts : List Token) :
    (expr least ts).Relocates M (Expr.mapLines M.line)
      (expr least (ts.map M.token)) := by
  rw [expr, expr]
  exact (relocates_operand ts).andThen fun left us _ => relocates_continued least left us
termination_by 6 * ts.length + 1

theorem relocates_operand (ts : List Token) :
    (operand ts).Relocates M (Expr.mapLines M.line) (operand (ts.map M.token)) := by
  cases ts with
  | nil =>
    rw [List.map_nil, operand]
    exact relocates_fail .endOfTokens []
  | cons t ts =>
    rw [List.map_cons, operand, operand]
    simp only [M.kind_token, M.lexeme_token, M.line_token]
    split
    · exact relocates_done _ ts
    · split
      · exact relocates_done _ ts
      · exact relocates_refuse _ ts
    · exact relocates_done _ ts
    · exact relocates_done _ ts
    · exact relocates_done _ ts
    · exact (relocates_expr .unary ts).weaken.map fun _ => rfl
    · exact (relocates_expr .unary ts).weaken.map fun _ => rfl
    · exact (relocates_expr .lowest ts).weaken.andThen fun e us _ =>
        (relocates_expect M .rightParen us).map fun _ => rfl
    · exact relocates_conditional ts
    · exact relocates_function ts
    · exact (relocates_exprList .rightBracket ts).map fun _ => rfl
    · exact (relocates_pairs ts).inBraces.map fun _ => rfl
    · exact relocates_refuse _ ts
termination_by 6 * ts.length
decreasing_by
  all_goals subst_vars
  all_goals try simp only [List.length_cons] at *
  all_goals omega

theorem relocates_continued (least : Precedence) (left : Expr) (ts : List Token) :
    (continued least left ts).Relocates M (Expr.mapLines M.line)
      (continued least (left.mapLines M.line) (ts.map M.token)) := by
  cases ts with
  | nil =>
    rw [List.map_nil, continued, continued]
    exact relocates_done left []
  | cons t ts =>
    rw [List.map_cons, continued, continued]
    simp only [M.kind_token, M.line_token]
    split
    · exact relocates_done left (t :: ts)
    · next c hc =>
      split
      · exact relocates_done left (t :: ts)
      · exact ((relocates_continuation left c _ ts).andThen fun e us _ => relocates_continued least e us).relax _ _
termination_by 6 * ts.length
decreasing_by
  all_goals subst_vars
  all_goals try simp only [List.length_cons] at *
  all_goals omega

theorem relocates_continuation (left : Expr) (c : Continuation) (line : Nat) (ts : List Token) :
    (continuation left c line ts).Relocates M (Expr.mapLines M.line)
      (continuation (left.mapLines M.line) c (M.line line) (ts.map M.token)) := by
  cases c with
  | call =>
    rw [continuation, continuation]
    exact (relocates_exprList .rightParen ts).map fun _ => rfl
  | index =>
    rw [continuation, continuation]
    exact (relocates_expr .lowest ts).weaken.andThen fun i us _ =>
      (relocates_expect M .rightBracket us).map fun _ => rfl
  | operator op =>
    rw [continuation, continuation]
    exact (relocates_expr op.precedence ts).weaken.map fun _ => rfl
termination_by 6 * ts.length + 5

theorem relocates_conditional (ts : List Token) :
    (conditional ts).Relocates M (Expr.mapLines M.line)
      (conditional (ts.map M.token)) := by
  rw [conditional, conditional]
  refine (relocates_expect M .leftParen ts).andThen fun _ us _ =>
    (relocates_expr .lowest us).weaken.andThen fun c vs _ =>
      (relocates_expect M .rightParen vs).andThen fun _ ws _ =>
        (relocates_block ws).andThen fun yes xs _ => ?_
  rcases accept?_move M .elseWord xs with ⟨h, h'⟩ | ⟨ys, _, _, h, h'⟩
  · simp only [h, h']
    exact relocates_done (Expr.conditional c yes none) xs
  · simp only [h, h']
    refine .relax (.map (relocates_block ys) ?_) _ _
    exact fun _ => rfl
termination_by 6 * ts.length + 5

theorem relocates_function (ts : List Token) :
    (function ts).Relocates M (Expr.mapLines M.line) (function (ts.map M.token)) := by
  rw [function, function]
  exact (relocates_expect M .leftParen ts).andThen fun _ us _ =>
    (relocates_params M us).andThen fun xs vs _ => (relocates_block vs).map fun _ => rfl
termination_by 6 * ts.length + 5

theorem relocates_exprList (close : Kind) (ts : List Token) :
    (exprList close ts).Relocates M (exprsMapLines M.line)
      (exprList close (ts.map M.token)) := by
  rw [exprList, exprList]
  rcases accept?_move M close ts with ⟨h, h'⟩ | ⟨us, _, _, h, h'⟩
  · simp only [h, h']
    exact relocates_exprItems close ts
  · simp only [h, h']
    exact (relocates_done [] us).relax _ _
termination_by 6 * ts.length + 4

theorem relocates_exprItems (close : Kind) (ts : List Token) :
    (exprItems close ts).Relocates M (exprsMapLines M.line)
      (exprItems close (ts.map M.token)) := by
  rw [exprItems, exprItems]
  refine (relocates_expr .lowest ts).weaken.andThen fun e us _ => ?_
  rcases accept?_move M .comma us with ⟨h, h'⟩ | ⟨vs, _, _, h, h'⟩
  · simp only [h, h']
    exact (relocates_expect M close us).map fun _ => rfl
  · simp only [h, h']
    refine .relax (.map (relocates_exprItems close vs) ?_) _ _
    exact fun _ => rfl
termination_by 6 * ts.length + 3

theorem relocates_pairs (ts : List Token) :
    (pairs ts).Relocates M (pairsMapLines M.line) (pairs (ts.map M.token)) := by
  rw [pairs, pairs]
  rcases accept?_move M .rightBrace ts with ⟨h, h'⟩ | ⟨us, _, _, h, h'⟩
  · simp only [h, h']
    refine (relocates_expr .lowest ts).weaken.andThen fun key us _ =>
      (relocates_expect M .colon us).andThen fun _ vs _ =>
        (relocates_expr .lowest vs).weaken.andThen fun value ws _ => ?_
    rcases accept?_move M .comma ws with ⟨h, h'⟩ | ⟨xs, _, _, h, h'⟩
    · simp only [h, h']
      exact (relocates_expect M .rightBrace ws).map fun _ => rfl
    · simp only [h, h']
      refine .relax (.map (relocates_pairs xs) ?_) _ _
      exact fun _ => rfl
  · simp only [h, h']
    exact (relocates_done [] us).relax _ _
termination_by 6 * ts.length + 3

theorem relocates_block (ts : List Token) :
    (block ts).Relocates M (stmtsMapLines M.line) (block (ts.map M.token)) := by
  rw [block, block]
  exact (relocates_expect M .leftBrace ts).andThen fun _ us _ => (relocates_blockBody us).inBraces
termination_by 6 * ts.length + 4

theorem relocates_blockBody (ts : List Token) :
    (blockBody ts).Relocates M (stmtsMapLines M.line) (blockBody (ts.map M.token)) := by
  cases ts with
  | nil =>
    rw [List.map_nil, blockBody]
    exact relocates_fail _ []
  | cons t ts =>
    rw [List.map_cons]
    by_cases ht : t.kind = .rightBrace
    · have ht' : (M.token t).kind = .rightBrace := (M.kind_token t).trans ht
      rw [blockBody, blockBody, if_pos ht, if_pos ht']
      exact (relocates_done [] ts).relax _ _
    · have ht' : (M.token t).kind ≠ .rightBrace := fun h => ht ((M.kind_token t).symm.trans h)
      obtain ⟨hes, ho, hr⟩ := blockBody_cons ts ht
      obtain ⟨hes', ho', hr'⟩ := blockBody_cons (ts.map M.token) ht'
      obtain ⟨hstmts, herrors, hrest⟩ := recover_move (relocates_statement t ts)
      have hlen := (recover (statement t ts)).length_rest_le
      have hbody := relocates_blockBody (recover (statement t ts)).rest
      rw [← hrest] at hbody
      refine ⟨?_, ?_, ?_⟩
      · rw [hes', hes, herrors, hbody.errors, List.map_append]
      · rw [ho', ho, hstmts, hbody.outcome]
        cases (blockBody (recover (statement t ts)).rest).outcome with
        | error e => rfl
        | ok b => exact congrArg Except.ok (stmtsMapLines_append _ _).symm
      · rw [hr', hr, hbody.rest]
termination_by 6 * ts.length + 3
decreasing_by
  all_goals subst_vars
  all_goals try simp only [List.length_cons] at *
  all_goals omega

theorem relocates_statement (t : Token) (ts : List Token) :
    (statement t ts).Relocates M (Stmt.mapLines M.line)
      (statement (M.token t) (ts.map M.token)) := by
  rw [statement, statement]
  simp only [M.kind_token]
  split
  · refine (relocates_expect M .identifier ts).andThen fun x us _ =>
      (relocates_expect M .equal us).andThen fun _ vs _ =>
        (relocates_expr .lowest vs).weaken.andThen fun e ws _ => ?_
    rw [M.lexeme_token]
    exact relocates_endOfStatement M (.binding x.lexeme e) ws
  · rw [bare_move]
    split
    · exact relocates_endOfStatement M (.returning none) ts
    · exact (relocates_expr .lowest ts).weaken.andThen fun e us _ =>
        relocates_endOfStatement M (.returning (some e)) us
  · exact (relocates_expr .lowest (t :: ts)).andThen fun e us _ =>
      relocates_endOfStatement M (.expression e) us
termination_by 6 * (ts.length + 1) + 2
decreasing_by
  all_goals subst_vars
  all_goals try simp only [List.length_cons] at *
  all_goals omega

end

theorem program_move (ts : List Token) :
    program (ts.map M.token) =
      (stmtsMapLines M.line (program ts).1, (program ts).2.map M.error) := by
  cases ts with
  | nil =>
    rw [List.map_nil, program]
    rfl
  | cons t ts =>
    obtain ⟨hstmts, herrors, hrest⟩ := recover_move (relocates_statement M t ts)
    have hlen := (recover (statement t ts)).length_rest_le
    rw [List.map_cons, program_cons, program_cons, hstmts, herrors, hrest,
      program_move (recover (statement t ts)).rest, stmtsMapLines_append, List.map_append]
termination_by ts.length
decreasing_by
  subst_vars
  rw [List.length_cons]
  omega

/-- Tokens that are the same up to their places are read as the same, up to those places. -/
theorem program_eq_of_move {ts ts' : List Token} (h : ts'.map M.token = ts.map M.token) :
    stmtsMapLines M.line (program ts').1 = stmtsMapLines M.line (program ts).1 ∧
      (program ts').2.map M.error = (program ts).2.map M.error := by
  have hread := program_move M ts
  rw [← h, program_move] at hread
  exact Prod.mk.inj hread

theorem program_behind (bytes lines : Nat) (ts : List Token) :
    program (ts.map (.behind bytes lines)) =
      (stmtsMapLines (· + lines) (program ts).1, (program ts).2.map (.behind bytes lines)) := by
  rw [← Token.Move.error_behind]
  exact program_move (.behind bytes lines) ts

end Parser
end Monkey
