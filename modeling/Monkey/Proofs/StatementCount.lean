import Monkey.Proofs.StatementRecovery

/-! What a program with mistakes can grow to. Every attempt at a statement, at any depth, comes to a statement or a
mistake and has a first token of its own, so the tokens bound the statements and the mistakes together. -/
namespace Monkey
open Token (Kind)

/-! The statements in a tree, at any depth. Those of a list count themselves. -/

mutual

def Expr.count : Expr → Nat
  | .name _ _ | .literal _ => 0
  | .unary _ _ e => e.count
  | .binary _ _ l r => l.count + r.count
  | .conditional c yes none => c.count + stmtsCount yes
  | .conditional c yes (some no) => c.count + stmtsCount yes + stmtsCount no
  | .function _ body => stmtsCount body
  | .call _ f args => f.count + exprsCount args
  | .array elems => exprsCount elems
  | .hash _ pairs => pairsCount pairs
  | .index _ e i => e.count + i.count

def Stmt.countInside : Stmt → Nat
  | .binding _ e => e.count
  | .returning none => 0
  | .returning (some e) => e.count
  | .expression e => e.count

def stmtsCount : List Stmt → Nat
  | [] => 0
  | s :: ss => s.countInside + 1 + stmtsCount ss

def exprsCount : List Expr → Nat
  | [] => 0
  | e :: es => e.count + exprsCount es

def pairsCount : List (Expr × Expr) → Nat
  | [] => 0
  | (k, v) :: ps => k.count + v.count + pairsCount ps

end

theorem stmtsCount_append (ss tt : List Stmt) : stmtsCount (ss ++ tt) = stmtsCount ss + stmtsCount tt := by
  induction ss with
  | nil => exact (Nat.zero_add _).symm
  | cons s ss ih => rw [List.cons_append, stmtsCount, stmtsCount, ih, ← Nat.add_assoc]

namespace Reply
variable {α β : Type} {m n k k' : Nat} {f : α → Nat} {f' : β → Nat} {r : Reply n α}

/-- The size of what a rule has read, which is nothing if it failed. -/
def size (f : α → Nat) (r : Reply n α) : Nat :=
  match r.outcome with
  | .ok a => f a
  | .error _ => 0

/-- The mistakes recovered from, what has been read and the unread tokens are no more than `k` together. -/
def Bounded (f : α → Nat) (k : Nat) (r : Reply n α) : Prop := r.errors.length + r.size f + r.rest.length ≤ k

theorem bounded_done {a : α} {us : List Token} (h : f a + us.length ≤ k) : (done a us).Bounded f k := by
  change 0 + f a + us.length ≤ k
  rwa [Nat.zero_add]

theorem bounded_fail (fault : SyntaxFault) (us : List Token) : (fail fault us).Bounded f us.length :=
  Nat.le_of_eq (Nat.zero_add us.length)

theorem bounded_refuse (fault : SyntaxFault) (us : List Token) : (refuse fault us).Bounded f us.length :=
  Nat.le_of_eq (Nat.zero_add us.length)

namespace Bounded

theorem mono (h : r.Bounded f k) (hk : k ≤ k') : r.Bounded f k' := Nat.le_trans h hk

theorem relax (h : r.Bounded f k) (hn : n ≤ m) : (r.relax hn).Bounded f k := h

theorem weaken {r : Reply (n - 1) α} (h : r.Bounded f (k - 1)) : r.weaken.Bounded f k := h.mono (Nat.sub_le k 1)

theorem inBraces (h : r.Bounded f k) : r.inBraces.Bounded f k := by
  obtain ⟨es, o, us, hl⟩ := r
  cases o <;> exact h

theorem map {g : α → β} (h : r.Bounded f k) (c : Nat) (hg : ∀ a, f' (g a) ≤ f a + c) :
    (r.map g).Bounded f' (k + c) := by
  obtain ⟨es, o, us, hl⟩ := r
  cases o with
  | error e => exact Nat.le_add_right_of_le h
  | ok a =>
    have hsize := hg a
    have hread : es.length + f a + us.length ≤ k := h
    change es.length + f' (g a) + us.length ≤ k + c
    omega

/-- What has been read before counts as `c`. -/
theorem andThen {next : α → (us : List Token) → Reply us.length β} (h : r.Bounded f k) (c : Nat)
    (hn : ∀ a us, us.length ≤ n → (next a us).Bounded f' (us.length + f a + c)) :
    (r.andThen fun a us _ => next a us).Bounded f' (k + c) := by
  obtain ⟨es, o, us, hl⟩ := r
  cases o with
  | error e => exact Nat.le_add_right_of_le h
  | ok a =>
    have hread : es.length + f a + us.length ≤ k := h
    have hnext : (next a us).errors.length + (next a us).size f' + (next a us).rest.length ≤ us.length + f a + c :=
      hn a us hl
    change (es ++ (next a us).errors).length + (next a us).size f' + (next a us).rest.length ≤ k + c
    rw [List.length_append]
    omega

end Bounded
end Reply

namespace Parser
open Reply

theorem bounded_expect (kind : Kind) (ts : List Token) : (expect kind ts).Bounded (fun _ => 0) ts.length := by
  cases ts with
  | nil => exact bounded_fail _ []
  | cons t ts =>
    rw [expect]
    split
    · exact (bounded_done (by simp)).relax _
    · exact bounded_fail _ (t :: ts)

theorem bounded_endOfStatement (s : Stmt) (ts : List Token) :
    (endOfStatement s ts).Bounded Stmt.countInside (ts.length + s.countInside) := by
  rw [endOfStatement]
  split
  · next us hlen _ =>
    exact (bounded_done (by omega)).relax _
  · exact bounded_done (Nat.le_of_eq (Nat.add_comm _ _))

theorem bounded_paramNames (ts : List Token) : (paramNames ts).Bounded (fun _ => 0) ts.length := by
  rw [paramNames]
  refine (bounded_expect .identifier ts).andThen 0 fun t us _ => ?_
  split
  · next vs hlen _ =>
    refine .mono (.relax (.map (bounded_paramNames vs) 0 ?_) _) (Nat.le_of_lt hlen)
    exact fun _ => Nat.le_refl 0
  · exact (bounded_expect .rightParen us).map 0 fun _ => Nat.le_refl _
termination_by ts.length

theorem bounded_params (ts : List Token) : (params ts).Bounded (fun _ => 0) ts.length := by
  rw [params]
  split
  · next us hlen _ => exact (bounded_done (by omega)).relax _
  · exact bounded_paramNames ts

/-- An attempt at a statement: its own statement or mistake is paid for by its first token. -/
theorem length_recover_le {k : Nat} {n : Nat} {r : Reply n Stmt} (h : r.Bounded Stmt.countInside k) :
    (recover r).errors.length + stmtsCount (recover r).stmts + (recover r).rest.length ≤ k + 1 := by
  obtain ⟨es, o, us, hl⟩ := r
  cases o with
  | error e =>
    have hskip := length_skipToStatement_le 0 us
    simp only [Bounded, size] at h
    simp only [recover, List.length_append, List.length_singleton, stmtsCount]
    omega
  | ok s =>
    simp only [Bounded, size] at h
    simp only [recover, stmtsCount]
    omega

/-! The rules. An expression does without its first token in the bound, so that token is left to pay for the statement
that the expression is. -/

mutual

theorem bounded_expr (least : Precedence) (ts : List Token) :
    (expr least ts).Bounded Expr.count (ts.length - 1) := by
  rw [expr]
  exact (bounded_operand ts).andThen 0 fun left us _ => bounded_continued least left us
termination_by 6 * ts.length + 1

theorem bounded_operand (ts : List Token) : (operand ts).Bounded Expr.count (ts.length - 1) := by
  cases ts with
  | nil =>
    rw [operand]
    exact bounded_fail .endOfTokens []
  | cons t ts =>
    rw [operand]
    have hleaf {e : Expr} (he : e.count = 0) : (done e ts).Bounded Expr.count ts.length :=
      bounded_done (by rw [he, Nat.zero_add])
    split
    · exact hleaf rfl
    · split
      · exact hleaf rfl
      · exact bounded_refuse _ ts
    · exact hleaf rfl
    · exact hleaf rfl
    · exact hleaf rfl
    · exact (bounded_expr .unary ts).weaken.map 0 fun _ => Nat.le_refl _
    · exact (bounded_expr .unary ts).weaken.map 0 fun _ => Nat.le_refl _
    · exact (bounded_expr .lowest ts).weaken.andThen 0 fun e us _ =>
        (bounded_expect .rightParen us).map e.count fun _ => Nat.le_add_left _ _
    · exact bounded_conditional ts
    · exact bounded_function ts
    · exact (bounded_exprList .rightBracket ts).map 0 fun _ => Nat.le_refl _
    · exact (bounded_pairs ts).inBraces.map 0 fun _ => Nat.le_refl _
    · exact bounded_refuse _ ts
termination_by 6 * ts.length
decreasing_by
  all_goals subst_vars
  all_goals try simp only [List.length_cons] at *
  all_goals omega

theorem bounded_continued (least : Precedence) (left : Expr) (ts : List Token) :
    (continued least left ts).Bounded Expr.count (ts.length + left.count) := by
  have hdone : (done left ts).Bounded Expr.count (ts.length + left.count) :=
    bounded_done (Nat.le_of_eq (Nat.add_comm _ _))
  cases ts with
  | nil =>
    rw [continued]
    exact hdone
  | cons t ts =>
    rw [continued]
    split
    · exact hdone
    · next c hc =>
      split
      · exact hdone
      · refine .relax ?_ _
        have hcontinued := (bounded_continuation left c (t.line + 1) ts).andThen 0 fun e us _ =>
          bounded_continued least e us
        refine hcontinued.mono ?_
        rw [List.length_cons]
        omega
termination_by 6 * ts.length
decreasing_by
  all_goals subst_vars
  all_goals try simp only [List.length_cons] at *
  all_goals omega

theorem bounded_continuation (left : Expr) (c : Continuation) (line : Nat) (ts : List Token) :
    (continuation left c line ts).Bounded Expr.count (ts.length + left.count) := by
  cases c with
  | call =>
    rw [continuation]
    exact (bounded_exprList .rightParen ts).map left.count fun es => Nat.le_of_eq (Nat.add_comm _ _)
  | index =>
    rw [continuation]
    refine (bounded_expr .lowest ts).weaken.andThen left.count fun i us _ => ?_
    refine ((bounded_expect .rightBracket us).map (i.count + left.count) fun _ => ?_).mono ?_
    · simp only [Expr.count]
      omega
    · omega
  | operator op =>
    rw [continuation]
    exact (bounded_expr op.precedence ts).weaken.map left.count fun e => Nat.le_of_eq (Nat.add_comm _ _)
termination_by 6 * ts.length + 5

theorem bounded_conditional (ts : List Token) : (conditional ts).Bounded Expr.count ts.length := by
  rw [conditional]
  refine (bounded_expect .leftParen ts).andThen 0 fun _ us _ =>
    (bounded_expr .lowest us).weaken.andThen 0 fun c vs _ =>
      (bounded_expect .rightParen vs).andThen c.count fun _ ws _ =>
        (bounded_block ws).andThen c.count fun yes xs _ => ?_
  split
  · next ys hlen _ =>
    refine .mono (.relax (.map (bounded_block ys) (stmtsCount yes + c.count) fun no => ?_) _) ?_
    · simp only [Expr.count]
      omega
    · omega
  · refine bounded_done ?_
    simp only [Expr.count]
    omega
termination_by 6 * ts.length + 5

theorem bounded_function (ts : List Token) : (function ts).Bounded Expr.count ts.length := by
  rw [function]
  exact (bounded_expect .leftParen ts).andThen 0 fun _ us _ =>
    (bounded_params us).andThen 0 fun xs vs _ => (bounded_block vs).map 0 fun _ => Nat.le_refl _
termination_by 6 * ts.length + 5

theorem bounded_exprList (close : Kind) (ts : List Token) : (exprList close ts).Bounded exprsCount ts.length := by
  rw [exprList]
  split
  · next us hlen _ => exact (bounded_done (by rw [exprsCount]; omega)).relax _
  · exact bounded_exprItems close ts
termination_by 6 * ts.length + 4

theorem bounded_exprItems (close : Kind) (ts : List Token) : (exprItems close ts).Bounded exprsCount ts.length := by
  rw [exprItems]
  refine (bounded_expr .lowest ts).weaken.andThen 0 fun e us _ => ?_
  split
  · next vs hlen _ =>
    refine .mono (.relax (.map (bounded_exprItems close vs) e.count fun es => ?_) _) ?_
    · exact Nat.le_of_eq (Nat.add_comm _ _)
    · omega
  · exact (bounded_expect close us).map e.count fun _ => by simp [exprsCount]
termination_by 6 * ts.length + 3

theorem bounded_pairs (ts : List Token) : (pairs ts).Bounded pairsCount ts.length := by
  rw [pairs]
  split
  · next us hlen _ => exact (bounded_done (by rw [pairsCount]; omega)).relax _
  · refine (bounded_expr .lowest ts).weaken.andThen 0 fun key us _ =>
      (bounded_expect .colon us).andThen key.count fun _ vs _ =>
        (bounded_expr .lowest vs).weaken.andThen key.count fun value ws _ => ?_
    split
    · next xs hlen _ =>
      refine .mono (.relax (.map (bounded_pairs xs) (key.count + value.count) fun ps => ?_) _) ?_
      · exact Nat.le_of_eq (Nat.add_comm _ _)
      · omega
    · refine ((bounded_expect .rightBrace ws).map (key.count + value.count) fun _ => ?_).mono ?_
      · simp [pairsCount]
      · omega
termination_by 6 * ts.length + 3

theorem bounded_block (ts : List Token) : (block ts).Bounded stmtsCount ts.length := by
  rw [block]
  exact (bounded_expect .leftBrace ts).andThen 0 fun _ us _ => (bounded_blockBody us).inBraces
termination_by 6 * ts.length + 4

theorem bounded_blockBody (ts : List Token) : (blockBody ts).Bounded stmtsCount ts.length := by
  cases ts with
  | nil =>
    rw [blockBody]
    exact bounded_fail _ []
  | cons t ts =>
    by_cases ht : t.kind = .rightBrace
    · rw [blockBody, if_pos ht]
      exact (bounded_done (by simp [stmtsCount])).relax _
    · obtain ⟨herrors, houtcome, hrest⟩ := blockBody_cons ts ht
      have hattempt := length_recover_le (bounded_statement t ts)
      have hlen := (recover (statement t ts)).length_rest_le
      have hbody := bounded_blockBody (recover (statement t ts)).rest
      have hsize : (blockBody (t :: ts)).size stmtsCount ≤
          stmtsCount (recover (statement t ts)).stmts + (blockBody (recover (statement t ts)).rest).size stmtsCount := by
        simp only [size, houtcome]
        cases (blockBody (recover (statement t ts)).rest).outcome with
        | error e => exact Nat.zero_le _
        | ok b => exact Nat.le_of_eq (stmtsCount_append _ b)
      simp only [Bounded, herrors, hrest, List.length_append, List.length_cons] at hbody ⊢
      omega
termination_by 6 * ts.length + 3
decreasing_by
  all_goals subst_vars
  all_goals try simp only [List.length_cons] at *
  all_goals omega

theorem bounded_statement (t : Token) (ts : List Token) :
    (statement t ts).Bounded Stmt.countInside ts.length := by
  rw [statement]
  split
  · exact (bounded_expect .identifier ts).andThen 0 fun x us _ =>
      (bounded_expect .equal us).andThen 0 fun _ vs _ =>
        (bounded_expr .lowest vs).weaken.andThen 0 fun e ws _ =>
          bounded_endOfStatement (.binding x.lexeme e) ws
  · split
    · exact bounded_endOfStatement (.returning none) ts
    · exact (bounded_expr .lowest ts).weaken.andThen 0 fun e us _ =>
        bounded_endOfStatement (.returning (some e)) us
  · exact (bounded_expr .lowest (t :: ts)).andThen 0 fun e us _ =>
      bounded_endOfStatement (.expression e) us
termination_by 6 * (ts.length + 1) + 2
decreasing_by
  all_goals subst_vars
  all_goals try simp only [List.length_cons] at *
  all_goals omega

end

theorem length_program_le (ts : List Token) :
    (program ts).2.length + stmtsCount (program ts).1 ≤ ts.length := by
  cases ts with
  | nil =>
    rw [program]
    exact Nat.le_refl 0
  | cons t ts =>
    have hlen := (recover (statement t ts)).length_rest_le
    have hattempt := length_recover_le (bounded_statement t ts)
    have hrest := length_program_le (recover (statement t ts)).rest
    rw [program_cons, List.length_append, stmtsCount_append, List.length_cons]
    omega
termination_by ts.length
decreasing_by
  subst_vars
  rw [List.length_cons]
  omega

/-- The tokens behind an attempt at a statement and the recovery from its mistake. -/
def afterAttempt : List Token → List Token
  | [] => []
  | t :: ts => (recover (statement t ts)).rest

theorem rest_statement_suffix (t : Token) (ts : List Token) : (statement t ts).rest <:+ ts :=
  List.suffix_of_suffix_length_le (runs_statement t ts).rest_suffix (List.suffix_cons t ts)
    (statement t ts).length_rest_le

theorem afterAttempt_suffix (t : Token) (ts : List Token) : afterAttempt (t :: ts) <:+ ts :=
  List.suffix_of_suffix_length_le (recover_rest_suffix t ts) (List.suffix_cons t ts)
    (recover (statement t ts)).length_rest_le

theorem iterate_afterAttempt (n : Nat) {ts : List Token} (h : ts.length ≤ n) : afterAttempt^[n] ts = [] := by
  induction n generalizing ts with
  | zero => exact List.length_eq_zero_iff.mp (Nat.le_zero.mp h)
  | succ n ih =>
    rw [Function.iterate_succ_apply]
    refine ih ?_
    cases ts with
    | nil => exact Nat.zero_le n
    | cons t ts => exact Nat.le_trans (afterAttempt_suffix t ts).length_le (Nat.le_of_succ_le_succ h)

end Parser

/-- An attempt at a statement takes its first token at least, whether it succeeds or fails, and so does the attempt
with the recovery from its mistake. So there are at most as many attempts, one behind the other, as there are tokens.
The mistakes in any tokens and the statements read from them, at any depth, are together no more than the tokens. -/
theorem parsing_is_bounded_by_its_tokens :
    (∀ t ts, (Parser.statement t ts).rest <:+ ts ∧ Parser.afterAttempt (t :: ts) <:+ ts) ∧
      (∀ ts, Parser.afterAttempt^[ts.length] ts = []) ∧
        ∀ ts, (Program.ofTokens ts).2.length + stmtsCount (Program.ofTokens ts).1 ≤ ts.length :=
  ⟨fun t ts => ⟨Parser.rest_statement_suffix t ts, Parser.afterAttempt_suffix t ts⟩,
    fun _ => Parser.iterate_afterAttempt _ (Nat.le_refl _), Parser.length_program_le⟩

end Monkey
