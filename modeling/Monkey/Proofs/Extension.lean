import Monkey.Proofs.Braces
import Monkey.Proofs.Courses

/-! What the rules answer where more tokens follow. They look at most one token beyond those they take, so the
answer stays the same, with the new tokens behind the unread ones, unless the rules met the end before. -/
namespace Monkey
open Token (Kind)

/-- The mistake where `k` more tokens follow. -/
def SyntaxError.before (k : Nat) (e : SyntaxError) : SyntaxError := { e with unread := e.unread + k }

theorem SyntaxError.message_before (k : Nat) (e : SyntaxError) : (e.before k).message = e.message := rfl

namespace Reply
variable {α β : Type} {m n m' n' : Nat} {ts zs : List Token}

/-- The rule met the end of the tokens: none is unread, and its mistake, if any, is not about the last one. -/
structure AtEnd (r : Reply n α) : Prop where
  rest : r.rest = []
  unread : ∀ e ∈ r.failure, e.unread = 0

/-- The reply `r'` is `r` with `zs` behind the unread tokens. -/
structure Carries (zs : List Token) (r : Reply n α) (r' : Reply m α) : Prop where
  errors : r'.errors = r.errors.map (.before zs.length)
  outcome : r'.outcome = r.outcome.mapError (.before zs.length)
  rest : r'.rest = r.rest ++ zs

/-- From the tokens `ts` the reply is `r`, and `r'` if `zs` follows. Then `r` tells `r'`, unless it comes from
the end of the tokens. -/
def Extends (ts zs : List Token) (r : Reply n α) (r' : Reply m α) : Prop :=
  r.AtEnd ∨ ts ≠ [] ∧ r.Carries zs r'

theorem atEnd_done (a : α) : (done a []).AtEnd := ⟨rfl, fun e he => absurd he (Option.not_mem_none e)⟩

theorem atEnd_fail (fault : SyntaxFault) : (fail fault [] : Reply 0 α).AtEnd := by
  refine ⟨rfl, ?_⟩
  rintro e ⟨⟩
  rfl

theorem AtEnd.map {r : Reply n α} (h : r.AtEnd) (f : α → β) : (r.map f).AtEnd := by
  refine ⟨h.rest, ?_⟩
  rw [failure_map]
  exact h.unread

theorem AtEnd.weaken {r : Reply (n - 1) α} (h : r.AtEnd) : r.weaken.AtEnd := ⟨h.rest, h.unread⟩

theorem AtEnd.inBraces {r : Reply n α} (h : r.AtEnd) : r.inBraces.AtEnd := by
  obtain ⟨es, o, us, hl⟩ := r
  cases o with
  | error e =>
    refine ⟨h.rest, ?_⟩
    rintro e' ⟨⟩
    exact h.unread e rfl
  | ok a => exact ⟨h.rest, h.unread⟩

theorem carries_done (a : α) (us : List Token) : (done a us).Carries zs (done a (us ++ zs)) := ⟨rfl, rfl, rfl⟩

theorem carries_fail (fault : SyntaxFault) (us : List Token) :
    (fail fault us : Reply us.length α).Carries zs (fail fault (us ++ zs)) := by
  refine ⟨rfl, ?_, rfl⟩
  simp [fail, Except.mapError, SyntaxError.before]

theorem carries_refuse (fault : SyntaxFault) (us : List Token) :
    (refuse fault us : Reply us.length α).Carries zs (refuse fault (us ++ zs)) := by
  refine ⟨rfl, ?_, rfl⟩
  simp [refuse, Except.mapError, SyntaxError.before]
  omega

theorem Carries.failure {r : Reply n α} {r' : Reply m α} (h : r.Carries zs r') :
    r'.failure = r.failure.map (.before zs.length) := by
  unfold Reply.failure
  rw [h.outcome]
  cases r.outcome <;> rfl

theorem Carries.map {r : Reply n α} {r' : Reply m α} (h : r.Carries zs r') (f : α → β) :
    (r.map f).Carries zs (r'.map f) := by
  refine ⟨h.errors, ?_, h.rest⟩
  have houtcome := congrArg (Except.map f) h.outcome
  obtain ⟨es, o, us, hl⟩ := r
  cases o <;> exact houtcome

theorem Carries.inBraces {r : Reply n α} {r' : Reply m α} (h : r.Carries zs r') :
    r.inBraces.Carries zs r'.inBraces := by
  refine ⟨h.errors, ?_, h.rest⟩
  have houtcome := congrArg (Except.mapError fun e => { e with unclosed := e.unclosed + 1 }) h.outcome
  obtain ⟨es, o, us, hl⟩ := r
  cases o <;> exact houtcome

theorem Carries.relax {r : Reply n α} {r' : Reply m α} (h : r.Carries zs r') (hn : n ≤ n') (hm : m ≤ m') :
    (r.relax hn).Carries zs (r'.relax hm) := ⟨h.errors, h.outcome, h.rest⟩

theorem Extends.map {r : Reply n α} {r' : Reply m α} (h : r.Extends ts zs r') (f : α → β) :
    (r.map f).Extends ts zs (r'.map f) := by
  rcases h with h | ⟨hne, h⟩
  · exact .inl (h.map f)
  · exact .inr ⟨hne, h.map f⟩

theorem Extends.inBraces {r : Reply n α} {r' : Reply m α} (h : r.Extends ts zs r') :
    r.inBraces.Extends ts zs r'.inBraces := by
  rcases h with h | ⟨hne, h⟩
  · exact .inl h.inBraces
  · exact .inr ⟨hne, h.inBraces⟩

theorem Extends.relax {r : Reply n α} {r' : Reply m α} (h : r.Extends ts zs r') (hn : n ≤ n') (hm : m ≤ m') :
    (r.relax hn).Extends ts zs (r'.relax hm) := by
  rcases h with h | ⟨hne, h⟩
  · exact .inl ⟨h.rest, h.unread⟩
  · exact .inr ⟨hne, h.relax hn hm⟩

theorem Extends.weaken {r : Reply (n - 1) α} {r' : Reply (m - 1) α} (h : r.Extends ts zs r') :
    r.weaken.Extends ts zs r'.weaken := h.relax (Nat.sub_le n 1) (Nat.sub_le m 1)

theorem Extends.atEnd {r : Reply n α} {r' : Reply m α} (h : r.Extends [] zs r') : r.AtEnd :=
  h.resolve_right fun h => h.1 rfl

theorem Extends.cons {r : Reply n α} {r' : Reply m α} (h : r.Extends ts zs r') (t : Token) :
    r.Extends (t :: ts) zs r' := by
  rcases h with h | ⟨_, h⟩
  · exact .inl h
  · exact .inr ⟨List.cons_ne_nil t ts, h⟩

theorem Carries.andThen {r : Reply n α} {r' : Reply m α} {next next' : α → (us : List Token) → Reply us.length β}
    (h : r.Carries zs r') (hn : ∀ a, r.outcome = .ok a → (next a r.rest).Carries zs (next' a (r.rest ++ zs))) :
    (r.andThen fun a us _ => next a us).Carries zs (r'.andThen fun a us _ => next' a us) := by
  obtain ⟨es, o, us, hl⟩ := r
  obtain ⟨es', o', us', hl'⟩ := r'
  obtain ⟨rfl, rfl, rfl⟩ := h
  cases o with
  | error e => exact ⟨rfl, rfl, rfl⟩
  | ok a =>
    have hnext := hn a rfl
    refine ⟨?_, hnext.outcome, hnext.rest⟩
    exact (congrArg (es.map _ ++ ·) hnext.errors).trans List.map_append.symm

theorem AtEnd.andThen {r : Reply n α} {next : α → (us : List Token) → Reply us.length β} (h : r.AtEnd)
    (hn : ∀ a, (next a []).AtEnd) : (r.andThen fun a us _ => next a us).AtEnd := by
  obtain ⟨es, o, us, hl⟩ := r
  obtain rfl : us = [] := h.rest
  cases o with
  | error e => exact ⟨rfl, h.unread⟩
  | ok a => exact ⟨(hn a).rest, (hn a).unread⟩

/-- The end stays the end. -/
theorem Extends.andThen {r : Reply n α} {r' : Reply m α} {next next' : α → (us : List Token) → Reply us.length β}
    (h : r.Extends ts zs r')
    (hn : ∀ a us, us.length ≤ n → (next a us).Extends us zs (next' a (us ++ zs))) :
    (r.andThen fun a us _ => next a us).Extends ts zs (r'.andThen fun a us _ => next' a us) := by
  have hnil : ∀ a, (next a []).AtEnd := fun a => (hn a [] (Nat.zero_le n)).atEnd
  rcases h with h | ⟨hne, h⟩
  · exact .inl (h.andThen hnil)
  · obtain ⟨es, o, us, hl⟩ := r
    cases o with
    | error e => exact .inr ⟨hne, h.andThen nofun⟩
    | ok a =>
      rcases hn a us hl with hend | ⟨_, hnext⟩
      · exact .inl ⟨hend.rest, hend.unread⟩
      · refine .inr ⟨hne, h.andThen ?_⟩
        rintro a' ⟨⟩
        exact hnext

/-- The same for a statement. If it met the end of the tokens, it took no semicolon there: it ends as a phrase
does. -/
def ExtendsStatement (ts zs : List Token) (r : Reply n α) (r' : Reply m α) : Prop :=
  r.AtEnd ∧ r.Runs .phrase ts ∨ ts ≠ [] ∧ r.Carries zs r'

theorem Extends.andThenStatement {r : Reply n α} {r' : Reply m α}
    {next next' : α → (us : List Token) → Reply us.length β} (h : r.Extends ts zs r') (hr : r.Runs .phrase ts)
    (hn : ∀ a us, us.length ≤ n → (next a us).ExtendsStatement us zs (next' a (us ++ zs))) :
    (r.andThen fun a us _ => next a us).ExtendsStatement ts zs (r'.andThen fun a us _ => next' a us) := by
  obtain ⟨es, o, us, hl⟩ := r
  cases o with
  | error e =>
    rcases h with h | ⟨hne, h⟩
    · exact .inl ⟨⟨h.rest, h.unread⟩, hr⟩
    · exact .inr ⟨hne, h.andThen nofun⟩
  | ok a =>
    rcases hn a us hl with ⟨hend, hruns⟩ | ⟨hus, hnext⟩
    · exact .inl ⟨⟨hend.rest, hend.unread⟩, Course.trans hr rfl hruns⟩
    · rcases h with h | ⟨hne, h⟩
      · exact absurd h.rest hus
      · refine .inr ⟨hne, h.andThen ?_⟩
        rintro a' ⟨⟩
        exact hnext

theorem ExtendsStatement.take {k : Kind} {r : Reply n α} {r' : Reply m α} {t : Token} (ht : t.kind = k)
    (h : r.ExtendsStatement ts zs r') (hk : Parser.Separate k) :
    r.ExtendsStatement (t :: ts) zs r' := by
  rcases h with ⟨hend, hruns⟩ | ⟨_, h⟩
  · exact .inl ⟨hend, Parser.Course.take ht hruns hk⟩
  · exact .inr ⟨List.cons_ne_nil t ts, h⟩

end Reply

namespace Parser
open Reply
variable (zs : List Token)

theorem extends_expect (kind : Kind) (ts : List Token) :
    (expect kind ts).Extends ts zs (expect kind (ts ++ zs)) := by
  cases ts with
  | nil => exact .inl (atEnd_fail _)
  | cons t ts =>
    refine .inr ⟨List.cons_ne_nil t ts, ?_⟩
    simp only [expect, List.cons_append]
    by_cases ht : t.kind = kind
    · rw [if_pos ht, if_pos ht]
      exact (carries_done t ts).relax _ _
    · rw [if_neg ht, if_neg ht]
      exact carries_fail (.expected kind (some t)) (t :: ts)

theorem extends_endOfStatement (s : Stmt) (ts : List Token) :
    (endOfStatement s ts).ExtendsStatement ts zs (endOfStatement s (ts ++ zs)) := by
  cases ts with
  | nil => exact .inl ⟨atEnd_done s, .stop⟩
  | cons t ts =>
    refine .inr ⟨List.cons_ne_nil t ts, ?_⟩
    simp only [endOfStatement, accept?, List.cons_append]
    by_cases ht : t.kind = .semicolon
    · simp only [if_pos ht]
      exact (carries_done s ts).relax _ _
    · simp only [if_neg ht]
      exact carries_done s (t :: ts)

theorem extends_paramNames (ts : List Token) :
    (paramNames ts).Extends ts zs (paramNames (ts ++ zs)) := by
  rw [paramNames, paramNames]
  refine (extends_expect zs .identifier ts).andThen fun t us hl => ?_
  cases us with
  | nil => exact .inl ((atEnd_fail _).map _)
  | cons u us =>
    simp only [accept?, List.cons_append]
    by_cases hu : u.kind = .comma
    · simp only [if_pos hu]
      exact (((extends_paramNames us).map _).relax _ _).cons u
    · simp only [if_neg hu]
      exact (extends_expect zs .rightParen (u :: us)).map _
termination_by ts.length

theorem extends_params (ts : List Token) : (params ts).Extends ts zs (params (ts ++ zs)) := by
  cases ts with
  | nil =>
    rw [params, params]
    exact .inl (extends_paramNames zs []).atEnd
  | cons t ts =>
    simp only [params, accept?, List.cons_append]
    by_cases ht : t.kind = .rightParen
    · simp only [if_pos ht]
      exact .inr ⟨List.cons_ne_nil t ts, (carries_done [] ts).relax _ _⟩
    · simp only [if_neg ht]
      exact extends_paramNames zs (t :: ts)

/-- Behind a statement that met the end, and behind its mistake, nothing is left. -/
theorem rest_recover_of_atEnd {n : Nat} {r : Reply n Stmt} (h : r.AtEnd) : (recover r).rest = [] := by
  obtain ⟨es, o, us, hl⟩ := r
  obtain rfl : us = [] := h.rest
  cases o <;> rfl

/-- The attempt at a statement finds the same. -/
theorem recover_of_carries {n m : Nat} {r : Reply n Stmt} {r' : Reply m Stmt} (h : r.Carries zs r') :
    (recover r').stmts = (recover r).stmts ∧ (recover r').errors = (recover r).errors.map (.before zs.length) := by
  obtain ⟨es, o, us, hl⟩ := r
  obtain ⟨es', o', us', hl'⟩ := r'
  obtain ⟨rfl, rfl, rfl⟩ := h
  cases o with
  | error e =>
    have hmap : (es ++ [e]).map (.before zs.length) = es.map (.before zs.length) ++ [e.before zs.length] :=
      List.map_append
    exact ⟨rfl, hmap.symm⟩
  | ok s => exact ⟨rfl, rfl⟩

theorem rest_recover_of_failure {n : Nat} {r : Reply n Stmt} {e : SyntaxError} (he : r.failure = some e) :
    (recover r).rest = skipToStatement 0 r.rest := by
  obtain ⟨es, o, us, hl⟩ := r
  cases o with
  | error e' => rfl
  | ok s => cases he

theorem rest_recover_of_ok {n : Nat} {r : Reply n Stmt} (h : r.failure = none) : (recover r).rest = r.rest := by
  obtain ⟨es, o, us, hl⟩ := r
  cases o with
  | error e => cases h
  | ok s => rfl

/-- Where skipping stops before the end, it stops there whatever follows. -/
theorem rest_recover_of_carries {n m : Nat} {r : Reply n Stmt} {r' : Reply m Stmt} (h : r.Carries zs r')
    (hne : (recover r).rest ≠ []) : (recover r').rest = (recover r).rest ++ zs := by
  have hfailure := h.failure
  cases hr : r.failure with
  | none =>
    rw [hr] at hfailure
    rw [rest_recover_of_ok hfailure, rest_recover_of_ok hr, h.rest]
  | some e =>
    rw [hr] at hfailure
    rw [rest_recover_of_failure hr] at hne ⊢
    rw [rest_recover_of_failure hfailure, h.rest, skipToStatement_append zs hne]

mutual

theorem extends_expr (least : Precedence) (ts : List Token) :
    (expr least ts).Extends ts zs (expr least (ts ++ zs)) := by
  rw [expr, expr]
  exact (extends_operand ts).andThen fun left us _ => extends_continued least left us
termination_by 6 * ts.length + 1

theorem extends_operand (ts : List Token) : (operand ts).Extends ts zs (operand (ts ++ zs)) := by
  cases ts with
  | nil =>
    rw [operand]
    exact .inl (atEnd_fail .endOfTokens)
  | cons t ts =>
    have hne := List.cons_ne_nil t ts
    rw [List.cons_append, operand, operand]
    split
    · exact .inr ⟨hne, carries_done _ ts⟩
    · split
      · exact .inr ⟨hne, carries_done _ ts⟩
      · exact .inr ⟨hne, carries_refuse _ ts⟩
    · exact .inr ⟨hne, carries_done _ ts⟩
    · exact .inr ⟨hne, carries_done _ ts⟩
    · exact .inr ⟨hne, carries_done _ ts⟩
    · exact ((extends_expr .unary ts).weaken.map _).cons t
    · exact ((extends_expr .unary ts).weaken.map _).cons t
    · refine Extends.cons ?_ t
      exact (extends_expr .lowest ts).weaken.andThen fun e us _ => (extends_expect zs .rightParen us).map _
    · exact (extends_conditional ts).cons t
    · exact (extends_function ts).cons t
    · exact ((extends_exprList .rightBracket ts).map _).cons t
    · exact ((extends_pairs ts).inBraces.map _).cons t
    · exact .inr ⟨hne, carries_refuse _ ts⟩
termination_by 6 * ts.length
decreasing_by
  all_goals subst_vars
  all_goals try simp only [List.length_cons]
  all_goals omega

theorem extends_continued (least : Precedence) (left : Expr) (ts : List Token) :
    (continued least left ts).Extends ts zs (continued least left (ts ++ zs)) := by
  cases ts with
  | nil =>
    rw [continued]
    exact .inl (atEnd_done left)
  | cons t ts =>
    have hne := List.cons_ne_nil t ts
    rw [List.cons_append, continued, continued]
    split
    · exact .inr ⟨hne, carries_done left (t :: ts)⟩
    · next c hc =>
      split
      · exact .inr ⟨hne, carries_done left (t :: ts)⟩
      · refine Extends.relax (Extends.cons ?_ t) _ _
        exact (extends_continuation left c _ ts).andThen fun e us _ => extends_continued least e us
termination_by 6 * ts.length
decreasing_by
  all_goals subst_vars
  all_goals try simp only [List.length_cons]
  all_goals omega

theorem extends_continuation (left : Expr) (c : Continuation) (line : Nat) (ts : List Token) :
    (continuation left c line ts).Extends ts zs (continuation left c line (ts ++ zs)) := by
  cases c with
  | call =>
    rw [continuation, continuation]
    exact (extends_exprList .rightParen ts).map _
  | index =>
    rw [continuation, continuation]
    exact (extends_expr .lowest ts).weaken.andThen fun i us _ => (extends_expect zs .rightBracket us).map _
  | operator op =>
    rw [continuation, continuation]
    exact (extends_expr op.precedence ts).weaken.map _
termination_by 6 * ts.length + 5

theorem extends_conditional (ts : List Token) : (conditional ts).Extends ts zs (conditional (ts ++ zs)) := by
  rw [conditional, conditional]
  refine (extends_expect zs .leftParen ts).andThen fun _ us _ => (extends_expr .lowest us).weaken.andThen
    fun c vs _ => (extends_expect zs .rightParen vs).andThen fun _ ws _ => (extends_block ws).andThen
      fun yes xs _ => ?_
  cases xs with
  | nil => exact .inl (atEnd_done _)
  | cons x xs =>
    simp only [accept?, List.cons_append]
    by_cases hx : x.kind = .elseWord
    · simp only [if_pos hx]
      exact (((extends_block xs).map _).relax _ _).cons x
    · simp only [if_neg hx]
      exact .inr ⟨List.cons_ne_nil x xs, carries_done _ (x :: xs)⟩
termination_by 6 * ts.length + 5
decreasing_by
  all_goals subst_vars
  all_goals try simp only [List.length_cons] at *
  all_goals omega

theorem extends_function (ts : List Token) : (function ts).Extends ts zs (function (ts ++ zs)) := by
  rw [function, function]
  exact (extends_expect zs .leftParen ts).andThen fun _ us _ => (extends_params zs us).andThen fun xs vs _ =>
    (extends_block vs).map _
termination_by 6 * ts.length + 5

theorem extends_exprList (close : Kind) (ts : List Token) :
    (exprList close ts).Extends ts zs (exprList close (ts ++ zs)) := by
  cases ts with
  | nil =>
    rw [exprList, exprList]
    exact .inl (extends_exprItems close []).atEnd
  | cons t ts =>
    rw [exprList, exprList]
    simp only [accept?, List.cons_append]
    by_cases ht : t.kind = close
    · simp only [if_pos ht]
      exact .inr ⟨List.cons_ne_nil t ts, (carries_done [] ts).relax _ _⟩
    · simp only [if_neg ht]
      exact extends_exprItems close (t :: ts)
termination_by 6 * ts.length + 4

theorem extends_exprItems (close : Kind) (ts : List Token) :
    (exprItems close ts).Extends ts zs (exprItems close (ts ++ zs)) := by
  rw [exprItems, exprItems]
  refine (extends_expr .lowest ts).weaken.andThen fun e us _ => ?_
  cases us with
  | nil => exact .inl ((atEnd_fail _).map _)
  | cons u us =>
    simp only [accept?, List.cons_append]
    by_cases hu : u.kind = .comma
    · simp only [if_pos hu]
      exact (((extends_exprItems close us).map _).relax _ _).cons u
    · simp only [if_neg hu]
      exact (extends_expect zs close (u :: us)).map _
termination_by 6 * ts.length + 3
decreasing_by
  all_goals subst_vars
  all_goals try simp only [List.length_cons] at *
  all_goals omega

theorem extends_pairs (ts : List Token) : (pairs ts).Extends ts zs (pairs (ts ++ zs)) := by
  cases ts with
  | nil =>
    have hexpr : (expr .lowest []).weaken.AtEnd := (extends_expr .lowest []).atEnd.weaken
    rw [pairs]
    exact .inl (hexpr.andThen fun _ => (atEnd_fail _).andThen fun _ => hexpr.andThen fun _ => (atEnd_fail _).map _)
  | cons t ts =>
    rw [pairs, pairs]
    simp only [accept?, List.cons_append]
    by_cases ht : t.kind = .rightBrace
    · simp only [if_pos ht]
      exact .inr ⟨List.cons_ne_nil t ts, (carries_done [] ts).relax _ _⟩
    · simp only [if_neg ht]
      refine (extends_expr .lowest (t :: ts)).weaken.andThen fun key us _ => (extends_expect zs .colon us).andThen
        fun _ vs _ => (extends_expr .lowest vs).weaken.andThen fun value ws _ => ?_
      cases ws with
      | nil => exact .inl ((atEnd_fail _).map _)
      | cons w ws =>
        simp only [List.cons_append]
        by_cases hw : w.kind = .comma
        · simp only [if_pos hw]
          exact (((extends_pairs ws).map _).relax _ _).cons w
        · simp only [if_neg hw]
          exact (extends_expect zs .rightBrace (w :: ws)).map _
termination_by 6 * ts.length + 3
decreasing_by
  all_goals subst_vars
  all_goals try simp only [List.length_cons] at *
  all_goals omega

theorem extends_block (ts : List Token) : (block ts).Extends ts zs (block (ts ++ zs)) := by
  rw [block, block]
  exact (extends_expect zs .leftBrace ts).andThen fun _ us _ => (extends_blockBody us).inBraces
termination_by 6 * ts.length + 4

theorem extends_blockBody (ts : List Token) : (blockBody ts).Extends ts zs (blockBody (ts ++ zs)) := by
  cases ts with
  | nil =>
    rw [blockBody]
    exact .inl (atEnd_fail _)
  | cons t ts =>
    have hne := List.cons_ne_nil t ts
    rw [List.cons_append]
    by_cases ht : t.kind = .rightBrace
    · rw [blockBody, blockBody, if_pos ht, if_pos ht]
      exact .inr ⟨hne, (carries_done [] ts).relax _ _⟩
    · obtain ⟨hes, ho, hr⟩ := blockBody_cons ts ht
      obtain ⟨hes', ho', hr'⟩ := blockBody_cons (ts ++ zs) ht
      have hlen := (recover (statement t ts)).length_rest_le
      have hbody := extends_blockBody (recover (statement t ts)).rest
      rcases hbody with hend | ⟨hrest, hbody⟩
      · refine .inl ⟨hr.trans hend.rest, ?_⟩
        rw [failure_eq ho]
        exact hend.unread
      · rcases extends_statement t ts with ⟨hend, _⟩ | ⟨_, hstmt⟩
        · exact absurd (rest_recover_of_atEnd hend) hrest
        · obtain ⟨hstmts, herrors⟩ := recover_of_carries zs hstmt
          have hrest' := rest_recover_of_carries zs hstmt hrest
          refine .inr ⟨hne, ?_, ?_, ?_⟩
          · rw [hes', hes, herrors, hrest', hbody.errors, List.map_append]
          · rw [ho', ho, hstmts, hrest', hbody.outcome]
            cases (blockBody (recover (statement t ts)).rest).outcome <;> rfl
          · rw [hr', hr, hrest', hbody.rest]
termination_by 6 * ts.length + 3
decreasing_by
  all_goals subst_vars
  all_goals try simp only [List.length_cons]
  all_goals omega

theorem extends_statement (t : Token) (ts : List Token) :
    (statement t ts).ExtendsStatement (t :: ts) zs (statement t (ts ++ zs)) := by
  rw [statement, statement]
  split
  · next ht =>
    refine ExtendsStatement.take ht ?_ (by decide)
    exact (extends_expect zs .identifier ts).andThenStatement (runs_expect .identifier ts (by decide))
      fun x us _ => (extends_expect zs .equal us).andThenStatement (runs_expect .equal us (by decide))
        fun _ vs _ => (extends_expr .lowest vs).weaken.andThenStatement (runs_expr .lowest vs).weaken
          fun e ws _ => extends_endOfStatement zs (.binding x.lexeme e) ws
  · next ht =>
    refine ExtendsStatement.take ht ?_ (by decide)
    cases ts with
    | nil => exact .inl ⟨atEnd_done _, .stop⟩
    | cons u us =>
      have hbare : bare (u :: us ++ zs) = bare (u :: us) := rfl
      rw [hbare]
      by_cases hu : bare (u :: us)
      · rw [if_pos hu, if_pos hu]
        exact extends_endOfStatement zs _ (u :: us)
      · rw [if_neg hu, if_neg hu]
        exact (extends_expr .lowest (u :: us)).weaken.andThenStatement (runs_expr .lowest (u :: us)).weaken
          fun e ws _ => extends_endOfStatement zs _ ws
  · exact (extends_expr .lowest (t :: ts)).andThenStatement (runs_expr .lowest (t :: ts))
      fun e us _ => extends_endOfStatement zs (.expression e) us
termination_by 6 * (ts.length + 1) + 2
decreasing_by
  all_goals subst_vars
  all_goals try simp only [List.length_cons]
  all_goals omega

end

end Parser
end Monkey
