import Monkey.Proofs.Reads

/-! How the rules get from one place in the tokens to another: which tokens they take, where they fail and
where they recover. What is read on the way is left out. -/
namespace Monkey
open Token (Kind)

/-- The token that a mistake names, if the tokens have not ended. -/
def SyntaxFault.found? : SyntaxFault → Option Token
  | .noOperand t | .badInteger t => some t
  | .endOfTokens => none
  | .expected _ found => found

/-- The token that a mistake is about if the token has been read. -/
def SyntaxFault.refused? : SyntaxFault → Option Token
  | .noOperand t | .badInteger t => some t
  | .endOfTokens | .expected _ _ => none

/-- How many tokens are unread when the rules go on after a mistake. -/
def SyntaxError.resume (e : SyntaxError) : Nat :=
  if e.fault.refused?.isSome then e.unread - 1 else e.unread

/-- Where a rule reads: a phrase, the pairs of a hash literal, or the statements of a block. The last two
end with the closing brace. -/
inductive Place where
  | phrase | pairs | body
  deriving DecidableEq, Repr

/-- A mistake at a token that has been read: it starts no operand, or it is a number out of range. -/
inductive Refuses : Token → SyntaxFault → Prop where
  | noOperand (t : Token) : Refuses t (.noOperand t)
  | badInteger (t : Token) : t.kind = .integer → Refuses t (.badInteger t)

/-- From `ts` to `rest`, with the mistakes recovered from on the way and the one it ends with, if any. -/
inductive Course : Place → List Token → List SyntaxError → Option SyntaxError → List Token → Prop where
  | stop {ts : List Token} : Course .phrase ts [] none ts
  | token {t : Token} {ts rest : List Token} {es : List SyntaxError} {f : Option SyntaxError} :
      t.kind ≠ .leftBrace → t.kind ≠ .rightBrace → t.kind ≠ .semicolon → Course .phrase ts es f rest →
      Course .phrase (t :: ts) es f rest
  | closed {p : Place} {o : Token} {ts us rest : List Token} {es es' : List SyntaxError}
      {f : Option SyntaxError} : p ≠ .phrase → o.kind = .leftBrace → Course p ts es none us →
      Course .phrase us es' f rest → Course .phrase (o :: ts) (es ++ es') f rest
  | unclosed {p : Place} {o : Token} {ts rest : List Token} {es : List SyntaxError} {e : SyntaxError} :
      p ≠ .phrase → o.kind = .leftBrace → Course p ts es (some e) rest →
      Course .phrase (o :: ts) es (some { e with unclosed := e.unclosed + 1 }) rest
  | fail {fault : SyntaxFault} {ts : List Token} : fault.refused? = none → fault.found? = ts.head? →
      Course .phrase ts [] (some { fault, unread := ts.length }) ts
  | refuse {fault : SyntaxFault} {t : Token} {ts : List Token} : Refuses t fault →
      Course .phrase (t :: ts) [] (some { fault, unread := ts.length + 1 }) ts
  | close {p : Place} {c : Token} {rest : List Token} : p ≠ .phrase → c.kind = .rightBrace →
      Course p (c :: rest) [] none rest
  | more {p : Place} {ts us rest : List Token} {es es' : List SyntaxError} {f : Option SyntaxError} :
      p ≠ .phrase → Course .phrase ts es none us → Course p us es' f rest → Course p ts (es ++ es') f rest
  | broken {ts rest : List Token} {es : List SyntaxError} {e : SyntaxError} :
      Course .phrase ts es (some e) rest → Course .pairs ts es (some e) rest
  | semicolon {t : Token} {ts rest : List Token} {es : List SyntaxError} {f : Option SyntaxError} :
      t.kind = .semicolon → Course .body ts es f rest → Course .body (t :: ts) es f rest
  | recovered {ts us rest : List Token} {es es' : List SyntaxError} {e : SyntaxError}
      {f : Option SyntaxError} : Course .phrase ts es (some e) us →
      Course .body (Parser.skipToStatement 0 us) es' f rest → Course .body ts (es ++ e :: es') f rest
  | ended : Course .body [] [] (some { fault := .expected .rightBrace none, unread := 0 }) []

namespace Course
variable {p : Place} {ts us rest : List Token} {es es' : List SyntaxError} {f : Option SyntaxError}

theorem rest_suffix (h : Course p ts es f rest) : rest <:+ ts := by
  induction h with
  | stop | fail _ | ended => exact List.suffix_refl _
  | token _ _ _ _ ih | semicolon _ _ ih => exact ih.trans (List.suffix_cons ..)
  | closed _ _ _ _ ih ih' => exact (ih'.trans ih).trans (List.suffix_cons ..)
  | unclosed _ _ _ ih => exact ih.trans (List.suffix_cons ..)
  | refuse _ | close _ _ => exact List.suffix_cons ..
  | more _ _ _ ih ih' => exact ih'.trans ih
  | broken _ ih => exact ih
  | recovered _ _ ih ih' => exact (ih'.trans (Parser.skipToStatement_suffix ..)).trans ih

theorem trans (h : Course p ts es none us) (hp : p = .phrase) (h' : Course .phrase us es' f rest) :
    Course .phrase ts (es ++ es') f rest := by
  generalize hf : (none : Option SyntaxError) = f' at h
  induction h with
  | stop => exact h'
  | token hl hr hs _ ih => exact .token hl hr hs (ih hp h' hf)
  | closed hq ho hin _ _ ih =>
    rw [List.append_assoc]
    exact .closed hq ho hin (ih hp h' hf)
  | unclosed | fail | refuse => cases hf
  | close hq | more hq => exact absurd hp hq
  | broken | semicolon | recovered | ended => cases hp

/-- Behind the closing brace there are fewer tokens. -/
theorem length_rest_lt (h : Course p ts es none rest) (hp : p ≠ .phrase) : rest.length < ts.length := by
  generalize hf : (none : Option SyntaxError) = f at h
  induction h with
  | stop | token | closed | fail | refuse => exact absurd rfl hp
  | unclosed | broken | ended => cases hf
  | close => exact Nat.lt_succ_self _
  | more _ h _ _ ih => exact Nat.lt_of_lt_of_le (ih hp hf) h.rest_suffix.length_le
  | semicolon _ _ ih => exact Nat.lt_succ_of_lt (ih hp hf)
  | recovered h _ _ ih =>
    have hskip := Parser.length_skipToStatement_le 0
    exact Nat.lt_of_lt_of_le (ih hp hf) (Nat.le_trans (hskip _) h.rest_suffix.length_le)

/-- A course that fails leaves unread what is still to be read after its mistake. -/
theorem resume_eq {e : SyntaxError} (h : Course p ts es (some e) rest) : e.resume = rest.length := by
  generalize hf : some e = f at h
  induction h generalizing e with
  | stop | close => cases hf
  | token _ _ _ _ ih | semicolon _ _ ih => exact ih hf
  | closed _ _ _ _ _ ih | more _ _ _ _ ih => exact ih hf
  | unclosed _ _ _ ih =>
    cases hf
    have hresume := ih rfl
    exact hresume
  | fail h =>
    cases hf
    simp [SyntaxError.resume, h]
  | refuse h =>
    cases hf
    cases h <;> simp [SyntaxError.resume, SyntaxFault.refused?]
  | broken _ ih => exact ih hf
  | recovered _ _ _ ih => exact ih hf
  | ended =>
    cases hf
    rfl

theorem unread_le {e : SyntaxError} (h : Course p ts es (some e) rest) : e.unread ≤ ts.length := by
  generalize hf : some e = f at h
  induction h generalizing e with
  | stop | close => cases hf
  | token _ _ _ _ ih | semicolon _ _ ih => exact Nat.le_succ_of_le (ih hf)
  | closed _ _ h _ _ ih => exact Nat.le_succ_of_le (Nat.le_trans (ih hf) h.rest_suffix.length_le)
  | more _ h _ _ ih => exact Nat.le_trans (ih hf) h.rest_suffix.length_le
  | unclosed _ _ _ ih =>
    cases hf
    have hunread := ih rfl
    exact Nat.le_succ_of_le hunread
  | fail _ | refuse _ | ended =>
    cases hf
    exact Nat.le_refl _
  | broken _ ih => exact ih hf
  | recovered h _ _ ih =>
    have hskip := Parser.length_skipToStatement_le 0
    exact Nat.le_trans (ih hf) (Nat.le_trans (hskip _) h.rest_suffix.length_le)

/-- The statements of a block recover from all their mistakes, so the block fails only where the tokens
end. -/
theorem unread_eq_zero {e : SyntaxError} (h : Course p ts es (some e) rest) (hp : p = .body) : e.unread = 0 := by
  generalize hf : some e = f at h
  induction h generalizing e with
  | close => cases hf
  | more _ _ _ _ ih | recovered _ _ _ ih | semicolon _ _ ih => exact ih hp hf
  | ended =>
    cases hf
    rfl
  | stop | token | closed | unclosed | fail | refuse | broken => cases hp

/-- The rules go on at a place that they had not passed yet. -/
theorem resume_le (h : Course p ts es f rest) : ∀ e ∈ es, e.resume ≤ ts.length := by
  induction h with
  | stop | fail | refuse | close | ended => exact fun e he => absurd he List.not_mem_nil
  | token _ _ _ _ ih | semicolon _ _ ih | unclosed _ _ _ ih =>
    intro e he
    exact Nat.le_succ_of_le (ih e he)
  | closed _ _ h _ ih ih' =>
    intro e he
    rcases List.mem_append.mp he with he | he
    · exact Nat.le_succ_of_le (ih e he)
    · exact Nat.le_succ_of_le (Nat.le_trans (ih' e he) h.rest_suffix.length_le)
  | more _ h _ ih ih' =>
    intro e he
    rcases List.mem_append.mp he with he | he
    · exact ih e he
    · exact Nat.le_trans (ih' e he) h.rest_suffix.length_le
  | broken _ ih => exact ih
  | recovered h _ ih ih' =>
    intro e he
    rcases List.mem_append.mp he with he | he
    · exact ih e he
    rcases List.mem_cons.mp he with rfl | he
    · rw [h.resume_eq]
      exact h.rest_suffix.length_le
    · have hskip := Parser.length_skipToStatement_le 0
      exact Nat.le_trans (ih' e he) (Nat.le_trans (hskip _) h.rest_suffix.length_le)

end Course
namespace Reply
variable {α β : Type} {m n : Nat} {p : Place} {ts : List Token}

def failure (r : Reply n α) : Option SyntaxError :=
  match r.outcome with
  | .ok _ => none
  | .error e => some e

/-- The reply is that of a course from `ts`. -/
def Runs (r : Reply n α) (p : Place) (ts : List Token) : Prop := Course p ts r.errors r.failure r.rest

theorem failure_eq {r : Reply n α} {s : Reply m β} {f : β → α} (h : r.outcome = s.outcome.map f) :
    r.failure = s.failure := by
  unfold failure
  rw [h]
  cases s.outcome <;> rfl

theorem failure_map (r : Reply n α) (f : α → β) : (r.map f).failure = r.failure := failure_eq rfl

theorem Runs.map {r : Reply n α} (h : r.Runs p ts) (f : α → β) : (r.map f).Runs p ts := by
  unfold Runs
  rw [failure_map]
  exact h

theorem Runs.relax {r : Reply m α} (h : r.Runs p ts) (hl : m ≤ n) : (r.relax hl).Runs p ts := h

theorem Runs.weaken {r : Reply (n - 1) α} (h : r.Runs p ts) : r.weaken.Runs p ts := h

theorem Runs.andThen {r : Reply n α} (h : r.Runs .phrase ts)
    {next : α → (rest : List Token) → rest.length ≤ n → Reply rest.length β}
    (h' : ∀ a us hl, (next a us hl).Runs .phrase us) : (r.andThen next).Runs .phrase ts := by
  obtain ⟨es, o, us, hl⟩ := r
  cases o with
  | error e => exact h
  | ok a => exact Course.trans h rfl (h' a us hl)

theorem Runs.andThenPairs {r : Reply n α} (h : r.Runs .phrase ts)
    {next : α → (rest : List Token) → rest.length ≤ n → Reply rest.length β}
    (h' : ∀ a us hl, (next a us hl).Runs .pairs us) : (r.andThen next).Runs .pairs ts := by
  obtain ⟨es, o, us, hl⟩ := r
  cases o with
  | error e => exact .broken h
  | ok a => exact .more (by decide) h (h' a us hl)

/-- A statement runs as a phrase does, and may take a semicolon at the end. -/
def RunsStatement (r : Reply n α) (ts : List Token) : Prop :=
  ∃ us, Course .phrase ts r.errors r.failure us ∧
    (r.rest = us ∨ r.failure = none ∧ ∃ s, s.kind = .semicolon ∧ us = s :: r.rest)

theorem Runs.andThenStatement {r : Reply n α} (h : r.Runs .phrase ts)
    {next : α → (rest : List Token) → rest.length ≤ n → Reply rest.length β}
    (h' : ∀ a us hl, (next a us hl).RunsStatement us) : (r.andThen next).RunsStatement ts := by
  obtain ⟨es, o, us, hl⟩ := r
  cases o with
  | error e => exact ⟨us, h, .inl rfl⟩
  | ok a =>
    obtain ⟨vs, hrun, hend⟩ := h' a us hl
    exact ⟨vs, Course.trans h rfl hrun, hend⟩

end Reply

namespace Parser
open Reply

/-- The tokens that a phrase takes one at a time. -/
abbrev Separate (k : Kind) : Prop := k ≠ .leftBrace ∧ k ≠ .rightBrace ∧ k ≠ .semicolon

theorem Course.take {k : Kind} {t : Token} {ts rest : List Token} {es : List SyntaxError}
    {f : Option SyntaxError} (ht : t.kind = k) (h : Course .phrase ts es f rest)
    (hk : Separate k) : Course .phrase (t :: ts) es f rest :=
  .token (ht ▸ hk.1) (ht ▸ hk.2.1) (ht ▸ hk.2.2) h

theorem Course.takeComma {t : Token} {ts rest : List Token} {es : List SyntaxError} {f : Option SyntaxError}
    (ht : t.kind = .comma) (h : Course .pairs ts es f rest) : Course .pairs (t :: ts) es f rest := by
  have hcomma : Course .phrase (t :: ts) [] none ts := Course.take ht .stop (by decide)
  exact Course.more (p := .pairs) (by decide) hcomma h

theorem runs_expect (kind : Kind) (ts : List Token) (hk : Separate kind) :
    (expect kind ts).Runs .phrase ts := by
  cases ts with
  | nil => exact .fail rfl rfl
  | cons t ts =>
    rw [expect]
    split
    · next h => exact Course.take h .stop hk
    · exact .fail rfl rfl

theorem runs_expect_rightBrace (ts : List Token) : (expect .rightBrace ts).Runs .pairs ts := by
  cases ts with
  | nil => exact .broken (.fail rfl rfl)
  | cons t ts =>
    rw [expect]
    split
    · next h => exact .close (by decide) h
    · exact .broken (.fail rfl rfl)

theorem runs_accept? {kind : Kind} {ts us rest : List Token} {h : us.length < ts.length}
    {es : List SyntaxError} {f : Option SyntaxError} (ha : accept? kind ts = some ⟨us, h⟩)
    (hr : Course .phrase us es f rest) (hk : Separate kind) : Course .phrase ts es f rest := by
  obtain ⟨t, rfl, ht⟩ := eq_cons_of_accept? ha
  exact Course.take ht hr hk

theorem runs_endOfStatement (s : Stmt) (ts : List Token) : (endOfStatement s ts).RunsStatement ts := by
  rw [endOfStatement]
  split
  · next us _ ha =>
    obtain ⟨t, rfl, ht⟩ := eq_cons_of_accept? ha
    exact ⟨t :: us, .stop, .inr ⟨rfl, t, ht, rfl⟩⟩
  · exact ⟨ts, .stop, .inl rfl⟩

theorem RunsStatement.take {n : Nat} {α : Type} {k : Kind} {r : Reply n α} {t : Token} {ts : List Token}
    (ht : t.kind = k) (h : r.RunsStatement ts) (hk : Separate k) : r.RunsStatement (t :: ts) := by
  obtain ⟨us, hrun, hend⟩ := h
  exact ⟨us, Course.take ht hrun hk, hend⟩

/-- A block goes on behind a statement, or where it has skipped to after a mistake. -/
theorem RunsStatement.recover {n : Nat} {r : Reply n Stmt} {ts rest : List Token} {es : List SyntaxError}
    {f : Option SyntaxError} (h : r.RunsStatement ts) (hb : Course .body (recover r).rest es f rest) :
    Course .body ts ((recover r).errors ++ es) f rest := by
  obtain ⟨us, hrun, hend⟩ := h
  obtain ⟨es', o, vs, hl⟩ := r
  cases o with
  | error e =>
    rcases hend with rfl | ⟨hf, _⟩
    · simp only [Parser.recover, List.append_assoc, List.singleton_append]
      exact .recovered hrun hb
    · cases hf
  | ok s =>
    rcases hend with rfl | ⟨_, t, ht, rfl⟩
    · exact .more (by decide) hrun hb
    · exact .more (by decide) hrun (.semicolon ht hb)

theorem runs_paramNames (ts : List Token) : (paramNames ts).Runs .phrase ts := by
  rw [paramNames]
  refine (runs_expect .identifier ts (by decide)).andThen fun t us hl => ?_
  split
  · next ha => exact runs_accept? ha ((runs_paramNames _).map _) (by decide)
  · exact (runs_expect .rightParen us (by decide)).map _
termination_by ts.length

theorem runs_params (ts : List Token) : (params ts).Runs .phrase ts := by
  rw [params]
  split
  · next ha => exact runs_accept? ha .stop (by decide)
  · exact runs_paramNames ts

theorem separate_of_continuation? {k : Kind} {c : Continuation} (h : k.continuation? = some c) : Separate k := by
  cases k <;> first | decide | cases h

/-- What stands between braces runs as one part of a phrase. -/
theorem runs_inBraces {n : Nat} {α : Type} {r : Reply n α} {p : Place} {o : Token} {ts : List Token}
    (h : r.Runs p ts) (hp : p ≠ .phrase) (ho : o.kind = .leftBrace) : r.inBraces.Runs .phrase (o :: ts) := by
  obtain ⟨es, out, us, hl⟩ := r
  cases out with
  | error e => exact .unclosed hp ho h
  | ok a =>
    have hrun := Course.closed hp ho h .stop
    rwa [List.append_nil] at hrun

mutual

theorem runs_expr (least : Precedence) (ts : List Token) : (expr least ts).Runs .phrase ts := by
  rw [expr]
  exact (runs_operand ts).andThen fun left us _ => runs_continued least left us
termination_by 6 * ts.length + 1

theorem runs_operand (ts : List Token) : (operand ts).Runs .phrase ts := by
  cases ts with
  | nil =>
    rw [operand]
    exact .fail rfl rfl
  | cons t ts =>
    rw [operand]
    split
    · next hk => exact Course.take hk .stop (by decide)
    · next hk =>
      split
      · exact Course.take hk .stop (by decide)
      · exact .refuse (.badInteger t hk)
    · next hk => exact Course.take hk .stop (by decide)
    · next hk => exact Course.take hk .stop (by decide)
    · next hk => exact Course.take hk .stop (by decide)
    · next hk => exact Course.take hk ((runs_expr _ ts).weaken.map _) (by decide)
    · next hk => exact Course.take hk ((runs_expr _ ts).weaken.map _) (by decide)
    · next hk =>
      refine Course.take hk ?_ (by decide)
      exact (runs_expr _ ts).weaken.andThen fun e us _ => (runs_expect .rightParen us (by decide)).map _
    · next hk => exact Course.take hk (runs_conditional ts) (by decide)
    · next hk => exact Course.take hk (runs_function ts) (by decide)
    · next hk => exact Course.take hk ((runs_exprList ts (by decide)).map _) (by decide)
    · next hk => exact (runs_inBraces (runs_pairs ts) (by decide) hk).map _
    · exact .refuse (.noOperand t)
termination_by 6 * ts.length
decreasing_by
  all_goals subst_vars
  all_goals try simp only [List.length_cons] at *
  all_goals omega

theorem runs_continued (least : Precedence) (left : Expr) (ts : List Token) :
    (continued least left ts).Runs .phrase ts := by
  cases ts with
  | nil =>
    rw [continued]
    exact .stop
  | cons t ts =>
    rw [continued]
    split
    · exact .stop
    · next c hc =>
      split
      · exact .stop
      · have hrest := (runs_continuation left c (t.line + 1) ts).andThen fun e us _ => runs_continued least e us
        exact Course.take rfl hrest (separate_of_continuation? hc)
termination_by 6 * ts.length
decreasing_by
  all_goals subst_vars
  all_goals try simp only [List.length_cons] at *
  all_goals omega

theorem runs_continuation (left : Expr) (c : Continuation) (line : Nat) (ts : List Token) :
    (continuation left c line ts).Runs .phrase ts := by
  cases c with
  | call =>
    rw [continuation]
    exact (runs_exprList ts (by decide)).map _
  | index =>
    rw [continuation]
    exact (runs_expr _ ts).weaken.andThen fun i us _ => (runs_expect .rightBracket us (by decide)).map _
  | operator op =>
    rw [continuation]
    exact (runs_expr _ ts).weaken.map _
termination_by 6 * ts.length + 5

theorem runs_conditional (ts : List Token) : (conditional ts).Runs .phrase ts := by
  rw [conditional]
  refine (runs_expect .leftParen ts (by decide)).andThen fun _ us _ => (runs_expr _ us).weaken.andThen fun c vs _ =>
    (runs_expect .rightParen vs (by decide)).andThen fun _ ws _ => (runs_block ws).andThen fun yes xs _ => ?_
  split
  · next ha => exact runs_accept? ha ((runs_block _).map _) (by decide)
  · exact .stop
termination_by 6 * ts.length + 5

theorem runs_function (ts : List Token) : (function ts).Runs .phrase ts := by
  rw [function]
  exact (runs_expect .leftParen ts (by decide)).andThen fun _ us _ => (runs_params us).andThen fun xs vs _ =>
    (runs_block vs).map _
termination_by 6 * ts.length + 5

theorem runs_exprList {close : Kind} (ts : List Token) (hc : Separate close) :
    (exprList close ts).Runs .phrase ts := by
  rw [exprList]
  split
  · next ha => exact runs_accept? ha .stop hc
  · exact runs_exprItems ts hc
termination_by 6 * ts.length + 4

theorem runs_exprItems {close : Kind} (ts : List Token) (hc : Separate close) :
    (exprItems close ts).Runs .phrase ts := by
  rw [exprItems]
  refine (runs_expr _ ts).weaken.andThen fun e us _ => ?_
  split
  · next ha => exact runs_accept? ha ((runs_exprItems _ hc).map _) (by decide)
  · exact (runs_expect close us hc).map _
termination_by 6 * ts.length + 3

theorem runs_pairs (ts : List Token) : (pairs ts).Runs .pairs ts := by
  rw [pairs]
  split
  · next ha =>
    obtain ⟨c, rfl, hc⟩ := eq_cons_of_accept? ha
    exact .close (by decide) hc
  · refine (runs_expr _ ts).weaken.andThenPairs fun key us _ => (runs_expect .colon us (by decide)).andThenPairs
      fun _ vs _ => (runs_expr _ vs).weaken.andThenPairs fun value ws _ => ?_
    split
    · next ha =>
      obtain ⟨s, rfl, hs⟩ := eq_cons_of_accept? ha
      exact Course.takeComma hs ((runs_pairs _).map _)
    · exact (runs_expect_rightBrace ws).map _
termination_by 6 * ts.length + 3
decreasing_by
  all_goals subst_vars
  all_goals try simp only [List.length_cons] at *
  all_goals omega

theorem runs_block (ts : List Token) : (block ts).Runs .phrase ts := by
  rw [block]
  cases ts with
  | nil => exact .fail rfl rfl
  | cons o ts =>
    rw [expect]
    split
    · next ho => exact runs_inBraces (runs_blockBody ts) (by decide) ho
    · exact .fail rfl rfl
termination_by 6 * ts.length + 4

theorem runs_blockBody (ts : List Token) : (blockBody ts).Runs .body ts := by
  cases ts with
  | nil =>
    rw [blockBody]
    exact .ended
  | cons t ts =>
    by_cases hk : t.kind = .rightBrace
    · rw [blockBody, if_pos hk]
      exact .close (by decide) hk
    · obtain ⟨hes, ho, hr⟩ := blockBody_cons ts hk
      have := (recover (statement t ts)).length_rest_le
      have hbody := runs_blockBody (recover (statement t ts)).rest
      rw [Runs, hes, failure_eq ho, hr]
      exact RunsStatement.recover (runs_statement t ts) hbody
termination_by 6 * ts.length + 3
decreasing_by
  all_goals subst_vars
  all_goals try simp only [List.length_cons] at *
  all_goals omega

theorem runs_statement (t : Token) (ts : List Token) : (statement t ts).RunsStatement (t :: ts) := by
  rw [statement]
  split
  · next hk =>
    refine RunsStatement.take hk ?_ (by decide)
    exact (runs_expect .identifier ts (by decide)).andThenStatement fun x us _ =>
      (runs_expect .equal us (by decide)).andThenStatement fun _ vs _ =>
        (runs_expr _ vs).weaken.andThenStatement fun e ws _ => runs_endOfStatement _ ws
  · next hk =>
    refine RunsStatement.take hk ?_ (by decide)
    split
    · exact runs_endOfStatement _ ts
    · exact (runs_expr _ ts).weaken.andThenStatement fun e us _ => runs_endOfStatement _ us
  · exact (runs_expr _ (t :: ts)).andThenStatement fun e us _ => runs_endOfStatement _ us
termination_by 6 * (ts.length + 1) + 2
decreasing_by
  all_goals try simp only [List.length_cons] at *
  all_goals omega

end

end Parser
end Monkey
