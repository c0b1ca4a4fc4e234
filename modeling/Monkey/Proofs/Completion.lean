import Monkey.Proofs.Braces
import Monkey.Proofs.Forms
import Monkey.Proofs.GrammarExactness
import Monkey.Proofs.Lookahead

/-! The tokens before the first mistake begin a program: whatever a rule is in the middle of, some tokens complete
it. With what the rules look at, this is the first place where no program goes on. -/
namespace Monkey.Grammar
open Token (Kind)
open Relation (Comp)
open Monkey.Parser Reply

variable {α β : Type} {n k : Nat} {fault : SyntaxFault} {F G : Form} {t : Token} {ts us rest : List Token}

/-- Some tokens are of this form whatever stands behind them. -/
class Completable (F : Form) : Prop where
  exists_tokens : ∃ ws, ∀ y, F (ws ++ y) y

instance (k : Kind) : Completable (Form.kind k) := ⟨[.ofKind k], fun _ => ⟨_, rfl, rfl⟩⟩

instance [Completable F] [Completable G] : Completable (Comp F G) := by
  obtain ⟨ws, hws⟩ := Completable.exists_tokens (F := F)
  obtain ⟨xs, hxs⟩ := Completable.exists_tokens (F := G)
  exact ⟨ws ++ xs, fun y => ⟨xs ++ y, List.append_assoc ws xs y ▸ hws (xs ++ y), hxs y⟩⟩

theorem Completable.mono [Completable F] (h : ∀ {ts rest}, F ts rest → G ts rest) : Completable G := by
  obtain ⟨ws, hws⟩ := Completable.exists_tokens (F := F)
  exact ⟨ws, fun y => h (hws y)⟩

instance [Completable F] : Completable (Form.either F G) := .mono (F := F) .inl

instance : Completable Form.nothing := ⟨[], fun _ => rfl⟩

instance (tier : Tier) : Completable (Form.phrase tier) :=
  .mono (F := Form.kind .identifier) <| by
    rintro _ rest ⟨t, rfl, ht⟩
    exact Form.loosen (show tier.level ≤ Tier.atom.level from tier.level_le) ⟨_, .name ht⟩

instance : Completable Form.names := .mono (F := Form.either (Form.kind .rightParen) Form.nameItems) Form.nameList

instance : Completable Form.blockRest :=
  .mono (F := Form.kind .rightBrace) fun ⟨c, hts, hc⟩ => ⟨[], c, hts ▸ .nil, hc⟩

instance : Completable Form.body := .mono (F := Comp (Form.kind .leftBrace) Form.blockRest) Form.block

/-- The tokens of `ts` before the place of the mistake begin a part of the form `F`: some tokens complete it
whatever stands behind them. The mistake names the token at its place. -/
def Begins (F : Form) (ts : List Token) (fault : SyntaxFault) (k : Nat) : Prop :=
  ∃ c d ws, ts = c ++ d ∧ d.length = k ∧ fault.found? = d.head? ∧ ∀ y, F (c ++ ws ++ y) y

theorem Begins.mono (h : Begins F ts fault k) (hFG : ∀ {xs ys}, F xs ys → G xs ys) : Begins G ts fault k := by
  obtain ⟨c, d, ws, hts, hk, hfault, hF⟩ := h
  exact ⟨c, d, ws, hts, hk, hfault, fun y => hFG (hF y)⟩

theorem begins_here [Completable F] (h : fault.found? = ts.head?) : Begins F ts fault ts.length := by
  obtain ⟨ws, hws⟩ := Completable.exists_tokens (F := F)
  exact ⟨[], ts, ws, rfl, rfl, h, hws⟩

theorem begins_at_token [Completable F] (h : fault.found? = some t) :
    Begins F (t :: us) fault (us.length + 1) := begins_here h

theorem Begins.comp [Completable G] (h : Begins F ts fault k) : Begins (Comp F G) ts fault k := by
  obtain ⟨c, d, ws, hts, hk, hfault, hF⟩ := h
  obtain ⟨xs, hxs⟩ := Completable.exists_tokens (F := G)
  refine ⟨c, d, ws ++ xs, hts, hk, hfault, fun y => ⟨xs ++ y, ?_, hxs y⟩⟩
  simpa only [List.append_assoc] using hF (xs ++ y)

theorem Stands.begins (h : Stands F ts us) (h' : Begins G us fault k) : Begins (Comp F G) ts fault k := by
  obtain ⟨b, rfl, hF⟩ := h
  obtain ⟨c, d, ws, rfl, hk, hfault, hG⟩ := h'
  refine ⟨b ++ c, d, ws, (List.append_assoc ..).symm, hk, hfault, fun y => ⟨c ++ ws ++ y, ?_, hG y⟩⟩
  simpa only [List.append_assoc] using hF (c ++ ws ++ y)

/-- A mistake in one of two rules in a row: what the second would read can be completed from nothing. -/
theorem begins_andThen [Completable G] {r : Reply n α} {next : α → (us : List Token) → Reply us.length β}
    (h : (r.andThen fun a us _ => next a us).Mistakes fault k) (hr : r.Mistakes fault k → Begins F ts fault k)
    (hs : ∀ {a us}, r.Reads a us → Stands F ts us)
    (hn : ∀ a us, us.length ≤ n → r.Reads a us → (next a us).Mistakes fault k → Begins G us fault k) :
    Begins (Comp F G) ts fault k := by
  rcases mistakes_andThen.mp h with h | ⟨a, us, hreads, h⟩
  · exact (hr h).comp
  · exact (hs hreads).begins (hn a us hreads.length_le hreads h)

theorem begins_expect {kind : Kind} (h : (expect kind ts).Mistakes fault k) :
    Begins (Form.kind kind) ts fault k := by
  cases ts with
  | nil =>
    obtain ⟨rfl, rfl⟩ := mistakes_fail.mp h
    exact begins_here rfl
  | cons t ts =>
    rw [expect] at h
    split at h
    · simp at h
    · obtain ⟨rfl, rfl⟩ := mistakes_fail.mp h
      exact begins_at_token rfl

theorem stands_expect {kind : Kind} (h : (expect kind ts).Reads t us) : Stands (Form.kind kind) ts us := by
  obtain ⟨rfl, ht⟩ := reads_expect.mp h
  exact stands_kind ht

theorem stands_expr {least : Precedence} {e : Expr} (h : (expr least ts).weaken.Reads e us) :
    Stands (Form.phrase (tierAbove least)) ts us := (phrase_of_reads (reads_weaken.mp h)).1.stands

theorem not_mistakes_endOfStatement {s : Stmt} : ¬ (endOfStatement s ts).Mistakes fault k := by
  rw [endOfStatement]
  split <;> simp

theorem begins_paramNames {ts : List Token} (h : (paramNames ts).Mistakes fault k) :
    Begins Form.nameItems ts fault k := by
  rw [paramNames] at h
  refine (begins_andThen h begins_expect stands_expect fun x us _ _ hm => ?_).mono Form.nameItem
  split at hm
  · next vs hl ha =>
    obtain ⟨s, rfl, hs⟩ := eq_cons_of_accept? ha
    exact ((stands_kind hs).begins (begins_paramNames (mistakes_map.mp (mistakes_relax.mp hm)))).mono .inr
  · exact (begins_expect (mistakes_map.mp hm)).mono .inl
termination_by ts.length
decreasing_by all_goals omega

theorem begins_params (h : (params ts).Mistakes fault k) : Begins Form.names ts fault k := by
  rw [params] at h
  split at h
  · simp at h
  · exact ((begins_paramNames h).mono .inr).mono Form.nameList

/-- Statements before the end of a block, with a first token that may stand where the tokens of kind `first`
stood. -/
def Form.statementsFrom (first : Option Kind) : Form := fun ts rest =>
  EndsBlock (nextKind rest) → StartsLike first ts ∧ ∃ ss, Statements ts ss rest

def Form.statement : Form := fun ts rest => ∃ s, Statement ts s rest

theorem Form.letStatement {rest : List Token} (h : Comp (kind .letWord) (Comp (kind .identifier)
    (Comp (kind .equal) (Comp (phrase .equality) (kind .semicolon)))) ts rest) : statement ts rest := by
  obtain ⟨_, ⟨w, rfl, hw⟩, _, ⟨x, rfl, hx⟩, _, ⟨q, rfl, hq⟩, _, ⟨e, he⟩, s, rfl, hs⟩ := h
  exact ⟨_, .binding hw hx hq he (.semicolon hs)⟩

theorem Form.returnStatement {rest : List Token}
    (h : Comp (kind .returnWord) (Comp (phrase .equality) (kind .semicolon)) ts rest) : statement ts rest := by
  obtain ⟨_, ⟨w, rfl, hw⟩, _, ⟨e, he⟩, s, rfl, hs⟩ := h
  exact ⟨_, .returnValue hw he (.semicolon hs)⟩

theorem Form.expressionStatement {rest : List Token} (h : Comp (phrase .equality) (kind .semicolon) ts rest) :
    statement ts rest := by
  obtain ⟨_, ⟨e, he⟩, s, rfl, hs⟩ := h
  exact ⟨_, .expression he (.semicolon hs)⟩

instance : Completable Form.statement := .mono Form.expressionStatement

/-- A mistake in a statement, or behind it. Where it is the statement's first token, no statement is begun. -/
theorem begins_statements {others : (us : List Token) → Reply us.length (List Stmt)}
    (h : ((firstStatement (t :: ts)).andThen fun s us _ => (others us).map (s :: ·)).Mistakes fault k)
    (hfirst : (firstStatement (t :: ts)).Mistakes fault k → Begins Form.statement (t :: ts) fault k)
    (hothers : ∀ us, us.length ≤ ts.length → (others us).Mistakes fault k →
      Begins (Form.statementsFrom (nextKind us)) us fault k) :
    Begins (Form.statementsFrom (some t.kind)) (t :: ts) fault k := by
  rcases mistakes_andThen.mp h with h | ⟨s, us, hr, h⟩
  · obtain ⟨c, d, ws, hts, hk, hfault, hstmt⟩ := hfirst h
    cases c with
    | nil => exact ⟨[], d, [], hts, hk, hfault, fun y hy => ⟨.inr hy, [], .nil⟩⟩
    | cons u c =>
      refine ⟨u :: c, d, ws, hts, hk, hfault, fun y hy => ⟨.inl ?_, ?_⟩⟩
      · obtain ⟨rfl, -⟩ := List.cons.inj hts
        rfl
      · obtain ⟨s, hs⟩ := hstmt y
        exact ⟨[s], .cons hs .nil⟩
  · simp only [firstStatement, reads_relax] at hr
    have hle := hr.length_le
    obtain ⟨b, hts, hb⟩ := (statement_of_reads hr).stands
    obtain ⟨c, d, ws, rfl, hk, hfault, hss⟩ := hothers us hle (mistakes_map.mp h)
    refine ⟨b ++ c, d, ws, by rw [hts, List.append_assoc], hk, hfault, fun y hy => ⟨.inl ?_, ?_⟩⟩
    · cases b with
      | nil =>
        have hlen := congrArg List.length hts
        simp only [List.length_cons, List.nil_append] at hlen
        omega
      | cons u b =>
        obtain ⟨rfl, -⟩ := List.cons.inj hts
        rfl
    · obtain ⟨hstart, ss, hss⟩ := hss y hy
      obtain ⟨s, hs⟩ := hb _ hstart
      refine ⟨s :: ss, .cons ?_ hss⟩
      simpa only [List.append_assoc] using hs

mutual

theorem begins_expr {least : Precedence} {ts : List Token} (h : (expr least ts).Mistakes fault k) :
    Begins (Form.phrase (tierAbove least)) ts fault k := by
  rw [expr] at h
  rcases mistakes_andThen.mp h with h | ⟨left, us, hr, h⟩
  · exact (begins_operand h).mono (Form.loosen (level_tierAbove_le_unary least))
  · have hle := hr.length_le
    obtain ⟨tier, hl, hb, -⟩ := operand_of_reads hr
    exact begins_continued hl hb h
termination_by 6 * ts.length + 1

theorem begins_operand {ts : List Token} (h : (operand ts).Mistakes fault k) :
    Begins (Form.phrase .unary) ts fault k := by
  cases ts with
  | nil =>
    rw [operand] at h
    obtain ⟨rfl, rfl⟩ := mistakes_fail.mp h
    exact begins_here rfl
  | cons t ts =>
    have atom (ha : Begins (Form.phrase .atom) (t :: ts) fault k) : Begins (Form.phrase .unary) (t :: ts) fault k :=
      ha.mono (Form.loosen (by decide))
    rw [operand] at h
    split at h
    · exact absurd h not_mistakes_done
    · split at h
      · exact absurd h not_mistakes_done
      · obtain ⟨rfl, rfl⟩ := mistakes_refuse.mp h
        exact begins_at_token rfl
    · exact absurd h not_mistakes_done
    · exact absurd h not_mistakes_done
    · exact absurd h not_mistakes_done
    · next hk =>
      have hsign : t.kind.prefixOp? = some .not := by rw [hk]; rfl
      exact ((stands_sign hsign).begins (begins_expr (mistakes_map.mp h))).mono Form.unary
    · next hk =>
      have hsign : t.kind.prefixOp? = some .negate := by rw [hk]; rfl
      exact ((stands_sign hsign).begins (begins_expr (mistakes_map.mp h))).mono Form.unary
    · next hk =>
      refine atom (((stands_kind hk).begins ?_).mono Form.group)
      exact begins_andThen h begins_expr stands_expr fun _ _ _ _ hm => begins_expect (mistakes_map.mp hm)
    · next hk => exact atom (((stands_kind hk).begins (begins_conditional h)).mono Form.conditional)
    · next hk => exact atom (((stands_kind hk).begins (begins_function h)).mono Form.function)
    · next hk => exact atom (((stands_kind hk).begins (begins_exprList (mistakes_map.mp h))).mono Form.array)
    · next hk =>
      exact atom (((stands_kind hk).begins (begins_pairs (mistakes_inBraces.mp (mistakes_map.mp h)))).mono Form.hash)
    · obtain ⟨rfl, rfl⟩ := mistakes_refuse.mp h
      exact begins_at_token rfl
termination_by 6 * ts.length
decreasing_by
  all_goals subst_vars
  all_goals try simp only [List.length_cons]
  all_goals omega

theorem begins_continued {least : Precedence} {tier : Tier} {left : Expr} {start ts : List Token}
    (hl : Phrase tier start left ts) (hb : bindingOf ts ≤ tier.level)
    (h : (continued least left ts).Mistakes fault k) :
    Begins (Form.phrase (tierAbove least)) start fault k := by
  cases ts with
  | nil =>
    rw [continued] at h
    exact absurd h not_mistakes_done
  | cons t ts =>
    rw [continued] at h
    split at h
    · exact absurd h not_mistakes_done
    · next c hc =>
      rw [bindingOf, precedence_of_continuation hc] at hb
      split at h
      · exact absurd h not_mistakes_done
      · next hlt =>
        rcases mistakes_andThen.mp (mistakes_relax.mp h) with h | ⟨left', us, hr, h⟩
        · have hc' := level_tierAbove_le (Nat.lt_of_not_le hlt)
          obtain ⟨tier', ht', hbegins⟩ := begins_continuation hl hc hb h
          exact hbegins.mono (Form.loosen (Nat.le_trans hc' ht'))
        · have hle := hr.length_le
          obtain ⟨tier', hl', hb', -⟩ := continuation_of_reads hl hc hb hr
          exact begins_continued hl' hb' h
termination_by 6 * ts.length
decreasing_by
  all_goals subst_vars
  all_goals try simp only [List.length_cons]
  all_goals omega

theorem begins_continuation {tier : Tier} {left : Expr} {c : Continuation} {t : Token}
    {start ts : List Token} (hl : Phrase tier start left (t :: ts))
    (hc : t.kind.continuation? = some c) (ht : c.precedence.level ≤ tier.level)
    (h : (continuation left c (t.line + 1) ts).Mistakes fault k) :
    ∃ tier : Tier, c.precedence.level ≤ tier.level ∧ Begins (Form.phrase tier) start fault k := by
  cases c with
  | call =>
    rw [continuation] at h
    have hf : Phrase .primary start left (t :: ts) := hl.loosen ht
    exact ⟨.primary, Nat.le_refl 6, (hf.stands.begins ((stands_kind (continuation?_eq_call hc)).begins
      (begins_exprList (mistakes_map.mp h)))).mono Form.call⟩
  | index =>
    rw [continuation] at h
    have he : Phrase .primary start left (t :: ts) := hl.loosen ht
    refine ⟨.primary, Nat.le_refl 6, (he.stands.begins ((stands_kind (continuation?_eq_index hc)).begins ?_)).mono
      Form.index⟩
    exact begins_andThen h begins_expr stands_expr fun _ _ _ _ hm => begins_expect (mistakes_map.mp hm)
  | operator op =>
    rw [continuation] at h
    have hlevel : (tierOf op).level = op.precedence.level := level_tierOf op
    have hleft : Phrase (tierOf op) start left (t :: ts) := hl.loosen (hlevel.symm ▸ ht)
    have hright := begins_expr (mistakes_map.mp h)
    rw [tierAbove_precedence] at hright
    exact ⟨tierOf op, Nat.le_of_eq hlevel.symm, (hleft.stands.begins
      ((stands_operator (continuation?_eq_operator hc)).begins hright)).mono (Form.chain (mem_operators_tierOf op))⟩
termination_by 6 * ts.length + 5
decreasing_by all_goals omega

theorem begins_conditional {ts : List Token} (h : (conditional ts).Mistakes fault k) :
    Begins (Comp (Form.kind .leftParen) (Comp (Form.phrase .equality) (Comp (Form.kind .rightParen)
      (Comp Form.body (Form.either Form.nothing (Comp (Form.kind .elseWord) Form.body)))))) ts fault k := by
  rw [conditional] at h
  refine begins_andThen h begins_expect stands_expect fun _ us _ _ h =>
    begins_andThen h begins_expr stands_expr fun _ vs _ _ h =>
      begins_andThen h begins_expect stands_expect fun _ ws _ _ h =>
        begins_andThen h begins_block (fun hr => (body_of_reads hr).stands) fun _ xs _ _ h => ?_
  split at h
  · next ys _ ha =>
    obtain ⟨v, rfl, hv⟩ := eq_cons_of_accept? ha
    exact ((stands_kind hv).begins (begins_block (mistakes_map.mp (mistakes_relax.mp h)))).mono .inr
  · exact absurd h not_mistakes_done
termination_by 6 * ts.length + 5
decreasing_by all_goals omega

theorem begins_function {ts : List Token} (h : (function ts).Mistakes fault k) :
    Begins (Comp (Form.kind .leftParen) (Comp Form.names Form.body)) ts fault k := by
  rw [function] at h
  exact begins_andThen h begins_expect stands_expect fun _ us _ _ h =>
    begins_andThen h begins_params (fun hr => (names_of_reads hr).stands) fun _ vs _ _ h =>
      begins_block (mistakes_map.mp h)
termination_by 6 * ts.length + 5

theorem begins_exprList {close : Kind} {ts : List Token} (h : (exprList close ts).Mistakes fault k) :
    Begins (Form.elements close) ts fault k := by
  rw [exprList] at h
  split at h
  · simp at h
  · exact ((begins_exprItems h).mono .inr).mono Form.list
termination_by 6 * ts.length + 4

theorem begins_exprItems {close : Kind} {ts : List Token} (h : (exprItems close ts).Mistakes fault k) :
    Begins (Form.items close) ts fault k := by
  rw [exprItems] at h
  refine (begins_andThen h begins_expr stands_expr fun _ us _ _ h => ?_).mono Form.item
  split at h
  · next vs _ ha =>
    obtain ⟨s, rfl, hs⟩ := eq_cons_of_accept? ha
    exact ((stands_kind hs).begins (begins_exprItems (mistakes_map.mp (mistakes_relax.mp h)))).mono .inr
  · exact (begins_expect (mistakes_map.mp h)).mono .inl
termination_by 6 * ts.length + 3
decreasing_by all_goals omega

theorem begins_pairs {ts : List Token} (h : (pairs ts).Mistakes fault k) : Begins Form.pairs ts fault k := by
  rw [pairs] at h
  split at h
  · simp at h
  · refine (begins_andThen h begins_expr stands_expr fun _ us _ _ h =>
      begins_andThen h begins_expect stands_expect fun _ vs _ _ h =>
        begins_andThen h begins_expr stands_expr fun _ ws _ _ h => ?_).mono Form.pair
    split at h
    · next xs _ ha =>
      obtain ⟨s, rfl, hs⟩ := eq_cons_of_accept? ha
      exact ((stands_kind hs).begins (begins_pairs (mistakes_map.mp (mistakes_relax.mp h)))).mono .inr
    · exact (begins_expect (mistakes_map.mp h)).mono .inl
termination_by 6 * ts.length + 3
decreasing_by all_goals omega

theorem begins_block {ts : List Token} (h : (block ts).Mistakes fault k) : Begins Form.body ts fault k := by
  rw [block] at h
  refine (begins_andThen h begins_expect stands_expect fun _ us _ _ h => ?_).mono Form.block
  obtain ⟨c, d, ws, hus, hk, hfault, hss⟩ := begins_blockBody (mistakes_inBraces.mp h)
  refine ⟨c, d, ws ++ [Token.ofKind .rightBrace], hus, hk, hfault, fun y => ?_⟩
  obtain ⟨-, ss, hss⟩ := hss (.ofKind .rightBrace :: y) (by rintro _ ⟨⟩; rfl)
  exact ⟨ss, _, by simpa only [List.append_assoc, List.singleton_append] using hss, rfl⟩
termination_by 6 * ts.length + 4

theorem begins_blockBody {ts : List Token} (h : (blockBody ts).Mistakes fault k) :
    Begins (Form.statementsFrom (nextKind ts)) ts fault k := by
  cases ts with
  | nil =>
    rw [blockBody] at h
    obtain ⟨rfl, rfl⟩ := mistakes_fail.mp h
    exact ⟨[], [], [], rfl, rfl, rfl, fun y hy => ⟨.inr hy, [], .nil⟩⟩
  | cons t ts =>
    by_cases ht : t.kind = .rightBrace
    · simp [blockBody, ht] at h
    · exact begins_statements ((alike_blockBody ts ht).mistakes.mp h) begins_firstStatement
        fun us _ h => begins_blockBody h
termination_by 6 * ts.length + 3
decreasing_by
  all_goals subst_vars
  all_goals try simp only [List.length_cons]
  all_goals omega

theorem begins_firstStatement {ts : List Token} (h : (firstStatement ts).Mistakes fault k) :
    Begins Form.statement ts fault k := by
  cases ts with
  | nil =>
    obtain ⟨rfl, rfl⟩ := mistakes_fail.mp h
    exact begins_here rfl
  | cons t ts =>
    rw [firstStatement, mistakes_relax, statement] at h
    split at h
    · next ht =>
      refine ((stands_kind ht).begins ?_).mono Form.letStatement
      exact begins_andThen h begins_expect stands_expect fun _ us _ _ h =>
        begins_andThen h begins_expect stands_expect fun _ vs _ _ h =>
          begins_andThen h begins_expr stands_expr fun _ ws _ _ h => absurd h not_mistakes_endOfStatement
    · next ht =>
      split at h
      · exact absurd h not_mistakes_endOfStatement
      · refine ((stands_kind ht).begins ?_).mono Form.returnStatement
        exact begins_andThen h begins_expr stands_expr fun _ us _ _ h => absurd h not_mistakes_endOfStatement
    · refine Begins.mono ?_ Form.expressionStatement
      exact begins_andThen h begins_expr (fun hr => (phrase_of_reads hr).1.stands)
        fun _ us _ _ h => absurd h not_mistakes_endOfStatement
termination_by 6 * ts.length + 2
decreasing_by
  all_goals subst_vars
  all_goals try simp only [List.length_cons]
  all_goals omega

end

theorem begins_wholeProgram {ts : List Token} (h : (wholeProgram ts).Mistakes fault k) :
    Begins (Form.statementsFrom (nextKind ts)) ts fault k := by
  cases ts with
  | nil =>
    rw [mistakes_wholeProgram, program] at h
    exact absurd h not_firstMistake_nil
  | cons t ts =>
    exact begins_statements ((alike_wholeProgram t ts).mistakes.mp h) begins_firstStatement
      fun us _ h => begins_wholeProgram h
termination_by ts.length
decreasing_by
  subst_vars
  simp only [List.length_cons]
  omega

end Monkey.Grammar

namespace Monkey.Program
open Monkey.Parser Grammar

/-- The first mistake is at the first token that cannot go on a program: the tokens before it begin one, and with
it they begin none. Where the mistake names no token, the tokens ended, and all of them begin a program. -/
theorem first_mistake_ends_every_program {ts : List Token} {e : SyntaxError} {es : List SyntaxError}
    (h : (ofTokens ts).2 = e :: es) :
    e.unread ≤ ts.length ∧
      let k := ts.length - e.unread
      e.fault.found? = ts[k]? ∧
      (∃ zs p, ofTokens? (ts.take k ++ zs) = .ok p) ∧
      (k < ts.length → ∀ zs p, ofTokens? (ts.take (k + 1) ++ zs) ≠ .ok p) := by
  have hfirst : FirstMistake (program ts).2 e.fault e.unread := ⟨e, congrArg List.head? h, rfl, rfl⟩
  obtain ⟨c, d, ws, hts, hd, hfound, hss⟩ := begins_wholeProgram (mistakes_wholeProgram.mpr hfirst)
  have hlength : ts.length = c.length + e.unread := by rw [hts, List.length_append, hd]
  have hk : ts.length - e.unread = c.length := by omega
  refine ⟨by omega, ?_⟩
  simp only [hk]
  refine ⟨?_, ?_, fun hlt zs p hp => ?_⟩
  · rw [hfound, hts, List.getElem?_append_right (Nat.le_refl _), Nat.sub_self, List.head?_eq_getElem?]
  · obtain ⟨-, p, hp⟩ := hss [] nofun
    rw [List.append_nil] at hp
    rw [hts, List.take_left]
    exact ⟨ws, p, ofTokens?_eq_ok_iff.mpr (program_eq_iff_derives.mpr hp)⟩
  · cases d with
    | nil => simp only [List.length_nil] at hd; omega
    | cons t d =>
      have hcut : ts = (c ++ [t]) ++ d := by rw [hts, List.append_assoc, List.singleton_append]
      have htake : ts.take (c.length + 1) = c ++ [t] := by
        rw [hcut]
        exact List.take_left' List.length_append
      have hmistake : (wholeProgram ts).Mistakes e.fault (1 + d.length) := by
        rw [mistakes_wholeProgram, Nat.add_comm 1, ← List.length_cons (a := t), hd]
        exact hfirst
      have hsame := (decides_wholeProgram ts).mistakes hcut hmistake Nat.one_pos zs
      rw [mistakes_wholeProgram, ← htake, ofTokens?_eq_ok_iff.mp hp] at hsame
      exact not_firstMistake_nil hsame

theorem unclosed_group_ends_at_semicolon :
    let ts : List Token := [.ofKind .leftParen, .ofKind .identifier, .ofKind .semicolon]
    (ofTokens ts).2 = [{ fault := .expected .rightParen (some (.ofKind .semicolon)), unread := 1 }] ∧
      (∃ zs p, ofTokens? (ts.take 2 ++ zs) = .ok p) ∧ ∀ zs p, ofTokens? (ts ++ zs) ≠ .ok p := by
  intro ts
  have h : (ofTokens ts).2 = [{ fault := .expected .rightParen (some (.ofKind .semicolon)), unread := 1 }] := by
    cbv
  obtain ⟨-, -, hbegins, hends⟩ := first_mistake_ends_every_program h
  exact ⟨h, hbegins, hends (by decide)⟩

end Monkey.Program
