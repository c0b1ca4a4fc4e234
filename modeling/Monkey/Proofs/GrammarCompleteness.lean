import Monkey.Proofs.GrammarSoundness

/-! What the grammar derives, the rules read without a mistake. -/
namespace Monkey.Grammar
open Token (Kind)
open Monkey.Parser Reply

/-- The kinds of token that an expression can start with. -/
def startsExpression : Kind → Bool
  | .identifier | .integer | .string | .trueWord | .falseWord | .bang | .minus | .leftParen | .ifWord
  | .fnWord | .leftBracket | .leftBrace => true
  | _ => false

theorem startsExpression_of_prefixOp? {k : Kind} {op : PrefixOp} (h : k.prefixOp? = some op) :
    startsExpression k = true := by
  cases k <;> first | rfl | cases h

theorem Phrase.start {tier : Tier} {ts rest : List Token} {e : Expr} :
    Phrase tier ts e rest → ∃ t us, ts = t :: us ∧ startsExpression t.kind = true
  | .tighter h => h.start
  | .chain _ h _ _ => h.start
  | .unary h _ => ⟨_, _, rfl, startsExpression_of_prefixOp? h⟩
  | .call h _ _ => h.start
  | .index h _ _ _ => h.start
  | .name h | .integer h _ | .string h | .trueWord h | .falseWord h => ⟨_, _, rfl, by rw [h]; rfl⟩
  | .group h _ _ | .ifThen h _ _ _ _ | .ifThenElse h _ _ _ _ _ _ | .function h _ _ _ | .array h _
  | .hash h _ => ⟨_, _, rfl, by rw [h]; rfl⟩

theorem accept?_of_kind {k : Kind} {t : Token} {ts : List Token} (h : t.kind = k) :
    accept? k (t :: ts) = some ⟨ts, Nat.lt_succ_self _⟩ := by simp [accept?, h]

theorem accept?_eq_none {k : Kind} {ts : List Token} (h : nextKind ts ≠ some k) :
    accept? k ts = none := by
  cases ts with
  | nil => rfl
  | cons t ts =>
    have hk : t.kind ≠ k := fun he => h (congrArg some he)
    simp [accept?, hk]

theorem continued_stop {least : Precedence} {e : Expr} {rest : List Token}
    (h : bindingOf rest ≤ least.level) : (continued least e rest).Reads e rest := by
  cases rest with
  | nil => simp [continued]
  | cons t ts =>
    rw [continued]
    split
    · exact reads_done.mpr ⟨rfl, rfl⟩
    · next c hc =>
      rw [bindingOf, precedence_of_continuation hc] at h
      rw [if_pos h]
      exact reads_done.mpr ⟨rfl, rfl⟩

theorem continued_go {least : Precedence} {c : Continuation} {left e e' : Expr} {t : Token}
    {us vs rest : List Token} (hc : t.kind.continuation? = some c) (hl : least.level < c.precedence.level)
    (h : (continuation left c (t.line + 1) us).Reads e' vs) (h' : (continued least e' vs).Reads e rest) :
    (continued least left (t :: us)).Reads e rest := by
  rw [continued, hc]
  simp only [Nat.not_le_of_lt hl, if_false]
  exact (h.andThen fun _ => h').relax _

theorem reads_expr {least : Precedence} {left e : Expr} {ts us rest : List Token}
    (h : (operand ts).Reads left us) (h' : (continued least left us).Reads e rest) :
    (expr least ts).Reads e rest := by
  rw [expr]
  exact h.andThen fun _ => h'

theorem operator_of_infixOp? {k : Kind} {op : InfixOp} (h : k.infixOp? = some op) :
    k.continuation? = some (.operator op) := by
  cases k <;> cases h <;> rfl

theorem eq_tierOf {tier : Tier} {op : InfixOp} (h : op ∈ tier.operators) : tier = tierOf op := by
  revert h
  cases tier <;> cases op <;> decide

theorem lt_of_level_tierAbove_le {least p : Precedence} (h : (tierAbove least).level ≤ p.level)
    (hp : p.level ≤ 4) : least.level < p.level := by
  revert h hp
  cases least <;> cases p <;> decide

/-- The rules read `e` from `ts` and then go on from `rest` as they do after any operand. -/
def ReadsUpTo (tier : Tier) (ts : List Token) (e : Expr) (rest : List Token) : Prop :=
  ∀ ⦃least : Precedence⦄ ⦃e' : Expr⦄ ⦃vs : List Token⦄, (tierAbove least).level ≤ tier.level →
    least.level ≤ 5 → (continued least e rest).Reads e' vs → (expr least ts).Reads e' vs

theorem ReadsUpTo.of_operand {tier : Tier} {ts rest : List Token} {e : Expr}
    (h : (operand ts).Reads e rest) : ReadsUpTo tier ts e rest :=
  fun _ _ _ _ _ hc => reads_expr h hc

/-- An expression that no token after it extends is read as a whole. -/
theorem ReadsUpTo.lowest {ts rest : List Token} {e : Expr} (h : ReadsUpTo .equality ts e rest)
    (hb : bindingOf rest ≤ 0) : (expr .lowest ts).Reads e rest :=
  h (by decide) (by decide) (continued_stop hb)

theorem nextKind_cons (t : Token) (ts : List Token) : nextKind (t :: ts) = some t.kind := rfl

theorem bindingOf_cons (t : Token) (ts : List Token) : bindingOf (t :: ts) = t.kind.precedence.level := rfl

theorem bindingOf_of_mayFollowExpression {ts : List Token} (h : MayFollowExpression (nextKind ts)) :
    bindingOf ts ≤ 0 := by
  cases ts with
  | nil => exact Nat.le_refl 0
  | cons t ts =>
    obtain ⟨hi, hp, hb⟩ := h t.kind rfl
    have hc : t.kind.continuation? = none := by
      rw [Kind.continuation?]
      · rw [hi]; rfl
      · exact hp
      · exact hb
    rw [bindingOf, Kind.precedence, hc]
    exact Nat.le_refl 0

theorem Tier.level_le_tighter (tier : Tier) : tier.level ≤ tier.tighter.level := by
  cases tier <;> decide

theorem bindingOf_operator {tier : Tier} {op : InfixOp} {t : Token} (us : List Token)
    (hop : op ∈ tier.operators) (ht : t.kind.infixOp? = some op) : bindingOf (t :: us) = tier.level := by
  rw [bindingOf_cons, precedence_of_continuation (operator_of_infixOp? ht), eq_tierOf hop, level_tierOf]
  rfl

theorem nextKind_operator {op : InfixOp} {t : Token} (us : List Token) (ht : t.kind.infixOp? = some op) :
    nextKind (t :: us) ≠ some .elseWord := by
  intro he
  rw [Option.some.inj he] at ht
  cases ht

theorem ReadsUpTo.tighter {tier : Tier} {ts rest : List Token} {e : Expr}
    (h : ReadsUpTo tier.tighter ts e rest) : ReadsUpTo tier ts e rest :=
  fun _ _ _ ht hl hc => h (Nat.le_trans ht tier.level_le_tighter) hl hc

theorem ReadsUpTo.chain {tier : Tier} {ts us rest : List Token} {t : Token} {op : InfixOp} {l r : Expr}
    (hop : op ∈ tier.operators) (hl : ReadsUpTo tier ts l (t :: us)) (ht : t.kind.infixOp? = some op)
    (hr : ReadsUpTo tier.tighter us r rest) (hb : bindingOf rest ≤ tier.level) :
    ReadsUpTo tier ts (.binary (t.line + 1) op l r) rest := by
  intro least e' vs htier hle hc
  obtain rfl := eq_tierOf hop
  have hlevel : (tierOf op).level = op.precedence.level := level_tierOf op
  have hright : (expr op.precedence us).Reads r rest := by
    refine hr ?_ ?_ (continued_stop (hlevel ▸ hb))
    · exact Nat.le_of_eq (congrArg Tier.level (tierAbove_precedence op))
    · cases op <;> decide
  have hstrong : least.level < op.precedence.level :=
    lt_of_level_tierAbove_le (hlevel ▸ htier) (by cases op <;> decide)
  refine hl htier hle (continued_go (operator_of_infixOp? ht) hstrong ?_ hc)
  rw [continuation]
  exact hright.weaken.map _

theorem ReadsUpTo.unary {ts rest : List Token} {t : Token} {op : PrefixOp} {e : Expr}
    (ht : t.kind.prefixOp? = some op) (h : ReadsUpTo .unary ts e rest)
    (hb : bindingOf rest ≤ Tier.unary.level) :
    ReadsUpTo .unary (t :: ts) (.unary (t.line + 1) op e) rest := by
  apply ReadsUpTo.of_operand
  have hread : (expr .unary ts).Reads e rest := h (Nat.le_refl 5) (Nat.le_refl 5) (continued_stop hb)
  cases op with
  | not =>
    have hk : t.kind = .bang := by
      revert ht
      cases t.kind <;> decide
    simp only [operand, hk]
    exact hread.weaken.map _
  | negate =>
    have hk : t.kind = .minus := by
      revert ht
      cases t.kind <;> decide
    simp only [operand, hk]
    exact hread.weaken.map _

theorem ReadsUpTo.call {ts us rest : List Token} {t : Token} {f : Expr} {args : List Expr}
    (hf : ReadsUpTo .primary ts f (t :: us)) (ht : t.kind = .leftParen)
    (ha : (exprList .rightParen us).Reads args rest) :
    ReadsUpTo .primary ts (.call (t.line + 1) f args) rest := by
  intro least e' vs htier hle hc
  have hk : t.kind.continuation? = some .call := by rw [ht]; rfl
  refine hf htier hle (continued_go hk (Nat.lt_succ_of_le hle) ?_ hc)
  rw [continuation]
  exact ha.map _

theorem ReadsUpTo.index {ts us rest : List Token} {t c : Token} {e i : Expr}
    (he : ReadsUpTo .primary ts e (t :: us)) (ht : t.kind = .leftBracket)
    (hi : (expr .lowest us).Reads i (c :: rest)) (hc : c.kind = .rightBracket) :
    ReadsUpTo .primary ts (.index (t.line + 1) e i) rest := by
  intro least e' vs htier hle hcont
  have hk : t.kind.continuation? = some .index := by rw [ht]; rfl
  refine he htier hle (continued_go hk (Nat.lt_succ_of_le hle) ?_ hcont)
  rw [continuation]
  exact hi.weaken.andThen fun _ => (expect_reads rest hc).map _

theorem operand_group {o c : Token} {ts rest : List Token} {e : Expr} (ho : o.kind = .leftParen)
    (h : (expr .lowest ts).Reads e (c :: rest)) (hc : c.kind = .rightParen) :
    (operand (o :: ts)).Reads e rest := by
  simp only [operand, ho]
  exact h.weaken.andThen fun _ => (expect_reads rest hc).map _

theorem operand_ifThen {w o c : Token} {ts us rest : List Token} {e : Expr} {yes : Block}
    (hw : w.kind = .ifWord) (ho : o.kind = .leftParen) (h : (expr .lowest ts).Reads e (c :: us))
    (hc : c.kind = .rightParen) (hy : (block us).Reads yes rest) (hn : nextKind rest ≠ some .elseWord) :
    (operand (w :: o :: ts)).Reads (.conditional e yes none) rest := by
  simp only [operand, hw]
  rw [conditional]
  refine (expect_reads ts ho).andThen fun _ => h.weaken.andThen fun _ =>
    (expect_reads us hc).andThen fun _ => hy.andThen fun _ => ?_
  rw [accept?_eq_none hn]
  exact reads_done.mpr ⟨rfl, rfl⟩

theorem operand_ifThenElse {w o c v : Token} {ts us vs rest : List Token} {e : Expr} {yes no : Block}
    (hw : w.kind = .ifWord) (ho : o.kind = .leftParen) (h : (expr .lowest ts).Reads e (c :: us))
    (hc : c.kind = .rightParen) (hy : (block us).Reads yes (v :: vs)) (hv : v.kind = .elseWord)
    (hn : (block vs).Reads no rest) :
    (operand (w :: o :: ts)).Reads (.conditional e yes (some no)) rest := by
  simp only [operand, hw]
  rw [conditional]
  refine (expect_reads ts ho).andThen fun _ => h.weaken.andThen fun _ =>
    (expect_reads us hc).andThen fun _ => hy.andThen fun _ => ?_
  rw [accept?_of_kind hv]
  exact (hn.map _).relax _

theorem operand_function {w o : Token} {ts us rest : List Token} {xs : List String} {b : Block}
    (hw : w.kind = .fnWord) (ho : o.kind = .leftParen) (hx : (params ts).Reads xs us)
    (hb : (block us).Reads b rest) : (operand (w :: o :: ts)).Reads (.function xs b) rest := by
  simp only [operand, hw]
  rw [function]
  exact (expect_reads ts ho).andThen fun _ => hx.andThen fun _ => hb.map _

theorem operand_array {o : Token} {ts rest : List Token} {es : List Expr} (ho : o.kind = .leftBracket)
    (h : (exprList .rightBracket ts).Reads es rest) : (operand (o :: ts)).Reads (.array es) rest := by
  simp only [operand, ho]
  exact h.map _

theorem operand_hash {o : Token} {ts rest : List Token} {ps : List (Expr × Expr)}
    (ho : o.kind = .leftBrace) (h : (pairs ts).Reads ps rest) :
    (operand (o :: ts)).Reads (.hash (o.line + 1) ps) rest := by
  simp only [operand, ho]
  exact (reads_inBraces.mpr h).map _

theorem NameItems.reads {ts rest : List Token} {xs : List String} (h : NameItems ts xs rest) :
    (paramNames ts).Reads xs rest := by
  induction h with
  | @last x c rest hx hc =>
    rw [paramNames]
    refine (expect_reads _ hx).andThen fun _ => ?_
    rw [accept?_eq_none (by rw [nextKind_cons, hc]; decide)]
    exact (expect_reads rest hc).map _
  | more hx hs h ih =>
    rw [paramNames]
    refine (expect_reads _ hx).andThen fun _ => ?_
    rw [accept?_of_kind hs]
    exact (ih.map _).relax _

theorem NameItems.next {ts rest : List Token} {xs : List String} (h : NameItems ts xs rest) :
    nextKind ts ≠ some .rightParen := by
  cases h with
  | last hx _ => rw [nextKind_cons, hx]; decide
  | more hx _ _ => rw [nextKind_cons, hx]; decide

theorem Names.reads {ts rest : List Token} {xs : List String} (h : Names ts xs rest) :
    (params ts).Reads xs rest := by
  rw [params]
  cases h with
  | none hc =>
    rw [accept?_of_kind hc]
    exact (reads_done.mpr ⟨rfl, rfl⟩).relax _
  | some h =>
    rw [accept?_eq_none h.next]
    exact h.reads

/-- The two kinds of token that close a list of expressions. -/
def ClosesList (close : Kind) : Prop := close = .rightParen ∨ close = .rightBracket

theorem exprItems_last {close : Kind} {c : Token} {ts rest : List Token} {e : Expr}
    (hl : ClosesList close) (h : (expr .lowest ts).Reads e (c :: rest)) (hc : c.kind = close) :
    (exprItems close ts).Reads [e] rest := by
  rw [exprItems]
  refine h.weaken.andThen fun _ => ?_
  rw [accept?_eq_none (by rw [nextKind_cons, hc]; rcases hl with rfl | rfl <;> decide)]
  exact (expect_reads rest hc).map _

theorem exprItems_more {close : Kind} {s : Token} {ts us rest : List Token} {e : Expr} {es : List Expr}
    (h : (expr .lowest ts).Reads e (s :: us)) (hs : s.kind = .comma)
    (hes : (exprItems close us).Reads es rest) : (exprItems close ts).Reads (e :: es) rest := by
  rw [exprItems]
  refine h.weaken.andThen fun _ => ?_
  rw [accept?_of_kind hs]
  exact (hes.map _).relax _

theorem exprList_none {close : Kind} {c : Token} {rest : List Token} (hc : c.kind = close) :
    (exprList close (c :: rest)).Reads [] rest := by
  rw [exprList, accept?_of_kind hc]
  exact (reads_done.mpr ⟨rfl, rfl⟩).relax _

theorem exprList_some {close : Kind} {ts rest : List Token} {es : List Expr}
    (hn : nextKind ts ≠ some close) (h : (exprItems close ts).Reads es rest) :
    (exprList close ts).Reads es rest := by
  rw [exprList, accept?_eq_none hn]
  exact h

theorem block_braces {o : Token} {ts rest : List Token} {b : Block} (ho : o.kind = .leftBrace)
    (h : (blockBody ts).Reads b rest) : (block (o :: ts)).Reads b rest := by
  rw [block]
  exact (expect_reads ts ho).andThen fun _ => reads_inBraces.mpr h

theorem pairs_none {c : Token} {rest : List Token} (hc : c.kind = .rightBrace) :
    (pairs (c :: rest)).Reads [] rest := by
  rw [pairs, accept?_of_kind hc]
  exact (reads_done.mpr ⟨rfl, rfl⟩).relax _

theorem pairs_last {o c : Token} {ts us rest : List Token} {k v : Expr}
    (hn : nextKind ts ≠ some .rightBrace) (hk : (expr .lowest ts).Reads k (o :: us)) (ho : o.kind = .colon)
    (hv : (expr .lowest us).Reads v (c :: rest)) (hc : c.kind = .rightBrace) :
    (pairs ts).Reads [(k, v)] rest := by
  rw [pairs, accept?_eq_none hn]
  refine hk.weaken.andThen fun _ => (expect_reads us ho).andThen fun _ => hv.weaken.andThen fun _ => ?_
  rw [accept?_eq_none (by rw [nextKind_cons, hc]; decide)]
  exact (expect_reads rest hc).map _

theorem pairs_more {o s : Token} {ts us vs rest : List Token} {k v : Expr} {ps : List (Expr × Expr)}
    (hn : nextKind ts ≠ some .rightBrace) (hk : (expr .lowest ts).Reads k (o :: us)) (ho : o.kind = .colon)
    (hv : (expr .lowest us).Reads v (s :: vs)) (hs : s.kind = .comma) (hps : (pairs vs).Reads ps rest) :
    (pairs ts).Reads ((k, v) :: ps) rest := by
  rw [pairs, accept?_eq_none hn]
  refine hk.weaken.andThen fun _ => (expect_reads us ho).andThen fun _ => hv.weaken.andThen fun _ => ?_
  rw [accept?_of_kind hs]
  exact (hps.map _).relax _

theorem Phrase.next {tier : Tier} {ts rest : List Token} {e : Expr} (h : Phrase tier ts e rest) {k : Kind}
    (hk : startsExpression k = false) : nextKind ts ≠ some k := by
  obtain ⟨t, us, rfl, ht⟩ := h.start
  rw [nextKind_cons]
  intro he
  rw [Option.some.inj he, hk] at ht
  cases ht

theorem Items.next {close : Kind} {ts rest : List Token} {es : List Expr} (h : Items close ts es rest)
    {k : Kind} (hk : startsExpression k = false) : nextKind ts ≠ some k := by
  cases h with
  | last h _ => exact h.next hk
  | more h _ _ => exact h.next hk

theorem Ending.stops {us rest : List Token} (h : Ending MayFollowExpression us rest)
    (hn : nextKind rest ≠ some .elseWord) : bindingOf us ≤ 0 ∧ nextKind us ≠ some .elseWord := by
  cases h with
  | @semicolon t rest ht => exact ⟨by rw [bindingOf_cons, ht]; decide, by rw [nextKind_cons, ht]; decide⟩
  | omitted h => exact ⟨bindingOf_of_mayFollowExpression h, hn⟩

theorem Ending.reads {may : Option Kind → Prop} {us rest : List Token} (h : Ending may us rest)
    (hn : nextKind rest ≠ some .semicolon) (s : Stmt) : (endOfStatement s us).Reads s rest := by
  rw [endOfStatement]
  cases h with
  | semicolon ht =>
    rw [accept?_of_kind ht]
    exact (reads_done.mpr ⟨rfl, rfl⟩).relax _
  | omitted _ =>
    rw [accept?_eq_none hn]
    exact reads_done.mpr ⟨rfl, rfl⟩

theorem statement_binding {w x q : Token} {ts us rest : List Token} {e : Expr} (hw : w.kind = .letWord)
    (hx : x.kind = .identifier) (hq : q.kind = .equal) (h : (expr .lowest ts).Reads e us)
    (he : (endOfStatement (.binding x.lexeme e) us).Reads (.binding x.lexeme e) rest) :
    (statement w (x :: q :: ts)).Reads (.binding x.lexeme e) rest := by
  simp only [statement, hw]
  exact (expect_reads _ hx).andThen fun _ => (expect_reads ts hq).andThen fun _ =>
    h.weaken.andThen fun _ => he

theorem statement_returnNothing {w : Token} {ts rest : List Token} (hw : w.kind = .returnWord)
    (hb : Ending MayFollowReturn ts rest)
    (he : (endOfStatement (.returning none) ts).Reads (.returning none) rest) :
    (statement w ts).Reads (.returning none) rest := by
  have hbare : bare ts = true := by
    cases hb with
    | semicolon ht => simp [bare, ht]
    | omitted h =>
      cases ts with
      | nil => rfl
      | cons t ts => simpa [bare] using h t.kind rfl
  simp only [statement, hw, hbare, if_true]
  exact he

theorem statement_returnValue {w : Token} {ts us rest : List Token} {e : Expr} (hw : w.kind = .returnWord)
    (hp : ∃ t us, ts = t :: us ∧ startsExpression t.kind = true) (h : (expr .lowest ts).Reads e us)
    (he : (endOfStatement (.returning (some e)) us).Reads (.returning (some e)) rest) :
    (statement w ts).Reads (.returning (some e)) rest := by
  have hbare : bare ts = false := by
    obtain ⟨t, us, rfl, ht⟩ := hp
    revert ht
    show startsExpression t.kind = true → (decide (t.kind = .semicolon) || decide (t.kind = .rightBrace)) = false
    cases t.kind <;> decide
  simp only [statement, hw, hbare]
  exact h.weaken.andThen fun _ => he

theorem statement_expression {t : Token} {ts us rest : List Token} {e : Expr}
    (ht : startsExpression t.kind = true) (h : (expr .lowest (t :: ts)).Reads e us)
    (he : (endOfStatement (.expression e) us).Reads (.expression e) rest) :
    (statement t ts).Reads (.expression e) rest := by
  rw [statement]
  split
  · next hk => rw [hk] at ht; cases ht
  · next hk => rw [hk] at ht; cases ht
  · exact h.andThen fun _ => he

/-- The kinds of token that a statement can start with. -/
def startsStatement (k : Kind) : Bool := k = .letWord || k = .returnWord || startsExpression k

theorem Statement.start {ts rest : List Token} {s : Stmt} (h : Statement ts s rest) :
    ∃ t us, ts = t :: us ∧ startsStatement t.kind = true := by
  cases h with
  | binding hw _ _ _ _ => exact ⟨_, _, rfl, by rw [hw]; rfl⟩
  | returnNothing hw _ => exact ⟨_, _, rfl, by rw [hw]; rfl⟩
  | returnValue hw _ _ => exact ⟨_, _, rfl, by rw [hw]; rfl⟩
  | expression h _ =>
    obtain ⟨t, us, rfl, ht⟩ := h.start
    exact ⟨t, us, rfl, by simp [startsStatement, ht]⟩

/-- Statements start with no token that could belong to the one before. -/
theorem Statements.next {ts rest : List Token} {ss : List Stmt} (h : Statements ts ss rest) {k : Kind}
    (hk : startsStatement k = false) (hn : nextKind rest ≠ some k) : nextKind ts ≠ some k := by
  cases h with
  | nil => exact hn
  | cons h _ =>
    obtain ⟨t, us, rfl, ht⟩ := h.start
    rw [nextKind_cons]
    intro he
    rw [Option.some.inj he, hk] at ht
    cases ht

/-- The kinds of token that end the expression before them. -/
abbrev EndsExpression (k : Kind) : Prop := k.continuation? = none ∧ k ≠ .elseWord

theorem lowest_of_reads {ts rest : List Token} {c : Token} {e : Expr} {k : Kind} (hc : c.kind = k)
    (h : nextKind (c :: rest) ≠ some .elseWord →
      bindingOf (c :: rest) ≤ Tier.equality.level → ReadsUpTo .equality ts e (c :: rest))
    (hk : EndsExpression k) : (expr .lowest ts).Reads e (c :: rest) := by
  obtain ⟨hcont, helse⟩ := hk
  have hb : bindingOf (c :: rest) ≤ 0 := by
    rw [bindingOf_cons, hc, Kind.precedence, hcont]
    exact Nat.le_refl 0
  have hn : nextKind (c :: rest) ≠ some .elseWord := by
    rw [nextKind_cons, hc]
    exact fun h => helse (Option.some.inj h)
  exact (h hn (Nat.le_succ_of_le hb)).lowest hb

theorem lowest_of_ending {ts us rest : List Token} {e : Expr} (hend : Ending MayFollowExpression us rest)
    (hn : nextKind rest ≠ some .elseWord) (h : nextKind us ≠ some .elseWord →
      bindingOf us ≤ Tier.equality.level → ReadsUpTo .equality ts e us) :
    (expr .lowest ts).Reads e us := by
  obtain ⟨hb, hu⟩ := hend.stops hn
  exact (h hu (Nat.le_succ_of_le hb)).lowest hb

mutual

theorem Phrase.reads {tier : Tier} {ts rest : List Token} {e : Expr} : Phrase tier ts e rest →
    nextKind rest ≠ some .elseWord → bindingOf rest ≤ tier.level → ReadsUpTo tier ts e rest
  | .tighter h, hn, hb => (h.reads hn (Nat.le_trans hb (Tier.level_le_tighter _))).tighter
  | .chain hop hl ht hr, hn, hb =>
    .chain hop (hl.reads (nextKind_operator _ ht) (Nat.le_of_eq (bindingOf_operator _ hop ht))) ht
      (hr.reads hn (Nat.le_trans hb (Tier.level_le_tighter _))) hb
  | .unary ht h, hn, hb => .unary ht (h.reads hn hb) hb
  | .call hf ht ha, _, _ =>
    .call (hf.reads (by rw [nextKind_cons, ht]; decide) (bindingOf_le _)) ht (ha.reads (.inl rfl))
  | .index he ht hi hc, _, _ =>
    .index (he.reads (by rw [nextKind_cons, ht]; decide) (bindingOf_le _)) ht
      (lowest_of_reads hc hi.reads (by decide)) hc
  | .name hk, _, _ => .of_operand (by simp only [operand, hk, reads_done, and_self])
  | .integer hk hi, _, _ => .of_operand (by simp only [operand, hk, hi, reads_done, and_self])
  | .string hk, _, _ => .of_operand (by simp only [operand, hk, reads_done, and_self])
  | .trueWord hk, _, _ => .of_operand (by simp only [operand, hk, reads_done, and_self])
  | .falseWord hk, _, _ => .of_operand (by simp only [operand, hk, reads_done, and_self])
  | .group ho h hc, _, _ => .of_operand (operand_group ho (lowest_of_reads hc h.reads (by decide)) hc)
  | .ifThen hw ho h hc hy, hn, _ =>
    .of_operand (operand_ifThen hw ho (lowest_of_reads hc h.reads (by decide)) hc hy.reads hn)
  | .ifThenElse hw ho h hc hy hv hno, _, _ =>
    .of_operand (operand_ifThenElse hw ho (lowest_of_reads hc h.reads (by decide)) hc hy.reads hv hno.reads)
  | .function hw ho hx hb, _, _ => .of_operand (operand_function hw ho hx.reads hb.reads)
  | .array ho h, _, _ => .of_operand (operand_array ho (h.reads (.inr rfl)))
  | .hash ho h, _, _ => .of_operand (operand_hash ho h.reads)

theorem Items.reads {close : Kind} {ts rest : List Token} {es : List Expr} : Items close ts es rest →
    ClosesList close → (exprItems close ts).Reads es rest
  | .last h hc, hl => exprItems_last hl (lowest_of_reads hc h.reads (by rcases hl with rfl | rfl <;> decide)) hc
  | .more h hs hes, hl => exprItems_more (lowest_of_reads hs h.reads (by decide)) hs (hes.reads hl)

theorem Elements.reads {close : Kind} {ts rest : List Token} {es : List Expr} : Elements close ts es rest →
    ClosesList close → (exprList close ts).Reads es rest
  | .none hc, _ => exprList_none hc
  | .some h, hl => exprList_some (h.next (by rcases hl with rfl | rfl <;> rfl)) (h.reads hl)

theorem Pairs.reads {ts rest : List Token} {ps : List (Expr × Expr)} : Pairs ts ps rest →
    (pairs ts).Reads ps rest
  | .none hc => pairs_none hc
  | .last hk ho hv hc =>
    pairs_last (hk.next rfl) (lowest_of_reads ho hk.reads (by decide)) ho
      (lowest_of_reads hc hv.reads (by decide)) hc
  | .more hk ho hv hs hps =>
    pairs_more (hk.next rfl) (lowest_of_reads ho hk.reads (by decide)) ho
      (lowest_of_reads hs hv.reads (by decide)) hs hps.reads

theorem Body.reads {ts rest : List Token} {b : Block} : Body ts b rest → (block ts).Reads b rest
  | .braces ho h hc => block_braces ho (h.reads rfl hc)

theorem Statement.reads {ts rest : List Token} {s : Stmt} : Statement ts s rest →
    nextKind rest ≠ some .elseWord → nextKind rest ≠ some .semicolon →
      ∃ t us, ts = t :: us ∧ startsStatement t.kind = true ∧ (statement t us).Reads s rest
  | .binding hw hx hq h hend, he, hs =>
    ⟨_, _, rfl, by rw [hw]; rfl,
      statement_binding hw hx hq (lowest_of_ending hend he h.reads) (hend.reads hs _)⟩
  | .returnNothing hw hend, _, hs =>
    ⟨_, _, rfl, by rw [hw]; rfl, statement_returnNothing hw hend (hend.reads hs _)⟩
  | .returnValue hw h hend, he, hs =>
    ⟨_, _, rfl, by rw [hw]; rfl,
      statement_returnValue hw h.start (lowest_of_ending hend he h.reads) (hend.reads hs _)⟩
  | .expression h hend, he, hs => by
    have hr := lowest_of_ending hend he h.reads
    obtain ⟨t, us, rfl, ht⟩ := h.start
    exact ⟨t, us, rfl, by simp [startsStatement, ht], statement_expression ht hr (hend.reads hs _)⟩

theorem Statements.reads {ts us : List Token} {ss : List Stmt} : Statements ts ss us →
    ∀ {c : Token} {rest : List Token}, us = c :: rest → c.kind = .rightBrace →
      (blockBody ts).Reads ss rest
  | .nil, c, rest, hus, hc => by
    rw [hus, blockBody, if_pos hc]
    exact (reads_done.mpr ⟨rfl, rfl⟩).relax _
  | .cons hs hss, c, rest, hus, hc => by
    have hnext {k : Kind} (hk : startsStatement k = false) (hb : k ≠ .rightBrace) : _ :=
      hss.next hk (by rw [hus, nextKind_cons, hc]; exact fun h => hb (Option.some.inj h).symm)
    obtain ⟨t, vs, rfl, ht, hread⟩ := hs.reads (hnext rfl (by decide)) (hnext rfl (by decide))
    have hbrace : t.kind ≠ .rightBrace := by
      intro h
      rw [h] at ht
      cases ht
    exact (reads_blockBody_cons hbrace).mpr ⟨_, _, _, hread, hss.reads hus hc, rfl⟩

end

end Monkey.Grammar
