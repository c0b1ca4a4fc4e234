import Monkey.Proofs.GrammarSoundness
import Monkey.Proofs.Words

/-! Tokens that say the words of a tree derive that tree. -/
namespace Monkey
open Token (Kind)
open Grammar

theorem Grammar.Phrase.whole {ts rest : List Token} {e : Expr} (h : Phrase .primary ts e rest) :
    Phrase .equality ts e rest := h.loosen (by decide)

theorem Grammar.Elements.items {close : Kind} {ts rest : List Token} {e : Expr} {es : List Expr}
    (h : Elements close ts (e :: es) rest) : Items close ts (e :: es) rest := by
  cases h with
  | some h => exact h

theorem Grammar.Names.items {ts rest : List Token} {x : String} {xs : List String}
    (h : Names ts (x :: xs) rest) : NameItems ts (x :: xs) rest := by
  cases h with
  | some h => exact h

/-- An operator's expression stands in parentheses of its own. -/
theorem Grammar.Phrase.grouped {o c : Token} {tier : Tier} {ts rest : List Token} {e : Expr}
    (ho : o.kind = .leftParen) (h : Phrase tier ts e (c :: rest)) (ht : 1 ≤ tier.level)
    (hc : c.kind = .rightParen) : Phrase .primary (o :: ts) e rest :=
  .tighter (.group ho (h.loosen ht) hc)

theorem Literal.derived {l : Literal} {ts rest : List Token} (h : Written l.words ts rest) :
    Phrase .atom ts (.literal l) rest := by
  match l, h with
  | .integer n, h =>
    obtain ⟨t, us, rfl, -, hk, hx, rfl⟩ := Written.cons h
    exact .integer hk (hx ▸ Decimal.integer?_toString n)
  | .string s, h =>
    obtain ⟨t, us, rfl, -, hk, rfl, rfl⟩ := Written.cons h
    exact .string hk
  | .boolean true, h =>
    obtain ⟨t, us, rfl, -, hk, -, rfl⟩ := Written.cons h
    exact .trueWord hk
  | .boolean false, h =>
    obtain ⟨t, us, rfl, -, hk, -, rfl⟩ := Written.cons h
    exact .falseWord hk

theorem names_derived : ∀ (xs : List String) {ts rest : List Token} {c : Token}, c.kind = .rightParen →
    Written (commaWords (nameWords xs)) ts (c :: rest) → Names ts xs rest
  | [], _, _, _, hc, h => by
    obtain rfl := h
    exact .none hc
  | [x], _, _, _, hc, h => by
    obtain ⟨t, us, rfl, -, hk, rfl, rfl⟩ := Written.cons h
    exact .some (.last hk hc)
  | x :: y :: ys, _, _, _, hc, h => by
    obtain ⟨t, us, rfl, -, hk, rfl, htail⟩ := Written.cons h
    obtain ⟨s, vs, rfl, -, hs, -, htail⟩ := Written.cons htail
    exact .some (.more hk hs (names_derived (y :: ys) hc htail).items)

/-- A block in braces, once its statements are known to be derived. -/
theorem block_derived {ss : List Stmt}
    (hall : ∀ {ts rest : List Token}, Written (stmtsWords ss) ts rest → Statements ts (stmtsOnFirstLine ss) rest)
    {ts rest : List Token} (h : Written (braceWords (stmtsWords ss)) ts rest) :
    Body ts (stmtsOnFirstLine ss) rest := by
  obtain ⟨o, us, rfl, -, ho, -, h⟩ := Written.cons h
  obtain ⟨vs, hss, h⟩ := written_append.mp h
  obtain ⟨c, ws, rfl, -, hc, -, rfl⟩ := Written.cons h
  exact .braces ho (hall hss) hc

mutual

theorem Expr.derived : ∀ (e : Expr) {ts rest : List Token}, Written e.words ts rest →
    Phrase .primary ts e.onFirstLine rest
  | .name _ x, ts, rest, h => by
    obtain ⟨t, us, rfl, hl, hk, rfl, rfl⟩ := Written.cons h
    rw [Expr.onFirstLine, hl]
    exact .tighter (.name hk)
  | .literal l, ts, rest, h => .tighter (Literal.derived h)
  | .unary _ op e, ts, rest, h => by
    obtain ⟨o, us, rfl, -, ho, -, h⟩ := Written.cons h
    obtain ⟨t, vs, rfl, hl, ht, -, h⟩ := Written.cons h
    obtain ⟨ws, he, h⟩ := written_append.mp h
    obtain ⟨c, xs, rfl, -, hc, -, rfl⟩ := Written.cons h
    rw [Expr.onFirstLine, hl]
    exact .grouped ho (.unary (ht ▸ op.prefixOp?_kind) (.tighter (e.derived he))) (by decide) hc
  | .binary _ op l r, ts, rest, h => by
    simp only [Expr.words, List.cons_append, List.append_assoc] at h
    obtain ⟨o, us, rfl, -, ho, -, h⟩ := Written.cons h
    obtain ⟨vs, hleft, h⟩ := written_append.mp h
    obtain ⟨t, ws, rfl, hl, ht, -, h⟩ := Written.cons h
    obtain ⟨xs, hright, h⟩ := written_append.mp h
    obtain ⟨c, ys, rfl, -, hc, -, rfl⟩ := Written.cons h
    rw [Expr.onFirstLine, hl]
    have hchain := Phrase.chain (mem_operators_tierOf op) ((l.derived hleft).loosen (by cases op <;> decide))
      (ht ▸ op.infixOp?_kind) ((r.derived hright).loosen (by cases op <;> decide))
    exact .grouped ho hchain (by cases op <;> decide) hc
  | .conditional c yes none, ts, rest, h => by
    simp only [Expr.words, List.cons_append] at h
    obtain ⟨w, us, rfl, -, hw, -, h⟩ := Written.cons h
    obtain ⟨o, vs, rfl, -, ho, -, h⟩ := Written.cons h
    obtain ⟨ws, hcond, h⟩ := written_append.mp h
    obtain ⟨p, xs, rfl, -, hp, -, h⟩ := Written.cons h
    exact .tighter (.ifThen hw ho (c.derived hcond).whole hp (block_derived (stmts_derived yes) h))
  | .conditional c yes (some no), ts, rest, h => by
    simp only [Expr.words, List.cons_append, List.append_assoc] at h
    obtain ⟨w, us, rfl, -, hw, -, h⟩ := Written.cons h
    obtain ⟨o, vs, rfl, -, ho, -, h⟩ := Written.cons h
    obtain ⟨ws, hcond, h⟩ := written_append.mp h
    obtain ⟨p, xs, rfl, -, hp, -, h⟩ := Written.cons h
    obtain ⟨ys, hyes, h⟩ := written_append.mp h
    obtain ⟨v, zs, rfl, -, hv, -, hno⟩ := Written.cons h
    exact .tighter (.ifThenElse hw ho (c.derived hcond).whole hp (block_derived (stmts_derived yes) hyes) hv
      (block_derived (stmts_derived no) hno))
  | .function params body, ts, rest, h => by
    simp only [Expr.words, List.cons_append] at h
    obtain ⟨w, us, rfl, -, hw, -, h⟩ := Written.cons h
    obtain ⟨o, vs, rfl, -, ho, -, h⟩ := Written.cons h
    obtain ⟨ws, hparams, h⟩ := written_append.mp h
    obtain ⟨p, xs, rfl, -, hp, -, hbody⟩ := Written.cons h
    exact .tighter (.function hw ho (names_derived params hp hparams) (block_derived (stmts_derived body) hbody))
  | .call _ f args, ts, rest, h => by
    simp only [Expr.words, List.append_assoc] at h
    obtain ⟨us, hf, h⟩ := written_append.mp h
    obtain ⟨o, vs, rfl, hl, ho, -, h⟩ := Written.cons h
    obtain ⟨ws, hargs, h⟩ := written_append.mp h
    obtain ⟨c, xs, rfl, -, hc, -, rfl⟩ := Written.cons h
    rw [Expr.onFirstLine, hl]
    exact .call (f.derived hf) ho (exprs_derived args hc hargs)
  | .array elems, ts, rest, h => by
    obtain ⟨o, us, rfl, -, ho, -, h⟩ := Written.cons h
    obtain ⟨vs, helems, h⟩ := written_append.mp h
    obtain ⟨c, ws, rfl, -, hc, -, rfl⟩ := Written.cons h
    exact .tighter (.array ho (exprs_derived elems hc helems))
  | .hash _ ps, ts, rest, h => by
    obtain ⟨o, us, rfl, hl, ho, -, h⟩ := Written.cons h
    obtain ⟨vs, hpairs, h⟩ := written_append.mp h
    obtain ⟨c, ws, rfl, -, hc, -, rfl⟩ := Written.cons h
    rw [Expr.onFirstLine, hl]
    exact .tighter (.hash ho (pairs_derived ps hc hpairs))
  | .index _ e i, ts, rest, h => by
    simp only [Expr.words, List.cons_append, List.append_assoc] at h
    obtain ⟨o, us, rfl, -, ho, -, h⟩ := Written.cons h
    obtain ⟨vs, hbase, h⟩ := written_append.mp h
    obtain ⟨b, ws, rfl, hl, hb, -, h⟩ := Written.cons h
    obtain ⟨xs, hsub, h⟩ := written_append.mp h
    obtain ⟨d, ys, rfl, -, hd, -, h⟩ := Written.cons h
    obtain ⟨c, zs, rfl, -, hc, -, rfl⟩ := Written.cons h
    rw [Expr.onFirstLine, hl]
    exact .grouped ho (.index (e.derived hbase) hb (i.derived hsub).whole hd) (by decide) hc

theorem Stmt.derived : ∀ (s : Stmt) {ts rest : List Token}, Written s.words ts rest →
    Statement ts s.onFirstLine rest
  | .binding x e, ts, rest, h => by
    obtain ⟨w, us, rfl, -, hw, -, h⟩ := Written.cons h
    obtain ⟨t, vs, rfl, -, ht, rfl, h₁⟩ := Written.cons h
    obtain ⟨q, ws, rfl, -, hq, -, h₂⟩ := Written.cons h₁
    obtain ⟨xs, he, h₃⟩ := written_append.mp h₂
    obtain ⟨c, ys, rfl, -, hc, -, rfl⟩ := Written.cons h₃
    exact .binding hw ht hq (e.derived he).whole (.semicolon hc)
  | .returning none, ts, rest, h => by
    obtain ⟨w, us, rfl, -, hw, -, h⟩ := Written.cons h
    obtain ⟨c, vs, rfl, -, hc, -, rfl⟩ := Written.cons h
    exact .returnNothing hw (.semicolon hc)
  | .returning (some e), ts, rest, h => by
    obtain ⟨w, us, rfl, -, hw, -, h⟩ := Written.cons h
    obtain ⟨vs, he, h⟩ := written_append.mp h
    obtain ⟨c, ws, rfl, -, hc, -, rfl⟩ := Written.cons h
    exact .returnValue hw (e.derived he).whole (.semicolon hc)
  | .expression e, ts, rest, h => by
    obtain ⟨us, he, h⟩ := written_append.mp h
    obtain ⟨c, vs, rfl, -, hc, -, rfl⟩ := Written.cons h
    exact .expression (e.derived he).whole (.semicolon hc)

theorem stmts_derived : ∀ (ss : List Stmt) {ts rest : List Token}, Written (stmtsWords ss) ts rest →
    Statements ts (stmtsOnFirstLine ss) rest
  | [], ts, rest, h => by
    obtain rfl := h
    exact .nil
  | s :: ss, ts, rest, h => by
    obtain ⟨us, hs, hss⟩ := written_append.mp h
    exact .cons (s.derived hs) (stmts_derived ss hss)

theorem exprs_derived : ∀ (es : List Expr) {close : Kind} {c : Token} {ts rest : List Token},
    c.kind = close → Written (commaWords (exprWords es)) ts (c :: rest) →
      Elements close ts (exprsOnFirstLine es) rest
  | [], close, c, ts, rest, hc, h => by
    obtain rfl := h
    exact .none hc
  | [e], close, c, ts, rest, hc, h => .some (.last (e.derived h).whole hc)
  | e :: e' :: es, close, c, ts, rest, hc, h => by
    obtain ⟨us, he, h⟩ := written_append.mp h
    obtain ⟨s, vs, rfl, -, hs, -, h⟩ := Written.cons h
    exact .some (.more (e.derived he).whole hs (exprs_derived (e' :: es) hc h).items)

theorem pairs_derived : ∀ (ps : List (Expr × Expr)) {c : Token} {ts rest : List Token},
    c.kind = .rightBrace → Written (commaWords (pairWords ps)) ts (c :: rest) →
      Pairs ts (pairsOnFirstLine ps) rest
  | [], c, ts, rest, hc, h => by
    obtain rfl := h
    exact .none hc
  | [(k, v)], c, ts, rest, hc, h => by
    obtain ⟨us, hk, h⟩ := written_append.mp h
    obtain ⟨o, vs, rfl, -, ho, -, hv⟩ := Written.cons h
    exact .last (k.derived hk).whole ho (v.derived hv).whole hc
  | (k, v) :: p :: ps, c, ts, rest, hc, h => by
    simp only [pairWords, commaWords, List.append_assoc, List.cons_append] at h
    obtain ⟨us, hk, h⟩ := written_append.mp h
    obtain ⟨o, vs, rfl, -, ho, -, h⟩ := Written.cons h
    obtain ⟨ws, hv, h⟩ := written_append.mp h
    obtain ⟨s, xs, rfl, -, hs, -, h⟩ := Written.cons h
    exact .more (k.derived hk).whole ho (v.derived hv).whole hs (pairs_derived (p :: ps) hc h)

end

end Monkey
