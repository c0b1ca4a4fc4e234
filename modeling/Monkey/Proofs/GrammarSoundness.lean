import Monkey.Proofs.Grammar
import Monkey.Proofs.Reads

/-! What the rules read without a mistake is what the grammar derives. -/
namespace Monkey.Grammar
open Token (Kind)
open Monkey.Parser Reply

def Tier.level : Tier → Nat
  | equality => 1
  | comparison => 2
  | sum => 3
  | product => 4
  | unary => 5
  | primary => 6
  | atom => 7

theorem Tier.level_tighter {tier : Tier} (h : tier ≠ .atom) : tier.tighter.level = tier.level + 1 := by
  cases tier with
  | atom => exact absurd rfl h
  | _ => rfl

theorem Tier.level_injective : Function.Injective level := by
  intro a b h
  cases a <;> cases b <;> first | rfl | cases h

theorem Tier.level_le (tier : Tier) : tier.level ≤ 7 := by cases tier <;> decide

/-- A phrase is also a phrase of every looser tier. -/
theorem Phrase.loosen {tight loose : Tier} {ts rest : List Token} {e : Expr}
    (h : Phrase tight ts e rest) (hl : loose.level ≤ tight.level) : Phrase loose ts e rest := by
  obtain ⟨n, hn⟩ := Nat.le.dest hl
  clear hl
  induction n generalizing loose with
  | zero => exact Tier.level_injective hn ▸ h
  | succ n ih =>
    have ha : loose ≠ .atom := by
      rintro rfl
      have := tight.level_le
      change 7 + (n + 1) = tight.level at hn
      omega
    exact .tighter (ih (by rw [Tier.level_tighter ha]; omega))

/-- The tier whose chains an operator joins. -/
def tierOf : InfixOp → Tier
  | .equal | .notEqual => .equality
  | .less | .greater => .comparison
  | .add | .subtract => .sum
  | .multiply | .divide => .product

theorem mem_operators_tierOf (op : InfixOp) : op ∈ (tierOf op).operators := by
  cases op <;> decide

theorem level_tierOf (op : InfixOp) : (tierOf op).level = op.precedence.level := by
  cases op <;> rfl

/-- The tier of the expressions whose operators all bind more strongly than `least`. -/
def tierAbove : Precedence → Tier
  | .lowest => .equality
  | .equals => .comparison
  | .lessGreater => .sum
  | .sum => .product
  | .product | .unary | .call => .unary

theorem tierAbove_precedence (op : InfixOp) : tierAbove op.precedence = (tierOf op).tighter := by
  cases op <;> rfl

theorem level_tierAbove_le {least p : Precedence} (h : least.level < p.level) :
    (tierAbove least).level ≤ p.level := by
  revert h
  cases least <;> cases p <;> decide

theorem level_tierAbove_le_unary (least : Precedence) : (tierAbove least).level ≤ 5 := by
  cases least <;> decide

/-- How strongly the first token binds after an operand. -/
def bindingOf : List Token → Nat
  | [] => 0
  | t :: _ => t.kind.precedence.level

theorem precedence_of_continuation {k : Kind} {c : Continuation} (h : k.continuation? = some c) :
    k.precedence = c.precedence := by simp [Kind.precedence, h]

theorem continuation?_eq_operator {k : Kind} {op : InfixOp} (h : k.continuation? = some (.operator op)) :
    k.infixOp? = some op := by
  cases k <;> cases h <;> rfl

theorem continuation?_eq_call {k : Kind} (h : k.continuation? = some .call) : k = .leftParen := by
  cases k <;> cases h
  rfl

theorem continuation?_eq_index {k : Kind} (h : k.continuation? = some .index) : k = .leftBracket := by
  cases k <;> cases h
  rfl

theorem bindingOf_le (ts : List Token) : bindingOf ts ≤ 6 := by
  cases ts with
  | nil => decide
  | cons t ts =>
    simp only [bindingOf]
    cases t.kind.precedence <;> decide

theorem mayFollowExpression_of_bindingOf {ts : List Token} (h : bindingOf ts ≤ 0) :
    MayFollowExpression (nextKind ts) := by
  cases ts with
  | nil => simp [MayFollowExpression, nextKind]
  | cons t ts =>
    simp only [MayFollowExpression, nextKind, List.head?_cons, Option.map_some, Option.mem_some_iff, forall_eq']
    simp only [bindingOf] at h
    generalize t.kind = k at h ⊢
    cases k <;> first | decide | exact absurd h (by decide)

theorem nameItems_of_reads {ts rest : List Token} {xs : List String}
    (h : (paramNames ts).Reads xs rest) : NameItems ts xs rest := by
  rw [paramNames] at h
  obtain ⟨x, us, _, hx, hn⟩ := reads_andThen.mp h
  obtain ⟨rfl, hk⟩ := reads_expect.mp hx
  split at hn
  · rename_i vs hl ha
    obtain ⟨s, rfl, hs⟩ := eq_cons_of_accept? ha
    obtain ⟨ys, hy, rfl⟩ := reads_map.mp (reads_relax.mp hn)
    exact .more hk hs (nameItems_of_reads hy)
  · obtain ⟨c, hc, rfl⟩ := reads_map.mp hn
    obtain ⟨rfl, hcl⟩ := reads_expect.mp hc
    exact .last hk hcl
termination_by ts.length
decreasing_by
  subst_vars
  simp only [List.length_cons]
  omega

theorem names_of_reads {ts rest : List Token} {xs : List String} (h : (params ts).Reads xs rest) :
    Names ts xs rest := by
  rw [params] at h
  split at h
  · rename_i us hl ha
    obtain ⟨c, rfl, hc⟩ := eq_cons_of_accept? ha
    obtain ⟨rfl, rfl⟩ := reads_done.mp (reads_relax.mp h)
    exact .none hc
  · exact .some (nameItems_of_reads h)

theorem ending_of_reads {s s' : Stmt} {ts rest : List Token} {may : Option Kind → Prop}
    (h : (endOfStatement s ts).Reads s' rest) (hm : may (nextKind ts)) :
    s = s' ∧ Ending may ts rest := by
  rw [endOfStatement] at h
  split at h
  · rename_i us hl ha
    obtain ⟨t, rfl, ht⟩ := eq_cons_of_accept? ha
    obtain ⟨rfl, rfl⟩ := reads_done.mp (reads_relax.mp h)
    exact ⟨rfl, .semicolon ht⟩
  · obtain ⟨rfl, rfl⟩ := reads_done.mp h
    exact ⟨rfl, .omitted hm⟩

theorem mayFollowReturn_of_bare {ts : List Token} (h : bare ts = true) :
    MayFollowReturn (nextKind ts) := by
  cases ts with
  | nil => simp [MayFollowReturn, nextKind]
  | cons t ts => simpa [MayFollowReturn, nextKind, bare] using h

mutual

theorem phrase_of_reads {least : Precedence} {ts rest : List Token} {e : Expr}
    (h : (expr least ts).Reads e rest) :
    Phrase (tierAbove least) ts e rest ∧ bindingOf rest ≤ least.level := by
  rw [expr] at h
  obtain ⟨left, us, hu, ho, hc⟩ := reads_andThen.mp h
  obtain ⟨tier, hl, hb, ht⟩ := operand_of_reads ho
  exact continued_of_reads hl hb (Nat.le_trans (level_tierAbove_le_unary least) ht) hc
termination_by 6 * ts.length + 1

/-- An operand is an atom or a chain of unary operators. -/
theorem operand_of_reads {ts rest : List Token} {e : Expr} (h : (operand ts).Reads e rest) :
    ∃ tier : Tier, Phrase tier ts e rest ∧ bindingOf rest ≤ tier.level ∧ 5 ≤ tier.level := by
  cases ts with
  | nil => simp [operand] at h
  | cons t ts =>
    have atom (ha : Phrase .atom (t :: ts) e rest) :
        ∃ tier : Tier, Phrase tier (t :: ts) e rest ∧ bindingOf rest ≤ tier.level ∧ 5 ≤ tier.level :=
      ⟨.atom, ha, Nat.le_succ_of_le (bindingOf_le rest), by decide⟩
    rw [operand] at h
    split at h
    · next hk =>
      obtain ⟨rfl, rfl⟩ := reads_done.mp h
      exact atom (.name hk)
    · next hk =>
      split at h
      · next n hn =>
        obtain ⟨rfl, rfl⟩ := reads_done.mp h
        exact atom (.integer hk hn)
      · simp at h
    · next hk =>
      obtain ⟨rfl, rfl⟩ := reads_done.mp h
      exact atom (.string hk)
    · next hk =>
      obtain ⟨rfl, rfl⟩ := reads_done.mp h
      exact atom (.trueWord hk)
    · next hk =>
      obtain ⟨rfl, rfl⟩ := reads_done.mp h
      exact atom (.falseWord hk)
    · next hk =>
      obtain ⟨a, ha, rfl⟩ := reads_map.mp h
      obtain ⟨hp, hb⟩ := phrase_of_reads (reads_weaken.mp ha)
      exact ⟨.unary, .unary (by rw [hk]; rfl) hp, hb, Nat.le_refl 5⟩
    · next hk =>
      obtain ⟨a, ha, rfl⟩ := reads_map.mp h
      obtain ⟨hp, hb⟩ := phrase_of_reads (reads_weaken.mp ha)
      exact ⟨.unary, .unary (by rw [hk]; rfl) hp, hb, Nat.le_refl 5⟩
    · next hk =>
      obtain ⟨a, us, _, ha, hg⟩ := reads_andThen.mp h
      obtain ⟨c, hc, rfl⟩ := reads_map.mp hg
      obtain ⟨rfl, hck⟩ := reads_expect.mp hc
      exact atom (.group hk (phrase_of_reads (reads_weaken.mp ha)).1 hck)
    · next hk => exact atom (conditional_of_reads hk h)
    · next hk => exact atom (function_of_reads hk h)
    · next hk =>
      obtain ⟨es, hes, rfl⟩ := reads_map.mp h
      exact atom (.array hk (elements_of_reads hes))
    · next hk =>
      obtain ⟨ps, hps, rfl⟩ := reads_map.mp h
      exact atom (.hash hk (pairs_of_reads (reads_inBraces.mp hps)))
    · simp at h
termination_by 6 * ts.length
decreasing_by
  all_goals subst_vars
  all_goals try simp only [List.length_cons]
  all_goals omega

/-- What has been read up to here is a phrase of some tier that nothing after it can extend; the loop adds
the operators that bind more strongly than `least`. -/
theorem continued_of_reads {least : Precedence} {tier : Tier} {left e : Expr} {start ts rest : List Token}
    (hl : Phrase tier start left ts) (hb : bindingOf ts ≤ tier.level)
    (ht : (tierAbove least).level ≤ tier.level) (h : (continued least left ts).Reads e rest) :
    Phrase (tierAbove least) start e rest ∧ bindingOf rest ≤ least.level := by
  cases ts with
  | nil =>
    rw [continued] at h
    obtain ⟨rfl, rfl⟩ := reads_done.mp h
    exact ⟨hl.loosen ht, Nat.zero_le _⟩
  | cons t ts =>
    rw [continued] at h
    split at h
    · next hc =>
      obtain ⟨rfl, rfl⟩ := reads_done.mp h
      refine ⟨hl.loosen ht, ?_⟩
      simp [bindingOf, Kind.precedence, hc, Precedence.level]
    · next c hc =>
      rw [bindingOf, precedence_of_continuation hc] at hb
      split at h
      · next hle =>
        obtain ⟨rfl, rfl⟩ := reads_done.mp h
        refine ⟨hl.loosen ht, ?_⟩
        rwa [bindingOf, precedence_of_continuation hc]
      · next hlt =>
        obtain ⟨left', us, _, hn, hr⟩ := reads_andThen.mp (reads_relax.mp h)
        obtain ⟨tier', hl', hb', ht'⟩ := continuation_of_reads hl hc hb hn
        have hc' := level_tierAbove_le (Nat.lt_of_not_le hlt)
        exact continued_of_reads hl' hb' (Nat.le_trans hc' ht') hr
termination_by 6 * ts.length
decreasing_by
  all_goals subst_vars
  all_goals try simp only [List.length_cons]
  all_goals omega

theorem continuation_of_reads {tier : Tier} {left e : Expr} {c : Continuation} {t : Token}
    {start ts rest : List Token} (hl : Phrase tier start left (t :: ts))
    (hc : t.kind.continuation? = some c) (ht : c.precedence.level ≤ tier.level)
    (h : (continuation left c (t.line + 1) ts).Reads e rest) :
    ∃ tier : Tier, Phrase tier start e rest ∧ bindingOf rest ≤ tier.level ∧
      c.precedence.level ≤ tier.level := by
  cases c with
  | call =>
    rw [continuation] at h
    obtain ⟨es, hes, rfl⟩ := reads_map.mp h
    exact ⟨.primary, .call (hl.loosen ht) (continuation?_eq_call hc) (elements_of_reads hes),
      bindingOf_le rest, Nat.le_refl 6⟩
  | index =>
    rw [continuation] at h
    obtain ⟨i, us, _, hi, hr⟩ := reads_andThen.mp h
    obtain ⟨b, hb, rfl⟩ := reads_map.mp hr
    obtain ⟨rfl, hbk⟩ := reads_expect.mp hb
    exact ⟨.primary, .index (hl.loosen ht) (continuation?_eq_index hc)
      (phrase_of_reads (reads_weaken.mp hi)).1 hbk, bindingOf_le rest, Nat.le_refl 6⟩
  | operator op =>
    rw [continuation] at h
    obtain ⟨r, hr, rfl⟩ := reads_map.mp h
    obtain ⟨hp, hb⟩ := phrase_of_reads (reads_weaken.mp hr)
    have hlevel : (tierOf op).level = op.precedence.level := level_tierOf op
    rw [tierAbove_precedence] at hp
    refine ⟨tierOf op, .chain (mem_operators_tierOf op) (hl.loosen ?_) (continuation?_eq_operator hc) hp,
      ?_, Nat.le_of_eq hlevel.symm⟩
    · exact hlevel.symm ▸ ht
    · exact hlevel.symm ▸ hb
termination_by 6 * ts.length + 5
decreasing_by all_goals omega

theorem conditional_of_reads {w : Token} {ts rest : List Token} {e : Expr} (hw : w.kind = .ifWord)
    (h : (conditional ts).Reads e rest) : Phrase .atom (w :: ts) e rest := by
  rw [conditional] at h
  simp only [reads_andThen, reads_expect, reads_weaken] at h
  obtain ⟨o, us, _, ⟨rfl, ho⟩, e, vs, _, he, c, xs, _, ⟨rfl, hc⟩, yes, ys, _, hyes, h⟩ := h
  have hp := (phrase_of_reads he).1
  have hy := body_of_reads hyes
  split at h
  · next zs _ ha =>
    obtain ⟨v, rfl, hv⟩ := eq_cons_of_accept? ha
    obtain ⟨no, hno, rfl⟩ := reads_map.mp (reads_relax.mp h)
    exact .ifThenElse hw ho hp hc hy hv (body_of_reads hno)
  · obtain ⟨rfl, rfl⟩ := reads_done.mp h
    exact .ifThen hw ho hp hc hy
termination_by 6 * ts.length + 5
decreasing_by
  all_goals subst_vars
  all_goals try simp only [List.length_cons]
  all_goals omega

theorem function_of_reads {w : Token} {ts rest : List Token} {e : Expr} (hw : w.kind = .fnWord)
    (h : (function ts).Reads e rest) : Phrase .atom (w :: ts) e rest := by
  rw [function] at h
  simp only [reads_andThen, reads_expect, reads_map] at h
  obtain ⟨o, us, _, ⟨rfl, ho⟩, names, vs, _, hnames, body, hbody, rfl⟩ := h
  exact .function hw ho (names_of_reads hnames) (body_of_reads hbody)
termination_by 6 * ts.length + 5
decreasing_by
  all_goals subst_vars
  all_goals try simp only [List.length_cons]
  all_goals omega

theorem elements_of_reads {close : Kind} {ts rest : List Token} {es : List Expr}
    (h : (exprList close ts).Reads es rest) : Elements close ts es rest := by
  rw [exprList] at h
  split at h
  · next us _ ha =>
    obtain ⟨c, rfl, hc⟩ := eq_cons_of_accept? ha
    obtain ⟨rfl, rfl⟩ := reads_done.mp (reads_relax.mp h)
    exact .none hc
  · exact .some (items_of_reads h)
termination_by 6 * ts.length + 4

theorem items_of_reads {close : Kind} {ts rest : List Token} {es : List Expr}
    (h : (exprItems close ts).Reads es rest) : Items close ts es rest := by
  rw [exprItems] at h
  simp only [reads_andThen, reads_weaken] at h
  obtain ⟨e, us, _, he, h⟩ := h
  have hp := (phrase_of_reads he).1
  split at h
  · next vs _ ha =>
    obtain ⟨s, rfl, hs⟩ := eq_cons_of_accept? ha
    obtain ⟨es, hes, rfl⟩ := reads_map.mp (reads_relax.mp h)
    exact .more hp hs (items_of_reads hes)
  · obtain ⟨c, hc, rfl⟩ := reads_map.mp h
    obtain ⟨rfl, hck⟩ := reads_expect.mp hc
    exact .last hp hck
termination_by 6 * ts.length + 3
decreasing_by
  all_goals subst_vars
  all_goals omega

theorem pairs_of_reads {ts rest : List Token} {ps : List (Expr × Expr)}
    (h : (pairs ts).Reads ps rest) : Pairs ts ps rest := by
  rw [pairs] at h
  split at h
  · next us _ ha =>
    obtain ⟨c, rfl, hc⟩ := eq_cons_of_accept? ha
    obtain ⟨rfl, rfl⟩ := reads_done.mp (reads_relax.mp h)
    exact .none hc
  · simp only [reads_andThen, reads_expect, reads_weaken] at h
    obtain ⟨key, us, _, hkey, o, vs, _, ⟨rfl, ho⟩, value, xs, _, hvalue, h⟩ := h
    have hk := (phrase_of_reads hkey).1
    have hv := (phrase_of_reads hvalue).1
    split at h
    · next ys _ ha =>
      obtain ⟨s, rfl, hs⟩ := eq_cons_of_accept? ha
      obtain ⟨ps, hps, rfl⟩ := reads_map.mp (reads_relax.mp h)
      exact .more hk ho hv hs (pairs_of_reads hps)
    · obtain ⟨c, hc, rfl⟩ := reads_map.mp h
      obtain ⟨rfl, hck⟩ := reads_expect.mp hc
      exact .last hk ho hv hck
termination_by 6 * ts.length + 3
decreasing_by
  all_goals subst_vars
  all_goals omega

theorem body_of_reads {ts rest : List Token} {b : Block} (h : (block ts).Reads b rest) :
    Body ts b rest := by
  rw [block] at h
  simp only [reads_andThen, reads_expect, reads_inBraces] at h
  obtain ⟨o, us, _, ⟨rfl, ho⟩, h⟩ := h
  obtain ⟨c, hs, hc⟩ := blockBody_of_reads h
  exact .braces ho hs hc
termination_by 6 * ts.length + 4
decreasing_by
  all_goals subst_vars
  all_goals try simp only [List.length_cons]
  all_goals omega

theorem blockBody_of_reads {ts rest : List Token} {b : Block} (h : (blockBody ts).Reads b rest) :
    ∃ c, Statements ts b (c :: rest) ∧ c.kind = .rightBrace := by
  cases ts with
  | nil => simp [blockBody] at h
  | cons t ts =>
    by_cases hk : t.kind = .rightBrace
    · rw [blockBody, if_pos hk] at h
      obtain ⟨rfl, rfl⟩ := reads_done.mp (reads_relax.mp h)
      exact ⟨t, .nil, hk⟩
    · obtain ⟨s, us, ss, hs, hb, rfl⟩ := (reads_blockBody_cons hk).mp h
      have := hs.length_le
      obtain ⟨c, hss, hc⟩ := blockBody_of_reads hb
      exact ⟨c, .cons (statement_of_reads hs) hss, hc⟩
termination_by 6 * ts.length + 3
decreasing_by
  all_goals subst_vars
  all_goals try simp only [List.length_cons]
  all_goals omega

theorem statement_of_reads {t : Token} {ts rest : List Token} {s : Stmt}
    (h : (statement t ts).Reads s rest) : Statement (t :: ts) s rest := by
  rw [statement] at h
  split at h
  · next ht =>
    simp only [reads_andThen, reads_expect, reads_weaken] at h
    obtain ⟨x, us, _, ⟨rfl, hx⟩, q, vs, _, ⟨rfl, hq⟩, e, xs, _, he, h⟩ := h
    obtain ⟨hp, hb⟩ := phrase_of_reads he
    obtain ⟨rfl, hend⟩ := ending_of_reads h (mayFollowExpression_of_bindingOf hb)
    exact .binding ht hx hq hp hend
  · next ht =>
    split at h
    · next hbare =>
      obtain ⟨rfl, hend⟩ := ending_of_reads h (mayFollowReturn_of_bare hbare)
      exact .returnNothing ht hend
    · simp only [reads_andThen, reads_weaken] at h
      obtain ⟨e, us, _, he, h⟩ := h
      obtain ⟨hp, hb⟩ := phrase_of_reads he
      obtain ⟨rfl, hend⟩ := ending_of_reads h (mayFollowExpression_of_bindingOf hb)
      exact .returnValue ht hp hend
  · simp only [reads_andThen] at h
    obtain ⟨e, us, _, he, h⟩ := h
    obtain ⟨hp, hb⟩ := phrase_of_reads he
    obtain ⟨rfl, hend⟩ := ending_of_reads h (mayFollowExpression_of_bindingOf hb)
    exact .expression hp hend
termination_by 6 * (ts.length + 1) + 2
decreasing_by
  all_goals subst_vars
  all_goals try simp only [List.length_cons]
  all_goals omega

end

end Monkey.Grammar
