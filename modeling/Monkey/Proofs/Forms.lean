import Mathlib.Logic.Relation
import Monkey.Proofs.GrammarCompleteness

/-! Parts of a program as relations between the tokens from a part on and the tokens behind it. What the grammar
derives is such a part whatever stands behind it, statements apart, which need what may follow them. -/
namespace Monkey.Grammar
open Token (Kind)
open Relation (Comp)

abbrev Form := List Token → List Token → Prop

namespace Form

def kind (k : Kind) : Form := fun ts rest => ∃ t, ts = t :: rest ∧ t.kind = k

def operator (op : InfixOp) : Form := fun ts rest => ∃ t, ts = t :: rest ∧ t.kind.infixOp? = some op

def sign : Form := fun ts rest => ∃ t op, ts = t :: rest ∧ t.kind.prefixOp? = some op

def either (F G : Form) : Form := fun ts rest => F ts rest ∨ G ts rest

def nothing : Form := fun ts rest => ts = rest

def phrase (tier : Tier) : Form := fun ts rest => ∃ e, Phrase tier ts e rest

def nameItems : Form := fun ts rest => ∃ xs, NameItems ts xs rest

def names : Form := fun ts rest => ∃ xs, Names ts xs rest

def items (close : Kind) : Form := fun ts rest => ∃ es, Items close ts es rest

def elements (close : Kind) : Form := fun ts rest => ∃ es, Elements close ts es rest

def pairs : Form := fun ts rest => ∃ ps, Pairs ts ps rest

def body : Form := fun ts rest => ∃ b, Body ts b rest

/-- The statements of a block with its closing brace. -/
def blockRest : Form := fun ts rest => ∃ ss c, Statements ts ss (c :: rest) ∧ c.kind = .rightBrace

variable {ts rest : List Token}

theorem group (h : Comp (kind .leftParen) (Comp (phrase .equality) (kind .rightParen)) ts rest) :
    phrase .atom ts rest := by
  obtain ⟨_, ⟨o, rfl, ho⟩, _, ⟨e, he⟩, c, rfl, hc⟩ := h
  exact ⟨e, .group ho he hc⟩

theorem chain {tier : Tier} {op : InfixOp} (hop : op ∈ tier.operators)
    (h : Comp (phrase tier) (Comp (operator op) (phrase tier.tighter)) ts rest) : phrase tier ts rest := by
  obtain ⟨_, ⟨l, hl⟩, _, ⟨t, rfl, ht⟩, r, hr⟩ := h
  exact ⟨_, .chain hop hl ht hr⟩

theorem unary (h : Comp sign (phrase .unary) ts rest) : phrase .unary ts rest := by
  obtain ⟨_, ⟨t, op, rfl, ht⟩, e, he⟩ := h
  exact ⟨_, .unary ht he⟩

theorem call (h : Comp (phrase .primary) (Comp (kind .leftParen) (elements .rightParen)) ts rest) :
    phrase .primary ts rest := by
  obtain ⟨_, ⟨f, hf⟩, _, ⟨t, rfl, ht⟩, args, ha⟩ := h
  exact ⟨_, .call hf ht ha⟩

theorem index (h : Comp (phrase .primary) (Comp (kind .leftBracket)
    (Comp (phrase .equality) (kind .rightBracket))) ts rest) : phrase .primary ts rest := by
  obtain ⟨_, ⟨e, he⟩, _, ⟨t, rfl, ht⟩, _, ⟨i, hi⟩, c, rfl, hc⟩ := h
  exact ⟨_, .index he ht hi hc⟩

theorem conditional (h : Comp (kind .ifWord) (Comp (kind .leftParen) (Comp (phrase .equality)
    (Comp (kind .rightParen) (Comp body (either nothing (Comp (kind .elseWord) body)))))) ts rest) :
    phrase .atom ts rest := by
  obtain ⟨_, ⟨w, rfl, hw⟩, _, ⟨o, rfl, ho⟩, _, ⟨e, he⟩, _, ⟨c, rfl, hc⟩, _, ⟨yes, hy⟩, hn⟩ := h
  obtain rfl | ⟨_, ⟨v, rfl, hv⟩, no, hno⟩ := hn
  · exact ⟨_, .ifThen hw ho he hc hy⟩
  · exact ⟨_, .ifThenElse hw ho he hc hy hv hno⟩

theorem function (h : Comp (kind .fnWord) (Comp (kind .leftParen) (Comp names body)) ts rest) :
    phrase .atom ts rest := by
  obtain ⟨_, ⟨w, rfl, hw⟩, _, ⟨o, rfl, ho⟩, _, ⟨xs, hx⟩, b, hb⟩ := h
  exact ⟨_, .function hw ho hx hb⟩

theorem array (h : Comp (kind .leftBracket) (elements .rightBracket) ts rest) : phrase .atom ts rest := by
  obtain ⟨_, ⟨o, rfl, ho⟩, es, hes⟩ := h
  exact ⟨_, .array ho hes⟩

theorem hash (h : Comp (kind .leftBrace) pairs ts rest) : phrase .atom ts rest := by
  obtain ⟨_, ⟨o, rfl, ho⟩, ps, hps⟩ := h
  exact ⟨_, .hash ho hps⟩

theorem nameItem (h : Comp (kind .identifier) (either (kind .rightParen) (Comp (kind .comma) nameItems)) ts rest) :
    nameItems ts rest := by
  obtain ⟨_, ⟨x, rfl, hx⟩, ⟨c, rfl, hc⟩ | ⟨_, ⟨s, rfl, hs⟩, xs, hxs⟩⟩ := h
  · exact ⟨_, .last hx hc⟩
  · exact ⟨_, .more hx hs hxs⟩

theorem nameList (h : either (kind .rightParen) nameItems ts rest) : names ts rest := by
  obtain ⟨c, rfl, hc⟩ | ⟨xs, hxs⟩ := h
  · exact ⟨_, .none hc⟩
  · exact ⟨_, .some hxs⟩

theorem item {close : Kind}
    (h : Comp (phrase .equality) (either (kind close) (Comp (kind .comma) (items close))) ts rest) :
    items close ts rest := by
  obtain ⟨_, ⟨e, he⟩, ⟨c, rfl, hc⟩ | ⟨_, ⟨s, rfl, hs⟩, es, hes⟩⟩ := h
  · exact ⟨_, .last he hc⟩
  · exact ⟨_, .more he hs hes⟩

theorem list {close : Kind} (h : either (kind close) (items close) ts rest) : elements close ts rest := by
  obtain ⟨c, rfl, hc⟩ | ⟨es, hes⟩ := h
  · exact ⟨_, .none hc⟩
  · exact ⟨_, .some hes⟩

theorem noPair (h : kind .rightBrace ts rest) : pairs ts rest := by
  obtain ⟨c, rfl, hc⟩ := h
  exact ⟨_, .none hc⟩

theorem pair (h : Comp (phrase .equality) (Comp (kind .colon) (Comp (phrase .equality)
    (either (kind .rightBrace) (Comp (kind .comma) pairs)))) ts rest) : pairs ts rest := by
  obtain ⟨_, ⟨k, hk⟩, _, ⟨o, rfl, ho⟩, _, ⟨v, hv⟩, ⟨c, rfl, hc⟩ | ⟨_, ⟨s, rfl, hs⟩, ps, hps⟩⟩ := h
  · exact ⟨_, .last hk ho hv hc⟩
  · exact ⟨_, .more hk ho hv hs hps⟩

theorem block (h : Comp (kind .leftBrace) blockRest ts rest) : body ts rest := by
  obtain ⟨_, ⟨o, rfl, ho⟩, ss, c, hss, hc⟩ := h
  exact ⟨_, .braces ho hss hc⟩

theorem loosen {tight loose : Tier} (hl : loose.level ≤ tight.level) (h : phrase tight ts rest) :
    phrase loose ts rest := by
  obtain ⟨e, he⟩ := h
  exact ⟨e, he.loosen hl⟩

end Form

variable {F G H : Form} {ts us rest : List Token} {t : Token}

/-- The tokens of `ts` before `rest` are of the form `F` whatever stands behind them. -/
def Stands (F : Form) (ts rest : List Token) : Prop := ∃ c, ts = c ++ rest ∧ ∀ y, F (c ++ y) y

theorem Stands.mono (h : Stands F ts rest) (hFG : ∀ {xs ys}, F xs ys → G xs ys) : Stands G ts rest := by
  obtain ⟨c, hts, hc⟩ := h
  exact ⟨c, hts, fun y => hFG (hc y)⟩

theorem Stands.comp (h : Stands F ts us) (h' : Stands G us rest) : Stands (Comp F G) ts rest := by
  obtain ⟨c, rfl, hc⟩ := h
  obtain ⟨d, rfl, hd⟩ := h'
  exact ⟨c ++ d, (List.append_assoc ..).symm, fun y => ⟨d ++ y, List.append_assoc c d y ▸ hc (d ++ y), hd y⟩⟩

theorem stands_kind {k : Kind} (h : t.kind = k) : Stands (Form.kind k) (t :: us) us :=
  ⟨[t], rfl, fun _ => ⟨t, rfl, h⟩⟩

theorem stands_operator {op : InfixOp} (h : t.kind.infixOp? = some op) : Stands (Form.operator op) (t :: us) us :=
  ⟨[t], rfl, fun _ => ⟨t, rfl, h⟩⟩

theorem stands_sign {op : PrefixOp} (h : t.kind.prefixOp? = some op) : Stands Form.sign (t :: us) us :=
  ⟨[t], rfl, fun _ => ⟨t, op, rfl, h⟩⟩

theorem stands_nothing (us : List Token) : Stands Form.nothing us us := ⟨[], rfl, fun _ => rfl⟩

/-- What may stand behind any statement: a closing brace, or nothing. -/
def EndsBlock (next : Option Kind) : Prop := ∀ k ∈ next, k = .rightBrace

theorem EndsBlock.mayFollowExpression {next : Option Kind} (h : EndsBlock next) : MayFollowExpression next := by
  intro k hk
  rw [h k hk]
  decide

theorem EndsBlock.mayFollowReturn {next : Option Kind} (h : EndsBlock next) : MayFollowReturn next :=
  fun k hk => .inr (h k hk)

/-- These tokens start as those of kind `first` do, or end a block. -/
def StartsLike (first : Option Kind) (ts : List Token) : Prop := nextKind ts = first ∨ EndsBlock (nextKind ts)

/-- Where statements are omitted altogether, what follows them is what follows the statement before. -/
theorem StartsLike.append {c y : List Token} (h : StartsLike (nextKind rest) y) :
    StartsLike (nextKind (c ++ rest)) (c ++ y) := by
  cases c with
  | nil => exact h
  | cons t c => exact .inl rfl

theorem Ending.stands {may : Option Kind → Prop} (h : Ending may us rest) (hmay : ∀ {next}, EndsBlock next → may next) :
    Stands (fun xs ys => StartsLike (nextKind rest) ys → Ending may xs ys) us rest := by
  cases h with
  | semicolon ht => exact ⟨[_], rfl, fun _ _ => .semicolon ht⟩
  | omitted h =>
    refine ⟨[], rfl, fun y hy => .omitted ?_⟩
    obtain hy | hy := hy
    · exact hy ▸ h
    · exact hmay hy

theorem NameItems.stands {xs : List String} (h : NameItems ts xs rest) : Stands Form.nameItems ts rest := by
  induction h with
  | last hx hc => exact ((stands_kind hx).comp ((stands_kind hc).mono .inl)).mono Form.nameItem
  | more hx hs _ ih => exact ((stands_kind hx).comp (((stands_kind hs).comp ih).mono .inr)).mono Form.nameItem

theorem Names.stands {xs : List String} (h : Names ts xs rest) : Stands Form.names ts rest := by
  cases h with
  | none hc => exact ((stands_kind hc).mono .inl).mono Form.nameList
  | some h => exact (h.stands.mono .inr).mono Form.nameList

mutual

theorem Phrase.stands {tier : Tier} {ts rest : List Token} {e : Expr} :
    Phrase tier ts e rest → Stands (Form.phrase tier) ts rest
  | .tighter h => h.stands.mono fun ⟨e, he⟩ => ⟨e, .tighter he⟩
  | .chain hop hl ht hr => (hl.stands.comp ((stands_operator ht).comp hr.stands)).mono (Form.chain hop)
  | .unary ht h => ((stands_sign ht).comp h.stands).mono Form.unary
  | .call hf ht ha => (hf.stands.comp ((stands_kind ht).comp ha.stands)).mono Form.call
  | .index he ht hi hc =>
    (he.stands.comp ((stands_kind ht).comp (hi.stands.comp (stands_kind hc)))).mono Form.index
  | .name hk => ⟨[_], rfl, fun _ => ⟨_, .name hk⟩⟩
  | .integer hk hn => ⟨[_], rfl, fun _ => ⟨_, .integer hk hn⟩⟩
  | .string hk => ⟨[_], rfl, fun _ => ⟨_, .string hk⟩⟩
  | .trueWord hk => ⟨[_], rfl, fun _ => ⟨_, .trueWord hk⟩⟩
  | .falseWord hk => ⟨[_], rfl, fun _ => ⟨_, .falseWord hk⟩⟩
  | .group ho h hc => ((stands_kind ho).comp (h.stands.comp (stands_kind hc))).mono Form.group
  | .ifThen hw ho h hc hy =>
    ((stands_kind hw).comp ((stands_kind ho).comp (h.stands.comp ((stands_kind hc).comp
      (hy.stands.comp ((stands_nothing _).mono .inl)))))).mono Form.conditional
  | .ifThenElse hw ho h hc hy hv hno =>
    ((stands_kind hw).comp ((stands_kind ho).comp (h.stands.comp ((stands_kind hc).comp
      (hy.stands.comp (((stands_kind hv).comp hno.stands).mono .inr)))))).mono Form.conditional
  | .function hw ho hx hb =>
    ((stands_kind hw).comp ((stands_kind ho).comp (hx.stands.comp hb.stands))).mono Form.function
  | .array ho h => ((stands_kind ho).comp h.stands).mono Form.array
  | .hash ho h => ((stands_kind ho).comp h.stands).mono Form.hash

theorem Items.stands {close : Kind} {ts rest : List Token} {es : List Expr} :
    Items close ts es rest → Stands (Form.items close) ts rest
  | .last h hc => (h.stands.comp ((stands_kind hc).mono .inl)).mono Form.item
  | .more h hs hes => (h.stands.comp (((stands_kind hs).comp hes.stands).mono .inr)).mono Form.item

theorem Elements.stands {close : Kind} {ts rest : List Token} {es : List Expr} :
    Elements close ts es rest → Stands (Form.elements close) ts rest
  | .none hc => ((stands_kind hc).mono .inl).mono Form.list
  | .some h => (h.stands.mono .inr).mono Form.list

theorem Pairs.stands {ts rest : List Token} {ps : List (Expr × Expr)} :
    Pairs ts ps rest → Stands Form.pairs ts rest
  | .none hc => (stands_kind hc).mono Form.noPair
  | .last hk ho hv hc =>
    (hk.stands.comp ((stands_kind ho).comp (hv.stands.comp ((stands_kind hc).mono .inl)))).mono Form.pair
  | .more hk ho hv hs hps =>
    (hk.stands.comp ((stands_kind ho).comp (hv.stands.comp
      (((stands_kind hs).comp hps.stands).mono .inr)))).mono Form.pair

theorem Body.stands {ts rest : List Token} {b : Block} : Body ts b rest → Stands Form.body ts rest
  | .braces ho h hc => by
    obtain ⟨c, rfl, hss⟩ := h.stands
    refine ((stands_kind ho).comp ⟨c ++ [_], (List.append_assoc ..).symm, fun y => ?_⟩).mono Form.block
    obtain ⟨ss, hss⟩ := hss (_ :: y) (.inl rfl)
    exact ⟨ss, _, List.append_assoc c [_] y ▸ hss, hc⟩

theorem Statement.stands {ts rest : List Token} {s : Stmt} : Statement ts s rest →
    Stands (fun xs ys => StartsLike (nextKind rest) ys → ∃ s, Statement xs s ys) ts rest
  | .binding hw hx hq h hend =>
    ((stands_kind hw).comp ((stands_kind hx).comp ((stands_kind hq).comp (h.stands.comp
      (hend.stands EndsBlock.mayFollowExpression))))).mono <| by
        rintro _ ys ⟨_, ⟨w, rfl, hw⟩, _, ⟨x, rfl, hx⟩, _, ⟨q, rfl, hq⟩, _, ⟨e, he⟩, hend⟩ hy
        exact ⟨_, .binding hw hx hq he (hend hy)⟩
  | .returnNothing hw hend =>
    ((stands_kind hw).comp (hend.stands EndsBlock.mayFollowReturn)).mono <| by
      rintro _ ys ⟨_, ⟨w, rfl, hw⟩, hend⟩ hy
      exact ⟨_, .returnNothing hw (hend hy)⟩
  | .returnValue hw h hend =>
    ((stands_kind hw).comp (h.stands.comp (hend.stands EndsBlock.mayFollowExpression))).mono <| by
      rintro _ ys ⟨_, ⟨w, rfl, hw⟩, _, ⟨e, he⟩, hend⟩ hy
      exact ⟨_, .returnValue hw he (hend hy)⟩
  | .expression h hend =>
    (h.stands.comp (hend.stands EndsBlock.mayFollowExpression)).mono <| by
      rintro _ ys ⟨_, ⟨e, he⟩, hend⟩ hy
      exact ⟨_, .expression he (hend hy)⟩

theorem Statements.stands {ts rest : List Token} {ss : List Stmt} : Statements ts ss rest →
    Stands (fun xs ys => StartsLike (nextKind rest) ys → ∃ ss, Statements xs ss ys) ts rest
  | .nil => ⟨[], rfl, fun _ _ => ⟨[], .nil⟩⟩
  | .cons hs hss => by
    obtain ⟨c, rfl, hc⟩ := hs.stands
    obtain ⟨d, rfl, hd⟩ := hss.stands
    refine ⟨c ++ d, (List.append_assoc ..).symm, fun y hy => ?_⟩
    obtain ⟨s, hs⟩ := hc (d ++ y) hy.append
    obtain ⟨ss, hss⟩ := hd y hy
    exact ⟨s :: ss, .cons (List.append_assoc c d y ▸ hs) hss⟩

end

end Monkey.Grammar
