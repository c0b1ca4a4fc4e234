import Monkey.Syntax
import Monkey.Text.Decimal

/-! The grammar of programs, in tiers from the loosest binding expressions to the tightest. A derivation
`Phrase tier ts e rest` says that the tokens of `ts` before `rest` form the expression `e`. -/
namespace Monkey.Grammar
open Token (Kind)

/-- The tiers of expressions. In the first four, chains of operators lean to the left. -/
inductive Tier where
  | equality | comparison | sum | product | unary | primary | atom
  deriving DecidableEq, Repr

namespace Tier

def tighter : Tier → Tier
  | equality => comparison
  | comparison => sum
  | sum => product
  | product => unary
  | unary => primary
  | primary => atom
  | atom => atom

/-- The operators between the links of a tier's chains. -/
def operators : Tier → List InfixOp
  | equality => [.equal, .notEqual]
  | comparison => [.less, .greater]
  | sum => [.add, .subtract]
  | product => [.multiply, .divide]
  | unary | primary | atom => []

end Tier

/-- The kind of the first token, if there is one. -/
def nextKind (ts : List Token) : Option Kind := ts.head?.map Token.kind

/-- What may come after a statement that ends in an expression and has no semicolon. -/
def MayFollowExpression (next : Option Kind) : Prop :=
  ∀ k ∈ next, k.infixOp? = none ∧ k ≠ .leftParen ∧ k ≠ .leftBracket

/-- What may come after the word of a return without a value. -/
def MayFollowReturn (next : Option Kind) : Prop := ∀ k ∈ next, k = .semicolon ∨ k = .rightBrace

/-- A statement's end: its semicolon, or nothing where `may` lets the next token follow. -/
inductive Ending (may : Option Kind → Prop) : List Token → List Token → Prop where
  | semicolon {t : Token} {rest : List Token} : t.kind = .semicolon → Ending may (t :: rest) rest
  | omitted {rest : List Token} : may (nextKind rest) → Ending may rest rest

/-- Names set apart by commas, and the closing parenthesis. -/
inductive NameItems : List Token → List String → List Token → Prop where
  | last {x c : Token} {rest : List Token} : x.kind = .identifier → c.kind = .rightParen →
      NameItems (x :: c :: rest) [x.lexeme] rest
  | more {x s : Token} {ts rest : List Token} {xs : List String} : x.kind = .identifier → s.kind = .comma →
      NameItems ts xs rest → NameItems (x :: s :: ts) (x.lexeme :: xs) rest

/-- A parameter list after its opening parenthesis. -/
inductive Names : List Token → List String → List Token → Prop where
  | none {c : Token} {rest : List Token} : c.kind = .rightParen → Names (c :: rest) [] rest
  | some {ts rest : List Token} {xs : List String} : NameItems ts xs rest → Names ts xs rest

mutual

inductive Phrase : Tier → List Token → Expr → List Token → Prop where
  | tighter {tier : Tier} {ts rest : List Token} {e : Expr} :
      Phrase tier.tighter ts e rest → Phrase tier ts e rest
  | chain {tier : Tier} {ts us rest : List Token} {t : Token} {op : InfixOp} {l r : Expr} :
      op ∈ tier.operators → Phrase tier ts l (t :: us) → t.kind.infixOp? = some op →
      Phrase tier.tighter us r rest → Phrase tier ts (.binary (t.line + 1) op l r) rest
  | unary {ts rest : List Token} {t : Token} {op : PrefixOp} {e : Expr} :
      t.kind.prefixOp? = some op → Phrase .unary ts e rest →
      Phrase .unary (t :: ts) (.unary (t.line + 1) op e) rest
  | call {ts us rest : List Token} {t : Token} {f : Expr} {args : List Expr} :
      Phrase .primary ts f (t :: us) → t.kind = .leftParen → Elements .rightParen us args rest →
      Phrase .primary ts (.call (t.line + 1) f args) rest
  | index {ts us rest : List Token} {t c : Token} {e i : Expr} :
      Phrase .primary ts e (t :: us) → t.kind = .leftBracket → Phrase .equality us i (c :: rest) →
      c.kind = .rightBracket → Phrase .primary ts (.index (t.line + 1) e i) rest
  | name {t : Token} {rest : List Token} : t.kind = .identifier →
      Phrase .atom (t :: rest) (.name (t.line + 1) t.lexeme) rest
  | integer {t : Token} {rest : List Token} {n : Int64} : t.kind = .integer →
      Decimal.integer? t.lexeme = some n → Phrase .atom (t :: rest) (.literal (.integer n)) rest
  | string {t : Token} {rest : List Token} : t.kind = .string →
      Phrase .atom (t :: rest) (.literal (.string t.lexeme)) rest
  | trueWord {t : Token} {rest : List Token} : t.kind = .trueWord →
      Phrase .atom (t :: rest) (.literal (.boolean true)) rest
  | falseWord {t : Token} {rest : List Token} : t.kind = .falseWord →
      Phrase .atom (t :: rest) (.literal (.boolean false)) rest
  | group {o c : Token} {ts rest : List Token} {e : Expr} : o.kind = .leftParen →
      Phrase .equality ts e (c :: rest) → c.kind = .rightParen → Phrase .atom (o :: ts) e rest
  | ifThen {w o c : Token} {ts us rest : List Token} {e : Expr} {yes : Block} :
      w.kind = .ifWord → o.kind = .leftParen → Phrase .equality ts e (c :: us) → c.kind = .rightParen →
      Body us yes rest → Phrase .atom (w :: o :: ts) (.conditional e yes none) rest
  | ifThenElse {w o c v : Token} {ts us vs rest : List Token} {e : Expr} {yes no : Block} :
      w.kind = .ifWord → o.kind = .leftParen → Phrase .equality ts e (c :: us) → c.kind = .rightParen →
      Body us yes (v :: vs) → v.kind = .elseWord → Body vs no rest →
      Phrase .atom (w :: o :: ts) (.conditional e yes (some no)) rest
  | function {w o : Token} {ts us rest : List Token} {params : List String} {body : Block} :
      w.kind = .fnWord → o.kind = .leftParen → Names ts params us → Body us body rest →
      Phrase .atom (w :: o :: ts) (.function params body) rest
  | array {o : Token} {ts rest : List Token} {es : List Expr} : o.kind = .leftBracket →
      Elements .rightBracket ts es rest → Phrase .atom (o :: ts) (.array es) rest
  | hash {o : Token} {ts rest : List Token} {ps : List (Expr × Expr)} : o.kind = .leftBrace →
      Pairs ts ps rest → Phrase .atom (o :: ts) (.hash (o.line + 1) ps) rest

/-- Expressions set apart by commas, and the token `close`. -/
inductive Items : Kind → List Token → List Expr → List Token → Prop where
  | last {close : Kind} {c : Token} {ts rest : List Token} {e : Expr} :
      Phrase .equality ts e (c :: rest) → c.kind = close → Items close ts [e] rest
  | more {close : Kind} {s : Token} {ts us rest : List Token} {e : Expr} {es : List Expr} :
      Phrase .equality ts e (s :: us) → s.kind = .comma → Items close us es rest →
      Items close ts (e :: es) rest

/-- The same, where there may be no expression at all. -/
inductive Elements : Kind → List Token → List Expr → List Token → Prop where
  | none {close : Kind} {c : Token} {rest : List Token} : c.kind = close →
      Elements close (c :: rest) [] rest
  | some {close : Kind} {ts rest : List Token} {es : List Expr} :
      Items close ts es rest → Elements close ts es rest

/-- The pairs of a hash literal and its closing brace. The last pair may have a comma after it. -/
inductive Pairs : List Token → List (Expr × Expr) → List Token → Prop where
  | none {c : Token} {rest : List Token} : c.kind = .rightBrace → Pairs (c :: rest) [] rest
  | last {o c : Token} {ts us rest : List Token} {k v : Expr} :
      Phrase .equality ts k (o :: us) → o.kind = .colon → Phrase .equality us v (c :: rest) →
      c.kind = .rightBrace → Pairs ts [(k, v)] rest
  | more {o s : Token} {ts us vs rest : List Token} {k v : Expr} {ps : List (Expr × Expr)} :
      Phrase .equality ts k (o :: us) → o.kind = .colon → Phrase .equality us v (s :: vs) →
      s.kind = .comma → Pairs vs ps rest → Pairs ts ((k, v) :: ps) rest

/-- A block: statements between braces. -/
inductive Body : List Token → Block → List Token → Prop where
  | braces {o c : Token} {ts rest : List Token} {ss : List Stmt} : o.kind = .leftBrace →
      Statements ts ss (c :: rest) → c.kind = .rightBrace → Body (o :: ts) ss rest

inductive Statement : List Token → Stmt → List Token → Prop where
  | binding {w x q : Token} {ts us rest : List Token} {e : Expr} : w.kind = .letWord →
      x.kind = .identifier → q.kind = .equal → Phrase .equality ts e us →
      Ending MayFollowExpression us rest → Statement (w :: x :: q :: ts) (.binding x.lexeme e) rest
  | returnNothing {w : Token} {ts rest : List Token} : w.kind = .returnWord →
      Ending MayFollowReturn ts rest → Statement (w :: ts) (.returning none) rest
  | returnValue {w : Token} {ts us rest : List Token} {e : Expr} : w.kind = .returnWord →
      Phrase .equality ts e us → Ending MayFollowExpression us rest →
      Statement (w :: ts) (.returning (some e)) rest
  | expression {ts us rest : List Token} {e : Expr} : Phrase .equality ts e us →
      Ending MayFollowExpression us rest → Statement ts (.expression e) rest

inductive Statements : List Token → List Stmt → List Token → Prop where
  | nil {rest : List Token} : Statements rest [] rest
  | cons {ts us rest : List Token} {s : Stmt} {ss : List Stmt} : Statement ts s us →
      Statements us ss rest → Statements ts (s :: ss) rest

end

/-- The tokens derive the program, all of them. -/
def Derives (ts : List Token) (p : Program) : Prop := Statements ts p []

end Monkey.Grammar
