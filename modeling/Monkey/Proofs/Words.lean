import Monkey.Syntax
import Monkey.Token.Piece

/-! The words that the text of a tree is written with, the trees whose text can be read again, and what is
read then. -/
namespace Monkey
open Token (Kind)

/-- What a token says: its kind and its lexeme. -/
abbrev Word := Kind × String

namespace Token.Kind

/-- The word of a kind that has only one lexeme. -/
def word (k : Kind) : Word := (k, k.text)

end Token.Kind

def PrefixOp.kind : PrefixOp → Kind
  | not => .bang
  | negate => .minus

def InfixOp.kind : InfixOp → Kind
  | divide => .slash
  | multiply => .star
  | add => .plus
  | subtract => .minus
  | greater => .greater
  | less => .less
  | notEqual => .bangEqual
  | equal => .equalEqual

theorem PrefixOp.prefixOp?_kind (op : PrefixOp) : op.kind.prefixOp? = some op := by cases op <;> rfl

theorem InfixOp.infixOp?_kind (op : InfixOp) : op.kind.infixOp? = some op := by cases op <;> rfl

/-- Lists of words with commas between them. -/
def commaWords : List (List Word) → List Word
  | [] => []
  | [ws] => ws
  | ws :: vs :: wss => ws ++ Kind.comma.word :: commaWords (vs :: wss)

def Literal.words : Literal → List Word
  | .integer n => [(.integer, toString n.toInt)]
  | .string s => [(.string, s)]
  | .boolean true => [Kind.trueWord.word]
  | .boolean false => [Kind.falseWord.word]

def nameWords (xs : List String) : List (List Word) := xs.map fun x => [(.identifier, x)]

def braceWords (ws : List Word) : List Word := Kind.leftBrace.word :: ws ++ [Kind.rightBrace.word]

mutual

def Expr.words : Expr → List Word
  | .name _ x => [(.identifier, x)]
  | .literal l => l.words
  | .unary _ op e => Kind.leftParen.word :: op.kind.word :: e.words ++ [Kind.rightParen.word]
  | .binary _ op l r =>
    Kind.leftParen.word :: l.words ++ op.kind.word :: r.words ++ [Kind.rightParen.word]
  | .conditional c yes none =>
    Kind.ifWord.word :: Kind.leftParen.word :: c.words ++ Kind.rightParen.word :: braceWords (stmtsWords yes)
  | .conditional c yes (some no) =>
    Kind.ifWord.word :: Kind.leftParen.word :: c.words ++ Kind.rightParen.word :: braceWords (stmtsWords yes)
      ++ Kind.elseWord.word :: braceWords (stmtsWords no)
  | .function params body =>
    Kind.fnWord.word :: Kind.leftParen.word :: commaWords (nameWords params)
      ++ Kind.rightParen.word :: braceWords (stmtsWords body)
  | .call _ f args => f.words ++ Kind.leftParen.word :: commaWords (exprWords args) ++ [Kind.rightParen.word]
  | .array elems => Kind.leftBracket.word :: commaWords (exprWords elems) ++ [Kind.rightBracket.word]
  | .hash _ pairs => braceWords (commaWords (pairWords pairs))
  | .index _ e i =>
    Kind.leftParen.word :: e.words ++ Kind.leftBracket.word :: i.words
      ++ [Kind.rightBracket.word, Kind.rightParen.word]

def Stmt.words : Stmt → List Word
  | .binding x e =>
    Kind.letWord.word :: (.identifier, x) :: Kind.equal.word :: e.words ++ [Kind.semicolon.word]
  | .returning none => [Kind.returnWord.word, Kind.semicolon.word]
  | .returning (some e) => Kind.returnWord.word :: e.words ++ [Kind.semicolon.word]
  | .expression e => e.words ++ [Kind.semicolon.word]

def stmtsWords : List Stmt → List Word
  | [] => []
  | s :: ss => s.words ++ stmtsWords ss

def exprWords : List Expr → List (List Word)
  | [] => []
  | e :: es => e.words :: exprWords es

def pairWords : List (Expr × Expr) → List (List Word)
  | [] => []
  | (k, v) :: ps => (k.words ++ Kind.colon.word :: v.words) :: pairWords ps

end

/-- The tokens of `ts` before `rest` stand on the first line and say the words `ws`. -/
def Written : List Word → List Token → List Token → Prop
  | [], ts, rest => ts = rest
  | w :: ws, ts, rest => ∃ t us, ts = t :: us ∧ t.line = 0 ∧ (t.kind, t.lexeme) = w ∧ Written ws us rest

theorem written_append {ws vs : List Word} {ts rest : List Token} :
    Written (ws ++ vs) ts rest ↔ ∃ us, Written ws ts us ∧ Written vs us rest := by
  induction ws generalizing ts with
  | nil => simp [Written]
  | cons w ws ih =>
    simp only [List.cons_append, Written, ih]
    constructor
    · rintro ⟨t, us, rfl, hl, hw, vs, h, h'⟩
      exact ⟨vs, ⟨t, us, rfl, hl, hw, h⟩, h'⟩
    · rintro ⟨vs, ⟨t, us, rfl, hl, hw, h⟩, h'⟩
      exact ⟨t, us, rfl, hl, hw, vs, h, h'⟩

/-- A node that the first token introduces records line 1. -/
theorem Written.cons {k : Kind} {x : String} {ws : List Word} {ts rest : List Token}
    (h : Written ((k, x) :: ws) ts rest) :
    ∃ t us, ts = t :: us ∧ 1 = t.line + 1 ∧ t.kind = k ∧ x = t.lexeme ∧ Written ws us rest := by
  obtain ⟨t, us, rfl, hl, hw, h⟩ := h
  obtain ⟨rfl, rfl⟩ := Prod.mk.inj hw
  exact ⟨t, us, rfl, by rw [hl], rfl, rfl, h⟩

/-! A tree with 1 for every line it records. -/

mutual

def Expr.onFirstLine : Expr → Expr
  | .name _ x => .name 1 x
  | .literal l => .literal l
  | .unary _ op e => .unary 1 op e.onFirstLine
  | .binary _ op l r => .binary 1 op l.onFirstLine r.onFirstLine
  | .conditional c yes none => .conditional c.onFirstLine (stmtsOnFirstLine yes) none
  | .conditional c yes (some no) =>
    .conditional c.onFirstLine (stmtsOnFirstLine yes) (some (stmtsOnFirstLine no))
  | .function params body => .function params (stmtsOnFirstLine body)
  | .call _ f args => .call 1 f.onFirstLine (exprsOnFirstLine args)
  | .array elems => .array (exprsOnFirstLine elems)
  | .hash _ pairs => .hash 1 (pairsOnFirstLine pairs)
  | .index _ e i => .index 1 e.onFirstLine i.onFirstLine

def Stmt.onFirstLine : Stmt → Stmt
  | .binding x e => .binding x e.onFirstLine
  | .returning none => .returning none
  | .returning (some e) => .returning (some e.onFirstLine)
  | .expression e => .expression e.onFirstLine

def stmtsOnFirstLine : List Stmt → List Stmt
  | [] => []
  | s :: ss => s.onFirstLine :: stmtsOnFirstLine ss

def exprsOnFirstLine : List Expr → List Expr
  | [] => []
  | e :: es => e.onFirstLine :: exprsOnFirstLine es

def pairsOnFirstLine : List (Expr × Expr) → List (Expr × Expr)
  | [] => []
  | (k, v) :: ps => (k.onFirstLine, v.onFirstLine) :: pairsOnFirstLine ps

end

def Program.onFirstLine (p : Program) : Program := stmtsOnFirstLine p

/-- A name: an identifier of the lexer, which no keyword is. -/
def IsName (x : String) : Prop :=
  ∃ c cs, x.toList = c :: cs ∧ Piece.isWordStart c = true ∧ cs.all Piece.isWordPart = true ∧
    Kind.ofKeyword? x = none

/-- What a string can hold, which has no escapes. -/
def IsText (s : String) : Prop := s.toList.all Piece.isStringPart = true

/-! The trees whose text can be read again: names are names, strings are texts, and there are no negative
numbers, whose sign would be an operator. -/

def Literal.Writable : Literal → Prop
  | .integer n => 0 ≤ n.toInt
  | .string s => IsText s
  | .boolean _ => True

mutual

def Expr.Writable : Expr → Prop
  | .name _ x => IsName x
  | .literal l => l.Writable
  | .unary _ _ e => e.Writable
  | .binary _ _ l r => l.Writable ∧ r.Writable
  | .conditional c yes none => c.Writable ∧ StmtsWritable yes
  | .conditional c yes (some no) => c.Writable ∧ StmtsWritable yes ∧ StmtsWritable no
  | .function params body => (∀ x ∈ params, IsName x) ∧ StmtsWritable body
  | .call _ f args => f.Writable ∧ ExprsWritable args
  | .array elems => ExprsWritable elems
  | .hash _ pairs => PairsWritable pairs
  | .index _ e i => e.Writable ∧ i.Writable

def Stmt.Writable : Stmt → Prop
  | .binding x e => IsName x ∧ e.Writable
  | .returning none => True
  | .returning (some e) => e.Writable
  | .expression e => e.Writable

def StmtsWritable : List Stmt → Prop
  | [] => True
  | s :: ss => s.Writable ∧ StmtsWritable ss

def ExprsWritable : List Expr → Prop
  | [] => True
  | e :: es => e.Writable ∧ ExprsWritable es

def PairsWritable : List (Expr × Expr) → Prop
  | [] => True
  | (k, v) :: ps => (k.Writable ∧ v.Writable) ∧ PairsWritable ps

end

def Program.Writable (p : Program) : Prop := StmtsWritable p

end Monkey
