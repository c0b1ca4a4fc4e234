import Monkey.Syntax.Operator

/-! What a grammar rule answers with: its result or a mistake, the mistakes that blocks inside it have
recovered from, and the tokens it leaves unread. -/
namespace Monkey
open Token (Kind)

inductive SyntaxFault where
  | endOfTokens
  | noOperand (found : Token)
  | badInteger (found : Token)
  | expected (kind : Kind) (found : Option Token)
  deriving DecidableEq, Repr

/-- A mistake, how many tokens were unread when it was noticed, the offending one among them (none is left
if the tokens ended too early), and how many braces its statement had opened and not closed by then. -/
structure SyntaxError where
  fault : SyntaxFault
  unread : Nat
  unclosed : Nat := 0
  deriving DecidableEq, Repr

private def atToken (t : Token) (text : String) : String :=
  "Parse error at line " ++ toString (t.line + 1) ++ ": " ++ text ++ t.lexeme

def SyntaxError.message (e : SyntaxError) : String :=
  match e.fault with
  | .endOfTokens => "Parse error: end of stream"
  | .noOperand found => atToken found "no prefix parse rule for "
  | .badInteger found => atToken found "invalid integer literal "
  | .expected kind (some found) => atToken found ("expected " ++ kind.text ++ ", found ")
  | .expected kind none => "Parse error: expected " ++ kind.text ++ ", found end of stream"

/-- A rule's answer: the errors that blocks inside it have recovered from, in order, its result, and the
unread tokens, of which there are at most `n`. -/
structure Reply (n : Nat) (α : Type) where
  errors : List SyntaxError
  outcome : Except SyntaxError α
  rest : List Token
  length_rest_le : rest.length ≤ n

theorem length_le_length_cons (t : Token) (ts : List Token) : ts.length ≤ (t :: ts).length := Nat.le_succ _

namespace Reply

variable {α β : Type} {m n : Nat}

def done (a : α) (rest : List Token) : Reply rest.length α := ⟨[], .ok a, rest, Nat.le_refl _⟩

def fail (fault : SyntaxFault) (rest : List Token) : Reply rest.length α :=
  ⟨[], .error { fault, unread := rest.length }, rest, Nat.le_refl _⟩

/-- A mistake at a token that has been read. -/
def refuse (fault : SyntaxFault) (rest : List Token) : Reply rest.length α :=
  ⟨[], .error { fault, unread := rest.length + 1 }, rest, Nat.le_refl _⟩

def relax (r : Reply m α) (h : m ≤ n) : Reply n α :=
  { r with length_rest_le := Nat.le_trans r.length_rest_le h }

def weaken (r : Reply (n - 1) α) : Reply n α := r.relax (Nat.sub_le n 1)

/-- Reads on where `r` stopped, unless it failed. -/
@[inline] def andThen (r : Reply n α)
    (next : α → (rest : List Token) → rest.length ≤ n → Reply rest.length β) : Reply n β :=
  match r with
  | ⟨errors, .error e, rest, h⟩ => ⟨errors, .error e, rest, h⟩
  | ⟨errors, .ok a, rest, h⟩ =>
    let s := next a rest h
    ⟨errors ++ s.errors, s.outcome, s.rest, Nat.le_trans s.length_rest_le h⟩

@[inline] def map (f : α → β) (r : Reply n α) : Reply n β :=
  { r with outcome := r.outcome.map f }

/-- What a rule answers between braces, the first of which has been read: a mistake leaves them open. -/
@[inline] def inBraces (r : Reply n α) : Reply n α :=
  { r with outcome := r.outcome.mapError fun e => { e with unclosed := e.unclosed + 1 } }

end Reply
end Monkey
