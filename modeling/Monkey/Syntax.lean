import Monkey.Syntax.Operator

/-! Programs as trees. A node that can fail when it is evaluated records the line, counted from 1, of the
token that introduced it. -/
namespace Monkey

inductive Literal where
  | integer (n : Int64)
  | string (s : String)
  | boolean (b : Bool)
  deriving DecidableEq, Repr

mutual

inductive Expr where
  | name (line : Nat) (x : String)
  | literal (l : Literal)
  | unary (line : Nat) (op : PrefixOp) (operand : Expr)
  | binary (line : Nat) (op : InfixOp) (left right : Expr)
  | conditional (condition : Expr) (consequence : List Stmt) (alternative : Option (List Stmt))
  | function (params : List String) (body : List Stmt)
  | call (line : Nat) (callee : Expr) (args : List Expr)
  | array (elems : List Expr)
  | hash (line : Nat) (pairs : List (Expr × Expr))
  | index (line : Nat) (base subscript : Expr)

inductive Stmt where
  | binding (x : String) (value : Expr)
  | returning (value : Option Expr)
  | expression (e : Expr)

end

instance : Inhabited Expr := ⟨.array []⟩
instance : Inhabited Stmt := ⟨.returning none⟩

/-- A block is its statements: it opens no scope of its own. -/
abbrev Block := List Stmt

/-- A program is the statements of its source. -/
abbrev Program := List Stmt

def Expr.line? : Expr → Option Nat
  | .name line _ | .unary line _ _ | .binary line _ _ _ => some line
  | .call line _ _ | .hash line _ | .index line _ _ => some line
  | .literal _ | .conditional _ _ _ | .function _ _ | .array _ => none

def Stmt.line? : Stmt → Option Nat
  | .binding _ value => value.line?
  | .returning value => value.bind Expr.line?
  | .expression e => e.line?

/-! Two trees are the same when all their parts are, the recorded lines included. -/

mutual

def Expr.same : Expr → Expr → Bool
  | .name l x, .name m y => l = m && x = y
  | .literal a, .literal b => a = b
  | .unary l o e, .unary m p f => l = m && o = p && e.same f
  | .binary l o a b, .binary m p c d => l = m && o = p && a.same c && b.same d
  | .conditional c y none, .conditional d z none => c.same d && sameBlock y z
  | .conditional c y (some n), .conditional d z (some o) => c.same d && sameBlock y z && sameBlock n o
  | .function ps b, .function qs c => ps = qs && sameBlock b c
  | .call l f es, .call m g fs => l = m && f.same g && sameExprs es fs
  | .array es, .array fs => sameExprs es fs
  | .hash l ps, .hash m qs => l = m && samePairs ps qs
  | .index l e i, .index m f j => l = m && e.same f && i.same j
  | _, _ => false

def Stmt.same : Stmt → Stmt → Bool
  | .binding x e, .binding y f => x = y && e.same f
  | .returning none, .returning none => true
  | .returning (some e), .returning (some f) => e.same f
  | .expression e, .expression f => e.same f
  | _, _ => false

def sameBlock : List Stmt → List Stmt → Bool
  | [], [] => true
  | s :: ss, t :: ts => s.same t && sameBlock ss ts
  | _, _ => false

def sameExprs : List Expr → List Expr → Bool
  | [], [] => true
  | e :: es, f :: fs => e.same f && sameExprs es fs
  | _, _ => false

def samePairs : List (Expr × Expr) → List (Expr × Expr) → Bool
  | [], [] => true
  | (k, v) :: ps, (l, w) :: qs => k.same l && v.same w && samePairs ps qs
  | _, _ => false

end

mutual

theorem Expr.same_iff : ∀ a b : Expr, a.same b = true ↔ a = b
  | .name _ _, b => by cases b <;> simp [Expr.same]
  | .literal _, b => by cases b <;> simp [Expr.same]
  | .unary _ _ e, b => by cases b <;> simp [Expr.same, Expr.same_iff e, and_assoc]
  | .binary _ _ c d, b => by cases b <;> simp [Expr.same, Expr.same_iff c, Expr.same_iff d, and_assoc]
  | .conditional c y none, .conditional _ _ none => by simp [Expr.same, Expr.same_iff c, sameBlock_iff y]
  | .conditional c y (some n), .conditional _ _ (some _) => by
    simp [Expr.same, Expr.same_iff c, sameBlock_iff y, sameBlock_iff n, and_assoc]
  | .conditional _ _ none, .conditional _ _ (some _) => by simp [Expr.same]
  | .conditional _ _ (some _), .conditional _ _ none => by simp [Expr.same]
  | .conditional _ _ a, .name _ _ | .conditional _ _ a, .literal _ | .conditional _ _ a, .unary _ _ _
  | .conditional _ _ a, .binary _ _ _ _ | .conditional _ _ a, .function _ _ | .conditional _ _ a, .call _ _ _
  | .conditional _ _ a, .array _ | .conditional _ _ a, .hash _ _ | .conditional _ _ a, .index _ _ _ => by
    cases a <;> simp [Expr.same]
  | .function _ body, b => by cases b <;> simp [Expr.same, sameBlock_iff body]
  | .call _ f es, b => by cases b <;> simp [Expr.same, Expr.same_iff f, sameExprs_iff es, and_assoc]
  | .array es, b => by cases b <;> simp [Expr.same, sameExprs_iff es]
  | .hash _ ps, b => by cases b <;> simp [Expr.same, samePairs_iff ps]
  | .index _ e i, b => by cases b <;> simp [Expr.same, Expr.same_iff e, Expr.same_iff i, and_assoc]
termination_by structural a => a

theorem Stmt.same_iff : ∀ a b : Stmt, a.same b = true ↔ a = b
  | .binding _ e, b => by cases b <;> simp [Stmt.same, Expr.same_iff e]
  | .returning none, .returning none => by simp [Stmt.same]
  | .returning (some e), .returning (some _) => by simp [Stmt.same, Expr.same_iff e]
  | .returning none, .returning (some _) | .returning (some _), .returning none => by simp [Stmt.same]
  | .returning a, .binding _ _ | .returning a, .expression _ => by cases a <;> simp [Stmt.same]
  | .expression e, b => by cases b <;> simp [Stmt.same, Expr.same_iff e]
termination_by structural a => a

theorem sameBlock_iff : ∀ a b : List Stmt, sameBlock a b = true ↔ a = b
  | [], b => by cases b <;> simp [sameBlock]
  | s :: ss, b => by cases b <;> simp [sameBlock, Stmt.same_iff s, sameBlock_iff ss]
termination_by structural a => a

theorem sameExprs_iff : ∀ a b : List Expr, sameExprs a b = true ↔ a = b
  | [], b => by cases b <;> simp [sameExprs]
  | e :: es, b => by cases b <;> simp [sameExprs, Expr.same_iff e, sameExprs_iff es]
termination_by structural a => a

theorem samePairs_iff : ∀ a b : List (Expr × Expr), samePairs a b = true ↔ a = b
  | [], b => by cases b <;> simp [samePairs]
  | (k, v) :: ps, [] => by simp [samePairs]
  | (k, v) :: ps, (_, _) :: _ => by
    simp [samePairs, Expr.same_iff k, Expr.same_iff v, samePairs_iff ps, and_assoc]
termination_by structural a => a

end

instance : DecidableEq Expr := fun a b => decidable_of_iff _ (Expr.same_iff a b)
instance : DecidableEq Stmt := fun a b => decidable_of_iff _ (Stmt.same_iff a b)

end Monkey
