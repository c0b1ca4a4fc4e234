import Monkey.Proofs.Machine

/-! What one step of the machine can do to its environment, its depth and its stack, and how much syntax it
takes up. All that holds along a run is read off from this. -/
namespace Monkey

/-! The size of a piece of syntax: how many expressions, statements and blocks it is made of. -/

mutual

def Expr.size : Expr → Nat
  | .name _ _ | .literal _ => 1
  | .unary _ _ e => e.size + 1
  | .binary _ _ l r => l.size + r.size + 1
  | .conditional c consequence none => c.size + (sizeOfStmts consequence + 1) + 1
  | .conditional c consequence (some alternative) =>
    c.size + ((sizeOfStmts consequence + 1) + (sizeOfStmts alternative + 1)) + 1
  | .function _ body => (sizeOfStmts body + 1) + 1
  | .call _ callee args => callee.size + sizeOfExprs args + 1
  | .array elems => sizeOfExprs elems + 1
  | .hash _ ps => sizeOfPairs ps + 1
  | .index _ base subscript => base.size + subscript.size + 1

def Stmt.size : Stmt → Nat
  | .binding _ e => e.size + 1
  | .returning none => 1
  | .returning (some e) => e.size + 1
  | .expression e => e.size + 1

def sizeOfStmts : List Stmt → Nat
  | [] => 0
  | s :: ss => s.size + sizeOfStmts ss

def sizeOfExprs : List Expr → Nat
  | [] => 0
  | e :: es => e.size + sizeOfExprs es

def sizeOfPairs : List (Expr × Expr) → Nat
  | [] => 0
  | (k, v) :: ps => k.size + (v.size + sizeOfPairs ps)

end

def Node.size : Node → Nat
  | .expr e => e.size
  | .stmt s => s.size
  | .block b => sizeOfStmts b + 1

theorem Expr.size_pos (e : Expr) : 0 < e.size := by
  cases e with
  | conditional c consequence alternative => cases alternative <;> exact Nat.succ_pos _
  | _ => exact Nat.succ_pos _

theorem Node.size_pos (n : Node) : 0 < n.size := by
  cases n with
  | expr e => exact e.size_pos
  | stmt s =>
    cases s with
    | returning e => cases e <;> exact Nat.succ_pos _
    | _ => exact Nat.succ_pos _
  | block b => exact Nat.succ_pos _

namespace Machine

/-- The size of what is still to be evaluated. -/
def Pending.size : Pending → Nat
  | .left _ r => r.size
  | .condition consequence none => sizeOfStmts consequence + 1
  | .condition consequence (some alternative) => (sizeOfStmts consequence + 1) + (sizeOfStmts alternative + 1)
  | .callee args => sizeOfExprs args
  | .item _ _ rest => sizeOfExprs rest
  | .key _ value rest => value.size + sizeOfPairs rest
  | .entry _ _ rest => sizeOfPairs rest
  | .base e => e.size
  | .statement rest => sizeOfStmts rest
  | .operand _ | .right _ _ | .subscript _ | .binding _ | .returning => 0

/-- The size of what the next step begins to evaluate. -/
def Control.size : Control → Nat
  | .task (.evaluate n) => n.size
  | .task (.call _ _) | .find _ _ | .done _ => 0

/-- `m'` goes on in the place of `m`, in the same environment and at the same depth, with syntax whose size is
at most `k`: all of it is next, or some of it waits in a frame of its own. -/
structure Within (k : Nat) (m m' : Machine) : Prop where
  env : m'.env = m.env
  depth : m'.depth = m.depth
  stack : m'.stack = m.stack ∧ m'.control.size ≤ k ∨
    ∃ p, m'.stack = .pending p :: m.stack ∧ m'.control.size + p.size ≤ k

section
variable {k : Nat} {m : Machine}

theorem within_evaluate {n : Node} (h : n.size ≤ k) : Within k m (m.evaluate n) := ⟨rfl, rfl, .inl ⟨rfl, h⟩⟩

theorem within_push {n : Node} {p : Pending} (h : n.size + p.size ≤ k) :
    Within k m ((m.push (.pending p)).evaluate n) := ⟨rfl, rfl, .inr ⟨p, rfl, h⟩⟩

theorem within_of_done {m' : Machine} (henv : m'.env = m.env) (hdepth : m'.depth = m.depth)
    (hstack : m'.stack = m.stack) (hsize : m'.control.size = 0) : Within k m m' :=
  ⟨henv, hdepth, .inl ⟨hstack, hsize ▸ Nat.zero_le k⟩⟩

theorem within_finish (o : Outcome) : Within k m (m.finish o) := within_of_done rfl rfl rfl rfl

theorem within_perform (x : Run Value) : Within k m (m.perform x) := within_of_done rfl rfl rfl rfl

theorem within_items (use : Use) (done : List Value) {es : List Expr} (h : sizeOfExprs es ≤ k) :
    Within k m (m.items use done es) := by
  cases es with
  | nil => cases use <;> exact within_of_done rfl rfl rfl rfl
  | cons e es =>
    rw [sizeOfExprs] at h
    exact within_push h

theorem within_pairs (entries : Entries) {ps : List (Expr × Expr)} (h : sizeOfPairs ps ≤ k) :
    Within k m (m.pairs entries ps) := by
  cases ps with
  | nil => exact within_perform _
  | cons p ps =>
    rw [sizeOfPairs] at h
    exact within_push h

theorem within_statements (last : Value) {b : Block} (h : sizeOfStmts b ≤ k) :
    Within k m (m.statements last b) := by
  cases b with
  | nil => exact within_finish _
  | cons s ss =>
    rw [sizeOfStmts] at h
    exact within_push h

/-- The rule of a node begins with parts that are smaller than the node, all together. -/
theorem within_expand (n : Node) (h : n.size ≤ k + 1) : Within k m (m.expand n) := by
  cases n with
  | expr e =>
    cases e with
    | name line x => exact within_of_done rfl rfl rfl rfl
    | literal l => exact within_finish _
    | unary line op e => exact within_push (Nat.le_of_succ_le_succ h)
    | binary line op l r => exact within_push (Nat.le_of_succ_le_succ h)
    | conditional c consequence alternative =>
      cases alternative <;> exact within_push (Nat.le_of_succ_le_succ h)
    | function params body => exact within_perform _
    | call line callee args => exact within_push (Nat.le_of_succ_le_succ h)
    | array elems => exact within_items _ _ (Nat.le_of_succ_le_succ h)
    | hash line ps => exact within_pairs _ (Nat.le_of_succ_le_succ h)
    | index line base subscript => exact within_push (Nat.le_of_succ_le_succ h)
  | stmt s =>
    cases s with
    | binding x e => exact within_push (Nat.le_of_succ_le_succ h)
    | returning e =>
      cases e with
      | none => exact within_finish _
      | some e => exact within_push (Nat.le_of_succ_le_succ h)
    | expression e => exact within_evaluate (Nat.le_of_succ_le_succ h)
  | block b => exact within_statements _ (Nat.le_of_succ_le_succ h)

/-- What goes on with a value evaluates what has waited for it. -/
theorem within_advance (v : Value) (p : Pending) : Within p.size m (m.advance v p) := by
  cases p with
  | operand op => exact within_perform _
  | left op r => exact within_push (Nat.le_refl _)
  | right op l => exact within_perform _
  | condition consequence alternative =>
    cases alternative with
    | none =>
      simp only [advance]
      split
      · exact within_evaluate (Nat.le_refl _)
      · exact within_finish _
    | some alternative =>
      simp only [advance]
      split
      · exact within_evaluate (Nat.le_add_right _ _)
      · exact within_evaluate (Nat.le_add_left _ _)
  | callee args =>
    simp only [advance]
    split
    · exact within_items _ _ (Nat.le_refl _)
    · exact within_perform _
  | item use done rest => exact within_items _ _ (Nat.le_refl _)
  | key entries value rest =>
    simp only [advance]
    split
    · exact within_push (Nat.le_refl _)
    · exact within_perform _
  | entry entries k rest => exact within_pairs _ (Nat.le_refl _)
  | base e => exact within_push (Nat.le_refl _)
  | subscript base => exact within_perform _
  | binding x => exact within_of_done rfl rfl rfl rfl
  | returning => exact within_finish _
  | statement rest => exact within_statements _ (Nat.le_refl _)

theorem within_search (x : String) (env : Env) : Within k m (m.search x env) := by
  unfold search
  split
  · exact within_finish _
  · split
    · exact within_of_done rfl rfl rfl rfl
    · exact within_perform _

end

/-- What a step can do: begin with a node or go on below one, begin a call or a body, and leave the innermost
frame. Only the body of a call has an environment and a depth of its own. -/
inductive Moves (m m' : Machine) : Prop where
  | opens (n : Node) (hcontrol : m.control = .task (.evaluate n))
      (h : Within (n.size - 1) (m.push (.node n)) m')
  | works (h : Within 0 m m')
  | enters (env : Env) (store : Store) (body : Block) (hdepth : m.depth < maxCallDepth)
      (h : m' = { m with env, store, depth := m.depth + 1, stack := .body m.env :: m.stack }.evaluate
        (.block body))
  | closes (n : Node) (stack : List Frame) (hstack : m.stack = .node n :: stack)
      (h : Within 0 { m with stack } m')
  | resumes (p : Pending) (stack : List Frame) (hstack : m.stack = .pending p :: stack)
      (h : Within p.size { m with stack } m')
  | leaves (env : Env) (stack : List Frame) (hstack : m.stack = .body env :: stack) (o : Outcome)
      (h : m' = { m with env, depth := m.depth - 1, stack }.finish o)

theorem moves_of_step {m m' : Machine} (h : m.step = some m') : Moves m m' := by
  unfold step at h
  split at h
  · next n hcontrol =>
    cases h
    exact .opens n hcontrol (within_expand n (by omega))
  · next c args hcontrol =>
    cases h
    cases c with
    | builtin b => exact .works (within_perform _)
    | function f =>
      by_cases hargs : f.params.length = args.length
      · by_cases hdepth : m.depth < maxCallDepth
        · exact .enters _ _ f.body hdepth (enter_of_lt hargs hdepth)
        · exact .works (enter_of_not_lt hargs hdepth ▸ within_perform _)
      · exact .works (enter_of_ne hargs ▸ within_perform _)
  · next x env hcontrol =>
    cases h
    exact .works (within_search x env)
  · next o hcontrol =>
    split at h
    · cases h
    · next f stack hstack =>
      cases h
      cases f with
      | node n => exact .closes n stack hstack (within_finish _)
      | body env => exact .leaves env stack hstack _ rfl
      | pending p =>
        refine .resumes p stack hstack ?_
        cases o with
        | value v => exact within_advance v p
        | returned v => exact within_finish _
        | error e => exact within_finish _

end Machine
end Monkey
