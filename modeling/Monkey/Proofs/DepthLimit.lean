import Monkey.Proofs.Growth
import Monkey.Proofs.MachineRuns

/-! The limit on the depth of calls changes nothing but itself: an evaluation that does not run into it goes
the same way when more calls may be nested, and one that runs into it does so, too, when fewer may be. -/
namespace Monkey
namespace Run

variable {α β : Type} {st : Store}

/-- An evaluation was left because calls were nested too deeply. -/
def TooDeep : EStateM.Result Exit Store α → Prop
  | .error (.error e) _ => e.fault = .callsTooDeep
  | .error (.returned _) _ | .ok _ _ => False

/-- Carried out from any store, `y` does what `x` does unless `x` runs into the limit. -/
def Outlasts (y x : Run α) : Prop := ∀ st, ¬ TooDeep (x st) → y st = x st

theorem Outlasts.refl (x : Run α) : Outlasts x x := fun _ _ => rfl

theorem outlasts_of_tooDeep {x y : Run α} (h : ∀ st, TooDeep (x st)) : Outlasts y x :=
  fun st hst => absurd (h st) hst

/-- No part of an evaluation takes back an error of a part before it. -/
theorem tooDeep_bind {x : Run α} {f : α → Run β} (h : TooDeep (x st)) : TooDeep ((x >>= f) st) := by
  cases hx : x st with
  | ok a st' =>
    rw [hx] at h
    exact h.elim
  | error e st' =>
    rw [bind_eq_of_error hx]
    rw [hx] at h
    cases e <;> exact h

theorem tooDeep_atLine {line : Nat} {x : Run α} (h : TooDeep (x st)) : TooDeep (atLine line x st) := by
  unfold atLine
  cases hx : x st with
  | ok a st' =>
    rw [hx] at h
    exact h.elim
  | error e st' =>
    rw [hx] at h
    cases e with
    | error e => exact h
    | returned v => exact h.elim

theorem tooDeep_catchReturn {x : Run Value} (h : TooDeep (x st)) : TooDeep (catchReturn x st) := by
  unfold catchReturn
  cases hx : x st with
  | ok a st' =>
    rw [hx] at h
    exact h.elim
  | error e st' =>
    rw [hx] at h
    cases e with
    | error e => exact h
    | returned v => exact h.elim

namespace Outlasts

variable {x y : Run α}

theorem bind {f g : α → Run β} (h : Outlasts y x) (hf : ∀ a, Outlasts (g a) (f a)) :
    Outlasts (y >>= g) (x >>= f) := by
  intro st hst
  have hy : y st = x st := h st fun hx => hst (tooDeep_bind hx)
  cases hx : x st with
  | error e st' =>
    rw [hx] at hy
    rw [bind_eq_of_error hx, bind_eq_of_error hy]
  | ok a st' =>
    rw [hx] at hy
    rw [bind_eq_of_ok hx] at hst ⊢
    rw [bind_eq_of_ok hy]
    exact hf a st' hst

theorem atLine (line : Nat) (h : Outlasts y x) : Outlasts (atLine line y) (atLine line x) := by
  intro st hst
  have hy : y st = x st := h st fun hx => hst (tooDeep_atLine hx)
  simp only [Run.atLine, hy]

theorem catchReturn {x y : Run Value} (h : Outlasts y x) : Outlasts (catchReturn y) (catchReturn x) := by
  intro st hst
  have hy : y st = x st := h st fun hx => hst (tooDeep_catchReturn hx)
  simp only [Run.catchReturn, hy]

end Outlasts
end Run

namespace Eval
open Run

section
variable {apply apply' : Apply} {env : Env}

/-! How functions are applied is all that differs, so what does not apply any is the same. -/

mutual

theorem outlasts_expr (happly : ∀ f args, Outlasts (apply' f args) (apply f args)) :
    ∀ e : Expr, Outlasts (expr apply' env e) (expr apply env e)
  | .name _ _ | .literal _ | .function _ _ => .refl _
  | .unary line op e => by
    rw [expr, expr]
    exact .atLine line (.bind (outlasts_expr happly e) fun v => .refl _)
  | .binary line op l r => by
    rw [expr, expr]
    exact .atLine line (.bind (outlasts_expr happly l) fun v => .bind (outlasts_expr happly r) fun w => .refl _)
  | .conditional c consequence none => by
    rw [expr, expr]
    refine .bind (outlasts_expr happly c) fun v => ?_
    split
    · exact outlasts_stmts happly consequence .null
    · exact .refl _
  | .conditional c consequence (some alternative) => by
    rw [expr, expr]
    refine .bind (outlasts_expr happly c) fun v => ?_
    split
    · exact outlasts_stmts happly consequence .null
    · exact outlasts_stmts happly alternative .null
  | .call line callee args => by
    rw [expr, expr]
    refine .atLine line (.bind (outlasts_expr happly callee) fun v => ?_)
    split
    · exact .bind (outlasts_exprs happly args) fun vs => happly _ vs
    · exact .bind (outlasts_exprs happly args) fun vs => .refl _
    · exact .refl _
  | .array elems => by
    rw [expr, expr]
    exact .bind (outlasts_exprs happly elems) fun vs => .refl _
  | .hash line ps => by
    rw [expr, expr]
    exact .atLine line (.bind (outlasts_pairs happly ps []) fun es => .refl _)
  | .index line base subscript => by
    rw [expr, expr]
    exact .atLine line (.bind (outlasts_expr happly base) fun v =>
      .bind (outlasts_expr happly subscript) fun w => .refl _)

theorem outlasts_exprs (happly : ∀ f args, Outlasts (apply' f args) (apply f args)) :
    ∀ es : List Expr, Outlasts (exprs apply' env es) (exprs apply env es)
  | [] => .refl _
  | e :: es => by
    rw [exprs, exprs]
    exact .bind (outlasts_expr happly e) fun v => .bind (outlasts_exprs happly es) fun vs => .refl _

theorem outlasts_pairs (happly : ∀ f args, Outlasts (apply' f args) (apply f args)) :
    ∀ (ps : List (Expr × Expr)) (entries : Entries),
    Outlasts (pairs apply' env entries ps) (pairs apply env entries ps)
  | [], _ => .refl _
  | (k, v) :: ps, entries => by
    rw [pairs, pairs]
    exact .bind (outlasts_expr happly k) fun key => .bind (.refl _) fun key =>
      .bind (outlasts_expr happly v) fun w => outlasts_pairs happly ps _

theorem outlasts_stmt (happly : ∀ f args, Outlasts (apply' f args) (apply f args)) :
    ∀ s : Stmt, Outlasts (stmt apply' env s) (stmt apply env s)
  | .binding x e => by
    rw [stmt, stmt]
    exact .bind (outlasts_expr happly e) fun v => .refl _
  | .returning none => .refl _
  | .returning (some e) => by
    rw [stmt, stmt]
    exact .bind (outlasts_expr happly e) fun v => .refl _
  | .expression e => by
    rw [stmt, stmt]
    exact outlasts_expr happly e

theorem outlasts_stmts (happly : ∀ f args, Outlasts (apply' f args) (apply f args)) :
    ∀ (ss : List Stmt) (last : Value), Outlasts (stmts apply' env last ss) (stmts apply env last ss)
  | [], _ => .refl _
  | s :: ss, _ => by
    rw [stmts, stmts]
    exact .bind (outlasts_stmt happly s) fun v => outlasts_stmts happly ss v

end
end

/-- By induction on the calls to go. A call with the wrong number of arguments is refused the same way at every
depth, since arguments are counted first. -/
theorem outlasts_apply : ∀ {left left' : Nat}, left ≤ left' → ∀ f args,
    Outlasts (apply left' f args) (apply left f args)
  | 0, left', _, f, args => by
    by_cases hargs : f.params.length = args.length
    · refine outlasts_of_tooDeep fun st => ?_
      rw [apply, if_pos hargs]
      rfl
    · cases left' <;> simp only [apply, if_neg hargs] <;> exact .refl _
  | left + 1, 0, hleft, _, _ => absurd hleft (Nat.not_succ_le_zero left)
  | left + 1, left' + 1, hleft, f, args => by
    rw [apply, apply]
    split
    · exact .bind (.refl _) fun env =>
        .catchReturn (outlasts_stmts (outlasts_apply (Nat.le_of_succ_le_succ hleft)) f.body .null)
    · exact .refl _

end Eval

open Run

theorem Callable.outlasts {apply apply' : Eval.Apply} (happly : ∀ f args, Outlasts (apply' f args) (apply f args))
    (c : Callable) (args : List Value) : Outlasts (c.run apply' args) (c.run apply args) := by
  cases c with
  | function f => exact happly f args
  | builtin b => exact .refl _

theorem Task.outlasts {apply apply' : Eval.Apply} (happly : ∀ f args, Outlasts (apply' f args) (apply f args))
    (env : Env) (t : Task) : Outlasts (t.run apply' env) (t.run apply env) := by
  cases t with
  | evaluate n =>
    cases n with
    | expr e => exact Eval.outlasts_expr happly e
    | stmt s => exact Eval.outlasts_stmt happly s
    | block b => exact Eval.outlasts_stmts happly b .null
  | call c args => exact c.outlasts happly args

/-- An evaluation ended because calls were nested too deeply. -/
def Outcome.TooDeep : Outcome → Prop
  | .error e => e.fault = .callsTooDeep
  | .value _ | .returned _ => False

theorem Store.tooDeep_run {st : Store} {x : Run Value} : (st.run x).1.TooDeep ↔ Run.TooDeep (x st) := by
  unfold Store.run
  cases x st with
  | ok v st' => rfl
  | error e st' => cases e <;> rfl

namespace Interpreter

/-- What doing as told comes to, and the store then. -/
def result (i : Interpreter) (t : Task) : Outcome × Store :=
  i.store.run (t.run (Eval.apply (maxCallDepth - i.depth)) i.env)

/-- Begun at a smaller depth, whatever an interpreter is told to do has the same outcome and leaves the same store
unless calls are nested too deeply from the greater depth; and if they are from the smaller depth, they are from
the greater one. -/
theorem depth_limit_changes_only_itself (i : Interpreter) (t : Task) (depth : Nat) (hdepth : depth ≤ i.depth) :
    (¬ (i.result t).1.TooDeep → { i with depth := depth }.result t = i.result t) ∧
      (({ i with depth := depth }.result t).1.TooDeep → (i.result t).1.TooDeep) := by
  have hleft : maxCallDepth - i.depth ≤ maxCallDepth - depth := Nat.sub_le_sub_left hdepth maxCallDepth
  have houtlasts := Task.outlasts (Eval.outlasts_apply hleft) i.env t
  have hsame : ¬ (i.result t).1.TooDeep → { i with depth := depth }.result t = i.result t := by
    intro hi
    have hrun := houtlasts i.store fun h => hi (Store.tooDeep_run.mpr h)
    simp only [result, Store.run, hrun]
  refine ⟨hsame, fun h => ?_⟩
  by_cases hi : (i.result t).1.TooDeep
  · exact hi
  · rwa [hsame hi] at h

/-- Two nested calls go where two may still be nested as they go from outside of all calls. -/
theorem nested_calls_reach_limit :
    let inner : Expr := .function [] [.expression (.literal (.integer 1))]
    let t : Task := .call (.function ⟨[], [.expression (.call 1 inner [])], 0⟩) []
    let i : Interpreter := { env := 0, depth := maxCallDepth - 2, store := Store.start.2 }
    { i with depth := 0 }.result t = i.result t ∧ ¬ ({ i with depth := 0 }.result t).1.TooDeep := by
  intro inner t i
  have hi : ¬ (i.result t).1.TooDeep := id
  obtain ⟨hsame, htooDeep⟩ := depth_limit_changes_only_itself i t 0 (Nat.zero_le _)
  exact ⟨hsame hi, fun h => hi (htooDeep h)⟩

end Interpreter
end Monkey
