import Monkey.Proofs.HashLiterals

/-! What the rule of a node does once its parts have their values. -/
namespace Monkey

theorem Run.atLine_congr {α : Type} {x y : Run α} {st st' : Store} (line : Nat) (h : x st = y st') :
    atLine line x st = atLine line y st' := by
  unfold atLine
  rw [h]

theorem Run.catchReturn_congr {x y : Run Value} {st st' : Store} (h : x st = y st') :
    catchReturn x st = catchReturn y st' := by
  unfold catchReturn
  rw [h]

namespace Eval
open Run

variable {apply : Apply} {env : Env} {line : Nat} {st st₁ st₂ : Store} {v w : Value}

theorem expr_name {x : String} (h : st.lookup env x = some v) : expr apply env (.name line x) st = .ok v st := by
  rw [expr]
  exact atLine_of_ok line (by simp only [lookup, h])

theorem expr_unary {op : PrefixOp} {e : Expr} (he : expr apply env e st = .ok v st₁) :
    expr apply env (.unary line op e) st = atLine line (unary op v) st₁ := by
  rw [expr]
  exact atLine_congr line (bind_eq_of_ok he)

theorem expr_binary {op : InfixOp} {l r : Expr} (hl : expr apply env l st = .ok v st₁)
    (hr : expr apply env r st₁ = .ok w st₂) :
    expr apply env (.binary line op l r) st = atLine line (binary op v w) st₂ := by
  rw [expr]
  exact atLine_congr line ((bind_eq_of_ok hl).trans (bind_eq_of_ok hr))

theorem expr_integers {l r : Expr} {a b : Int64} (hl : expr apply env l st = .ok (.integer a) st₁)
    (hr : expr apply env r st₁ = .ok (.integer b) st₂) (line : Nat) (op : InfixOp) :
    expr apply env (.binary line op l r) st = atLine line (integers op a b) st₂ := by
  rw [expr_binary hl hr]
  cases op <;> rfl

theorem expr_conditional {c : Expr} {consequence alternative : Block} (hc : expr apply env c st = .ok v st₁) :
    expr apply env (.conditional c consequence (some alternative)) st =
      stmts apply env .null (if v.truthy then consequence else alternative) st₁ := by
  rw [expr, bind_eq_of_ok hc]
  split <;> rfl

theorem expr_call_function {id : Nat} {f : Closure} {callee : Expr} {args : List Expr} {vs : List Value}
    (hf : expr apply env callee st = .ok (.function id f) st₁) (hargs : exprs apply env args st₁ = .ok vs st₂) :
    expr apply env (.call line callee args) st = atLine line (apply f vs) st₂ := by
  rw [expr]
  exact atLine_congr line ((bind_eq_of_ok hf).trans (bind_eq_of_ok hargs))

theorem expr_call_builtin {b : Builtin} {callee : Expr} {args : List Expr} {vs : List Value}
    (hf : expr apply env callee st = .ok (.builtin b) st₁) (hargs : exprs apply env args st₁ = .ok vs st₂) :
    expr apply env (.call line callee args) st = atLine line (b.apply vs) st₂ := by
  rw [expr]
  exact atLine_congr line ((bind_eq_of_ok hf).trans (bind_eq_of_ok hargs))

theorem exprs_nil : exprs apply env [] st = .ok [] st := by
  rw [exprs]
  rfl

theorem exprs_cons {e : Expr} {es : List Expr} {vs : List Value} (he : expr apply env e st = .ok v st₁)
    (hes : exprs apply env es st₁ = .ok vs st₂) : exprs apply env (e :: es) st = .ok (v :: vs) st₂ := by
  rw [exprs, bind_eq_of_ok he, bind_eq_of_ok hes]
  rfl

/-- A block of one statement does what the statement does. -/
theorem stmts_singleton (s : Stmt) (last : Value) : stmts apply env last [s] = stmt apply env s := by
  simp only [stmts, bind_pure]

/-- A call evaluates the body of the function in a new environment, which binds the arguments. -/
theorem apply_succ {f : Closure} {vs : List Value} (left : Nat) (hargs : f.params.length = vs.length) :
    Eval.apply (left + 1) f vs st =
      catchReturn (stmts (Eval.apply left) st.scopes.size .null f.body)
        (st.enter (some f.env) (f.params.zip vs).reverse).2 := by
  rw [Eval.apply, if_pos hargs]
  rfl

end Eval
end Monkey
