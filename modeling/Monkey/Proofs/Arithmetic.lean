import Monkey.Proofs.NodeRules

/-! Integer arithmetic. An expression that only adds, subtracts, multiplies and negates has its exact value modulo
2 ^ 64, although every step on the way is cut to 64 bits. -/
namespace Monkey

/-- The exact value of an expression that is made of integers, and names of integers, by `+`, `-` and `*`. -/
inductive Expr.Exact (st : Store) (env : Env) : Expr → Int → Prop where
  | literal (n : Int64) : Exact st env (.literal (.integer n)) n.toInt
  | name {line : Nat} {x : String} {n : Int64} (h : st.lookup env x = some (.integer n)) :
      Exact st env (.name line x) n.toInt
  | opposite {line : Nat} {e : Expr} {n : Int} (h : Exact st env e n) : Exact st env (.unary line .negate e) (-n)
  | sum {line : Nat} {l r : Expr} {m n : Int} (hl : Exact st env l m) (hr : Exact st env r n) :
      Exact st env (.binary line .add l r) (m + n)
  | difference {line : Nat} {l r : Expr} {m n : Int} (hl : Exact st env l m) (hr : Exact st env r n) :
      Exact st env (.binary line .subtract l r) (m - n)
  | product {line : Nat} {l r : Expr} {m n : Int} (hl : Exact st env l m) (hr : Exact st env r n) :
      Exact st env (.binary line .multiply l r) (m * n)

namespace Eval
open Run

variable {env : Env} {st : Store}

/-- By induction on the expression: reducing integers to 64 bits goes with all of the operators. -/
theorem expr_of_exact (apply : Apply) {e : Expr} {n : Int} (h : e.Exact st env n) :
    expr apply env e st = .ok (.integer (Int64.ofInt n)) st := by
  induction h with
  | literal n =>
    rw [Int64.ofInt_toInt]
    exact expr_literal _ st
  | name hx =>
    rw [Int64.ofInt_toInt]
    exact expr_name hx
  | @opposite line e n _ ih =>
    rw [expr_unary ih, Int64.ofInt_neg]
    exact atLine_of_ok line rfl
  | @sum line l r m n _ _ ihl ihr =>
    rw [expr_integers ihl ihr, Int64.ofInt_add]
    exact atLine_of_ok line rfl
  | @difference line l r m n _ _ ihl ihr =>
    rw [expr_integers ihl ihr, Int64.ofInt_sub]
    exact atLine_of_ok line rfl
  | @product line l r m n _ _ ihl ihr =>
    rw [expr_integers ihl ihr, Int64.ofInt_mul]
    exact atLine_of_ok line rfl

/-- The value of arithmetic is the exact value, reduced once to the integers from -2 ^ 63 to 2 ^ 63 - 1. A division
fails exactly if it is by 0, and gives the quotient otherwise, cut toward zero and reduced in the same way; `<` and `>`
compare the integers that their operands have come to. -/
theorem arithmetic_is_exact (apply : Apply) (env : Env) (st : Store) :
    (∀ (e : Expr) (n : Int), e.Exact st env n →
      ∃ v : Int64, expr apply env e st = .ok (.integer v) st ∧ v.toInt = n.bmod (2 ^ 64)) ∧
    ∀ (line : Nat) (l r : Expr) (a b : Int64) (st₁ st₂ : Store), expr apply env l st = .ok (.integer a) st₁ →
      expr apply env r st₁ = .ok (.integer b) st₂ →
        (b = 0 → expr apply env (.binary line .divide l r) st =
          .error (.error ⟨.divisionByZero a, some line⟩) st₂) ∧
        (b ≠ 0 → ∃ q : Int64, expr apply env (.binary line .divide l r) st = .ok (.integer q) st₂ ∧
          q.toInt = (a.toInt.tdiv b.toInt).bmod (2 ^ 64)) ∧
        expr apply env (.binary line .less l r) st = .ok (.boolean (a.toInt < b.toInt)) st₂ ∧
        expr apply env (.binary line .greater l r) st = .ok (.boolean (a.toInt > b.toInt)) st₂ := by
  refine ⟨fun e n he => ⟨Int64.ofInt n, expr_of_exact apply he, Int64.toInt_ofInt⟩,
    fun line l r a b st₁ st₂ hl hr => ⟨fun hb => ?_, fun hb => ⟨a / b, ?_, Int64.toInt_div a b⟩, ?_, ?_⟩⟩
  · subst hb
    simp only [expr_integers hl hr, integers, if_true]
    exact atLine_of_error line rfl
  · simp only [expr_integers hl hr, integers, if_neg hb]
    exact atLine_of_ok line rfl
  · simp only [expr_integers hl hr, ← Int64.lt_iff_toInt_lt]
    exact atLine_of_ok line rfl
  · simp only [expr_integers hl hr, gt_iff_lt, ← Int64.lt_iff_toInt_lt]
    exact atLine_of_ok line rfl

/-- With `x` bound to 3, `(9223372036854775807 + 1) * x - x` leaves 64 bits twice on its way; and the least integer
divided by -1 is itself. -/
theorem arithmetic_leaves_64_bits :
    let st := Store.start.2.bind 0 "x" (.integer 3)
    let least : Expr := .binary 1 .add (.literal (.integer 9223372036854775807)) (.literal (.integer 1))
    let x : Expr := .name 1 "x"
    (∃ v : Int64, expr (Eval.apply maxCallDepth) 0 (.binary 1 .subtract (.binary 1 .multiply least x) x) st =
      .ok (.integer v) st ∧ v.toInt = 9223372036854775805) ∧
    ∃ q : Int64, expr (Eval.apply maxCallDepth) 0 (.binary 1 .divide least (.unary 1 .negate (.literal (.integer 1)))) st =
      .ok (.integer q) st ∧ q.toInt = -9223372036854775808 := by
  intro st least x
  have hx : x.Exact st 0 (3 : Int64).toInt := .name (Store.lookup_of_bound rfl)
  have hleast : least.Exact st 0 (9223372036854775807 + 1) := .sum (.literal _) (.literal _)
  have hminus : Expr.Exact st 0 (.unary 1 .negate (.literal (.integer 1))) (-1) := .opposite (.literal 1)
  obtain ⟨hexact, hpair⟩ := arithmetic_is_exact (Eval.apply maxCallDepth) 0 st
  obtain ⟨-, hdivide, -⟩ := hpair 1 _ _ _ _ _ _ (expr_of_exact _ hleast) (expr_of_exact _ hminus)
  exact ⟨hexact _ _ (.difference (.product hleast hx) hx), hdivide (by decide)⟩

end Eval
end Monkey
