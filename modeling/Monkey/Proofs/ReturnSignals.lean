import Mathlib
import Monkey.Proofs.EvaluationContexts
import Monkey.Proofs.Growth

/-! Return signals. Only syntax with a `return` outside of its function literals can end in one, a call never does,
and a `return` that the body of a call comes to gives the call its value. -/
namespace Monkey

/-! Whether a `return` stands in a piece of syntax, those in function literals not counted. -/

mutual

def Expr.returns : Expr → Bool
  | .name _ _ | .literal _ | .function _ _ => false
  | .unary _ _ e => e.returns
  | .binary _ _ l r => l.returns || r.returns
  | .conditional c consequence none => c.returns || returnsInBlock consequence
  | .conditional c consequence (some alternative) =>
    c.returns || (returnsInBlock consequence || returnsInBlock alternative)
  | .call _ callee args => callee.returns || returnsInExprs args
  | .array elems => returnsInExprs elems
  | .hash _ ps => returnsInPairs ps
  | .index _ base subscript => base.returns || subscript.returns

def Stmt.returns : Stmt → Bool
  | .binding _ e => e.returns
  | .returning _ => true
  | .expression e => e.returns

def returnsInBlock : List Stmt → Bool
  | [] => false
  | s :: ss => s.returns || returnsInBlock ss

def returnsInExprs : List Expr → Bool
  | [] => false
  | e :: es => e.returns || returnsInExprs es

def returnsInPairs : List (Expr × Expr) → Bool
  | [] => false
  | (k, v) :: ps => k.returns || (v.returns || returnsInPairs ps)

end

def Node.returns : Node → Bool
  | .expr e => e.returns
  | .stmt s => s.returns
  | .block b => returnsInBlock b

namespace Run

variable {α β : Type} {p : Prop}

/-- `x` ends in a return signal only if `p` holds. -/
def ReturnsOnlyIf (p : Prop) (x : Run α) : Prop := ∀ st v st', x st = .error (.returned v) st' → p

theorem ReturnsOnlyIf.run {x : Run Value} (hx : ReturnsOnlyIf p x) {st : Store} {v : Value}
    (h : (st.run x).1 = .returned v) : p := by
  unfold Store.run at h
  split at h
  · cases h
  · next w st' hst => exact hx st w st' hst
  · cases h

theorem returnsOnlyIf_pure {a : α} : ReturnsOnlyIf p (pure a : Run α) := fun _ _ _ h => nomatch h

theorem returnsOnlyIf_raise {fault : RuntimeFault} : ReturnsOnlyIf p (raise fault : Run α) := fun _ _ _ h => nomatch h

theorem returnsOnlyIf_return {v : Value} (h : p) : ReturnsOnlyIf p (throw (.returned v) : Run α) := fun _ _ _ _ => h

theorem returnsOnlyIf_bind {env : Env} {x : String} {v : Value} : ReturnsOnlyIf p (bind env x v) :=
  fun _ _ _ h => nomatch h

theorem returnsOnlyIf_enter {parent : Option Env} {bindings : Bindings} :
    ReturnsOnlyIf p (enter parent bindings) := by
  intro st v st' h
  cases h

theorem returnsOnlyIf_lookup {env : Env} {x : String} : ReturnsOnlyIf p (lookup env x) := by
  intro st v st' h
  unfold lookup at h
  split at h <;> cases h

theorem returnsOnlyIf_key {v : Value} : ReturnsOnlyIf p (key v) := by
  unfold key
  split
  · exact returnsOnlyIf_pure
  · exact returnsOnlyIf_raise

theorem Plain.returnsOnlyIf {fs : List Closure} {x : Run Value} (hx : Plain fs x) : ReturnsOnlyIf p x := by
  intro st v st' h
  have hplain := hx st
  rw [h] at hplain
  exact hplain.elim

namespace ReturnsOnlyIf

theorem bind {x : Run α} {f : α → Run β} (hx : ReturnsOnlyIf p x) (hf : ∀ a, ReturnsOnlyIf p (f a)) :
    ReturnsOnlyIf p (x >>= f) := by
  intro st v st' h
  simp only [Bind.bind, EStateM.bind] at h
  cases hst : x st with
  | ok a st₁ =>
    rw [hst] at h
    exact hf a st₁ v st' h
  | error e st₁ =>
    rw [hst] at h
    cases h
    exact hx st v st' hst

theorem atLine {x : Run α} (line : Nat) (hx : ReturnsOnlyIf p x) : ReturnsOnlyIf p (atLine line x) := by
  intro st v st' h
  unfold Run.atLine at h
  cases hst : x st with
  | ok a st₁ =>
    rw [hst] at h
    cases h
  | error e st₁ =>
    rw [hst] at h
    cases e with
    | error e => cases h
    | returned w =>
      cases h
      exact hx st v st' hst

end ReturnsOnlyIf

/-- A return signal does not get out of a function. -/
theorem returnsOnlyIf_catchReturn (x : Run Value) : ReturnsOnlyIf p (catchReturn x) := by
  intro st v st' h
  unfold catchReturn at h
  cases hst : x st with
  | ok w st₁ =>
    rw [hst] at h
    cases h
  | error e st₁ =>
    rw [hst] at h
    cases e <;> cases h

end Run

namespace Eval
open Run

theorem returnsOnlyIf_apply {p : Prop} (left : Nat) (f : Closure) (args : List Value) :
    ReturnsOnlyIf p (apply left f args) := by
  cases left with
  | zero =>
    rw [apply]
    split <;> exact returnsOnlyIf_raise
  | succ left =>
    rw [apply]
    split
    · exact .bind returnsOnlyIf_enter fun env => returnsOnlyIf_catchReturn _
    · exact returnsOnlyIf_raise

section
variable {apply : Apply} {env : Env} {p : Prop}

theorem or_eq_true_imp {a b : Bool} : ((a || b) = true → p) ↔ (a = true → p) ∧ (b = true → p) := by
  rw [Bool.or_eq_true, or_imp]

mutual

theorem returnsOnlyIf_expr (happly : ∀ f args, ReturnsOnlyIf p (apply f args)) :
    ∀ e : Expr, (e.returns = true → p) → ReturnsOnlyIf p (expr apply env e)
  | .name line x, _ => by
    rw [expr]
    exact .atLine line returnsOnlyIf_lookup
  | .literal l, _ => by
    rw [expr]
    exact returnsOnlyIf_pure
  | .unary line op e, h => by
    rw [expr]
    exact .atLine line (.bind (returnsOnlyIf_expr happly e h) fun v => (plain_unary op v).returnsOnlyIf)
  | .binary line op l r, h => by
    obtain ⟨hl, hr⟩ := or_eq_true_imp.mp h
    rw [expr]
    exact .atLine line (.bind (returnsOnlyIf_expr happly l hl) fun v =>
      .bind (returnsOnlyIf_expr happly r hr) fun w => (plain_binary op v w).returnsOnlyIf)
  | .conditional c consequence none, h => by
    obtain ⟨hc, hb⟩ := or_eq_true_imp.mp h
    rw [expr]
    refine .bind (returnsOnlyIf_expr happly c hc) fun v => ?_
    split
    · exact returnsOnlyIf_stmts happly consequence .null hb
    · exact returnsOnlyIf_pure
  | .conditional c consequence (some alternative), h => by
    obtain ⟨hc, h⟩ := or_eq_true_imp.mp h
    obtain ⟨hb, ha⟩ := or_eq_true_imp.mp h
    rw [expr]
    refine .bind (returnsOnlyIf_expr happly c hc) fun v => ?_
    split
    · exact returnsOnlyIf_stmts happly consequence .null hb
    · exact returnsOnlyIf_stmts happly alternative .null ha
  | .function params body, _ => by
    rw [expr]
    exact (plain_newFunction (List.mem_singleton_self _)).returnsOnlyIf
  | .call line callee args, h => by
    obtain ⟨hf, ha⟩ := or_eq_true_imp.mp h
    rw [expr]
    refine .atLine line (.bind (returnsOnlyIf_expr happly callee hf) fun v => ?_)
    split
    · exact .bind (returnsOnlyIf_exprs happly args ha) fun vs => happly _ vs
    · exact .bind (returnsOnlyIf_exprs happly args ha) fun vs => (plain_builtin _ vs).returnsOnlyIf
    · exact returnsOnlyIf_raise
  | .array elems, h => by
    rw [expr]
    exact .bind (returnsOnlyIf_exprs happly elems h) fun vs =>
      (plain_newArray (List.Subset.refl _)).returnsOnlyIf
  | .hash line ps, h => by
    rw [expr]
    exact .atLine line (.bind (returnsOnlyIf_pairs happly ps [] h) fun es =>
      (plain_newHash (List.Subset.refl _)).returnsOnlyIf)
  | .index line base subscript, h => by
    obtain ⟨hb, hs⟩ := or_eq_true_imp.mp h
    rw [expr]
    exact .atLine line (.bind (returnsOnlyIf_expr happly base hb) fun v =>
      .bind (returnsOnlyIf_expr happly subscript hs) fun w => (plain_index v w).returnsOnlyIf)

theorem returnsOnlyIf_exprs (happly : ∀ f args, ReturnsOnlyIf p (apply f args)) :
    ∀ es : List Expr, (returnsInExprs es = true → p) → ReturnsOnlyIf p (exprs apply env es)
  | [], _ => by
    rw [exprs]
    exact returnsOnlyIf_pure
  | e :: es, h => by
    obtain ⟨he, hes⟩ := or_eq_true_imp.mp h
    rw [exprs]
    exact .bind (returnsOnlyIf_expr happly e he) fun v =>
      .bind (returnsOnlyIf_exprs happly es hes) fun vs => returnsOnlyIf_pure

theorem returnsOnlyIf_pairs (happly : ∀ f args, ReturnsOnlyIf p (apply f args)) :
    ∀ (ps : List (Expr × Expr)) (entries : Entries), (returnsInPairs ps = true → p) →
    ReturnsOnlyIf p (pairs apply env entries ps)
  | [], _, _ => by
    rw [pairs]
    exact returnsOnlyIf_pure
  | (k, v) :: ps, entries, h => by
    obtain ⟨hk, h⟩ := or_eq_true_imp.mp h
    obtain ⟨hv, hps⟩ := or_eq_true_imp.mp h
    rw [pairs]
    exact .bind (returnsOnlyIf_expr happly k hk) fun _ => .bind returnsOnlyIf_key fun _ =>
      .bind (returnsOnlyIf_expr happly v hv) fun _ => returnsOnlyIf_pairs happly ps _ hps

theorem returnsOnlyIf_stmt (happly : ∀ f args, ReturnsOnlyIf p (apply f args)) :
    ∀ s : Stmt, (s.returns = true → p) → ReturnsOnlyIf p (stmt apply env s)
  | .binding x e, h => by
    rw [stmt]
    exact .bind (returnsOnlyIf_expr happly e h) fun v => .bind returnsOnlyIf_bind fun _ => returnsOnlyIf_pure
  | .returning none, h => by
    rw [stmt]
    exact returnsOnlyIf_return (h rfl)
  | .returning (some e), h => by
    rw [stmt]
    exact .bind (returnsOnlyIf_expr happly e fun _ => h rfl) fun v => returnsOnlyIf_return (h rfl)
  | .expression e, h => by
    rw [stmt]
    exact returnsOnlyIf_expr happly e h

theorem returnsOnlyIf_stmts (happly : ∀ f args, ReturnsOnlyIf p (apply f args)) :
    ∀ (ss : List Stmt) (last : Value), (returnsInBlock ss = true → p) →
    ReturnsOnlyIf p (stmts apply env last ss)
  | [], _, _ => by
    rw [stmts]
    exact returnsOnlyIf_pure
  | s :: ss, _, h => by
    obtain ⟨hs, hss⟩ := or_eq_true_imp.mp h
    rw [stmts]
    exact .bind (returnsOnlyIf_stmt happly s hs) fun v => returnsOnlyIf_stmts happly ss v hss

end

end

/-- What a `return` hands over: the value of its expression, or null if it has none. -/
def HandsOver (apply : Apply) (env : Env) (st : Store) : Option Expr → Value → Store → Prop
  | none, v, st' => v = .null ∧ st' = st
  | some e, v, st' => expr apply env e st = .ok v st'

theorem HandsOver.run {apply : Apply} {env : Env} {st st' : Store} {e : Option Expr} {v : Value}
    (h : HandsOver apply env st e v st') : st.run (stmt apply env (.returning e)) = (.returned v, st') := by
  cases e with
  | none =>
    obtain ⟨rfl, rfl⟩ := h
    rw [stmt]
    rfl
  | some e =>
    rw [stmt, Store.run_bind_of_ok h]
    rfl

end Eval

namespace Interpreter
open Machine

variable {i : Interpreter} {v : Value}

/-- Behind a `return` the machine leaves the frames of the body one by one, and with the last of them the call. -/
theorem leaving_body_of_steps {env : Env} {frames : List Frame} (hf : Local frames) {m : Machine}
    (h : Steps (i.leaving (.returned v) (frames ++ [Frame.body env])) m) :
    (∃ rest, Local rest ∧ m = i.leaving (.returned v) (rest ++ [Frame.body env])) ∨
      m = { i with env, depth := i.depth - 1 }.leaving (.value v) [] := by
  induction h with
  | refl => exact .inl ⟨frames, hf, rfl⟩
  | tail _ hstep ih =>
    rcases ih with ⟨rest, hrest, rfl⟩ | rfl
    · cases rest with
      | nil =>
        cases hstep
        exact .inr rfl
      | cons f rest =>
        rw [List.cons_append, step_leaving .returned (hrest f List.mem_cons_self)] at hstep
        cases hstep
        exact .inl ⟨rest, fun g hg => hrest g (List.mem_cons_of_mem f hg), rfl⟩
    · cases hstep

/-- A call whose body comes to a `return` has the value that is handed over, and the store of that moment. -/
theorem call_of_return {f : Closure} {args : List Value} {m : Machine} {e : Option Expr} {frames : List Frame}
    {st : Store} (hdepth : i.depth ≤ maxCallDepth) (hm : Steps (i.start (.call (.function f) args)) m)
    (hcontrol : m.control = .task (.evaluate (.stmt (.returning e))))
    (hstack : m.stack = frames ++ [Frame.body i.env]) (hf : Local frames)
    (he : Eval.HandsOver (Eval.apply (maxCallDepth - m.depth)) m.env m.store e v st) :
    i.store.run (Eval.apply (maxCallDepth - i.depth) f args) = (.value v, st) ∧
      Steps m (leaving { m.toInterpreter with store := st } (.returned v) m.stack) := by
  have hlevel : Level i.depth m := hm.level ⟨rfl, hdepth⟩
  have hreturn : Steps m (leaving { m.toInterpreter with store := st } (.returned v) m.stack) := by
    have hdone := steps_task (.evaluate (.stmt (.returning e))) m hlevel.depth_le
    have hmade : m.perform ((Task.evaluate (.stmt (.returning e))).run (Eval.apply (maxCallDepth - m.depth)) m.env) =
        leaving { m.toInterpreter with store := st } (.returned v) m.stack := perform_of_run he.run
    rw [hmade, ← hcontrol] at hdone
    exact hdone
  refine ⟨?_, hreturn⟩
  let left : Interpreter := { env := i.env, depth := m.depth - 1, store := st }
  have hend : Steps (i.start (.call (.function f) args)) (left.leaving (.value v) []) := by
    refine hm.trans (hreturn.trans ?_)
    rw [hstack]
    exact (steps_leaving_onto .returned hf [.body i.env]).tail rfl
  have hsame := eq_of_steps (steps_finished i (.call (.function f) args) hdepth) rfl hend rfl
  have houtcome := Control.done.inj (congrArg Machine.control hsame)
  have hstore := congrArg (fun m => m.store) hsame
  exact Prod.ext houtcome.symm hstore.symm

/-- A call never ends in a return signal; a statement, an expression or a block does so only if a `return` stands in
it, outside of its function literals. And when a called body comes to a `return` of its own, however deep it is
nested there, the value that is handed over is that of the call: from there on nothing is evaluated, and nothing
changes in the store. -/
theorem return_signals_obey_the_text (i : Interpreter) :
    (∀ (c : Callable) args v,
      (i.store.run (c.run (Eval.apply (maxCallDepth - i.depth)) args)).1 ≠ .returned v) ∧
    (∀ (n : Node) v,
      (i.store.run (n.run (Eval.apply (maxCallDepth - i.depth)) i.env)).1 = .returned v → n.returns = true) ∧
    ∀ f args m e frames v st, i.depth ≤ maxCallDepth →
      Steps (i.start (.call (.function f) args)) m →
      m.control = .task (.evaluate (.stmt (.returning e))) → m.stack = frames ++ [.body i.env] → Local frames →
      Eval.HandsOver (Eval.apply (maxCallDepth - m.depth)) m.env m.store e v st →
      i.store.run (Eval.apply (maxCallDepth - i.depth) f args) = (.value v, st) ∧
        Steps m (leaving { m.toInterpreter with store := st } (.returned v) m.stack) ∧
        ∀ m', Steps (leaving { m.toInterpreter with store := st } (.returned v) m.stack) m' →
          (∃ o, m'.control = .done o) ∧ m'.store = st := by
  refine ⟨fun c args v h => ?_, fun n v h => ?_, ?_⟩
  · have hx : Run.ReturnsOnlyIf False (c.run (Eval.apply (maxCallDepth - i.depth)) args) := by
      cases c with
      | function f => exact Eval.returnsOnlyIf_apply _ f args
      | builtin b => exact (plain_builtin b args).returnsOnlyIf
    exact hx.run h
  · have happly := Eval.returnsOnlyIf_apply (p := n.returns = true) (maxCallDepth - i.depth)
    have hx : Run.ReturnsOnlyIf (n.returns = true) (n.run (Eval.apply (maxCallDepth - i.depth)) i.env) := by
      cases n with
      | expr e => exact Eval.returnsOnlyIf_expr happly e id
      | stmt s => exact Eval.returnsOnlyIf_stmt happly s id
      | block b => exact Eval.returnsOnlyIf_stmts happly b .null id
    exact hx.run h
  · intro f args m e frames v st hdepth hm hcontrol hstack hf he
    obtain ⟨hrun, hreturn⟩ := call_of_return hdepth hm hcontrol hstack hf he
    refine ⟨hrun, hreturn, fun m' hm' => ?_⟩
    rw [hstack] at hm'
    rcases leaving_body_of_steps hf hm' with ⟨rest, -, rfl⟩ | rfl
    · exact ⟨⟨_, rfl⟩, rfl⟩
    · exact ⟨⟨_, rfl⟩, rfl⟩

/-- `fn() { let x = [1, if (true) { return 7 }]; puts("behind") }`, made in the first environment. -/
def returnsInList : Closure :=
  let inner : Expr := .conditional (.literal (.boolean true)) [.returning (some (.literal (.integer 7)))] none
  let behind : Expr := .call 1 (.name 1 "puts") [.literal (.string "behind")]
  ⟨[], [.binding "x" (.array [.literal (.integer 1), inner]), .expression behind], 0⟩

/-- The `return` in an array in a `let` ends the call. Nothing is printed and `x` is not bound. -/
theorem return_in_list_ends_call :
    Store.start.2.run (Eval.apply maxCallDepth returnsInList []) =
      (.value (.integer 7), (Store.start.2.enter (some 0) []).2) := by
  let i : Interpreter := { env := 0, depth := 0, store := Store.start.2 }
  let st := (i.store.enter (some 0) []).2
  let entered : Machine := { env := 1, depth := 1, store := st, control := .done (.value .null), stack := [.body 0] }
  let apply := Eval.apply (maxCallDepth - 1)
  have hcall : Steps (i.start (.call (.function returnsInList) [])) (entered.evaluate (.block returnsInList.body)) :=
    steps_one rfl
  have hone : Eval.exprs apply 1 [.literal (.integer 1)] st = .ok [.integer 1] st := rfl
  have htrue : Eval.expr apply 1 (.literal (.boolean true)) st = .ok (.boolean true) st := rfl
  have hnone : Eval.stmts apply 1 .null [] st = .ok .null st := rfl
  have hnested : Relation.ReflTransGen (ComesTo apply 1) (.block returnsInList.body, st)
      (.stmt (.returning (some (.literal (.integer 7)))), st) :=
    .tail (.tail (.tail (.tail (.single (.statement hnone)) .binding) (.element hone)) (.consequence htrue rfl))
      (.statement hnone)
  obtain ⟨frames, hf, hcome⟩ :=
    steps_nested (applies_apply (maxCallDepth - 1) 1 (by decide)) hnested (m := entered) rfl rfl rfl
  exact ((return_signals_obey_the_text i).2.2 returnsInList [] _ _ frames _ _ (Nat.zero_le _) (hcall.trans hcome)
    rfl rfl hf rfl).1

end Interpreter
end Monkey
