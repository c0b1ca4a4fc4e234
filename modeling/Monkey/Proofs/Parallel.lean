import Monkey.Interpreter
import Monkey.Proofs.Likeness

/-! Two runs side by side. Carried out from alike stores, alike programs end alike: a program cannot see how
environments and identities are numbered, nor which lines are recorded. -/
namespace Monkey

inductive Exit.Like (R : Likeness) : Exit → Exit → Prop where
  | error {e e' : RuntimeError} : e.Like R e' → Exit.Like R (.error e) (.error e')
  | returned {v w : Value} : v.Like R w → Exit.Like R (.returned v) (.returned w)

namespace Run

variable {α β α' β' : Type} {R : Likeness}

/-- Two evaluations end alike: both in results that correspond, or both in an exit. -/
inductive EndsAlike (R : Likeness) (alike : α → β → Prop) :
    EStateM.Result Exit Store α → EStateM.Result Exit Store β → Prop where
  | ok {a : α} {b : β} {st st' : Store} : st.Like R st' → alike a b → EndsAlike R alike (.ok a st) (.ok b st')
  | error {e e' : Exit} {st st' : Store} :
      st.Like R st' → e.Like R e' → EndsAlike R alike (.error e st) (.error e' st')

/-- Carried out from alike stores, the two computations end alike. -/
def Parallel (R : Likeness) (alike : α → β → Prop) (x : Run α) (y : Run β) : Prop :=
  ∀ st st' : Store, st.Like R st' → EndsAlike R alike (x st) (y st')

variable {alike : α → β → Prop} {alike' : α' → β' → Prop} {v w v' w' : Value} {vs ws : List Value}

theorem parallel_pure {a : α} {b : β} (h : alike a b) : Parallel R alike (pure a) (pure b) :=
  fun _ _ hst => .ok hst h

theorem parallel_raise (fault : RuntimeFault) : Parallel R alike (raise fault) (raise fault) :=
  fun _ _ hst => .error hst (.error ⟨rfl, rfl⟩)

theorem parallel_return (h : v.Like R w) : Parallel R alike (throw (.returned v)) (throw (.returned w)) :=
  fun _ _ hst => .error hst (.returned h)

namespace Parallel

theorem bind {x : Run α} {y : Run β} {f : α → Run α'} {g : β → Run β'} (h : Parallel R alike x y)
    (hf : ∀ a b, alike a b → Parallel R alike' (f a) (g b)) : Parallel R alike' (x >>= f) (y >>= g) := by
  intro st st' hst
  have hends := h _ _ hst
  simp only [Bind.bind, EStateM.bind]
  generalize x st = r at hends
  generalize y st' = r' at hends
  cases hends with
  | ok hst' hab => exact hf _ _ hab _ _ hst'
  | error hst' he => exact .error hst' he

theorem atLine {x : Run α} {y : Run β} {line line' : Nat} (hline : R.line line = R.line line')
    (h : Parallel R alike x y) : Parallel R alike (atLine line x) (atLine line' y) := by
  intro st st' hst
  have hends := h _ _ hst
  unfold Run.atLine
  generalize x st = r at hends
  generalize y st' = r' at hends
  cases hends with
  | ok hst' hab => exact .ok hst' hab
  | error hst' he =>
    cases he with
    | error he => exact .error hst' (.error (he.atLine hline))
    | returned hv => exact .error hst' (.returned hv)

theorem catchReturn {x y : Run Value} (h : Parallel R (Value.Like R) x y) :
    Parallel R (Value.Like R) (catchReturn x) (catchReturn y) := by
  intro st st' hst
  have hends := h _ _ hst
  unfold Run.catchReturn
  generalize x st = r at hends
  generalize y st' = r' at hends
  cases hends with
  | ok hst' hab => exact .ok hst' hab
  | error hst' he =>
    cases he with
    | error he => exact .error hst' (.error he)
    | returned hv => exact .ok hst' hv

end Parallel

theorem parallel_lookup {i j : Env} (hij : R.envs i j) (x : String) :
    Parallel R (Value.Like R) (lookup i x) (lookup j x) := by
  intro st st' hst
  have hv := hst.lookup x hij
  unfold lookup
  generalize st.lookup i x = v? at hv
  generalize st'.lookup j x = w? at hv
  cases hv with
  | some hv => exact .ok hst hv
  | none => exact parallel_raise _ _ _ hst

theorem parallel_bind {i j : Env} (hij : R.envs i j) (x : String) (h : v.Like R w) :
    Parallel R (fun _ _ => True) (bind i x v) (bind j x w) :=
  fun _ _ hst => .ok (hst.bind hij x h) trivial

theorem parallel_enter {p q : Option Env} (hpq : Option.Rel R.envs p q) {bs cs : Bindings}
    (hb : ∀ x, Option.Rel (Value.Like R) (bs.lookup x) (cs.lookup x)) :
    Parallel R R.envs (enter p bs) (enter q cs) :=
  fun _ _ hst => .ok (hst.enter hpq hb) hst.envs_next

theorem parallel_print (text : String) : Parallel R (fun _ _ => True) (print text) (print text) :=
  fun _ _ hst => .ok (hst.print text) trivial

theorem parallel_newArray (h : ValuesLike R vs ws) : Parallel R (Value.Like R) (newArray vs) (newArray ws) :=
  fun _ _ hst => .ok hst.fresh (.array hst.ids_next h)

theorem parallel_newHash {es fs : Entries} (h : EntriesLike R es fs) :
    Parallel R (Value.Like R) (newHash es) (newHash fs) :=
  fun _ _ hst => .ok hst.fresh (.hash hst.ids_next h)

theorem parallel_newFunction {f g : Closure} (h : f.Like R g) :
    Parallel R (Value.Like R) (newFunction f) (newFunction g) :=
  fun _ _ hst => .ok hst.fresh (.function hst.ids_next h)

theorem parallel_key (h : v.Like R w) : Parallel R Eq (key v) (key w) := by
  unfold key
  rw [h.key?_eq, h.type_eq]
  split
  · exact parallel_pure rfl
  · exact parallel_raise _

end Run

namespace Eval
open Run

variable {R : Likeness} {v w v' w' : Value}

theorem parallel_unary (op : PrefixOp) (h : v.Like R w) :
    Parallel R (Value.Like R) (unary op v) (unary op w) := by
  cases op with
  | not =>
    simp only [unary, h.truthy_eq]
    exact parallel_pure .boolean
  | negate =>
    cases h with
    | integer => exact parallel_pure .integer
    | _ => exact parallel_raise _

theorem parallel_integers (op : InfixOp) (l r : Int64) :
    Parallel R (Value.Like R) (integers op l r) (integers op l r) := by
  cases op <;> simp only [integers]
  case divide =>
    split
    · exact parallel_raise _
    · exact parallel_pure .integer
  case add | subtract | multiply => exact parallel_pure .integer
  all_goals exact parallel_pure .boolean

/-- Operands that are neither two integers nor two strings are compared by identity, and have no other operator. -/
theorem binary_of_types {l r : Value} (op : InfixOp) (hint : ¬ (l.type = .integer ∧ r.type = .integer))
    (hstr : ¬ (l.type = .string ∧ r.type = .string)) :
    binary op l r =
      match op with
      | .equal => pure (.boolean (l.identical r))
      | .notEqual => pure (.boolean !(l.identical r))
      | op => if l.type = r.type then raise (.unknownOperator l.type op r.type)
          else raise (.mixedOperands l.type op r.type) := by
  unfold binary
  split
  · exact absurd ⟨rfl, rfl⟩ hint
  · exact absurd ⟨rfl, rfl⟩ hstr
  · rfl
  · rfl
  · next hequal hnotEqual _ _ =>
    cases op with
    | equal => exact (hequal rfl).elim
    | notEqual => exact (hnotEqual rfl).elim
    | _ => rfl

theorem parallel_binary (op : InfixOp) (h : v.Like R w) (h' : v'.Like R w') :
    Parallel R (Value.Like R) (binary op v v') (binary op w w') := by
  by_cases hint : v.type = .integer ∧ v'.type = .integer
  · cases h with
    | integer =>
      cases h' with
      | integer => exact parallel_integers op _ _
      | _ => cases hint.2
    | _ => cases hint.1
  by_cases hstr : v.type = .string ∧ v'.type = .string
  · cases h with
    | string =>
      cases h' with
      | string =>
        cases op with
        | add => exact parallel_pure .string
        | equal | notEqual => exact parallel_pure .boolean
        | _ => exact parallel_raise _
      | _ => cases hstr.2
    | _ => cases hstr.1
  rw [binary_of_types op hint hstr, binary_of_types op (by rwa [← h.type_eq, ← h'.type_eq])
    (by rwa [← h.type_eq, ← h'.type_eq]), h.identical_eq h', h.type_eq, h'.type_eq]
  split
  · exact parallel_pure .boolean
  · exact parallel_pure .boolean
  · split <;> exact parallel_raise _

theorem parallel_index (h : v.Like R w) (h' : v'.Like R w') :
    Parallel R (Value.Like R) (index v v') (index w w') := by
  cases h with
  | array _ hvs =>
    cases h' with
    | integer =>
      refine parallel_pure ?_
      split
      · exact .null
      · exact .getD (hvs.getElem? _)
    | _ => exact parallel_raise _
  | hash _ hes => exact (parallel_key h').bind fun k l hkl => parallel_pure (hkl ▸ .getD (hes.lookup k))
  | _ =>
    simp only [index, h'.type_eq]
    exact parallel_raise _

end Eval

namespace Builtin
open Run

variable {R : Likeness} {v w v' w' : Value}

theorem parallel_apply_one (b : Builtin) (hb : b.arity = some 1) (h : v.Like R w) :
    Parallel R (Value.Like R) (b.apply [v]) (b.apply [w]) := by
  cases h with
  | string =>
    cases b with
    | len => exact parallel_pure .integer
    | push | puts => cases hb
    | _ => exact parallel_raise _
  | array _ hvs =>
    cases b with
    | len =>
      simp only [Builtin.apply, hvs.length_eq]
      exact parallel_pure .integer
    | first => exact parallel_pure (.getD hvs.head?)
    | last => exact parallel_pure (.getD hvs.getLast?)
    | rest =>
      cases hvs with
      | nil => exact parallel_pure .null
      | cons _ hvs => exact parallel_newArray hvs
    | push | puts => cases hb
  | _ =>
    cases b with
    | push | puts => cases hb
    | _ => exact parallel_raise _

theorem parallel_apply_push (h : v.Like R w) (h' : v'.Like R w') :
    Parallel R (Value.Like R) (push.apply [v, v']) (push.apply [w, w']) := by
  cases h with
  | array _ hvs => exact parallel_newArray (hvs.append (.cons h' .nil))
  | _ => exact parallel_raise _

theorem parallel_apply_puts {vs ws : List Value} (h : ValuesLike R vs ws) :
    Parallel R (Value.Like R) (puts.apply vs) (puts.apply ws) := by
  simp only [Builtin.apply, h.map_display_eq]
  exact (parallel_print _).bind fun _ _ _ => parallel_pure .null

theorem parallel_apply (b : Builtin) {vs ws : List Value} (h : ValuesLike R vs ws) :
    Parallel R (Value.Like R) (b.apply vs) (b.apply ws) := by
  cases hb : b.arity with
  | none =>
    cases b with
    | puts => exact parallel_apply_puts h
    | _ => cases hb
  | some n =>
    by_cases hvs : vs.length = n
    · cases b with
      | puts => cases hb
      | push =>
        obtain rfl := Option.some.inj hb
        match h, hvs with
        | .cons h (.cons h' .nil), _ => exact parallel_apply_push h h'
      | len | first | last | rest =>
        obtain rfl := Option.some.inj hb
        match h, hvs with
        | .cons h .nil, _ => exact parallel_apply_one _ rfl h
    · rw [apply_of_arity hb hvs, apply_of_arity hb (h.length_eq ▸ hvs), h.length_eq]
      exact parallel_raise _

end Builtin

namespace Eval
open Run

variable {R : Likeness}

/-- Applied to alike arguments, alike functions run in parallel. -/
def AppliesAlike (R : Likeness) (apply apply' : Apply) : Prop :=
  ∀ {f g : Closure} {vs ws : List Value}, f.Like R g → ValuesLike R vs ws →
    Parallel R (Value.Like R) (apply f vs) (apply' g ws)

section
variable {apply apply' : Apply} {i j : Env}

mutual

theorem parallel_expr (happly : AppliesAlike R apply apply') (hij : R.envs i j) :
    ∀ e e' : Expr, e.mapLines R.line = e'.mapLines R.line →
      Parallel R (Value.Like R) (expr apply i e) (expr apply' j e')
  | .name line x, _, h => by
    cases Expr.twin_of_mapLines_eq h with
    | name hline => exact .atLine hline (parallel_lookup hij x)
  | .literal l, _, h => by
    cases Expr.twin_of_mapLines_eq h with
    | literal => cases l <;> exact parallel_pure (by constructor)
  | .unary line op e, _, h => by
    cases Expr.twin_of_mapLines_eq h with
    | unary hline he =>
      rw [expr, expr]
      exact .atLine hline (.bind (parallel_expr happly hij e _ he) fun v w hv => parallel_unary op hv)
  | .binary line op l r, _, h => by
    cases Expr.twin_of_mapLines_eq h with
    | binary hline hl hr =>
      rw [expr, expr]
      exact .atLine hline (.bind (parallel_expr happly hij l _ hl) fun v w hv =>
        .bind (parallel_expr happly hij r _ hr) fun v' w' hv' => parallel_binary op hv hv')
  | .conditional c yes none, _, h => by
    cases Expr.twin_of_mapLines_eq h with
    | ifThen hc hyes =>
      rw [expr, expr]
      refine .bind (parallel_expr happly hij c _ hc) fun v w hv => ?_
      rw [hv.truthy_eq]
      split
      · exact parallel_stmts happly hij yes _ hyes .null
      · exact parallel_pure .null
  | .conditional c yes (some no), _, h => by
    cases Expr.twin_of_mapLines_eq h with
    | ifThenElse hc hyes hno =>
      rw [expr, expr]
      refine .bind (parallel_expr happly hij c _ hc) fun v w hv => ?_
      rw [hv.truthy_eq]
      split
      · exact parallel_stmts happly hij yes _ hyes .null
      · exact parallel_stmts happly hij no _ hno .null
  | .function params body, _, h => by
    cases Expr.twin_of_mapLines_eq h with
    | function hbody => exact parallel_newFunction ⟨rfl, hbody, hij⟩
  | .call line callee args, _, h => by
    cases Expr.twin_of_mapLines_eq h with
    | call hline hcallee hargs =>
      rw [expr, expr]
      refine .atLine hline (.bind (parallel_expr happly hij callee _ hcallee) fun v w hv => ?_)
      cases hv with
      | function _ hf => exact .bind (parallel_exprs happly hij args _ hargs) fun vs ws hvs => happly hf hvs
      | builtin => exact .bind (parallel_exprs happly hij args _ hargs) fun vs ws hvs => Builtin.parallel_apply _ hvs
      | _ => exact parallel_raise _
  | .array elems, _, h => by
    cases Expr.twin_of_mapLines_eq h with
    | array helems =>
      rw [expr, expr]
      exact .bind (parallel_exprs happly hij elems _ helems) fun vs ws hvs => parallel_newArray hvs
  | .hash line ps, _, h => by
    cases Expr.twin_of_mapLines_eq h with
    | hash hline hps =>
      rw [expr, expr]
      exact .atLine hline (.bind (parallel_pairs happly hij ps _ hps .nil) fun es fs hes => parallel_newHash hes)
  | .index line base subscript, _, h => by
    cases Expr.twin_of_mapLines_eq h with
    | index hline hbase hsubscript =>
      rw [expr, expr]
      exact .atLine hline (.bind (parallel_expr happly hij base _ hbase) fun v w hv =>
        .bind (parallel_expr happly hij subscript _ hsubscript) fun v' w' hv' => parallel_index hv hv')
termination_by structural e => e

theorem parallel_exprs (happly : AppliesAlike R apply apply') (hij : R.envs i j) :
    ∀ es es' : List Expr, exprsMapLines R.line es = exprsMapLines R.line es' →
      Parallel R (ValuesLike R) (exprs apply i es) (exprs apply' j es')
  | [], [], _ => parallel_pure .nil
  | e :: es, e' :: es', h => by
    obtain ⟨he, hes⟩ := List.cons.inj h
    rw [exprs, exprs]
    exact .bind (parallel_expr happly hij e _ he) fun v w hv =>
      .bind (parallel_exprs happly hij es _ hes) fun vs ws hvs => parallel_pure (.cons hv hvs)
termination_by structural es => es

theorem parallel_pairs (happly : AppliesAlike R apply apply') (hij : R.envs i j) :
    ∀ ps ps' : List (Expr × Expr), pairsMapLines R.line ps = pairsMapLines R.line ps' → ∀ {es fs : Entries},
      EntriesLike R es fs → Parallel R (EntriesLike R) (pairs apply i es ps) (pairs apply' j fs ps')
  | [], [], _, _, _, hes => parallel_pure hes
  | (k, e) :: ps, (k', e') :: ps', h, _, _, hes => by
    obtain ⟨hhead, hps⟩ := List.cons.inj h
    obtain ⟨hk, he⟩ := Prod.mk.inj hhead
    rw [pairs, pairs]
    refine .bind (parallel_expr happly hij k _ hk) fun v w hv => .bind (parallel_key hv) fun key _ hkey => ?_
    subst hkey
    exact .bind (parallel_expr happly hij e _ he) fun v w hv => parallel_pairs happly hij ps _ hps (hes.put key hv)
termination_by structural ps => ps

theorem parallel_stmt (happly : AppliesAlike R apply apply') (hij : R.envs i j) :
    ∀ s s' : Stmt, s.mapLines R.line = s'.mapLines R.line →
      Parallel R (Value.Like R) (stmt apply i s) (stmt apply' j s')
  | .binding x e, _, h => by
    cases Stmt.twin_of_mapLines_eq h with
    | binding he =>
      rw [stmt, stmt]
      exact .bind (parallel_expr happly hij e _ he) fun v w hv =>
        .bind (parallel_bind hij x hv) fun _ _ _ => parallel_pure .null
  | .returning none, _, h => by
    cases Stmt.twin_of_mapLines_eq h with
    | returnNothing => exact parallel_return .null
  | .returning (some e), _, h => by
    cases Stmt.twin_of_mapLines_eq h with
    | returnValue he =>
      rw [stmt, stmt]
      exact .bind (parallel_expr happly hij e _ he) fun v w hv => parallel_return hv
  | .expression e, _, h => by
    cases Stmt.twin_of_mapLines_eq h with
    | expression he =>
      rw [stmt, stmt]
      exact parallel_expr happly hij e _ he
termination_by structural s => s

theorem parallel_stmts (happly : AppliesAlike R apply apply') (hij : R.envs i j) :
    ∀ ss ss' : List Stmt, stmtsMapLines R.line ss = stmtsMapLines R.line ss' → ∀ {v w : Value},
      v.Like R w → Parallel R (Value.Like R) (stmts apply i v ss) (stmts apply' j w ss')
  | [], [], _, _, _, hv => parallel_pure hv
  | s :: ss, s' :: ss', h, _, _, _ => by
    obtain ⟨hs, hss⟩ := List.cons.inj h
    rw [stmts, stmts]
    exact .bind (parallel_stmt happly hij s _ hs) fun v w hv => parallel_stmts happly hij ss _ hss hv
termination_by structural ss => ss

end
end

/-- The parameters of alike functions, bound to alike arguments in front of other bindings. -/
theorem lookup_params (x : String) {params : List String} {vs ws : List Value} (hvs : ValuesLike R vs ws)
    (bs cs : Bindings) (h : Option.Rel (Value.Like R) (bs.lookup x) (cs.lookup x)) :
    Option.Rel (Value.Like R) (((params.zip vs).reverse ++ bs).lookup x)
      (((params.zip ws).reverse ++ cs).lookup x) := by
  induction params generalizing vs ws bs cs with
  | nil => exact h
  | cons p params ih =>
    cases hvs with
    | nil => exact h
    | cons hv hvs =>
      simp only [List.zip_cons_cons, List.reverse_cons, List.append_assoc, List.cons_append, List.nil_append]
      refine ih hvs _ _ ?_
      rw [List.lookup_cons, List.lookup_cons]
      split
      · exact .some hv
      · exact h

/-- By induction on the calls to go, from both sides at once. -/
theorem parallel_apply : ∀ left : Nat, AppliesAlike R (apply left) (apply left)
  | 0, f, g, vs, ws, hf, hvs => by
    rw [apply, apply, hf.params, hvs.length_eq]
    split <;> exact parallel_raise _
  | left + 1, f, g, vs, ws, hf, hvs => by
    rw [apply, apply, hf.params, hvs.length_eq]
    split
    · refine .bind (parallel_enter (.some hf.env) fun x => ?_) fun i j hij =>
        .catchReturn (parallel_stmts (parallel_apply left) hij f.body _ hf.body .null)
      simpa using lookup_params x hvs [] [] .none
    · exact parallel_raise _

end Eval

/-- Two evaluations come to the same, up to what corresponds. -/
inductive Outcome.Like (R : Likeness) : Outcome → Outcome → Prop where
  | value {v w : Value} : v.Like R w → Outcome.Like R (.value v) (.value w)
  | returned {v w : Value} : v.Like R w → Outcome.Like R (.returned v) (.returned w)
  | error {e e' : RuntimeError} : e.Like R e' → Outcome.Like R (.error e) (.error e')

theorem Run.Parallel.run {R : Likeness} {x y : Run Value} (h : Run.Parallel R (Value.Like R) x y) {st st' : Store}
    (hst : st.Like R st') : (st.run x).1.Like R (st'.run y).1 ∧ (st.run x).2.Like R (st'.run y).2 := by
  have hends := h _ _ hst
  unfold Store.run
  generalize x st = r at hends
  generalize y st' = r' at hends
  cases hends with
  | ok hst' hv => exact ⟨.value hv, hst'⟩
  | error hst' he =>
    cases he with
    | error he => exact ⟨.error he, hst'⟩
    | returned hv => exact ⟨.returned hv, hst'⟩

end Monkey
