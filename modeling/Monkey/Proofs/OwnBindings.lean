import Monkey.Interpreter
import Monkey.Proofs.Growth

/-! Evaluation binds names in one environment only, and only those of the `let` statements that stand in the
syntax outside of its function literals; a call binds nothing in any environment that was there before. -/
namespace Monkey

/-! The names of the `let` statements in a piece of syntax, without those in function literals. -/

mutual

def Expr.lets : Expr → List String
  | .name _ _ | .literal _ | .function _ _ => []
  | .unary _ _ e => e.lets
  | .binary _ _ l r => l.lets ++ r.lets
  | .conditional c consequence none => c.lets ++ letsOfBlock consequence
  | .conditional c consequence (some alternative) =>
    c.lets ++ (letsOfBlock consequence ++ letsOfBlock alternative)
  | .call _ callee args => callee.lets ++ letsOfExprs args
  | .array elems => letsOfExprs elems
  | .hash _ ps => letsOfPairs ps
  | .index _ base subscript => base.lets ++ subscript.lets

def Stmt.lets : Stmt → List String
  | .binding x e => x :: e.lets
  | .returning none => []
  | .returning (some e) => e.lets
  | .expression e => e.lets

def letsOfBlock : List Stmt → List String
  | [] => []
  | s :: ss => s.lets ++ letsOfBlock ss

def letsOfExprs : List Expr → List String
  | [] => []
  | e :: es => e.lets ++ letsOfExprs es

def letsOfPairs : List (Expr × Expr) → List String
  | [] => []
  | (k, v) :: ps => k.lets ++ (v.lets ++ letsOfPairs ps)

end

namespace Eval
open Run

/-- Carried out from `st`, `x` binds none but these names in `env`, and nothing in other environments. -/
abbrev Binds {α : Type} (names : List String) (env : Env) (st : Store) (x : Run α) : Prop :=
  Yields (fun i name => i = env ∧ name ∈ names) (fun _ _ => True) st x fun _ _ => True

variable {names : List String} {env : Env} {st : Store}

theorem Binds.bind {α β : Type} {x : Run α} {f : α → Run β} (hx : Binds names env st x)
    (hf : ∀ a st', Binds names env st' (f a)) : Binds names env st (x >>= f) :=
  Yields.bind hx fun a st' _ _ => hf a st'

theorem Binds.atLine {α : Type} {x : Run α} (line : Nat) (hx : Binds names env st x) :
    Binds names env st (atLine line x) := Yields.atLine hx fun _ _ h => h

theorem Binds.of_plain {x : Run Value} {fs : List Closure} (hx : Plain fs x) : Binds names env st x :=
  hx.yields (fun _ _ _ _ => trivial) fun _ _ _ _ => trivial

/-- Applied to arguments, a function binds nothing in any environment that is there before. -/
def Confined (apply : Apply) : Prop :=
  ∀ (may : Env → String → Prop) (st : Store) (f : Closure) (args : List Value),
    Yields may (fun _ _ => True) st (apply f args) fun _ _ => True

section
variable {apply : Apply}

mutual

theorem binds_expr (happly : Confined apply) :
    ∀ (e : Expr) (st : Store), e.lets ⊆ names → Binds names env st (expr apply env e)
  | .name line x, st, _ => .atLine line (yields_lookup (fun _ _ => trivial) fun _ => trivial)
  | .literal l, st, _ => by
    rw [expr]
    exact yields_pure trivial
  | .unary line op e, st, h => by
    rw [expr]
    exact .atLine line (.bind (binds_expr happly e st h) fun v st => .of_plain (plain_unary op v))
  | .binary line op l r, st, h => by
    obtain ⟨hl, hr⟩ := List.append_subset.mp h
    rw [expr]
    exact .atLine line (.bind (binds_expr happly l st hl) fun v st =>
      .bind (binds_expr happly r st hr) fun w st => .of_plain (plain_binary op v w))
  | .conditional c consequence none, st, h => by
    obtain ⟨hc, hb⟩ := List.append_subset.mp h
    rw [expr]
    refine .bind (binds_expr happly c st hc) fun v st => ?_
    split
    · exact binds_stmts happly consequence st .null hb
    · exact yields_pure trivial
  | .conditional c consequence (some alternative), st, h => by
    obtain ⟨hc, hb⟩ := List.append_subset.mp h
    obtain ⟨hb, ha⟩ := List.append_subset.mp hb
    rw [expr]
    refine .bind (binds_expr happly c st hc) fun v st => ?_
    split
    · exact binds_stmts happly consequence st .null hb
    · exact binds_stmts happly alternative st .null ha
  | .function params body, st, _ => by
    rw [expr]
    exact .of_plain (plain_newFunction (List.mem_singleton_self _))
  | .call line callee args, st, h => by
    obtain ⟨hf, ha⟩ := List.append_subset.mp h
    rw [expr]
    refine .atLine line (.bind (binds_expr happly callee st hf) fun v st => ?_)
    split
    · exact .bind (binds_exprs happly args st ha) fun vs st => happly _ st _ vs
    · exact .bind (binds_exprs happly args st ha) fun vs st => .of_plain (plain_builtin _ vs)
    · exact yields_raise trivial
  | .array elems, st, h => by
    rw [expr]
    exact .bind (binds_exprs happly elems st h) fun vs st => .of_plain (plain_newArray (List.Subset.refl _))
  | .hash line ps, st, h => by
    rw [expr]
    exact .atLine line (.bind (binds_pairs happly ps st [] h) fun es st =>
      .of_plain (plain_newHash (List.Subset.refl _)))
  | .index line base subscript, st, h => by
    obtain ⟨hb, hs⟩ := List.append_subset.mp h
    rw [expr]
    exact .atLine line (.bind (binds_expr happly base st hb) fun v st =>
      .bind (binds_expr happly subscript st hs) fun w st => .of_plain (plain_index v w))

theorem binds_exprs (happly : Confined apply) :
    ∀ (es : List Expr) (st : Store), letsOfExprs es ⊆ names →
    Binds names env st (exprs apply env es)
  | [], st, _ => by
    rw [exprs]
    exact yields_pure trivial
  | e :: es, st, h => by
    obtain ⟨he, hes⟩ := List.append_subset.mp h
    rw [exprs]
    exact .bind (binds_expr happly e st he) fun v st =>
      .bind (binds_exprs happly es st hes) fun vs st => yields_pure trivial

theorem binds_pairs (happly : Confined apply) :
    ∀ (ps : List (Expr × Expr)) (st : Store) (entries : Entries),
    letsOfPairs ps ⊆ names → Binds names env st (pairs apply env entries ps)
  | [], st, _, _ => by
    rw [pairs]
    exact yields_pure trivial
  | (k, v) :: ps, st, entries, h => by
    obtain ⟨hk, h⟩ := List.append_subset.mp h
    obtain ⟨hv, hps⟩ := List.append_subset.mp h
    rw [pairs]
    exact .bind (binds_expr happly k st hk) fun _ st =>
      .bind (yields_key (fun _ => trivial) trivial) fun _ st =>
        .bind (binds_expr happly v st hv) fun _ st => binds_pairs happly ps st _ hps

theorem binds_stmt (happly : Confined apply) :
    ∀ (s : Stmt) (st : Store), s.lets ⊆ names → Binds names env st (stmt apply env s)
  | .binding x e, st, h => by
    obtain ⟨hx, he⟩ := List.cons_subset.mp h
    rw [stmt]
    exact .bind (binds_expr happly e st he) fun v st =>
      .bind (yields_bind ⟨rfl, hx⟩ trivial) fun _ st => yields_pure trivial
  | .returning none, st, _ => by
    rw [stmt]
    exact yields_return trivial
  | .returning (some e), st, h => by
    rw [stmt]
    exact .bind (binds_expr happly e st h) fun v st => yields_return trivial
  | .expression e, st, h => by
    rw [stmt]
    exact binds_expr happly e st h

theorem binds_stmts (happly : Confined apply) :
    ∀ (ss : List Stmt) (st : Store) (last : Value), letsOfBlock ss ⊆ names →
    Binds names env st (stmts apply env last ss)
  | [], st, _, _ => by
    rw [stmts]
    exact yields_pure trivial
  | s :: ss, st, _, h => by
    obtain ⟨hs, hss⟩ := List.append_subset.mp h
    rw [stmts]
    exact .bind (binds_stmt happly s st hs) fun v st => binds_stmts happly ss st v hss

end

end

/-- What the body binds is in the environment of the call, which is newer than all that were there. -/
theorem confined_apply : ∀ left, Confined (apply left)
  | 0, may, st, f, args => by
    rw [apply]
    split <;> exact yields_raise trivial
  | left + 1, may, st, f, args => by
    rw [apply]
    split
    · have hcall : Yields (fun i _ => st.scopes.size ≤ i) (fun _ _ => True) st
          (do
            let env ← enter (some f.env) (f.params.zip args).reverse
            catchReturn (stmts (apply left) env .null f.body)) fun _ _ => True := by
        have henter : Yields (fun i _ => st.scopes.size ≤ i) (fun _ _ => True) st
            (enter (some f.env) (f.params.zip args).reverse) fun _ env => env = st.scopes.size :=
          yields_enter rfl
        refine henter.bind fun env st' _ henv => .catchReturn ?_ fun _ _ _ => trivial
        have hbody : Binds (letsOfBlock f.body) env st' (stmts (apply left) env .null f.body) :=
          binds_stmts (confined_apply left) f.body st' .null (List.Subset.refl _)
        exact hbody.of_grows fun _ h => h.mono fun i name hi => Nat.le_of_eq (henv.symm.trans hi.1.symm)
      exact hcall.of_grows fun _ h => h.confine
    · exact yields_raise trivial

end Eval

namespace Store
open Run Eval

theorem grows_run {may : Env → String → Prop} {leave : Store → Exit → Prop} {good : Store → Value → Prop}
    {st : Store} {x : Run Value} (h : Yields may leave st x good) : st.Grows may (st.run x).2 := by
  unfold Yields at h
  unfold run
  cases hst : x st with
  | ok v st' =>
    rw [hst] at h
    exact h.1
  | error e st' =>
    rw [hst] at h
    cases e <;> exact h.1

/-- No environment of `st` is missing in `st'` or has another parent; only `env` has other bindings, and those
of none but the given names. -/
def ChangedOnly (env : Env) (names : List String) (st st' : Store) : Prop :=
  ∀ i scope, st.scopes[i]? = some scope →
    ∃ scope', st'.scopes[i]? = some scope' ∧ scope'.parent = scope.parent ∧ (i ≠ env → scope' = scope) ∧
      ∀ x, x ∉ names → scope'.bindings.lookup x = scope.bindings.lookup x

theorem Grows.changedOnly {env : Env} {names : List String} {st st' : Store}
    (h : st.Grows (fun i name => i = env ∧ name ∈ names) st') : ChangedOnly env names st st' := by
  intro i scope hscope
  obtain ⟨new, hnew, hmay⟩ := h i scope hscope
  refine ⟨_, hnew, rfl, fun hi => ?_, fun x hx => ?_⟩
  · have hnil : new = [] := List.eq_nil_iff_forall_not_mem.mpr fun b hb => hi (hmay b hb).1
    rw [hnil, List.nil_append]
  · have hnone : new.lookup x = none := List.lookup_eq_none_iff.mpr fun b hb => by
      have hne : x ≠ b.1 := fun h => hx (h ▸ (hmay b hb).2)
      simpa using hne
    rw [List.lookup_append, hnone, Option.none_or]

theorem Grows.scope_eq {st st' : Store} (h : st.Grows (fun _ _ => False) st') {env : Env} {scope : Scope}
    (hscope : st.scopes[env]? = some scope) : st'.scopes[env]? = some scope := by
  obtain ⟨new, hnew, hmay⟩ := h env scope hscope
  obtain rfl : new = [] := List.eq_nil_iff_forall_not_mem.mpr hmay
  exact hnew

theorem Grows.scopes_kept {st st' : Store} (h : st.Grows (fun _ _ => False) st') :
    st.scopes.toList <+: st'.scopes.toList := by
  refine List.prefix_iff_getElem?.mpr fun i hi => ?_
  have hscope : st.scopes[i]? = some st.scopes.toList[i] := by simp
  rw [Array.getElem?_toList, h.scope_eq hscope]

/-- However it ends, and however many calls may be nested in it, a call leaves all environments that were
there as they were; and a statement or an expression changes none of them but its own, and in that one
nothing but what its `let` statements bind. -/
theorem evaluation_changes_only_its_lets (left : Nat) (st : Store) :
    (∀ f args, st.scopes.toList <+: (st.run (apply left f args)).2.scopes.toList) ∧
      (∀ env s, ChangedOnly env s.lets st (st.run (stmt (apply left) env s)).2) ∧
        ∀ env e, ChangedOnly env e.lets st (st.run (expr (apply left) env e)).2 := by
  have happly := confined_apply left
  refine ⟨fun f args => ?_, fun env s => ?_, fun env e => ?_⟩
  · exact (grows_run (happly _ st f args)).scopes_kept
  · exact (grows_run (binds_stmt happly s st (List.Subset.refl _))).changedOnly
  · exact (grows_run (binds_expr happly e st (List.Subset.refl _))).changedOnly

end Store
end Monkey
