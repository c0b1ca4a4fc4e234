import Monkey.Interpreter
import Monkey.Proofs.Scopes

/-! Lexical scoping is sound: a program that is well scoped over the names bound where it runs never meets an
unbound name, whatever becomes of the functions that it makes. -/
namespace Monkey
namespace Store

/-- All functions are well scoped, and the environment is there and gives each of these names a value. -/
structure Ready (st : Store) (env : Env) (names : List String) : Prop where
  functions : st.WellScoped
  present : env < st.scopes.size
  bound : names ⊆ st.names env

variable {st st' : Store} {env : Env} {names : List String} {x : String} {v : Value}

theorem Ready.grows {may : Env → String → Prop} (h : st.Ready env names) (hg : st.Grows may st')
    (hscoped : st'.WellScoped) : st'.Ready env names :=
  ⟨hscoped, hg.lt_size h.present, List.Subset.trans h.bound (hg.names_subset env)⟩

theorem Ready.bind (h : st.Ready env names) (hv : (st.bind env x v).Covers v.closures) :
    (st.bind env x v).Ready env (x :: names) := by
  have hg : st.Grows (fun _ _ => True) (st.bind env x v) := grows_bind env x v trivial
  have hbound := (h.grows hg (h.functions.bind hv)).bound
  exact ⟨h.functions.bind hv, hg.lt_size h.present, List.cons_subset.mpr ⟨mem_names_bind h.present, hbound⟩⟩

/-- What a function that is called with arguments for all its parameters finds in its new environment. -/
theorem Ready.enter {f : Closure} {args : List Value} (h : st.WellScoped)
    (hargs : st.Covers (closuresOfAll args)) (hlength : f.params.length = args.length) :
    (st.enter (some f.env) (f.params.zip args).reverse).2.Ready st.scopes.size
      (f.params ++ st.names f.env) where
  functions := h.enter fun b hb =>
    hargs.subset (closures_subset_of_mem (List.of_mem_zip (List.mem_reverse.mp hb)).2)
  present := by simp [Store.enter]
  bound := by
    refine List.Subset.trans ?_ subset_names_enter
    rw [List.map_reverse, List.map_fst_zip (Nat.le_of_eq hlength)]
    exact List.append_subset.mpr
      ⟨fun _ hx => List.mem_append_left _ (List.mem_reverse.mpr hx), List.subset_append_right ..⟩

end Store

/-- What leaves an evaluation is not about a name, and returned functions are well scoped. -/
def Exit.Allowed (st : Store) : Exit → Prop
  | .error e => st.WellScoped ∧ e.fault.category ≠ .unbound
  | .returned v => st.WellScoped ∧ st.Covers v.closures

namespace Eval
open Run

section
variable {α β : Type} {env : Env} {names : List String} {st : Store}

/-- Carried out from `st`, `x` meets no unbound name, and ends with the names bound in the environment and with
well scoped functions in the store and in its result, where `held` finds them. -/
abbrev Safe (held : α → List Closure) (env : Env) (names : List String) (st : Store) (x : Run α) : Prop :=
  Yields (fun _ _ => True) Exit.Allowed st x fun st' a => st'.Ready env names ∧ st'.Covers (held a)

theorem Safe.bind {held : α → List Closure} {held' : β → List Closure} {x : Run α} {f : α → Run β}
    {names' : List String} (hx : Safe held env names st x)
    (hf : ∀ a st', st.Grows (fun _ _ => True) st' → st'.Ready env names → st'.Covers (held a) →
      Safe held' env names' st' (f a)) : Safe held' env names' st (x >>= f) :=
  Yields.bind hx fun a st' hg h => hf a st' hg h.1 h.2

theorem Safe.atLine {held : α → List Closure} {x : Run α} (line : Nat) (hx : Safe held env names st x) :
    Safe held env names st (atLine line x) := Yields.atLine hx fun _ _ h => h

theorem Safe.of_plain {x : Run Value} {fs : List Closure} (hx : Plain fs x) (hst : st.Ready env names)
    (hfs : st.Covers fs) : Safe Value.closures env names st x := by
  refine hx.yields (fun st' v hscopes hv => ?_) fun st' e hscopes he => ⟨hst.functions.of_scopes hscopes, he⟩
  have hg : st.Grows (fun _ _ => True) st' := Store.grows_of_scopes hscopes
  exact ⟨hst.grows hg (hst.functions.of_scopes hscopes), (hfs.grows hg).subset hv⟩

theorem Safe.subset {held : α → List Closure} {names' : List String} {x : Run α}
    (hx : Safe held env names' st x) (h : names ⊆ names') : Safe held env names st x :=
  hx.weaken fun _ _ _ hst => ⟨⟨hst.1.functions, hst.1.present, List.Subset.trans h hst.1.bound⟩, hst.2⟩

/-- Well scoped functions can be applied. -/
def SafelyApplied (apply : Apply) : Prop :=
  ∀ (st : Store) (f : Closure) (args : List Value), st.WellScoped → f.WellScoped st →
    st.Covers (closuresOfAll args) →
      Yields (fun _ _ => True) Exit.Allowed st (apply f args) fun st' v =>
        st'.WellScoped ∧ st'.Covers v.closures

theorem safe_call {apply : Apply} (happly : SafelyApplied apply) {f : Closure} {args : List Value}
    (hst : st.Ready env names) (hf : f.WellScoped st) (hargs : st.Covers (closuresOfAll args)) :
    Safe Value.closures env names st (apply f args) :=
  (happly st f args hst.functions hf hargs).weaken fun _ _ hg h => ⟨hst.grows hg h.1, h.2⟩

/-- The value for the name of a `let`: once it is bound, the functions in it are well scoped. A literal may use
the name itself. -/
theorem yields_bound {apply : Apply} {x : String} {e : Expr} (hst : st.Ready env names)
    (hscoped : e.wellScoped (if e.isFunction then x :: names else names) = true)
    (he : e.wellScoped names = true → Safe Value.closures env names st (expr apply env e)) :
    Yields (fun _ _ => True) Exit.Allowed st (expr apply env e) fun st' v =>
      st'.Ready env names ∧ (st'.bind env x v).Covers v.closures := by
  have bind_grows (st : Store) (v : Value) : st.Grows (fun _ _ => True) (st.bind env x v) :=
    Store.grows_bind env x v trivial
  by_cases hfun : e.isFunction
  -- The function is there before `x` is bound, so it is well scoped only over the store that has the binding.
  · obtain ⟨params, body, rfl⟩ : ∃ params body, e = .function params body := by
      cases e with
      | function params body => exact ⟨params, body, rfl⟩
      | _ => cases hfun
    rw [expr]
    refine (plain_newFunction (List.mem_singleton_self _)).yields (fun st' v hscopes hv => ?_)
      fun st' e hscopes herr => ⟨hst.functions.of_scopes hscopes, herr⟩
    have hscopes' : st.Grows (fun _ _ => True) st' := Store.grows_of_scopes hscopes
    have hst' := hst.grows hscopes' (hst.functions.of_scopes hscopes)
    refine ⟨hst', fun f hf => ?_⟩
    obtain rfl := List.mem_singleton.mp (hv hf)
    have hnames : x :: names ⊆ (st'.bind env x v).names env :=
      List.cons_subset.mpr ⟨Store.mem_names_bind hst'.present,
        List.Subset.trans hst'.bound ((bind_grows st' v).names_subset env)⟩
    exact wellScopedBlock_mono (append_subset_append params hnames) body hscoped
  · rw [if_neg hfun] at hscoped
    exact (he hscoped).weaken fun st' v _ h => ⟨h.1, h.2.grows (bind_grows st' v)⟩

variable {apply : Apply}

/-! By induction on the syntax. A block binds its names in the environment itself, so there are more names bound
behind it than the judgement counts: what `Safe` says of the names it was given is kept. -/

mutual

theorem safe_expr (happly : SafelyApplied apply) :
    ∀ (e : Expr) (names : List String) (st : Store), st.Ready env names → e.wellScoped names = true →
    Safe Value.closures env names st (expr apply env e)
  | .name line x, names, st, hst, h => by
    have hx := Store.lookup_isSome_iff.mpr (hst.bound (List.contains_iff_mem.mp h))
    rw [expr]
    refine .atLine line (yields_lookup (fun v hv => ⟨hst, hst.functions.lookup hv⟩) fun hnone => ?_)
    simp [hnone] at hx
  | .literal l, names, st, hst, _ => by
    rw [expr]
    exact .of_plain (plain_pure (by cases l <;> exact List.nil_subset _)) hst Store.covers_nil
  | .unary line op e, names, st, hst, h => by
    rw [expr]
    exact .atLine line (.bind (safe_expr happly e names st hst h) fun v st _ hst _ =>
      .of_plain (plain_unary op v) hst Store.covers_nil)
  | .binary line op l r, names, st, hst, h => by
    obtain ⟨hl, hr⟩ := Bool.and_eq_true_iff.mp h
    rw [expr]
    exact .atLine line (.bind (safe_expr happly l names st hst hl) fun v st _ hst _ =>
      .bind (safe_expr happly r names st hst hr) fun w st _ hst _ =>
        .of_plain (plain_binary op v w) hst Store.covers_nil)
  | .conditional c consequence none, names, st, hst, h => by
    obtain ⟨hc, hb⟩ := Bool.and_eq_true_iff.mp h
    rw [expr]
    refine .bind (safe_expr happly c names st hst hc) fun v st _ hst _ => ?_
    split
    · exact safe_stmts happly consequence names st .null hst Store.covers_nil hb
    · exact yields_pure ⟨hst, Store.covers_nil⟩
  | .conditional c consequence (some alternative), names, st, hst, h => by
    obtain ⟨hc, h⟩ := Bool.and_eq_true_iff.mp h
    obtain ⟨hb, ha⟩ := Bool.and_eq_true_iff.mp h
    rw [expr]
    refine .bind (safe_expr happly c names st hst hc) fun v st _ hst _ => ?_
    split
    · exact safe_stmts happly consequence names st .null hst Store.covers_nil hb
    · exact safe_stmts happly alternative names st .null hst Store.covers_nil ha
  | .function params body, names, st, hst, h => by
    have hf : Closure.WellScoped st ⟨params, body, env⟩ :=
      wellScopedBlock_mono (append_subset_append params hst.bound) body h
    rw [expr]
    exact .of_plain (plain_newFunction (List.mem_singleton_self _)) hst (List.forall_mem_singleton.mpr hf)
  | .call line callee args, names, st, hst, h => by
    obtain ⟨hcallee, hargs⟩ := Bool.and_eq_true_iff.mp h
    rw [expr]
    refine .atLine line (.bind (safe_expr happly callee names st hst hcallee) fun v st _ hst hv => ?_)
    split
    · next f =>
      have hf : f.WellScoped st := hv f (List.mem_singleton_self f)
      exact .bind (safe_exprs happly args names st hst hargs) fun vs st hg hst hvs =>
        safe_call happly hst (hf.grows hg) hvs
    · next b =>
      exact .bind (safe_exprs happly args names st hst hargs) fun vs st _ hst hvs =>
        .of_plain (plain_builtin b vs) hst hvs
    · exact .of_plain (plain_raise (by simp [RuntimeFault.category])) hst Store.covers_nil
  | .array elems, names, st, hst, h => by
    rw [expr]
    exact .bind (safe_exprs happly elems names st hst h) fun vs st _ hst hvs =>
      .of_plain (plain_newArray (List.Subset.refl _)) hst hvs
  | .hash line ps, names, st, hst, h => by
    rw [expr]
    exact .atLine line (.bind (safe_pairs happly ps names st [] hst Store.covers_nil h) fun es st _ hst hes =>
      .of_plain (plain_newHash (List.Subset.refl _)) hst hes)
  | .index line base subscript, names, st, hst, h => by
    obtain ⟨hb, hs⟩ := Bool.and_eq_true_iff.mp h
    rw [expr]
    exact .atLine line (.bind (safe_expr happly base names st hst hb) fun v st _ hst hv =>
      .bind (safe_expr happly subscript names st hst hs) fun w st hg hst _ =>
        .of_plain (plain_index v w) hst (hv.grows hg))

theorem safe_exprs (happly : SafelyApplied apply) :
    ∀ (es : List Expr) (names : List String) (st : Store), st.Ready env names →
    wellScopedExprs names es = true → Safe closuresOfAll env names st (exprs apply env es)
  | [], names, st, hst, _ => by
    rw [exprs]
    exact yields_pure ⟨hst, Store.covers_nil⟩
  | e :: es, names, st, hst, h => by
    obtain ⟨he, hes⟩ := Bool.and_eq_true_iff.mp h
    rw [exprs]
    exact .bind (safe_expr happly e names st hst he) fun v st _ hst hv =>
      .bind (safe_exprs happly es names st hst hes) fun vs st hg hst hvs =>
        yields_pure ⟨hst, (hv.grows hg).append hvs⟩

theorem safe_pairs (happly : SafelyApplied apply) :
    ∀ (ps : List (Expr × Expr)) (names : List String) (st : Store) (entries : Entries), st.Ready env names →
    st.Covers (closuresOfEntries entries) → wellScopedPairs names ps = true →
    Safe closuresOfEntries env names st (pairs apply env entries ps)
  | [], names, st, entries, hst, hentries, _ => by
    rw [pairs]
    exact yields_pure ⟨hst, hentries⟩
  | (k, v) :: ps, names, st, entries, hst, hentries, h => by
    obtain ⟨hk, h⟩ := Bool.and_eq_true_iff.mp h
    obtain ⟨hv, hps⟩ := Bool.and_eq_true_iff.mp h
    rw [pairs]
    refine .bind (safe_expr happly k names st hst hk) fun key st hg hst _ => ?_
    have hkey : Safe (fun _ => []) env names st (Run.key key) :=
      yields_key (fun _ => ⟨hst, Store.covers_nil⟩) ⟨hst.functions, by simp [RuntimeFault.category]⟩
    refine hkey.bind fun key st hg' hst _ =>
      .bind (safe_expr happly v names st hst hv) fun w st hg'' hst hw => ?_
    have hput := hw.append (((hentries.grows hg).grows hg').grows hg'')
    exact safe_pairs happly ps names st _ hst (hput.subset (closures_put_subset key w entries)) hps

theorem safe_stmt (happly : SafelyApplied apply) :
    ∀ (s : Stmt) (names : List String) (st : Store), st.Ready env names → s.wellScoped names = true →
    Safe Value.closures env (s.binders ++ names) st (stmt apply env s)
  | .binding x e, names, st, hst, h => by
    rw [stmt]
    refine (yields_bound hst h (safe_expr happly e names st hst)).bind fun v st _ hv => ?_
    exact (yields_bind trivial (hv.1.bind hv.2)).bind fun _ st _ hst => yields_pure ⟨hst, Store.covers_nil⟩
  | .returning none, names, st, hst, _ => by
    rw [stmt]
    exact yields_return ⟨hst.functions, Store.covers_nil⟩
  | .returning (some e), names, st, hst, h => by
    rw [stmt]
    exact .bind (safe_expr happly e names st hst h) fun v st _ hst hv => yields_return ⟨hst.functions, hv⟩
  | .expression e, names, st, hst, h => by
    rw [stmt]
    exact safe_expr happly e names st hst h

theorem safe_stmts (happly : SafelyApplied apply) :
    ∀ (ss : List Stmt) (names : List String) (st : Store) (last : Value), st.Ready env names →
    st.Covers last.closures → wellScopedBlock names ss = true →
    Safe Value.closures env names st (stmts apply env last ss)
  | [], names, st, last, hst, hlast, _ => by
    rw [stmts]
    exact yields_pure ⟨hst, hlast⟩
  | s :: ss, names, st, last, hst, _, h => by
    obtain ⟨hs, hss⟩ := Bool.and_eq_true_iff.mp h
    rw [stmts]
    refine .bind (safe_stmt happly s names st hst hs) fun v st _ hst hv => ?_
    exact (safe_stmts happly ss (s.binders ++ names) st v hst hv hss).subset (List.subset_append_right ..)

end

end

/-- By induction on the calls to go: a body is evaluated with one less, in whatever store the caller has. -/
theorem safelyApplied_apply : ∀ left, SafelyApplied (apply left)
  | 0, st, f, args, hst, _, _ => by
    rw [apply]
    split <;> exact yields_raise ⟨hst, by simp [RuntimeFault.category]⟩
  | left + 1, st, f, args, hst, hf, hargs => by
    rw [apply]
    split
    · next hlength =>
      have henter : Yields (fun _ _ => True) Exit.Allowed st (enter (some f.env) (f.params.zip args).reverse)
          fun st' env => st'.Ready env (f.params ++ st.names f.env) := yields_enter (.enter hst hargs hlength)
      refine henter.bind fun env st' _ hst' => .catchReturn ?_ fun _ _ h => h
      have hbody := safe_stmts (safelyApplied_apply left) f.body _ st' .null hst' Store.covers_nil hf
      exact hbody.weaken fun _ _ _ h => ⟨h.1.functions, h.2⟩
    · exact yields_raise ⟨hst, by simp [RuntimeFault.category]⟩

end Eval

namespace Store
open Run Eval

/-- In a store whose functions are well scoped, a program that is well scoped over the names bound in its
environment never ends in an error about a name that is not bound; and all functions are well scoped afterwards,
however it ends. -/
theorem scoped_program_finds_its_names (st : Store) (env : Env) (p : Program) (henv : env < st.scopes.size)
    (hst : st.WellScoped) (hp : wellScopedBlock (st.names env) p = true) :
    (∀ e x, (st.runProgram env p).1 = .error e → e.fault ≠ .unbound x) ∧
      (st.runProgram env p).2.WellScoped := by
  have h := safe_stmts (safelyApplied_apply maxCallDepth) p (st.names env) st .null
    ⟨hst, henv, List.Subset.refl _⟩ covers_nil hp
  unfold Safe Yields at h
  unfold runProgram run
  cases hrun : Eval.stmts (Eval.apply maxCallDepth) env .null p st with
  | ok v st' =>
    rw [hrun] at h
    exact ⟨fun _ _ he => (nomatch he), h.2.1.functions⟩
  | error exit st' =>
    rw [hrun] at h
    cases exit with
    | returned v => exact ⟨fun _ _ he => (nomatch he), h.2.1⟩
    | error e =>
      refine ⟨fun e' x he hx => h.2.2 ?_, h.2.1⟩
      obtain rfl := Except.error.inj he
      rw [hx]
      rfl

/-- `fn(f, n) { f(f(n)) }`, made in the first environment. -/
def twice : Closure :=
  ⟨["f", "n"], [.expression (.call 1 (.name 1 "f") [.call 1 (.name 1 "f") [.name 1 "n"]])], 0⟩

/-- A function that calls itself, in an array:
`let down = fn(n) { if (n < 1) { 0 } else { down(n - 1) } }; let fs = [down]; twice(fs[0], 3)`. -/
def countdown : Program :=
  let condition : Expr := .binary 1 .less (.name 1 "n") (.literal (.integer 1))
  let again : Expr := .call 1 (.name 1 "down") [.binary 1 .subtract (.name 1 "n") (.literal (.integer 1))]
  let body : Block := [.expression (.conditional condition [.expression (.literal (.integer 0))]
    (some [.expression again]))]
  [.binding "down" (.function ["n"] body),
    .binding "fs" (.array [.name 1 "down"]),
    .expression (.call 1 (.name 1 "twice")
      [.index 1 (.name 1 "fs") (.literal (.integer 0)), .literal (.integer 3)])]

theorem wellScoped_start : start.2.WellScoped := by
  have hempty : empty.WellScoped := fun env x v hv => by simp [empty, bindings] at hv
  refine hempty.enter fun b hb => ?_
  obtain ⟨builtin, _, rfl⟩ := List.mem_map.mp (List.mem_reverse.mp hb)
  exact covers_nil

/-- The functions that a program binds, puts into an array and hands to one that was there find their names. -/
theorem countdown_finds_its_names :
    let st := start.2.bind 0 "twice" (.function 0 twice)
    (∀ e x, (st.runProgram 0 countdown).1 = .error e → e.fault ≠ .unbound x) ∧
      (st.runProgram 0 countdown).2.WellScoped := by
  intro st
  have hbody : wellScopedBlock twice.params twice.body = true := by decide
  have htwice : twice.WellScoped st := wellScopedBlock_mono (List.subset_append_left ..) twice.body hbody
  have hnames : ["twice"] ⊆ st.names 0 := List.cons_subset.mpr ⟨mem_names_bind (by decide), List.nil_subset _⟩
  have hst : st.WellScoped := wellScoped_start.bind (List.forall_mem_singleton.mpr htwice)
  have hprogram : wellScopedBlock (st.names 0) countdown = true :=
    wellScopedBlock_mono hnames countdown (by decide)
  exact scoped_program_finds_its_names st 0 countdown (by decide) hst hprogram

end Store
end Monkey
