import Mathlib
import Monkey.Proofs.ErrorLines

/-! Exceptions. An error or a return signal that a part of an evaluation ends in is what the whole of it ends in:
nothing is evaluated or bound behind it. -/
namespace Monkey

/-- The evaluation of a node from a store comes, without an exception so far, to a part of it. What stands on the
left of the part has been evaluated, and has passed the check that is made before the part's turn. -/
inductive ComesTo (apply : Eval.Apply) (env : Env) : Node × Store → Node × Store → Prop where
  | operand {line : Nat} {op : PrefixOp} {e : Expr} {st : Store} :
      ComesTo apply env (.expr (.unary line op e), st) (.expr e, st)
  | left {line : Nat} {op : InfixOp} {l r : Expr} {st : Store} :
      ComesTo apply env (.expr (.binary line op l r), st) (.expr l, st)
  | right {line : Nat} {op : InfixOp} {l r : Expr} {v : Value} {st st' : Store}
      (hl : Eval.expr apply env l st = .ok v st') :
      ComesTo apply env (.expr (.binary line op l r), st) (.expr r, st')
  | condition {c : Expr} {consequence : Block} {alternative : Option Block} {st : Store} :
      ComesTo apply env (.expr (.conditional c consequence alternative), st) (.expr c, st)
  | consequence {c : Expr} {consequence : Block} {alternative : Option Block} {v : Value} {st st' : Store}
      (hc : Eval.expr apply env c st = .ok v st') (hv : v.truthy = true) :
      ComesTo apply env (.expr (.conditional c consequence alternative), st) (.block consequence, st')
  | alternative {c : Expr} {consequence alternative : Block} {v : Value} {st st' : Store}
      (hc : Eval.expr apply env c st = .ok v st') (hv : v.truthy = false) :
      ComesTo apply env (.expr (.conditional c consequence (some alternative)), st) (.block alternative, st')
  | statement {before after : Block} {s : Stmt} {v : Value} {st st' : Store}
      (hbefore : Eval.stmts apply env .null before st = .ok v st') :
      ComesTo apply env (.block (before ++ s :: after), st) (.stmt s, st')
  | binding {x : String} {e : Expr} {st : Store} : ComesTo apply env (.stmt (.binding x e), st) (.expr e, st)
  | returning {e : Expr} {st : Store} : ComesTo apply env (.stmt (.returning (some e)), st) (.expr e, st)
  | expression {e : Expr} {st : Store} : ComesTo apply env (.stmt (.expression e), st) (.expr e, st)
  | callee {line : Nat} {f : Expr} {args : List Expr} {st : Store} :
      ComesTo apply env (.expr (.call line f args), st) (.expr f, st)
  | argument {line : Nat} {f e : Expr} {before after : List Expr} {v : Value} {c : Callable} {vs : List Value}
      {st st' st'' : Store} (hf : Eval.expr apply env f st = .ok v st') (hv : v.callable? = some c)
      (hbefore : Eval.exprs apply env before st' = .ok vs st'') :
      ComesTo apply env (.expr (.call line f (before ++ e :: after)), st) (.expr e, st'')
  | element {e : Expr} {before after : List Expr} {vs : List Value} {st st' : Store}
      (hbefore : Eval.exprs apply env before st = .ok vs st') :
      ComesTo apply env (.expr (.array (before ++ e :: after)), st) (.expr e, st')
  | key {line : Nat} {k v : Expr} {before after : List (Expr × Expr)} {entries : Entries} {st st' : Store}
      (hbefore : Eval.pairs apply env [] before st = .ok entries st') :
      ComesTo apply env (.expr (.hash line (before ++ (k, v) :: after)), st) (.expr k, st')
  | value {line : Nat} {k v : Expr} {before after : List (Expr × Expr)} {entries : Entries} {w : Value}
      {key : Key} {st st' st'' : Store} (hbefore : Eval.pairs apply env [] before st = .ok entries st')
      (hk : Eval.expr apply env k st' = .ok w st'') (hw : w.key? = some key) :
      ComesTo apply env (.expr (.hash line (before ++ (k, v) :: after)), st) (.expr v, st'')
  | base {line : Nat} {base subscript : Expr} {st : Store} :
      ComesTo apply env (.expr (.index line base subscript), st) (.expr base, st)
  | subscript {line : Nat} {base subscript : Expr} {v : Value} {st st' : Store}
      (hbase : Eval.expr apply env base st = .ok v st') :
      ComesTo apply env (.expr (.index line base subscript), st) (.expr subscript, st')

namespace Machine

variable {apply : Eval.Apply} {d : Nat}

/-- Once its first part has a value, the machine goes on with what has waited for it. -/
theorem steps_of_ok {m m' : Machine} {p : Pending} {x : Run Value} {v : Value} {st : Store}
    (hx : Steps m' ((m.push (.pending p)).perform x)) (h : x m.store = .ok v st) :
    Steps m' (({ m with store := st }.finish (.value v)).advance v p) := by
  refine hx.trans ?_
  rw [perform_of_run (m := m.push _) (Store.run_of_ok h)]
  exact steps_one rfl

theorem exists_of_bind_eq_ok {α β : Type} {x : Run α} {f : α → Run β} {b : β} {st st' : Store}
    (h : (x >>= f) st = .ok b st') : ∃ a st'', x st = .ok a st'' ∧ f a st'' = .ok b st' := by
  simp only [Bind.bind, EStateM.bind] at h
  cases hx : x st with
  | ok a st'' =>
    rw [hx] at h
    exact ⟨a, st'', rfl, h⟩
  | error e st'' =>
    rw [hx] at h
    cases h

theorem key?_of_key_eq_ok {v : Value} {k : Key} {st st' : Store} (h : Run.key v st = .ok k st') :
    v.key? = some k ∧ st = st' := by
  unfold Run.key at h
  cases hv : v.key? with
  | none =>
    rw [hv] at h
    cases h
  | some k' =>
    rw [hv] at h
    cases h
    exact ⟨rfl, rfl⟩

/-- The machine gets to an expression in a list when those before it have their values. -/
theorem steps_items_before (happly : Applies apply d) (e : Expr) (after : List Expr) (use : Use) :
    ∀ (before : List Expr) (m : Machine) (done vs : List Value) (st : Store), m.depth = d →
    Eval.exprs apply m.env before m.store = .ok vs st →
    Steps (m.items use done (before ++ e :: after))
      (({ m with store := st }.push (.pending (.item use (vs.reverse ++ done) after))).evaluate (.expr e))
  | [], m, done, vs, st, _, h => by
    rw [Eval.exprs] at h
    cases h
    exact .refl
  | b :: before, m, done, vs, st, hd, h => by
    rw [Eval.exprs] at h
    obtain ⟨v, st₁, hb, h⟩ := exists_of_bind_eq_ok h
    obtain ⟨ws, st₂, hbefore, h⟩ := exists_of_bind_eq_ok h
    cases h
    have hrest := steps_items_before happly e after use before { m with store := st₁ } (v :: done) ws st hd hbefore
    rw [List.reverse_cons, List.append_assoc]
    exact (steps_of_ok (steps_expr happly b (m.push _) hd) hb).trans hrest

theorem steps_pairs_before (happly : Applies apply d) (k v : Expr) (after : List (Expr × Expr)) :
    ∀ (before : List (Expr × Expr)) (m : Machine) (entries entries' : Entries) (st : Store), m.depth = d →
    Eval.pairs apply m.env entries before m.store = .ok entries' st →
    Steps (m.pairs entries (before ++ (k, v) :: after))
      (({ m with store := st }.push (.pending (.key entries' v after))).evaluate (.expr k))
  | [], m, entries, entries', st, _, h => by
    rw [Eval.pairs] at h
    cases h
    exact .refl
  | (k', v') :: before, m, entries, entries', st, hd, h => by
    rw [Eval.pairs] at h
    obtain ⟨w, st₁, hk, h⟩ := exists_of_bind_eq_ok h
    obtain ⟨key, st₂, hkey, h⟩ := exists_of_bind_eq_ok h
    obtain ⟨hw, rfl⟩ := key?_of_key_eq_ok hkey
    obtain ⟨w', st₃, hv, hbefore⟩ := exists_of_bind_eq_ok h
    have hrest := steps_pairs_before happly k v after before { m with store := st₃ } (entries.put key w') entries' st
      hd hbefore
    have hfirst := steps_of_ok (steps_expr happly k' (m.push (.pending (.key entries v' (before ++ (k, v) :: after))))
      hd) hk
    simp only [advance, hw] at hfirst
    exact hfirst.trans
      ((steps_of_ok (steps_expr happly v' (({ m with store := st₁ } : Machine).push _) hd) hv).trans hrest)

theorem steps_statements_before (happly : Applies apply d) (s : Stmt) (after : Block) :
    ∀ (before : Block) (m : Machine) (last v : Value) (st : Store), m.depth = d →
    Eval.stmts apply m.env last before m.store = .ok v st →
    Steps (m.statements last (before ++ s :: after))
      (({ m with store := st }.push (.pending (.statement after))).evaluate (.stmt s))
  | [], m, last, v, st, _, h => by
    rw [Eval.stmts] at h
    cases h
    exact .refl
  | b :: before, m, last, v, st, hd, h => by
    rw [Eval.stmts] at h
    obtain ⟨w, st₁, hb, h⟩ := exists_of_bind_eq_ok h
    have hrest := steps_statements_before happly s after before { m with store := st₁ } w v st hd h
    exact (steps_of_ok (steps_stmt happly b (m.push _) hd) hb).trans hrest

/-- None of the frames is that of a call. -/
def Local (frames : List Frame) : Prop := ∀ f ∈ frames, ∀ env, f ≠ .body env

theorem local_node (n : Node) : Local [.node n] := by simp [Local]

theorem local_waiting (p : Pending) (n : Node) : Local [.pending p, .node n] := by simp [Local]

theorem Local.append {inner outer : List Frame} (hi : Local inner) (ho : Local outer) : Local (inner ++ outer) :=
  fun f hf => (List.mem_append.mp hf).elim (hi f) (ho f)

/-- A node whose rule begins with an expression goes on when that has a value. -/
theorem steps_first (happly : Applies apply d) {m : Machine} {n : Node} {e : Expr} {p : Pending} {v : Value}
    {st : Store} (hd : m.depth = d) (he : Eval.expr apply m.env e m.store = .ok v st)
    (hn : (m.push (.node n)).expand n = ((m.push (.node n)).push (.pending p)).evaluate (.expr e)) :
    Steps (m.evaluate n) (({ m.push (.node n) with store := st }.finish (.value v)).advance v p) := by
  have hfirst := steps_of_ok (steps_expr happly e ((m.push (.node n)).push (.pending p)) hd) he
  exact .head (congrArg some hn) hfirst

/-- The machine comes to the part, too, in the same environment and at the same depth. -/
theorem steps_comesTo (happly : Applies apply d) {env : Env} {n p : Node} {st st' : Store}
    (h : ComesTo apply env (n, st) (p, st')) {m : Machine} (hd : m.depth = d) (henv : m.env = env)
    (hst : m.store = st) :
    ∃ frames, Local frames ∧
      Steps (m.evaluate n) ({ m with store := st', stack := frames ++ m.stack }.evaluate p) := by
  subst henv hst
  cases h with
  | operand | left | condition | binding | returning | callee | base =>
    exact ⟨_, local_waiting _ _, steps_one rfl⟩
  | expression => exact ⟨_, local_node _, steps_one rfl⟩
  | @right line op l r v _ _ hl =>
    have hfirst := steps_first (n := .expr (.binary line op l r)) happly hd hl rfl
    exact ⟨_, local_waiting _ _, hfirst⟩
  | @subscript line base subscript v _ _ hbase =>
    have hfirst := steps_first (n := .expr (.index line base subscript)) happly hd hbase rfl
    exact ⟨_, local_waiting _ _, hfirst⟩
  | @consequence c consequence alternative v _ _ hc hv =>
    have hfirst := steps_first (n := .expr (.conditional c consequence alternative)) happly hd hc rfl
    simp only [advance, hv, if_true] at hfirst
    exact ⟨_, local_node _, hfirst⟩
  | @alternative c consequence alternative v _ _ hc hv =>
    have hfirst := steps_first (n := .expr (.conditional c consequence (some alternative))) happly hd hc rfl
    simp only [advance, hv] at hfirst
    exact ⟨_, local_node _, hfirst⟩
  | statement hbefore =>
    exact ⟨_, local_waiting _ _, .head rfl (steps_statements_before happly _ _ _ (m.push _) _ _ _ hd hbefore)⟩
  | element hbefore =>
    exact ⟨_, local_waiting _ _, .head rfl (steps_items_before happly _ _ _ _ (m.push _) [] _ _ hd hbefore)⟩
  | @argument line f e before after v c vs _ st₁ _ hf hv hbefore =>
    have hfirst := steps_first (n := .expr (.call line f (before ++ e :: after))) happly hd hf rfl
    simp only [advance, hv] at hfirst
    exact ⟨_, local_waiting _ _, hfirst.trans (steps_items_before happly _ _ _ _ _ [] _ _ hd hbefore)⟩
  | key hbefore =>
    exact ⟨_, local_waiting _ _, .head rfl (steps_pairs_before happly _ _ _ _ (m.push _) [] _ _ hd hbefore)⟩
  | @value line k v before after entries w key _ st₁ _ hbefore hk hw =>
    let within := m.push (.node (.expr (.hash line (before ++ (k, v) :: after))))
    have hpairs := steps_pairs_before happly k v after before within [] entries st₁ hd hbefore
    have hkey := steps_of_ok (m := { within with store := st₁ }) (p := .key entries v after)
      (steps_expr happly k _ hd) hk
    simp only [advance, hw] at hkey
    exact ⟨_, local_waiting _ _, .head rfl (hpairs.trans hkey)⟩

/-- However deep the part is nested, the machine comes to it without a call on the stack. -/
theorem steps_nested (happly : Applies apply d) {env : Env} {whole part : Node × Store}
    (h : Relation.ReflTransGen (ComesTo apply env) whole part) {m : Machine} (hd : m.depth = d)
    (henv : m.env = env) (hst : m.store = whole.2) :
    ∃ frames, Local frames ∧
      Steps (m.evaluate whole.1) ({ m with store := part.2, stack := frames ++ m.stack }.evaluate part.1) := by
  induction h with
  | refl => exact ⟨[], nofun, hst ▸ .refl⟩
  | @tail between part _ hlast ih =>
    obtain ⟨outer, houter, hfirst⟩ := ih
    obtain ⟨inner, hinner, hrest⟩ :=
      steps_comesTo (m := { m with store := between.2, stack := outer ++ m.stack }) happly hlast hd henv rfl
    rw [← List.append_assoc] at hrest
    exact ⟨inner ++ outer, hinner.append houter, hfirst.trans hrest⟩

end Machine

/-- A return signal, or an error whose line is known. -/
inductive Outcome.Leaves : Outcome → Prop where
  | returned {v : Value} : Leaves (.returned v)
  | error {fault : RuntimeFault} {line : Nat} : Leaves (.error ⟨fault, some line⟩)

namespace Interpreter
open Machine

variable {i : Interpreter} {o : Outcome}

/-- A machine that does nothing but leave frames. -/
def leaving (i : Interpreter) (o : Outcome) (frames : List Frame) : Machine :=
  { i with control := .done o, stack := frames }

theorem step_leaving (ho : o.Leaves) {f : Frame} {frames : List Frame} (hf : ∀ env, f ≠ .body env) :
    (i.leaving o (f :: frames)).step = some (i.leaving o frames) := by
  cases f with
  | body env => exact absurd rfl (hf env)
  | pending p => cases ho <;> rfl
  | node n =>
    have hlabel : n.line?.elim o (o.atLine ·) = o := by
      cases n.line? with
      | none => rfl
      | some line => cases ho <;> rfl
    show some ((i.leaving o frames).finish (n.line?.elim o (o.atLine ·))) = some (i.leaving o frames)
    rw [hlabel]
    rfl

theorem steps_leaving_onto (ho : o.Leaves) {frames : List Frame} (hf : Local frames) (below : List Frame) :
    Steps (i.leaving o (frames ++ below)) (i.leaving o below) := by
  induction frames with
  | nil => exact .refl
  | cons f frames ih =>
    exact .head (step_leaving ho (hf f List.mem_cons_self)) (ih fun g hg => hf g (List.mem_cons_of_mem f hg))

theorem steps_leaving (ho : o.Leaves) {frames : List Frame} (hf : Local frames) :
    Steps (i.leaving o frames) (i.leaving o []) :=
  List.append_nil frames ▸ steps_leaving_onto ho hf []

theorem leaving_of_steps (ho : o.Leaves) {frames : List Frame} (hf : Local frames) {m : Machine}
    (h : Steps (i.leaving o frames) m) : ∃ rest, Local rest ∧ m = i.leaving o rest := by
  induction h with
  | refl => exact ⟨frames, hf, rfl⟩
  | tail _ hstep ih =>
    obtain ⟨rest, hrest, rfl⟩ := ih
    cases rest with
    | nil => cases hstep
    | cons f rest =>
      rw [step_leaving ho (hrest f List.mem_cons_self)] at hstep
      cases hstep
      exact ⟨rest, fun g hg => hrest g (List.mem_cons_of_mem f hg), rfl⟩

/-- What leaves an evaluation leaves all that it is nested in. -/
theorem leaves_of_run (n : Node) (hdepth : i.depth ≤ maxCallDepth)
    (h : (i.store.run (n.run (Eval.apply (maxCallDepth - i.depth)) i.env)).1 = o) (ho : ∀ v, o ≠ .value v) :
    o.Leaves := by
  cases o with
  | value v => exact absurd rfl (ho v)
  | returned v => exact .returned
  | error e =>
    obtain ⟨m, m', x, line, -, -, -, hline⟩ := exists_raises i n e hdepth h
    obtain ⟨fault, own⟩ := e
    obtain rfl : own = some line := hline
    exact .error

/-- When a part of an evaluation, however deep it is nested, ends in an exception, the whole ends in the same one,
with the store as the part has left it. From the end of the part on nothing is evaluated and nothing bound: the
interpreter only leaves what it is in. -/
theorem exception_ends_all_around_it (i : Interpreter) (whole part : Node) (st after : Store) (o : Outcome)
    (hdepth : i.depth ≤ maxCallDepth)
    (hpart : Relation.ReflTransGen (ComesTo (Eval.apply (maxCallDepth - i.depth)) i.env) (whole, i.store) (part, st))
    (hends : st.run (part.run (Eval.apply (maxCallDepth - i.depth)) i.env) = (o, after)) (ho : ∀ v, o ≠ .value v) :
    i.store.run (whole.run (Eval.apply (maxCallDepth - i.depth)) i.env) = (o, after) ∧
      ∃ frames,
        Steps (i.start (.evaluate whole)) { i with store := st, control := .task (.evaluate part), stack := frames } ∧
        Steps { i with store := st, control := .task (.evaluate part), stack := frames }
          (leaving { i with store := after } o frames) ∧
        ∀ m, Steps (leaving { i with store := after } o frames) m →
          ∃ rest, m = leaving { i with store := after } o rest := by
  have happly := applies_apply (maxCallDepth - i.depth) i.depth (by omega)
  have hleaves : o.Leaves := leaves_of_run (i := { i with store := st }) part hdepth (congrArg Prod.fst hends) ho
  obtain ⟨frames, hlocal, hcome⟩ :=
    steps_nested happly hpart (m := i.start (.evaluate whole)) rfl rfl rfl
  rw [show (i.start (.evaluate whole)).stack = [] from rfl, List.append_nil] at hcome
  have hdone :=
    steps_task (.evaluate part) { i with store := st, control := .task (.evaluate part), stack := frames } hdepth
  rw [perform_of_run hends] at hdone
  refine ⟨?_, frames, hcome, hdone, fun m hm => ?_⟩
  · have hend := (hcome.trans hdone).trans (steps_leaving (i := { i with store := after }) hleaves hlocal)
    have hsame := eq_of_steps (steps_finished i (.evaluate whole) hdepth) rfl hend rfl
    have houtcome := Control.done.inj (congrArg Machine.control hsame)
    have hstore := congrArg (fun m => m.store) hsame
    exact Prod.ext houtcome.symm hstore.symm
  · obtain ⟨rest, -, hrest⟩ := leaving_of_steps hleaves hlocal hm
    exact ⟨rest, hrest⟩

/-- `let y = [1, z, puts("behind")]`, where `z` is not bound. -/
def listWithUnboundName : Stmt :=
  .binding "y" (.array [.literal (.integer 1), .name 1 "z",
    .call 1 (.name 1 "puts") [.literal (.string "behind")]])

/-- The name that is not bound ends the statement. Nothing is printed and `y` is not bound. -/
theorem unbound_element_ends_statement :
    Store.start.2.runStatement 0 listWithUnboundName = (.error ⟨.unbound "z", some 1⟩, Store.start.2) := by
  have hfirst : Eval.exprs (Eval.apply maxCallDepth) 0 [.literal (.integer 1)] Store.start.2 =
      .ok [.integer 1] Store.start.2 := rfl
  have hpart : Relation.ReflTransGen (ComesTo (Eval.apply maxCallDepth) 0)
      (.stmt listWithUnboundName, Store.start.2) (.expr (.name 1 "z"), Store.start.2) :=
    .tail (.single .binding) (.element hfirst)
  have hends : Store.start.2.run (Node.run (Eval.apply maxCallDepth) 0 (.expr (.name 1 "z"))) =
      (.error ⟨.unbound "z", some 1⟩, Store.start.2) := by cbv
  exact (exception_ends_all_around_it { env := 0, depth := 0, store := Store.start.2 } _ _ _ _ _ (Nat.zero_le _)
    hpart hends fun _ h => by cases h).1

end Interpreter
end Monkey
