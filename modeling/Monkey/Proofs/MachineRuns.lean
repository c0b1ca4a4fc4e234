import Monkey.Proofs.Machine

/-! The machine does what evaluation says: it ends where evaluation ends, with the stack, the environment and
the depth that it began with. -/
namespace Monkey
open Run

/-- What it means to evaluate a node, given how functions are applied. -/
def Node.run (apply : Eval.Apply) (env : Env) : Node → Run Value
  | .expr e => Eval.expr apply env e
  | .stmt s => Eval.stmt apply env s
  | .block b => Eval.stmts apply env .null b

def Callable.run (apply : Eval.Apply) : Callable → List Value → Run Value
  | .function f => apply f
  | .builtin b => b.apply

def Task.run (apply : Eval.Apply) (env : Env) : Task → Run Value
  | .evaluate n => n.run apply env
  | .call c args => c.run apply args

/-- What an evaluation that is left has come to. -/
def Exit.outcome : Exit → Outcome
  | .error e => .error e
  | .returned v => .returned v

namespace Store

variable {α : Type} {st st' : Store}

theorem run_of_ok {x : Run Value} {v : Value} (h : x st = .ok v st') : st.run x = (.value v, st') := by
  unfold run
  rw [h]

theorem run_of_error {x : Run Value} {e : Exit} (h : x st = .error e st') :
    st.run x = (e.outcome, st') := by
  unfold run
  rw [h]
  cases e <;> rfl

theorem run_bind_of_ok {x : Run α} {f : α → Run Value} {a : α} (h : x st = .ok a st') :
    st.run (x >>= f) = st'.run (f a) := by
  simp only [run, Bind.bind, EStateM.bind, h]

theorem run_bind_of_error {x : Run α} {f : α → Run Value} {e : Exit} (h : x st = .error e st') :
    st.run (x >>= f) = (e.outcome, st') :=
  run_of_error (by simp only [Bind.bind, EStateM.bind, h])

theorem run_atLine (line : Nat) (x : Run Value) (st : Store) :
    st.run (atLine line x) = ((st.run x).1.atLine line, (st.run x).2) := by
  unfold run atLine
  cases x st with
  | ok v st' => rfl
  | error e st' => cases e <;> rfl

theorem run_catchReturn (x : Run Value) (st : Store) :
    st.run (catchReturn x) = ((st.run x).1.caught, (st.run x).2) := by
  unfold run catchReturn
  cases x st with
  | ok v st' => rfl
  | error e st' => cases e <;> rfl

end Store

namespace Machine

def Use.run (apply : Eval.Apply) : Use → List Value → Run Value
  | .arguments c => c.run apply
  | .elements => newArray

/-- The errors of a node get the line that it records. -/
def labelled (n : Node) (x : Run Value) : Run Value := n.line?.elim x (atLine · x)

variable {m m' : Machine}

theorem steps_one (h : m.step = some m') : Steps m m' := .single h

theorem perform_of_run {x : Run Value} {o : Outcome} {st : Store} (h : m.store.run x = (o, st)) :
    m.perform x = { m with store := st }.finish o := by
  unfold perform finish
  rw [h]

/-- Once its first part has been carried out, with `p` waiting for it, the machine carries out the rest. -/
theorem steps_bind {p : Pending} {x : Run Value} {g : Value → Run Value}
    (hx : Steps m' ((m.push (.pending p)).perform x))
    (hg : ∀ v st, let next := { m with store := st }.finish (.value v)
      Steps (next.advance v p) (next.perform (g v))) :
    Steps m' (m.perform (x >>= g)) := by
  refine hx.trans ?_
  cases hst : x m.store with
  | ok v st =>
    rw [perform_of_run (m := m.push _) (Store.run_of_ok hst)]
    have hrest : m.perform (x >>= g) = ({ m with store := st }.finish (.value v)).perform (g v) := by
      unfold perform
      rw [Store.run_bind_of_ok hst]
      rfl
    rw [hrest]
    exact .head rfl (hg v st)
  | error e st =>
    rw [perform_of_run (m := m.push _) (Store.run_of_error hst), perform_of_run (Store.run_bind_of_error hst)]
    exact steps_one (by cases e <;> rfl)

theorem run_labelled (n : Node) (x : Run Value) (st : Store) :
    st.run (labelled n x) = (n.line?.elim (st.run x).1 ((st.run x).1.atLine ·), (st.run x).2) := by
  unfold labelled
  cases n.line? with
  | none => rfl
  | some line => exact Store.run_atLine line x st

/-- The rule of a node carries out what the node means, and its errors get the node's line. -/
theorem steps_node {n : Node} {x : Run Value}
    (h : Steps ((m.push (.node n)).expand n) ((m.push (.node n)).perform x)) :
    Steps (m.evaluate n) (m.perform (labelled n x)) := by
  rw [perform_of_run (run_labelled n x m.store)]
  exact .head rfl (h.tail rfl)

/-- Looking a name up walks along the environments around the one it starts from. -/
theorem steps_search (x : String) : ∀ (env : Env) (m : Machine),
    Steps { m with control := .find x env } (m.perform (lookup env x)) := by
  intro env
  induction env using Nat.strongRecOn with
  | ind env ih =>
    intro m
    cases hbound : (m.store.bindings env).lookup x with
    | some v =>
      have hlookup := Store.lookup_of_bound hbound
      have hrun : m.store.run (lookup env x) = (.value v, m.store) := by
        simp only [Store.run, lookup, hlookup]
      rw [perform_of_run hrun]
      exact steps_one (by simp only [step, search, hbound]; rfl)
    | none =>
      have hlookup := Store.lookup_of_unbound hbound
      cases hparent : m.store.parent? env with
      | some parent =>
        rw [hparent, Option.bind_some] at hlookup
        have hwalk := ih parent (Store.parent?_lt hparent) m
        have hsame : m.perform (lookup env x) = m.perform (lookup parent x) := by
          simp only [perform, Store.run, lookup, hlookup]
        rw [hsame]
        exact .head (by simp only [step, search, hbound, hparent]) hwalk
      | none =>
        rw [hparent, Option.bind_none] at hlookup
        have hsame : m.perform (lookup env x) = m.perform (raise (.unbound x)) := by
          simp only [perform, Store.run, lookup, hlookup]
        rw [hsame]
        exact steps_one (by simp only [step, search, hbound, hparent]; rfl)

/-- At this depth, the machine calls functions as `apply` says. -/
def Applies (apply : Eval.Apply) (depth : Nat) : Prop :=
  ∀ (m : Machine) (f : Closure) (args : List Value), m.depth = depth →
    Steps (m.call (.function f) args) (m.perform (apply f args))

section
variable {apply : Eval.Apply} {d : Nat}

theorem steps_call (happly : Applies apply d) (m : Machine) (c : Callable) (args : List Value)
    (hd : m.depth = d) : Steps (m.call c args) (m.perform (c.run apply args)) := by
  cases c with
  | function f => exact happly m f args hd
  | builtin b => exact steps_one rfl

mutual

theorem steps_expr (happly : Applies apply d) :
    ∀ (e : Expr) (m : Machine), m.depth = d →
    Steps (m.evaluate (.expr e)) (m.perform (Eval.expr apply m.env e))
  | .name line x, m, _ => by
    rw [Eval.expr]
    exact steps_node (steps_search x m.env (m.push _))
  | .literal l, m, _ => by
    rw [Eval.expr]
    exact steps_node (x := pure (Eval.literal l)) .refl
  | .unary line op e, m, hd => by
    rw [Eval.expr]
    exact steps_node (steps_bind (steps_expr happly e _ hd) fun v st => .refl)
  | .binary line op l r, m, hd => by
    rw [Eval.expr]
    exact steps_node (steps_bind (steps_expr happly l _ hd) fun v st =>
      steps_bind (steps_expr happly r _ hd) fun w st => .refl)
  | .conditional c consequence none, m, hd => by
    rw [Eval.expr]
    refine steps_node (steps_bind (steps_expr happly c _ hd) fun v st => ?_)
    by_cases hv : v.truthy
    · simp only [advance, if_pos hv]
      exact steps_node (steps_statements happly consequence (push _ _) .null hd)
    · simp only [advance, if_neg hv]
      exact .refl
  | .conditional c consequence (some alternative), m, hd => by
    rw [Eval.expr]
    refine steps_node (steps_bind (steps_expr happly c _ hd) fun v st => ?_)
    by_cases hv : v.truthy
    · simp only [advance, if_pos hv]
      exact steps_node (steps_statements happly consequence (push _ _) .null hd)
    · simp only [advance, if_neg hv]
      exact steps_node (steps_statements happly alternative (push _ _) .null hd)
  | .function params body, m, _ => by
    rw [Eval.expr]
    exact steps_node .refl
  | .call line callee args, m, hd => by
    rw [Eval.expr]
    refine steps_node (steps_bind (steps_expr happly callee _ hd) fun v st => ?_)
    cases v with
    | function id f => exact steps_items happly args _ (.arguments (.function f)) [] hd
    | builtin b => exact steps_items happly args _ (.arguments (.builtin b)) [] hd
    | _ => exact .refl
  | .array elems, m, hd => by
    rw [Eval.expr]
    exact steps_node (steps_items happly elems _ .elements [] hd)
  | .hash line ps, m, hd => by
    rw [Eval.expr]
    exact steps_node (steps_pairs happly ps _ [] hd)
  | .index line base subscript, m, hd => by
    rw [Eval.expr]
    exact steps_node (steps_bind (steps_expr happly base _ hd) fun v st =>
      steps_bind (steps_expr happly subscript _ hd) fun w st => .refl)

theorem steps_items (happly : Applies apply d) :
    ∀ (es : List Expr) (m : Machine) (use : Use) (done : List Value), m.depth = d →
    Steps (m.items use done es)
      (m.perform (do
        let vs ← Eval.exprs apply m.env es
        use.run apply (done.reverse ++ vs)))
  | [], m, use, done, hd => by
    rw [Eval.exprs, pure_bind, List.append_nil]
    cases use with
    | arguments c => exact steps_call happly m c done.reverse hd
    | elements => exact .refl
  | e :: es, m, use, done, hd => by
    have hrest (v : Value) (vs : List Value) : done.reverse ++ v :: vs = (v :: done).reverse ++ vs := by simp
    simp only [Eval.exprs, bind_assoc, pure_bind, hrest]
    exact steps_bind (steps_expr happly e _ hd) fun v st => steps_items happly es _ use (v :: done) hd

theorem steps_pairs (happly : Applies apply d) :
    ∀ (ps : List (Expr × Expr)) (m : Machine) (entries : Entries), m.depth = d →
    Steps (m.pairs entries ps)
      (m.perform (do
        let entries ← Eval.pairs apply m.env entries ps
        newHash entries))
  | [], m, entries, _ => by
    rw [Eval.pairs, pure_bind]
    exact .refl
  | (k, v) :: ps, m, entries, hd => by
    simp only [Eval.pairs, bind_assoc]
    refine steps_bind (steps_expr happly k _ hd) fun kv st => ?_
    cases hk : kv.key? with
    | some key =>
      simp only [advance, Run.key, hk, pure_bind]
      exact steps_bind (steps_expr happly v _ hd) fun v st => steps_pairs happly ps _ _ hd
    | none =>
      simp only [advance, Run.key, hk]
      exact .refl

theorem steps_stmt (happly : Applies apply d) :
    ∀ (s : Stmt) (m : Machine), m.depth = d →
    Steps (m.evaluate (.stmt s)) (m.perform (Eval.stmt apply m.env s))
  | .binding x e, m, hd => by
    rw [Eval.stmt]
    exact steps_node (steps_bind (steps_expr happly e _ hd) fun v st => .refl)
  | .returning none, m, hd => by
    rw [Eval.stmt]
    exact steps_node .refl
  | .returning (some e), m, hd => by
    rw [Eval.stmt]
    exact steps_node (steps_bind (steps_expr happly e _ hd) fun v st => .refl)
  | .expression e, m, hd => by
    rw [Eval.stmt]
    exact steps_node (steps_expr happly e _ hd)

theorem steps_statements (happly : Applies apply d) :
    ∀ (b : Block) (m : Machine) (last : Value), m.depth = d →
    Steps (m.statements last b) (m.perform (Eval.stmts apply m.env last b))
  | [], m, last, _ => by
    rw [Eval.stmts]
    exact .refl
  | s :: ss, m, last, hd => by
    rw [Eval.stmts]
    exact steps_bind (steps_stmt happly s _ hd) fun v st => steps_statements happly ss _ v hd

end

theorem steps_block (happly : Applies apply d) (b : Block) (m : Machine) (hd : m.depth = d) :
    Steps (m.evaluate (.block b)) (m.perform (Eval.stmts apply m.env .null b)) :=
  steps_node (steps_statements happly b (m.push _) .null hd)

end

/-- With `left` calls to go, the machine calls functions as evaluation does: the body runs one call deeper,
in an environment of its own, and behind it both are put back. -/
theorem applies_apply : ∀ left depth, depth + left = maxCallDepth → Applies (Eval.apply left) depth
  | 0, depth, hleft, m, f, args, hd => by
    have hdeep : ¬ m.depth < maxCallDepth := by omega
    rw [Eval.apply]
    by_cases hargs : f.params.length = args.length
    · rw [if_pos hargs]
      exact steps_one (congrArg some (enter_of_not_lt hargs hdeep))
    · rw [if_neg hargs]
      exact steps_one (congrArg some (enter_of_ne hargs))
  | left + 1, depth, hleft, m, f, args, hd => by
    have hdeep : m.depth < maxCallDepth := by omega
    rw [Eval.apply]
    by_cases hargs : f.params.length = args.length
    · rw [if_pos hargs]
      let made := m.store.enter (some f.env) (f.params.zip args).reverse
      let entered : Machine :=
        { m with env := made.1, store := made.2, depth := m.depth + 1, stack := .body m.env :: m.stack }
      have hfirst : (m.call (.function f) args).step = some (entered.evaluate (.block f.body)) :=
        congrArg some (enter_of_lt hargs hdeep)
      have hbody : Steps (entered.evaluate (.block f.body))
          (entered.perform (Eval.stmts (Eval.apply left) made.1 .null f.body)) :=
        steps_block (applies_apply left (depth + 1) (by omega)) f.body entered (congrArg (· + 1) hd)
      refine .head hfirst (hbody.tail ?_)
      have hrun : m.store.run (do
          let env ← Run.enter (some f.env) (f.params.zip args).reverse
          catchReturn (Eval.stmts (Eval.apply left) env .null f.body)) =
          made.2.run (catchReturn (Eval.stmts (Eval.apply left) made.1 .null f.body)) :=
        Store.run_bind_of_ok rfl
      rw [Store.run_catchReturn] at hrun
      rw [perform_of_run hrun]
      rfl
    · rw [if_neg hargs]
      exact steps_one (congrArg some (enter_of_ne hargs))

/-- The machine does what it is told as evaluation says, and hands back the stack, the environment and the
depth that it was given. -/
theorem steps_task (t : Task) (m : Machine) (hd : m.depth ≤ maxCallDepth) :
    Steps { m with control := .task t } (m.perform (t.run (Eval.apply (maxCallDepth - m.depth)) m.env)) := by
  have happly := applies_apply (maxCallDepth - m.depth) m.depth (by omega)
  cases t with
  | evaluate n =>
    cases n with
    | expr e => exact steps_expr happly e m rfl
    | stmt s => exact steps_stmt happly s m rfl
    | block b => exact steps_block happly b m rfl
  | call c args => exact steps_call happly m c args rfl

end Machine
end Monkey
