import Monkey.Proofs.Growth
import Monkey.Proofs.Machine

/-! What one step of the machine does to its store: it binds a name in the environment that it is in, makes an
environment for a call, prints what `puts` is given, or leaves the environments and the printed text alone. -/
namespace Monkey

namespace Run

/-- `x` makes no bindings and no environments, and prints nothing. -/
def Quiet (x : Run Value) : Prop := ∀ st, (Store.run st x).2.scopes = st.scopes ∧ (Store.run st x).2.output = st.output

theorem quiet_pure (v : Value) : Quiet (pure v) := fun _ => ⟨rfl, rfl⟩

theorem quiet_raise (fault : RuntimeFault) : Quiet (raise fault) := fun _ => ⟨rfl, rfl⟩

theorem quiet_newArray (elems : List Value) : Quiet (newArray elems) := fun _ => ⟨rfl, rfl⟩

theorem quiet_newHash (entries : Entries) : Quiet (newHash entries) := fun _ => ⟨rfl, rfl⟩

theorem quiet_newFunction (f : Closure) : Quiet (newFunction f) := fun _ => ⟨rfl, rfl⟩

end Run

namespace Eval
open Run

theorem quiet_unary (op : PrefixOp) (v : Value) : Quiet (unary op v) := by
  unfold unary
  split
  · exact quiet_pure _
  · exact quiet_pure _
  · exact quiet_raise _

theorem quiet_integers (op : InfixOp) (l r : Int64) : Quiet (integers op l r) := by
  cases op <;> simp only [integers]
  case divide =>
    split
    · exact quiet_raise _
    · exact quiet_pure _
  all_goals exact quiet_pure _

theorem quiet_binary (op : InfixOp) (l r : Value) : Quiet (binary op l r) := by
  unfold binary
  split
  · exact quiet_integers _ _ _
  · exact quiet_pure _
  · exact quiet_pure _
  · exact quiet_pure _
  · split <;> exact quiet_raise _

theorem quiet_index (base subscript : Value) : Quiet (index base subscript) := by
  unfold index
  split
  · exact quiet_pure _
  · unfold key
    split
    · exact quiet_pure _
    · exact quiet_raise _
  · exact quiet_raise _

end Eval

open Run in
theorem quiet_builtin {b : Builtin} (hb : b ≠ .puts) (args : List Value) : Quiet (b.apply args) := by
  unfold Builtin.apply
  split
  case h_6 | h_7 => exact quiet_newArray _
  case h_8 => exact absurd rfl hb
  case h_9 | h_10 | h_11 | h_12 => exact quiet_raise _
  all_goals exact quiet_pure _

/-- The text that `puts` prints: each argument on a line of its own. -/
def putsText (args : List Value) : String := String.join (args.map fun v => v.display ++ "\n")

namespace Machine

/-- What the step from `m` to `m'` does to the store. -/
inductive Effect (m m' : Machine) : Prop where
  | rests (hscopes : m'.store.scopes = m.store.scopes) (houtput : m'.store.output = m.store.output)
  | binds (x : String) (v : Value) (hstore : m'.store = m.store.bind m.env x v)
  | enters (f : Closure) (args : List Value) (hcontrol : m.control = .task (.call (.function f) args))
      (hmade : (m'.env, m'.store) = m.store.enter (some f.env) (f.params.zip args).reverse)
  | prints (args : List Value) (hcontrol : m.control = .task (.call (.builtin .puts) args))
      (hstore : m'.store = m.store.print (putsText args))

section
variable {m m' : Machine}

theorem effect_of_store (h : m'.store = m.store) : Effect m m' :=
  .rests (congrArg Store.scopes h) (congrArg Store.output h)

theorem effect_perform {x : Run Value} (hx : x.Quiet) : Effect m (m.perform x) :=
  .rests (hx m.store).1 (hx m.store).2

theorem effect_items (use : Use) (done : List Value) (es : List Expr) : Effect m (m.items use done es) := by
  cases es with
  | nil =>
    cases use with
    | arguments c => exact effect_of_store rfl
    | elements => exact effect_perform (Run.quiet_newArray _)
  | cons e es => exact effect_of_store rfl

theorem effect_pairs (entries : Entries) (ps : List (Expr × Expr)) : Effect m (m.pairs entries ps) := by
  cases ps with
  | nil => exact effect_perform (Run.quiet_newHash _)
  | cons p ps => exact effect_of_store rfl

theorem effect_statements (last : Value) (b : Block) : Effect m (m.statements last b) := by
  cases b <;> exact effect_of_store rfl

theorem effect_expand (n : Node) : Effect m (m.expand n) := by
  cases n with
  | expr e =>
    cases e with
    | function params body => exact effect_perform (Run.quiet_newFunction _)
    | array elems => exact effect_items _ _ _
    | hash line ps => exact effect_pairs _ _
    | _ => exact effect_of_store rfl
  | stmt s =>
    cases s with
    | returning e => cases e <;> exact effect_of_store rfl
    | _ => exact effect_of_store rfl
  | block b => exact effect_statements _ _

/-- A value makes a binding if a `let` has waited for it. -/
theorem effect_advance (v : Value) (p : Pending) : Effect m (m.advance v p) := by
  cases p with
  | operand op => exact effect_perform (Eval.quiet_unary _ _)
  | right op l => exact effect_perform (Eval.quiet_binary _ _ _)
  | subscript base => exact effect_perform (Eval.quiet_index _ _)
  | condition consequence alternative =>
    simp only [advance]
    split
    · exact effect_of_store rfl
    · cases alternative <;> exact effect_of_store rfl
  | callee args =>
    simp only [advance]
    split
    · exact effect_items _ _ _
    · exact effect_perform (Run.quiet_raise _)
  | item use done rest => exact effect_items _ _ _
  | key entries value rest =>
    simp only [advance]
    split
    · exact effect_of_store rfl
    · exact effect_perform (Run.quiet_raise _)
  | entry entries k rest => exact effect_pairs _ _
  | binding x => exact .binds x v rfl
  | statement rest => exact effect_statements _ _
  | left | base | returning => exact effect_of_store rfl

theorem effect_enter {c : Callable} {args : List Value} (hcontrol : m.control = .task (.call c args)) :
    Effect m (m.enter c args) := by
  cases c with
  | builtin b =>
    by_cases hb : b = .puts
    · subst hb
      exact .prints args hcontrol rfl
    · exact effect_perform (quiet_builtin hb args)
  | function f =>
    by_cases hargs : f.params.length = args.length
    · by_cases hdepth : m.depth < maxCallDepth
      · rw [enter_of_lt hargs hdepth]
        exact .enters f args hcontrol rfl
      · rw [enter_of_not_lt hargs hdepth]
        exact effect_perform (Run.quiet_raise _)
    · rw [enter_of_ne hargs]
      exact effect_perform (Run.quiet_raise _)

theorem effect_search (x : String) (env : Env) : Effect m (m.search x env) := by
  unfold search
  split
  · exact effect_of_store rfl
  · split
    · exact effect_of_store rfl
    · exact effect_perform (Run.quiet_raise _)

theorem effect_resume (o : Outcome) (f : Frame) : Effect m (m.resume o f) := by
  cases f with
  | node n => exact effect_of_store rfl
  | body env => exact effect_of_store rfl
  | pending p =>
    cases o with
    | value v => exact effect_advance v p
    | returned v => exact effect_of_store rfl
    | error e => exact effect_of_store rfl

/-- The stack does not matter. -/
theorem Effect.of_stack {stack : List Frame} (h : Effect { m with stack } m') : Effect m m' := by
  cases h with
  | rests hscopes houtput => exact .rests hscopes houtput
  | binds x v hstore => exact .binds x v hstore
  | enters f args hcontrol hmade => exact .enters f args hcontrol hmade
  | prints args hcontrol hstore => exact .prints args hcontrol hstore

theorem effect_of_step (h : m.step = some m') : Effect m m' := by
  unfold step at h
  split at h
  · cases h
    exact (effect_expand _).of_stack
  · next hcontrol =>
    cases h
    exact effect_enter hcontrol
  · cases h
    exact effect_search _ _
  · split at h
    · cases h
    · cases h
      exact (effect_resume _ _).of_stack

/-- A step only adds to the environments. -/
theorem Effect.grows (h : Effect m m') : m.store.Grows (fun _ _ => True) m'.store := by
  cases h with
  | rests hscopes _ => exact Store.grows_of_scopes hscopes
  | binds x v hstore => exact hstore ▸ Store.grows_bind m.env x v trivial
  | enters f args _ hmade =>
    have hstore : m'.store = (m.store.enter (some f.env) (f.params.zip args).reverse).2 := congrArg Prod.snd hmade
    exact hstore ▸ Store.grows_enter _ _
  | prints args _ hstore => exact hstore ▸ Store.grows_of_scopes rfl

theorem Effect.size_le (h : Effect m m') : m'.store.scopes.size ≤ m.store.scopes.size + 1 := by
  cases h with
  | rests hscopes _ => exact Nat.le_succ_of_le (Nat.le_of_eq (congrArg Array.size hscopes))
  | binds x v hstore => simp [hstore, Store.bind]
  | enters f args _ hmade =>
    have hstore : m'.store = (m.store.enter (some f.env) (f.params.zip args).reverse).2 := congrArg Prod.snd hmade
    simp [hstore, Store.enter]
  | prints args _ hstore => exact hstore ▸ Nat.le_succ _

end

/-- The run from `m` to `last`, and the arguments of each call of `puts` in it. -/
inductive Prints : Machine → List (List Value) → Machine → Prop where
  | nothing {m : Machine} : Prints m [] m
  | call {m m' last : Machine} {args : List Value} {calls : List (List Value)}
      (hcontrol : m.control = .task (.call (.builtin .puts) args)) (hstep : m.step = some m')
      (h : Prints m' calls last) : Prints m (args :: calls) last
  | step {m m' last : Machine} {calls : List (List Value)}
      (hcontrol : ∀ args, m.control ≠ .task (.call (.builtin .puts) args)) (hstep : m.step = some m')
      (h : Prints m' calls last) : Prints m calls last

section
variable {m m' : Machine} {calls : List (List Value)}

theorem exists_prints (h : Steps m m') : ∃ calls, Prints m calls m' := by
  induction h using Relation.ReflTransGen.head_induction_on with
  | refl => exact ⟨[], .nothing⟩
  | @head m k hstep _ ih =>
    obtain ⟨calls, hcalls⟩ := ih
    by_cases hputs : ∃ args, m.control = .task (.call (.builtin .puts) args)
    · obtain ⟨args, hcontrol⟩ := hputs
      exact ⟨args :: calls, .call hcontrol hstep hcalls⟩
    · exact ⟨calls, .step (not_exists.mp hputs) hstep hcalls⟩

theorem output_of_puts {args : List Value} (hstep : m.step = some m')
    (hcontrol : m.control = .task (.call (.builtin .puts) args)) :
    m'.store.output = m.store.output ++ putsText args := by
  simp only [Machine.step, hcontrol] at hstep
  obtain rfl := Option.some.inj hstep
  rfl

theorem output_of_step (hstep : m.step = some m') (hcontrol : ∀ args, m.control ≠ .task (.call (.builtin .puts) args)) :
    m'.store.output = m.store.output := by
  cases effect_of_step hstep with
  | rests _ houtput => exact houtput
  | binds x v hstore => exact hstore ▸ rfl
  | enters f args _ hmade => exact congrArg (fun made => made.2.output) hmade
  | prints args hputs _ => exact absurd hputs (hcontrol args)

/-- Nothing but `puts` prints. -/
theorem Prints.output (h : Prints m calls m') :
    m'.store.output = m.store.output ++ String.join (calls.map putsText) := by
  induction h with
  | nothing => simp
  | call hcontrol hstep _ ih => simp [ih, output_of_puts hstep hcontrol, String.append_assoc]
  | step hcontrol hstep _ ih => rw [ih, output_of_step hstep hcontrol]

end
end Machine
end Monkey
