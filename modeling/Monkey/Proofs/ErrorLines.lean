import Monkey.Proofs.CallDepth

/-! Which line an error carries. An error is made by the rule of one node, the innermost that is being evaluated.
Every node whose rule can make one records a line, and on its way out nothing changes it. -/
namespace Monkey

/-- The faults that the rule of an expression makes itself, not counting what its parts or the functions that
it calls make. -/
inductive Expr.Makes : Expr → RuntimeFault → Prop where
  | unbound {line : Nat} {x : String} : Makes (.name line x) (.unbound x)
  | cannotNegate {line : Nat} {e : Expr} {t : ValueType} : Makes (.unary line .negate e) (.cannotNegate t)
  | mixedOperands {line : Nat} {op : InfixOp} {l r : Expr} {s t : ValueType} :
      Makes (.binary line op l r) (.mixedOperands s op t)
  | unknownOperator {line : Nat} {op : InfixOp} {l r : Expr} {s t : ValueType} :
      Makes (.binary line op l r) (.unknownOperator s op t)
  | divisionByZero {line : Nat} {l r : Expr} {n : Int64} : Makes (.binary line .divide l r) (.divisionByZero n)
  | notCallable {line : Nat} {f : Expr} {args : List Expr} {t : ValueType} :
      Makes (.call line f args) (.notCallable t)
  | argumentCount {line : Nat} {f : Expr} {args : List Expr} {want got : Nat} :
      Makes (.call line f args) (.argumentCount want got)
  | callsTooDeep {line : Nat} {f : Expr} {args : List Expr} : Makes (.call line f args) .callsTooDeep
  | builtinArgumentCount {line : Nat} {f : Expr} {args : List Expr} {b : Builtin} {want got : Nat} :
      Makes (.call line f args) (.builtinArgumentCount b want got)
  | builtinArgument {line : Nat} {f : Expr} {args : List Expr} {b : Builtin} {t : ValueType} :
      Makes (.call line f args) (.builtinArgument b t)
  | unhashableKey {line : Nat} {ps : List (Expr × Expr)} {t : ValueType} : Makes (.hash line ps) (.unhashable t)
  | unhashableSubscript {line : Nat} {base subscript : Expr} {t : ValueType} :
      Makes (.index line base subscript) (.unhashable t)
  | notIndexable {line : Nat} {base subscript : Expr} {s t : ValueType} :
      Makes (.index line base subscript) (.notIndexable s t)

/-- Only expressions that record a line make faults. -/
theorem Expr.Makes.line {e : Expr} {fault : RuntimeFault} (h : e.Makes fault) : ∃ line, e.line? = some line := by
  cases h <;> exact ⟨_, rfl⟩

namespace Run

/-- `x` makes no errors but those with a fault in `may`, and leaves their line open. -/
def MakesOnly (may : RuntimeFault → Prop) (x : Run Value) : Prop :=
  ∀ st e, (Store.run st x).1 = .error e → e.line = none ∧ may e.fault

variable {may may' : RuntimeFault → Prop}

theorem makesOnly_pure {v : Value} : MakesOnly may (pure v) := fun _ _ h => nomatch h

theorem makesOnly_raise {fault : RuntimeFault} (h : may fault) : MakesOnly may (raise fault) := by
  rintro st e ⟨⟩
  exact ⟨rfl, h⟩

theorem makesOnly_newArray {elems : List Value} : MakesOnly may (newArray elems) := fun _ _ h => nomatch h

theorem makesOnly_newHash {entries : Entries} : MakesOnly may (newHash entries) := fun _ _ h => nomatch h

theorem makesOnly_newFunction {f : Closure} : MakesOnly may (newFunction f) := fun _ _ h => nomatch h

theorem makesOnly_unary {op : PrefixOp} {v : Value} (h : op = .negate → may (.cannotNegate v.type)) :
    MakesOnly may (Eval.unary op v) := by
  unfold Eval.unary
  split
  · exact makesOnly_pure
  · exact makesOnly_pure
  · exact makesOnly_raise (h rfl)

theorem makesOnly_integers {op : InfixOp} {l r : Int64} (h : op = .divide → may (.divisionByZero l)) :
    MakesOnly may (Eval.integers op l r) := by
  cases op <;> simp only [Eval.integers]
  case divide =>
    split
    · exact makesOnly_raise (h rfl)
    · exact makesOnly_pure
  all_goals exact makesOnly_pure

theorem makesOnly_binary {op : InfixOp} {l r : Value} (hdivide : ∀ n, op = .divide → may (.divisionByZero n))
    (hmixed : may (.mixedOperands l.type op r.type)) (hunknown : may (.unknownOperator l.type op r.type)) :
    MakesOnly may (Eval.binary op l r) := by
  unfold Eval.binary
  split
  · exact makesOnly_integers (hdivide _)
  · exact makesOnly_pure
  · exact makesOnly_pure
  · exact makesOnly_pure
  · split
    · exact makesOnly_raise hunknown
    · exact makesOnly_raise hmixed

theorem makesOnly_index {base subscript : Value} (hkey : may (.unhashable subscript.type))
    (hbase : may (.notIndexable base.type subscript.type)) : MakesOnly may (Eval.index base subscript) := by
  unfold Eval.index
  split
  · exact makesOnly_pure
  · unfold key
    split
    · exact makesOnly_pure
    · exact makesOnly_raise hkey
  · exact makesOnly_raise hbase

theorem makesOnly_builtin {b : Builtin} {args : List Value}
    (hcount : ∀ want, may (.builtinArgumentCount b want args.length))
    (harg : ∀ v ∈ args, may (.builtinArgument b v.type)) : MakesOnly may (b.apply args) := by
  unfold Builtin.apply
  split
  case h_6 | h_7 => exact makesOnly_newArray
  case h_8 => exact fun _ _ h => nomatch h
  case h_9 | h_11 => exact makesOnly_raise (harg _ List.mem_cons_self)
  case h_10 | h_12 => exact makesOnly_raise (hcount _)
  all_goals exact makesOnly_pure

end Run

namespace Machine

/-- The rule of the node is the one in which `p` waits for a value. -/
inductive Pending.WaitsIn : Pending → Node → Prop where
  | operand {line : Nat} {op : PrefixOp} {e : Expr} : WaitsIn (.operand op) (.expr (.unary line op e))
  | left {line : Nat} {op : InfixOp} {l r r' : Expr} : WaitsIn (.left op r') (.expr (.binary line op l r))
  | right {line : Nat} {op : InfixOp} {l r : Expr} {v : Value} : WaitsIn (.right op v) (.expr (.binary line op l r))
  | condition {c : Expr} {consequence consequence' : Block} {alternative alternative' : Option Block} :
      WaitsIn (.condition consequence' alternative') (.expr (.conditional c consequence alternative))
  | callee {line : Nat} {f : Expr} {args args' : List Expr} : WaitsIn (.callee args') (.expr (.call line f args))
  | argument {line : Nat} {f : Expr} {args rest : List Expr} {c : Callable} {done : List Value} :
      WaitsIn (.item (.arguments c) done rest) (.expr (.call line f args))
  | element {elems rest : List Expr} {done : List Value} :
      WaitsIn (.item .elements done rest) (.expr (.array elems))
  | key {line : Nat} {ps rest : List (Expr × Expr)} {entries : Entries} {value : Expr} :
      WaitsIn (.key entries value rest) (.expr (.hash line ps))
  | entry {line : Nat} {ps rest : List (Expr × Expr)} {entries : Entries} {k : Key} :
      WaitsIn (.entry entries k rest) (.expr (.hash line ps))
  | base {line : Nat} {base subscript e : Expr} : WaitsIn (.base e) (.expr (.index line base subscript))
  | subscript {line : Nat} {base subscript : Expr} {v : Value} :
      WaitsIn (.subscript v) (.expr (.index line base subscript))
  | binding {x y : String} {e : Expr} : WaitsIn (.binding x) (.stmt (.binding y e))
  | returning {e : Option Expr} : WaitsIn .returning (.stmt (.returning e))
  | statement {b rest : Block} : WaitsIn (.statement rest) (.block b)

/-- Whatever waits for a value stands right on the node in whose rule it waits. -/
def Stacked : List Frame → Prop
  | [] => True
  | .pending p :: stack => (∃ n, stack.head? = some (.node n) ∧ p.WaitsIn n) ∧ Stacked stack
  | .node _ :: stack | .body _ :: stack => Stacked stack

/-- What the machine does next is done in the rule of the node on top of the stack: calls, looking names up, and
errors that have just been made. -/
inductive DoneIn (top : Option Frame) : Control → Prop where
  | evaluate {n : Node} : DoneIn top (.task (.evaluate n))
  | call {c : Callable} {args : List Value} {line : Nat} {f : Expr} {es : List Expr}
      (h : top = some (.node (.expr (.call line f es)))) : DoneIn top (.task (.call c args))
  | find {x : String} {env : Env} {line : Nat} (h : top = some (.node (.expr (.name line x)))) :
      DoneIn top (.find x env)
  | value {v : Value} : DoneIn top (.done (.value v))
  | returned {v : Value} : DoneIn top (.done (.returned v))
  | error {fault : RuntimeFault} {e : Expr} (h : top = some (.node (.expr e))) (hmakes : e.Makes fault) :
      DoneIn top (.done (.error ⟨fault, none⟩))

theorem DoneIn.call_on {stack : List Frame} {c : Callable} {args : List Value}
    (h : DoneIn stack.head? (.task (.call c args))) :
    ∃ line f es below, stack = .node (.expr (.call line f es)) :: below := by
  cases h with
  | @call _ _ line f es htop =>
    obtain ⟨below, hstack⟩ := List.head?_eq_some_iff.mp htop
    exact ⟨line, f, es, below, hstack⟩

theorem DoneIn.find_on {stack : List Frame} {x : String} {env : Env} (h : DoneIn stack.head? (.find x env)) :
    ∃ line below, stack = .node (.expr (.name line x)) :: below := by
  cases h with
  | @find _ _ line htop =>
    obtain ⟨below, hstack⟩ := List.head?_eq_some_iff.mp htop
    exact ⟨line, below, hstack⟩

/-- No error is on its way out, unless it has just been made. -/
structure Sited (m : Machine) : Prop where
  stacked : Stacked m.stack
  doneIn : DoneIn m.stack.head? m.control

section
variable {m m' : Machine} {n : Node} {stack : List Frame}

theorem sited_evaluate (hs : Stacked m.stack) (n : Node) : Sited (m.evaluate n) := ⟨hs, .evaluate⟩

theorem sited_push {p : Pending} (hm : m.stack = .node n :: stack) (hs : Stacked m.stack) (hp : p.WaitsIn n)
    (n' : Node) : Sited ((m.push (.pending p)).evaluate n') :=
  ⟨⟨⟨n, congrArg List.head? hm, hp⟩, hs⟩, .evaluate⟩

/-- An operation at which the expression on top of the stack is at work. -/
theorem sited_perform {e : Expr} {x : Run Value} (hm : m.stack = .node (.expr e) :: stack)
    (hs : Stacked m.stack) (hx : x.MakesOnly e.Makes) : Sited (m.perform x) := by
  refine ⟨hs, ?_⟩
  show DoneIn m.stack.head? (.done (m.store.run x).1)
  cases ho : (m.store.run x).1 with
  | value v => exact .value
  | returned v => exact .returned
  | error made =>
    obtain ⟨hline, hmakes⟩ := hx m.store made ho
    obtain ⟨fault, line⟩ := made
    obtain rfl : line = none := hline
    exact .error (congrArg List.head? hm) hmakes

theorem sited_items {use : Use} (hm : m.stack = .node n :: stack) (hs : Stacked m.stack)
    (huse : ∀ done rest, (Pending.item use done rest).WaitsIn n) (done : List Value) (es : List Expr) :
    Sited (m.items use done es) := by
  cases es with
  | cons e es => exact sited_push hm hs (huse done es) _
  | nil =>
    cases huse done [] with
    | argument => exact ⟨hs, .call (congrArg List.head? hm)⟩
    | element => exact sited_perform hm hs Run.makesOnly_newArray

theorem sited_pairs {line : Nat} {ps : List (Expr × Expr)} (hm : m.stack = .node (.expr (.hash line ps)) :: stack)
    (hs : Stacked m.stack) (entries : Entries) (rest : List (Expr × Expr)) : Sited (m.pairs entries rest) := by
  cases rest with
  | cons p rest => exact sited_push hm hs .key _
  | nil => exact sited_perform hm hs Run.makesOnly_newHash

theorem sited_statements {b : Block} (hm : m.stack = .node (.block b) :: stack) (hs : Stacked m.stack)
    (last : Value) (rest : Block) : Sited (m.statements last rest) := by
  cases rest with
  | cons s rest => exact sited_push hm hs .statement _
  | nil => exact ⟨hs, .value⟩

theorem sited_expand (hm : m.stack = .node n :: stack) (hs : Stacked m.stack) : Sited (m.expand n) := by
  cases n with
  | expr e =>
    cases e with
    | name line x => exact ⟨hs, .find (congrArg List.head? hm)⟩
    | literal l => exact ⟨hs, .value⟩
    | unary line op e => exact sited_push hm hs .operand _
    | binary line op l r => exact sited_push hm hs .left _
    | conditional c consequence alternative => exact sited_push hm hs .condition _
    | function params body => exact sited_perform hm hs Run.makesOnly_newFunction
    | call line callee args => exact sited_push hm hs .callee _
    | array elems => exact sited_items hm hs (fun _ _ => .element) _ _
    | hash line ps => exact sited_pairs hm hs _ _
    | index line base subscript => exact sited_push hm hs .base _
  | stmt s =>
    cases s with
    | binding x e => exact sited_push hm hs .binding _
    | returning e =>
      cases e with
      | none => exact ⟨hs, .returned⟩
      | some e => exact sited_push hm hs .returning _
    | expression e => exact sited_evaluate hs _
  | block b => exact sited_statements hm hs _ _

theorem sited_advance {p : Pending} (hm : m.stack = .node n :: stack) (hs : Stacked m.stack) (hp : p.WaitsIn n)
    (v : Value) : Sited (m.advance v p) := by
  cases hp with
  | operand =>
    refine sited_perform hm hs (Run.makesOnly_unary ?_)
    rintro rfl
    exact .cannotNegate
  | left => exact sited_push hm hs .right _
  | right =>
    refine sited_perform hm hs (Run.makesOnly_binary ?_ .mixedOperands .unknownOperator)
    rintro n rfl
    exact .divisionByZero
  | @condition _ _ _ _ alternative =>
    simp only [advance]
    split
    · exact sited_evaluate hs _
    · split
      · exact sited_evaluate hs _
      · exact ⟨hs, .value⟩
  | callee =>
    simp only [advance]
    split
    · exact sited_items hm hs (fun _ _ => .argument) _ _
    · exact sited_perform hm hs (Run.makesOnly_raise .notCallable)
  | argument => exact sited_items hm hs (fun _ _ => .argument) _ _
  | element => exact sited_items hm hs (fun _ _ => .element) _ _
  | key =>
    simp only [advance]
    split
    · exact sited_push hm hs .entry _
    · exact sited_perform hm hs (Run.makesOnly_raise .unhashableKey)
  | entry => exact sited_pairs hm hs _ _
  | base => exact sited_push hm hs .subscript _
  | subscript => exact sited_perform hm hs (Run.makesOnly_index .unhashableSubscript .notIndexable)
  | binding => exact ⟨hs, .value⟩
  | returning => exact ⟨hs, .returned⟩
  | statement => exact sited_statements hm hs _ _

/-- As long as no error is on its way out, a step makes at most one, in the rule of the innermost node. -/
theorem sited_of_step (h : m.step = some m') (hm : Sited m) (hno : ∀ e, m.control ≠ .done (.error e)) :
    Sited m' := by
  obtain ⟨hs, hdone⟩ := hm
  unfold step at h
  split at h
  · next n hcontrol =>
    cases h
    exact sited_expand rfl hs
  · next c args hcontrol =>
    cases h
    obtain ⟨line, callee, es, stack, hm⟩ := (hcontrol ▸ hdone).call_on
    cases c with
    | builtin b =>
      exact sited_perform hm hs
        (Run.makesOnly_builtin (fun _ => .builtinArgumentCount) fun _ _ => .builtinArgument)
    | function f =>
      by_cases hargs : f.params.length = args.length
      · by_cases hdepth : m.depth < maxCallDepth
        · rw [enter_of_lt hargs hdepth]
          exact ⟨hs, .evaluate⟩
        · rw [enter_of_not_lt hargs hdepth]
          exact sited_perform hm hs (Run.makesOnly_raise .callsTooDeep)
      · rw [enter_of_ne hargs]
        exact sited_perform hm hs (Run.makesOnly_raise .argumentCount)
  · next x env hcontrol =>
    cases h
    obtain ⟨line, stack, hm⟩ := (hcontrol ▸ hdone).find_on
    unfold search
    split
    · exact ⟨hs, .value⟩
    · split
      · exact ⟨hs, .find (congrArg List.head? hm)⟩
      · exact sited_perform hm hs (Run.makesOnly_raise .unbound)
  · next o hcontrol =>
    split at h
    · cases h
    · next f stack hstack =>
      cases h
      rw [hstack] at hs
      cases o with
      | error e => exact absurd hcontrol (hno e)
      | value v =>
        cases f with
        | node n =>
          rw [resume_node]
          exact ⟨hs, by cases n.line? <;> exact .value⟩
        | body env => exact ⟨hs, .value⟩
        | pending p =>
          obtain ⟨⟨n, htop, hp⟩, hs⟩ := hs
          obtain ⟨below, hm⟩ := List.head?_eq_some_iff.mp htop
          exact sited_advance hm hs hp v
      | returned v =>
        cases f with
        | node n =>
          rw [resume_node]
          exact ⟨hs, by cases n.line? <;> exact .returned⟩
        | body env => exact ⟨hs, .value⟩
        | pending p => exact ⟨hs.2, .returned⟩

end

/-- What an error carries once it has left a frame. -/
def Frame.label (e : RuntimeError) : Frame → RuntimeError
  | .node n => n.line?.elim e (e.atLine ·)
  | .pending _ | .body _ => e

theorem Frame.label_of_line {e : RuntimeError} {line : Nat} (h : e.line = some line) (f : Frame) :
    f.label e = e := by
  cases f with
  | node n =>
    obtain ⟨fault, own⟩ := e
    obtain rfl : own = some line := h
    simp only [label]
    cases n.line? <;> rfl
  | pending p => rfl
  | body env => rfl

/-- An error leaves one frame after the other, and nothing else is done. -/
theorem step_of_error {m m' : Machine} {e : RuntimeError} (h : m.step = some m')
    (hm : m.control = .done (.error e)) :
    ∃ f, m.stack = f :: m'.stack ∧ m'.control = .done (.error (f.label e)) := by
  simp only [step, hm] at h
  split at h
  · cases h
  · next f stack hstack =>
    cases h
    refine ⟨f, ?_⟩
    cases f with
    | node n =>
      rw [resume_node]
      exact ⟨hstack, by simp only [Frame.label]; cases n.line? <;> rfl⟩
    | pending p => exact ⟨hstack, rfl⟩
    | body env => exact ⟨hstack, rfl⟩

/-- The step from `m` to `m'` makes an error, in the rule of `e`, which is the innermost node that is being
evaluated. -/
structure Raises (m m' : Machine) (e : Expr) (fault : RuntimeFault) : Prop where
  step : m.step = some m'
  before : ∀ err, m.control ≠ .done (.error err)
  top : m'.stack.head? = some (.node (.expr e))
  control : m'.control = .done (.error ⟨fault, none⟩)
  makes : e.Makes fault

/-- From then on the error has the line of the node that made it. -/
theorem Raises.labelled {m m' k : Machine} {e : Expr} {fault : RuntimeFault} (h : Raises m m' e fault)
    (hk : Steps m' k) : k = m' ∨ k.control = .done (.error ⟨fault, e.line?⟩) := by
  obtain ⟨line, hline⟩ := h.makes.line
  induction hk with
  | refl => exact .inl rfl
  | tail _ hstep ih =>
    refine .inr ?_
    rcases ih with rfl | hcontrol
    · obtain ⟨f, hstack, hcontrol⟩ := step_of_error hstep h.control
      have htop := h.top
      rw [hstack] at htop
      obtain rfl := Option.some.inj htop
      rw [hcontrol, hline]
      simp [Frame.label, Node.line?, hline, RuntimeError.atLine]
    · obtain ⟨f, _, hcontrol'⟩ := step_of_error hstep hcontrol
      rwa [Frame.label_of_line hline f] at hcontrol'

theorem Raises.error {m m' k : Machine} {e : Expr} {fault : RuntimeFault} (h : Raises m m' e fault)
    (hk : Steps m' k) : ∃ err, k.control = .done (.error err) := by
  rcases h.labelled hk with rfl | hcontrol
  · exact ⟨_, h.control⟩
  · exact ⟨_, hcontrol⟩

/-- Two errors made in one run are the same. -/
theorem Raises.unique {start m m' k k' : Machine} {e e' : Expr} {fault fault' : RuntimeFault}
    (hm : Steps start m) (h : Raises m m' e fault) (hk : Steps start k) (h' : Raises k k' e' fault') :
    k = m ∧ e' = e := by
  have hsame : k = m := by
    rcases steps_total hm hk with hmk | hkm
    · rcases hmk.cases_head with rfl | ⟨c, hc, hck⟩
      · rfl
      · obtain rfl := Option.some.inj (h.step.symm.trans hc)
        obtain ⟨err, herr⟩ := h.error hck
        exact absurd herr (h'.before err)
    · rcases hkm.cases_head with rfl | ⟨c, hc, hcm⟩
      · rfl
      · obtain rfl := Option.some.inj (h'.step.symm.trans hc)
        obtain ⟨err, herr⟩ := h'.error hcm
        exact absurd herr (h.before err)
  subst hsame
  obtain rfl := Option.some.inj (h.step.symm.trans h'.step)
  have htop := h'.top.symm.trans h.top
  cases htop
  exact ⟨rfl, rfl⟩

variable {start m : Machine}

theorem sited_or_raised (hstart : Sited start) (hno : ∀ e, start.control ≠ .done (.error e)) (h : Steps start m) :
    (Sited m ∧ ∀ e, m.control ≠ .done (.error e)) ∨
      ∃ k k' e fault, Steps start k ∧ Raises k k' e fault ∧ Steps k' m := by
  induction h with
  | refl => exact .inl ⟨hstart, hno⟩
  | @tail m m' hm hstep ih =>
    rcases ih with ⟨hsited, hnone⟩ | ⟨k, k', e, fault, hk, hraises, hk'⟩
    · have hsited' := sited_of_step hstep hsited hnone
      by_cases herror : ∃ e, m'.control = .done (.error e)
      · obtain ⟨err, herr⟩ := herror
        have hdone := hsited'.doneIn
        rw [herr] at hdone
        cases hdone with
        | error htop hmakes => exact .inr ⟨m, m', _, _, hm, ⟨hstep, hnone, htop, herr, hmakes⟩, .refl⟩
      · exact .inl ⟨hsited', not_exists.mp herror⟩
    · exact .inr ⟨k, k', e, fault, hk, hraises, hk'.tail hstep⟩

end Machine

namespace Interpreter
open Machine

/-- An evaluation that ends in an error has made it on the way, in the rule of an expression with the line that
the error carries. -/
theorem exists_raises (i : Interpreter) (n : Node) (e : RuntimeError) (hdepth : i.depth ≤ maxCallDepth)
    (he : (i.store.run (n.run (Eval.apply (maxCallDepth - i.depth)) i.env)).1 = .error e) :
    ∃ m m' x line, Steps (i.start (.evaluate n)) m ∧ Raises m m' x e.fault ∧
      x.line? = some line ∧ e.line = some line := by
  have hend := steps_finished i (.evaluate n) hdepth
  have hsited : Sited (i.start (.evaluate n)) := ⟨trivial, .evaluate⟩
  obtain ⟨_, hno⟩ | ⟨m, m', x, fault, hm, hraises, hm'⟩ := sited_or_raised hsited (fun _ h => by cases h) hend
  · exact absurd (congrArg Control.done he) (hno e)
  obtain ⟨line, hline⟩ := hraises.makes.line
  rcases hraises.labelled hm' with hlast | hlast
  · -- At the end the stack is empty, so the error has left the node that made it.
    have htop := hraises.top
    rw [← hlast] at htop
    cases htop
  · have hsame := hlast.symm.trans (congrArg Control.done he)
    rw [hline] at hsame
    cases hsame
    exact ⟨m, m', x, line, hm, hraises, hline, rfl⟩

/-- If an evaluation ends in an error, one step of it has made the error, in the rule of the innermost expression
under way. That expression records a line, which is the error's; and on the way out, through whatever expressions,
blocks and calls there are, the error stays as it is. -/
theorem error_carries_line_of_its_node (i : Interpreter) (n : Node) (e : RuntimeError)
    (hdepth : i.depth ≤ maxCallDepth)
    (he : (i.store.run (n.run (Eval.apply (maxCallDepth - i.depth)) i.env)).1 = .error e) :
    ∃ m m' x line, Steps (i.start (.evaluate n)) m ∧ Raises m m' x e.fault ∧
      x.line? = some line ∧ e.line = some line ∧
        (∀ k, Steps m' k → k = m' ∨ k.control = .done (.error e)) ∧
          ∀ k k' y fault, Steps (i.start (.evaluate n)) k → Raises k k' y fault → k = m ∧ y = x := by
  obtain ⟨m, m', x, line, hm, hraises, hx, hline⟩ := exists_raises i n e hdepth he
  refine ⟨m, m', x, line, hm, hraises, hx, hline, fun k hk => ?_, fun k k' y fault hk h => hraises.unique hm hk h⟩
  have hlabelled := hraises.labelled hk
  rwa [hx, ← hline] at hlabelled

/-- A sum on line 1 with a call on line 2, of a function that negates `true` on line 3. -/
def sumWithFailingCall : Stmt :=
  let failing : Expr := .function [] [.expression (.unary 3 .negate (.literal (.boolean true)))]
  .expression (.binary 1 .add (.literal (.integer 1)) (.call 2 failing []))

theorem failing_call_carries_inner_line :
    ∃ m m' x, Steps (start { env := 0, depth := 0, store := Store.start.2 } (.evaluate (.stmt sumWithFailingCall))) m ∧
      Raises m m' x (.cannotNegate .boolean) ∧ x.line? = some 3 := by
  have hresult : (Store.start.2.run (Node.run (Eval.apply (maxCallDepth - 0)) 0 (.stmt sumWithFailingCall))).1 =
      .error ⟨.cannotNegate .boolean, some 3⟩ := by rfl
  obtain ⟨m, m', x, line, hm, hraises, hx, hline, -⟩ :=
    error_carries_line_of_its_node { env := 0, depth := 0, store := Store.start.2 } (.stmt sumWithFailingCall) _
      (Nat.zero_le _) hresult
  exact ⟨m, m', x, hm, hraises, hx.trans hline.symm⟩

end Interpreter
end Monkey
