import Monkey.Proofs.CallDepth
import Monkey.Proofs.HostLexer
import Monkey.Proofs.HostParser

/-! The machine of a host that takes its own checks for granted. A builtin uses its arguments by their index once
their number is right, a division is done once the divisor has been looked at, and the call depth is counted up
and down. No step that a machine comes to makes the host fail. -/
namespace Monkey

namespace Builtin

/-- The argument with this index, which has to be there. -/
def argument (args : List Value) (index : Nat) : Hosted Value :=
  match args[index]? with
  | some v => .ok v
  | none => .error (.noArgument index)

/-- The elements from this index on, which may be the end. -/
def elementsFrom (index : Nat) (elems : List Value) : Hosted (List Value) :=
  if index ≤ elems.length then .ok (elems.drop index) else .error .noElement

/-- Goes on with the elements of an argument that has to be an array. -/
def onArray (b : Builtin) (v : Value) (next : List Value → Hosted (Run Value)) : Hosted (Run Value) :=
  match v with
  | .array _ elems => next elems
  | v => pure (Run.raise (.builtinArgument b v.type))

/-- What a builtin does with arguments whose number is right. -/
def body (b : Builtin) (args : List Value) : Hosted (Run Value) :=
  match b with
  | .len => do
    let v ← argument args 0
    match v with
    | .string s => pure (pure (.integer (Int64.ofNat s.utf8ByteSize)))
    | .array _ elems => pure (pure (.integer (Int64.ofNat elems.length)))
    | v => pure (Run.raise (.builtinArgument .len v.type))
  | .first => do
    let v ← argument args 0
    onArray .first v fun elems => pure (pure (elems.head?.getD .null))
  | .last => do
    let v ← argument args 0
    onArray .last v fun elems => pure (pure (elems.getLast?.getD .null))
  | .rest => do
    let v ← argument args 0
    onArray .rest v fun elems =>
      if elems.isEmpty then pure (pure .null)
      else do
        let tail ← elementsFrom 1 elems
        pure (Run.newArray tail)
  | .push => do
    let v ← argument args 0
    onArray .push v fun elems => do
      let w ← argument args 1
      pure (Run.newArray (elems ++ [w]))
  | .puts => pure do
    Run.print (String.join (args.map fun v => v.display ++ "\n"))
    pure .null

/-- Applies a builtin. -/
def call (b : Builtin) (args : List Value) : Hosted (Run Value) :=
  match b.arity with
  | some want =>
    if args.length ≠ want then pure (Run.raise (.builtinArgumentCount b want args.length)) else b.body args
  | none => b.body args

variable {b : Builtin} {args : List Value}

/-- A builtin that has been given as many arguments as it takes finds each that it uses. -/
theorem body_eq (h : ∀ want, b.arity = some want → args.length = want) : b.body args = .ok (b.apply args) := by
  cases b
  case puts => rfl
  case push =>
    obtain ⟨v, w, rfl⟩ := List.length_eq_two.mp (h 2 rfl)
    cases v <;> rfl
  all_goals
    obtain ⟨v, rfl⟩ := List.length_eq_one_iff.mp (h 1 rfl)
    cases v
  case rest.array id elems => cases elems <;> rfl
  all_goals rfl

theorem call_eq (b : Builtin) (args : List Value) : b.call args = .ok (b.apply args) := by
  rw [call]
  cases harity : b.arity with
  | none => exact body_eq fun _ h => nomatch harity.symm.trans h
  | some want =>
    by_cases hlength : args.length = want
    · have hwant : ∀ n, b.arity = some n → args.length = n := fun n h =>
        hlength.trans (Option.some.inj (harity.symm.trans h))
      simp only [hlength, ne_eq, not_true_eq_false, if_false, body_eq hwant]
    · rw [apply_of_arity harity hlength]
      exact if_pos hlength

end Builtin

namespace Machine

/-- A quotient whose divisor has to be other than zero. All the other arithmetic wraps around. -/
def quotient (l r : Int64) : Hosted Int64 := if r = 0 then .error .zeroDivisor else .ok (l / r)

def hostBinary (op : InfixOp) (l r : Value) : Hosted (Run Value) :=
  match op, l, r with
  | .divide, .integer l, .integer r =>
    if r = 0 then pure (Run.raise (.divisionByZero l))
    else do
      let q ← quotient l r
      pure (pure (.integer q))
  | op, l, r => pure (Eval.binary op l r)

def hostAdvance (m : Machine) (v : Value) : Pending → Hosted Machine
  | .right op l => do
    let x ← hostBinary op l v
    pure (m.perform x)
  | p => pure (m.advance v p)

def hostEnter (m : Machine) : Callable → List Value → Hosted Machine
  | .builtin b, args => do
    let x ← b.call args
    pure (m.perform x)
  | .function f, args =>
    if f.params.length = args.length then
      if m.depth < maxCallDepth then do
        let depth ← countUp m.depth
        let (env, store) := m.store.enter (some f.env) (f.params.zip args).reverse
        pure ({ m with env, store, depth, stack := .body m.env :: m.stack }.evaluate (.block f.body))
      else pure (m.perform (Run.raise .callsTooDeep))
    else pure (m.perform (Run.raise (.argumentCount f.params.length args.length)))

def hostResume (m : Machine) (o : Outcome) : Frame → Hosted Machine
  | .node n => pure (m.finish (n.line?.elim o (o.atLine ·)))
  | .body env => do
    let depth ← countDown .noCall m.depth
    pure ({ m with env, depth }.finish o.caught)
  | .pending p =>
    match o with
    | .value v => m.hostAdvance v p
    | o => pure (m.finish o)

/-- A step of the host. To begin with a node and to look for a name takes nothing for granted. -/
def hostStep (m : Machine) : Hosted (Option Machine) :=
  match m.control with
  | .task (.call c args) => Except.map some (m.hostEnter c args)
  | .done o =>
    match m.stack with
    | [] => pure none
    | f :: stack => Except.map some ({ m with stack }.hostResume o f)
  | .task (.evaluate _) | .find _ _ => pure m.step

/-- Any number of steps of the host. -/
abbrev HostSteps : Machine → Machine → Prop := Relation.ReflTransGen fun m m' => m.hostStep = .ok (some m')

variable {depth : Nat} {m m' : Machine}

theorem hostBinary_eq (op : InfixOp) (l r : Value) : hostBinary op l r = .ok (Eval.binary op l r) := by
  unfold hostBinary
  split
  · next l r =>
    simp only [Eval.binary, Eval.integers, quotient]
    split <;> rfl
  · rfl

theorem hostAdvance_eq (v : Value) (p : Pending) : m.hostAdvance v p = .ok (m.advance v p) := by
  cases p with
  | right op l =>
    rw [hostAdvance, hostBinary_eq]
    rfl
  | _ => rfl

theorem countUp_of_lt {n : Nat} (h : n < maxCallDepth) : countUp n = .ok (n + 1) := by
  have hsize : maxCallDepth < 2 ^ 32 := by decide
  exact if_pos (Nat.lt_of_le_of_lt h (Nat.lt_of_lt_of_le hsize USize.le_size))

/-- The depth of calls is limited, and fits into a word. -/
theorem hostEnter_eq (c : Callable) (args : List Value) : m.hostEnter c args = .ok (m.enter c args) := by
  cases c with
  | builtin b =>
    rw [hostEnter, b.call_eq]
    rfl
  | function f =>
    rw [hostEnter, enter]
    split
    · split
      · next hdepth =>
        rw [countUp_of_lt hdepth]
        rfl
      · rfl
    · rfl

/-- A body that is left has been entered. -/
theorem hostResume_eq (o : Outcome) {f : Frame} {stack : List Frame} (h : m.depth = depth + bodies (f :: stack)) :
    m.hostResume o f = .ok (m.resume o f) := by
  cases f with
  | node n => rfl
  | body env =>
    have hdepth : countDown .noCall m.depth = .ok (m.depth - 1) := by
      rw [h]
      rfl
    rw [hostResume, hdepth]
    rfl
  | pending p =>
    cases o with
    | value v => exact hostAdvance_eq v p
    | returned v => rfl
    | error e => rfl

theorem hostStep_eq (h : m.depth = depth + bodies m.stack) : m.hostStep = .ok m.step := by
  unfold hostStep step
  cases m.control with
  | task t =>
    cases t with
    | evaluate n => rfl
    | call c args => exact congrArg (Except.map some) (hostEnter_eq c args)
  | find x env => rfl
  | done o =>
    cases hstack : m.stack with
    | nil => rfl
    | cons f stack =>
      rw [hstack] at h
      exact congrArg (Except.map some) (hostResume_eq (m := { m with stack }) o h)

theorem HostSteps.depth_eq (h : HostSteps m m') (hm : m.depth = depth + bodies m.stack) :
    m'.depth = depth + bodies m'.stack := by
  induction h with
  | refl => exact hm
  | tail _ hstep ih =>
    have hmoves := moves_of_step (Except.ok.inj ((hostStep_eq ih).symm.trans hstep))
    exact hmoves.depth_eq ih

end Machine

/-- A host reaches none of its faults: it reads every source to its end and cuts each lexeme out of it, it reads
every list of tokens as a program, and whatever an interpreter is told to do, it does every step that it comes
to; and each time it does what the rules say. -/
theorem host_reaches_no_fault (source : String) (i : Interpreter) :
    (Scanner.ofString source).Lexes (Cursor.ofString source).readings ∧
      (∀ ts, HostParser.program ts = .ok (Program.ofTokens ts)) ∧
      ∀ t m, Machine.HostSteps (i.start t) m → m.hostStep = .ok m.step :=
  ⟨Scanner.lexes_ofString source, HostParser.program_eq,
    fun _ _ h => Machine.hostStep_eq (h.depth_eq (Nat.add_zero i.depth).symm)⟩

end Monkey
