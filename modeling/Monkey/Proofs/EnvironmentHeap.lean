import Monkey.Proofs.Hosting

/-! The environments of all states that a host can bring about. Every environment that is referred to exists; one that
is inside of another was made after it, and stays inside of it; so a lookup comes to no environment twice, even where
functions bound in an environment have captured it themselves. -/
namespace Monkey

namespace Store

variable {may : Env → String → Prop} {st st' : Store} {env : Env}

theorem Grows.parent?_eq (h : st.Grows may st') (henv : env < st.scopes.size) : st'.parent? env = st.parent? env := by
  have hscope : st.scopes[env]? = some st.scopes[env] := Array.getElem?_eq_getElem henv
  obtain ⟨new, hnew, -⟩ := h env _ hscope
  rw [Store.parent?, Store.parent?, hnew, hscope]
  rfl

theorem Grows.bound (h : st.Grows may st') {x : String} {v : Value} (hx : (st.bindings env).lookup x = some v) :
    ∃ w, (st'.bindings env).lookup x = some w := by
  obtain ⟨new, hnew⟩ := h.bindings_suffix env
  rw [← hnew, List.lookup_append, hx]
  cases new.lookup x with
  | some w => exact ⟨w, rfl⟩
  | none => exact ⟨v, rfl⟩

/-- The environment `parent` is right around `env`. -/
def Encloses (st : Store) (parent env : Env) : Prop := st.parent? env = some parent

theorem encloses_enter {parent : Env} (h : parent < st.scopes.size) (bindings : Bindings) :
    (st.enter (some parent) bindings).2.Encloses parent st.scopes.size := by
  rw [Encloses, parent?, getElem?_enter, if_pos rfl]
  simp [h]

theorem lt_of_transGen {i j : Env} (h : Relation.TransGen st.Encloses i j) : i < j := by
  induction h with
  | single hp => exact parent?_lt hp
  | tail _ hp ih => exact Nat.lt_trans ih (parent?_lt hp)

end Store

namespace Machine

/-- Looking `x` up comes to these environments, one after the other, and then to `last`. -/
inductive Visits (x : String) : Machine → List Env → Machine → Prop where
  | ends {m last : Machine} {env : Env} {o : Outcome} (hcontrol : m.control = .find x env) (hstep : m.step = some last)
      (hlast : last.control = .done o) : Visits x m [env] last
  | goesOn {m m' last : Machine} {env : Env} {path : List Env} (hcontrol : m.control = .find x env)
      (hstep : m.step = some m') (h : Visits x m' path last) : Visits x m (env :: path) last

/-- By induction on the number of the environment: the one around it is older. -/
theorem exists_visits (x : String) (m : Machine) (env : Env) :
    ∃ path, Visits x { m with control := .find x env } path (m.perform (Run.lookup env x)) ∧
      path.head? = some env ∧ path.IsChain (fun i j => m.store.Encloses j i) := by
  induction env using Nat.strongRecOn with
  | ind env ih =>
    cases hbound : (m.store.bindings env).lookup x with
    | some v =>
      have hlookup : m.perform (Run.lookup env x) = m.finish (.value v) := by
        simp only [perform, Store.run, Run.lookup, Store.lookup_of_bound hbound]
        rfl
      refine ⟨[env], .ends rfl ?_ (congrArg Machine.control hlookup), rfl, .singleton _⟩
      rw [hlookup]
      simp only [step, search, hbound]
      rfl
    | none =>
      have hlookup := Store.lookup_of_unbound hbound
      cases hparent : m.store.parent? env with
      | none =>
        rw [hparent, Option.bind_none] at hlookup
        have hfails : m.perform (Run.lookup env x) = m.perform (Run.raise (.unbound x)) := by
          simp only [perform, Store.run, Run.lookup, hlookup]
        refine ⟨[env], .ends rfl ?_ (congrArg Machine.control hfails), rfl, .singleton _⟩
        rw [hfails]
        simp only [step, search, hbound, hparent]
        rfl
      | some parent =>
        rw [hparent, Option.bind_some] at hlookup
        have hsame : m.perform (Run.lookup env x) = m.perform (Run.lookup parent x) := by
          simp only [perform, Store.run, Run.lookup, hlookup]
        obtain ⟨path, hvisits, hhead, hchain⟩ := ih parent (Store.parent?_lt hparent)
        refine ⟨env :: path, ?_, rfl, ?_⟩
        · rw [hsame]
          exact .goesOn rfl (by simp only [step, search, hbound, hparent]) hvisits
        · cases path with
          | nil => exact .singleton _
          | cons i path =>
            obtain rfl := Option.some.inj hhead
            exact .cons_cons hparent hchain

end Machine

namespace Host
open Machine

variable {h h' : Host}

/-- A function in a value that is bound, under way or held, at any depth of its arrays and hashes, or one whose
arguments are being evaluated or whose call is next. -/
inductive Finds (h : Host) : Closure → Prop where
  | value {id : Nat} {f : Closure} (hv : h.Has h.held (.function id f)) : Finds h f
  | callee {f : Closure} {done : List Value} {rest : List Expr}
      (hf : .pending (.item (.arguments (.function f)) done rest) ∈ h.stack) : Finds h f
  | called {f : Closure} {args : List Value} (hcontrol : h.control = .task (.call (.function f) args)) : Finds h f

/-- What refers to an environment. -/
inductive Refers (h : Host) : Env → Prop where
  | captured {f : Closure} (hf : h.Finds f) : Refers h f.env
  | around {parent env : Env} (hp : h.store.Encloses parent env) : Refers h parent
  | current : Refers h h.env
  /-- A call will end, and go back to the environment. -/
  | left {env : Env} (henv : .body env ∈ h.stack) : Refers h env
  | searched {x : String} {env : Env} (hcontrol : h.control = .find x env) : Refers h env

/-- The environment `env` has come in by the move from `before` to `after`, inside of `parent`, which was there. -/
structure Brings (parent env : Env) (before after : Host) : Prop where
  move : Move before after
  parent_exists : before.Exists parent
  new : ¬ before.Exists env
  encloses : after.store.Encloses parent env

theorem Contained.finds (hc : h.Contained) {f : Closure} (hf : h.Finds f) : f.Confined (existing h.store) := by
  cases hf with
  | value hv => exact Has.covers hv hc.machine hc.held f (List.mem_singleton_self f)
  | callee hf =>
    have hframe : Pending.Confined _ _ := hc.machine.stack _ hf
    exact hframe.closures f List.mem_cons_self
  | called hcontrol =>
    have hcall := hc.machine.control
    rw [hcontrol] at hcall
    exact hcall f List.mem_cons_self

theorem Contained.refers (hc : h.Contained) {env : Env} (henv : h.Refers env) : h.Exists env := by
  cases henv with
  | captured hf => exact (hc.finds hf).1
  | @around _ env hp =>
    obtain ⟨s, hs, -⟩ := Option.bind_eq_some_iff.mp hp
    exact Nat.lt_trans (Store.parent?_lt hp) (Array.getElem?_eq_some_iff.mp hs).1
  | current => exact hc.machine.env
  | left henv => exact hc.machine.stack _ henv
  | searched hcontrol =>
    have henv := hc.machine.control
    rw [hcontrol] at henv
    exact henv

/-- The environment around that of a call is there, so it is the one that the function has captured. -/
theorem Contained.encloses_of_call (hc : h.Contained) {f : Closure} {args : List Value} {m : Machine}
    (hcontrol : h.control = .task (.call (.function f) args)) (hstep : h.step = some m) (hnew : ¬ h.Exists m.env) :
    m.store.Encloses f.env m.env := by
  have hcaptured : f.env < h.store.scopes.size := (hc.finds (.called hcontrol)).1
  simp only [step, hcontrol] at hstep
  obtain rfl := Option.some.inj hstep
  by_cases hargs : f.params.length = args.length
  · by_cases hdepth : h.depth < maxCallDepth
    · rw [enter_of_lt hargs hdepth]
      exact Store.encloses_enter hcaptured _
    · rw [enter_of_not_lt hargs hdepth] at hnew
      exact absurd hc.machine.env hnew
  · rw [enter_of_ne hargs] at hnew
    exact absurd hc.machine.env hnew

/-- By induction on the moves: either the environment existed before the last of them, or that move has made it. -/
theorem Later.brings (hlater : Later start h) {parent env : Env} (hp : h.store.Encloses parent env) :
    ∃ before after, Later start before ∧ Brings parent env before after ∧ Later after h := by
  induction hlater with
  | refl =>
    simp only [Store.Encloses, start, Store.start, Store.parent?, Store.getElem?_enter] at hp
    split at hp <;> simp [Store.empty] at hp
  | @tail h h' hlater hmove ih =>
    by_cases henv : h.Exists env
    · obtain ⟨before, after, hbefore, hbrings, hafter⟩ := ih ((hmove.grows.parent?_eq henv).symm.trans hp)
      exact ⟨before, after, hbefore, hbrings, hafter.tail hmove⟩
    · have hexists : env < h'.store.scopes.size := by
        obtain ⟨s, hs, -⟩ := Option.bind_eq_some_iff.mp hp
        exact (Array.getElem?_eq_some_iff.mp hs).1
      have hle : env ≤ h.store.scopes.size := Nat.le_of_lt_succ (Nat.lt_of_lt_of_le hexists hmove.size_le)
      have hparent : parent < h.store.scopes.size := Nat.lt_of_lt_of_le (Store.parent?_lt hp) hle
      exact ⟨h, h', hlater, ⟨hmove, hparent, henv, hp⟩, .refl⟩

/-- The environments of a state, and what becomes of them. -/
structure WellFormed (h : Host) : Prop where
  /-- All environments that anything refers to exist: those that functions have captured, wherever they are found, and
  those around others. -/
  refers_exists : ∀ env, h.Refers env → h.Exists env
  /-- What is around an environment was made before it. -/
  brings : ∀ parent env, h.store.Encloses parent env →
    ∃ before after, Later start before ∧ Brings parent env before after ∧ Later after h
  acyclic : ∀ env, ¬ Relation.TransGen h.store.Encloses env env
  /-- Whatever comes next, environments stay where they are. -/
  parent_stays : ∀ later, Later h later → ∀ env, h.Exists env →
    later.Exists env ∧ later.store.parent? env = h.store.parent? env
  bound_stays : ∀ later, Later h later → ∀ env x v, (h.store.bindings env).lookup x = some v →
    ∃ w, (later.store.bindings env).lookup x = some w
  /-- The environment of a call is inside of the one that the function has captured. -/
  called : ∀ f args m, h.control = .task (.call (.function f) args) → h.step = some m →
    ¬ h.Exists m.env → m.store.Encloses f.env m.env
  /-- A lookup goes along the environments around the one that it starts from, comes to each once, and ends as
  evaluation says. -/
  lookup : ∀ x env, ∃ path, Visits x { h.toMachine with control := .find x env } path (h.perform (Run.lookup env x)) ∧
    path.head? = some env ∧ path.IsChain (fun i j => h.store.Encloses j i) ∧ path.Nodup

theorem environment_heap_well_formed (hlater : Later start h) : h.WellFormed := by
  have hc : h.Contained := contained_start.later hlater
  refine ⟨fun _ => hc.refers, fun _ _ => hlater.brings, fun env hcycle => ?_, fun later hl env henv => ?_,
    fun later hl env x v hv => hl.grows.bound hv, fun f args m hcontrol hstep hnew => ?_, fun x env => ?_⟩
  · exact Nat.lt_irrefl env (Store.lt_of_transGen hcycle)
  · exact ⟨hl.exists henv, hl.grows.parent?_eq henv⟩
  · exact hc.encloses_of_call hcontrol hstep hnew
  · obtain ⟨path, hvisits, hhead, hchain⟩ := exists_visits x h.toMachine env
    have hdescends : path.IsChain (· > ·) := hchain.imp fun _ _ hp => Store.parent?_lt hp
    exact ⟨path, hvisits, hhead, hchain, hdescends.pairwise.imp Nat.ne_of_gt⟩

/-- `fn() { let self = fn() { self }; self }()` -/
def selfCapture : Expr :=
  let self : Expr := .function [] [.expression (.name 1 "self")]
  .call 1 (.function [] [.binding "self" self, .expression (.name 1 "self")]) []

/-- What its evaluation comes to. -/
def selfCaptured : Outcome × Store := Store.start.2.run (Eval.expr (Eval.apply maxCallDepth) 0 selfCapture)

/-- The environment of the call binds a function that has captured this environment. Yet a lookup of `len` from there
comes to it once, then to the one around it, and ends. -/
theorem self_capture_is_well_formed :
    ∃ h : Host, Later start h ∧ h.store = selfCaptured.2 ∧
      (h.store.bindings 1).lookup "self" = some (.function 1 ⟨[], [.expression (.name 1 "self")], 1⟩) ∧
      h.Exists 1 ∧ h.store.Encloses 0 1 ∧ ¬ Relation.TransGen h.store.Encloses 1 1 ∧
      ∃ path, Visits "len" { h.toMachine with control := .find "len" 1 } path (h.perform (Run.lookup 1 "len")) ∧
        path.head? = some 1 ∧ path.Nodup := by
  have hbound : (selfCaptured.2.bindings 1).lookup "self" =
      some (.function 1 ⟨[], [.expression (.name 1 "self")], 1⟩) := by cbv
  have hparent : selfCaptured.2.parent? 1 = some 0 := by cbv
  let i : Interpreter := { env := 0, depth := 0, store := Store.start.2 }
  let h : Host := { toMachine := i.finished selfCaptured.1 selfCaptured.2, held := [] }
  have htold : Move start { toMachine := i.start (.evaluate (.expr selfCapture)), held := [] } :=
    .tell rfl rfl Nat.zero_lt_one trivial
  have hlater : Later start h := .head htold (later_of_steps (i.steps_finished _ (Nat.zero_le _)) [])
  have hfinds : h.Finds ⟨[], [.expression (.name 1 "self")], 1⟩ := .value (.bound hbound)
  have hwell := environment_heap_well_formed hlater
  obtain ⟨path, hvisits, hhead, -, hnodup⟩ := hwell.lookup "len" 1
  exact ⟨h, hlater, rfl, hbound, hwell.refers_exists _ (.captured hfinds), hparent, hwell.acyclic 1, path, hvisits,
    hhead, hnodup⟩

end Host
end Monkey
