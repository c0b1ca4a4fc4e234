import Monkey.Proofs.BoundValues
import Monkey.Proofs.CallDepth
import Monkey.Proofs.Growth
import Monkey.Proofs.Lines

/-! Bounds that a machine stays in: which environments are referred to, by the machine itself and by the functions
that are found anywhere in it, and which lines their syntax records. Each rule passes on what it was given, so a step
keeps the bounds if an environment that it makes is within them. -/
namespace Monkey

/-- Some environments, and the lines that `line` leaves as they are. -/
structure Bounds where
  env : Env → Prop
  line : Nat → Nat

def Closure.Confined (b : Bounds) (f : Closure) : Prop := b.env f.env ∧ stmtsMapLines b.line f.body = f.body

def Bounds.Covers (b : Bounds) (fs : List Closure) : Prop := ∀ f ∈ fs, f.Confined b

namespace Bounds.Covers

variable {b : Bounds} {fs gs : List Closure}

theorem nil : b.Covers [] := List.forall_mem_nil _

theorem subset (h : b.Covers fs) (hsub : gs ⊆ fs) : b.Covers gs := fun f hf => h f (hsub hf)

theorem append (hf : b.Covers fs) (hg : b.Covers gs) : b.Covers (fs ++ gs) := List.forall_mem_append.mpr ⟨hf, hg⟩

theorem reverse {vs : List Value} (h : b.Covers (closuresOfAll vs)) : b.Covers (closuresOfAll vs.reverse) := by
  intro f hf
  obtain ⟨v, hv, hf⟩ := mem_closuresOfAll.mp hf
  exact h f (mem_closuresOfAll.mpr ⟨v, List.mem_reverse.mp hv, hf⟩)

theorem put {es : Entries} {v : Value} (h : b.Covers (closuresOfEntries es)) (k : Key) (hv : b.Covers v.closures) :
    b.Covers (closuresOfEntries (es.put k v)) := (hv.append h).subset (closures_put_subset k v es)

/-- The bounds may have more environments. -/
theorem mono {env : Env → Prop} (h : b.Covers fs) (henv : ∀ i, b.env i → env i) : Bounds.Covers ⟨env, b.line⟩ fs :=
  fun f hf => ⟨henv _ (h f hf).1, (h f hf).2⟩

theorem globals {x : String × Value} (hx : x ∈ Store.globals) : b.Covers x.2.closures := by
  obtain ⟨builtin, hbuiltin⟩ := Store.mem_globals hx
  rw [hbuiltin]
  exact nil

end Bounds.Covers

theorem Store.covers_start (b : Bounds) : start.2.AllBound fun v => b.Covers v.closures := by
  have hempty : empty.AllBound fun v => b.Covers v.closures := fun env x v hv => by simp [empty, bindings] at hv
  exact hempty.enter fun _ => Bounds.Covers.globals

def Node.Confined (b : Bounds) : Node → Prop
  | .expr e => e.mapLines b.line = e
  | .stmt s => s.mapLines b.line = s
  | .block ss => stmtsMapLines b.line ss = ss

def Callable.closures : Callable → List Closure
  | .function f => [f]
  | .builtin _ => []

def Outcome.closures : Outcome → List Closure
  | .value v | .returned v => v.closures
  | .error _ => []

theorem closures_of_callable? {v : Value} {c : Callable} (h : v.callable? = some c) : c.closures = v.closures := by
  cases v with
  | function id f =>
    cases h
    rfl
  | builtin b =>
    cases h
    rfl
  | _ => cases h

namespace Machine

/-- The functions in what waits, those among them that are about to be called. -/
def Pending.closures : Pending → List Closure
  | .right _ v => v.closures
  | .item (.arguments c) done _ => c.closures ++ closuresOfAll done
  | .item .elements done _ => closuresOfAll done
  | .key entries _ _ | .entry entries _ _ => closuresOfEntries entries
  | .subscript v => v.closures
  | _ => []

/-- The syntax that waits is within the bounds. -/
def Pending.SyntaxConfined (b : Bounds) : Pending → Prop
  | .left _ e | .base e => e.mapLines b.line = e
  | .condition consequence alternative =>
    stmtsMapLines b.line consequence = consequence ∧ ∀ ss ∈ alternative, stmtsMapLines b.line ss = ss
  | .callee es | .item _ _ es => exprsMapLines b.line es = es
  | .key _ e ps => e.mapLines b.line = e ∧ pairsMapLines b.line ps = ps
  | .entry _ _ ps => pairsMapLines b.line ps = ps
  | .statement ss => stmtsMapLines b.line ss = ss
  | .operand _ | .right _ _ | .subscript _ | .binding _ | .returning => True

structure Pending.Confined (b : Bounds) (p : Pending) : Prop where
  closures : b.Covers p.closures
  unevaluated : p.SyntaxConfined b

def Frame.Confined (b : Bounds) : Frame → Prop
  | .node n => n.Confined b
  | .pending p => p.Confined b
  | .body env => b.env env

def Control.Confined (b : Bounds) : Control → Prop
  | .task (.evaluate n) => n.Confined b
  | .task (.call c args) => b.Covers (c.closures ++ closuresOfAll args)
  | .find _ env => b.env env
  | .done o => b.Covers o.closures

/-- All but the control is within the bounds. -/
structure Based (b : Bounds) (m : Machine) : Prop where
  env : b.env m.env
  store : m.store.AllBound fun v => b.Covers v.closures
  stack : ∀ f ∈ m.stack, f.Confined b

structure Confined (b : Bounds) (m : Machine) : Prop extends Based b m where
  control : m.control.Confined b

variable {b : Bounds} {m m' : Machine}

theorem Based.withStore (h : Based b m) {st : Store} (hst : st.AllBound fun v => b.Covers v.closures) :
    Based b { m with store := st } := ⟨h.env, hst, h.stack⟩

theorem Confined.withStore (h : Confined b m) {st : Store} (hst : st.AllBound fun v => b.Covers v.closures) :
    Confined b { m with store := st } := ⟨h.toBased.withStore hst, h.control⟩

theorem Based.push (h : Based b m) {f : Frame} (hf : f.Confined b) : Based b (m.push f) :=
  ⟨h.env, h.store, List.forall_mem_cons.mpr ⟨hf, h.stack⟩⟩

theorem confined_finish (h : Based b m) {o : Outcome} (ho : b.Covers o.closures) : Confined b (m.finish o) :=
  ⟨⟨h.env, h.store, h.stack⟩, ho⟩

theorem confined_evaluate (h : Based b m) {n : Node} (hn : n.Confined b) : Confined b (m.evaluate n) :=
  ⟨⟨h.env, h.store, h.stack⟩, hn⟩

theorem confined_push (h : Based b m) {p : Pending} (hp : p.Confined b) {n : Node} (hn : n.Confined b) :
    Confined b ((m.push (.pending p)).evaluate n) :=
  confined_evaluate (h.push (f := .pending p) hp) hn

theorem confined_perform (h : Based b m) {x : Run Value} {fs : List Closure} (hx : x.Plain fs) (hfs : b.Covers fs) :
    Confined b (m.perform x) := by
  have hplain := hx m.store
  cases hrun : x m.store with
  | ok v st =>
    rw [hrun] at hplain
    rw [perform_of_run (Store.run_of_ok hrun)]
    exact confined_finish (h.withStore (h.store.of_scopes hplain.1)) (hfs.subset hplain.2)
  | error e st =>
    rw [hrun] at hplain
    rw [perform_of_run (Store.run_of_error hrun)]
    cases e with
    | error e =>
      exact confined_finish (h.withStore (h.store.of_scopes hplain.1)) .nil
    | returned v => exact hplain.elim

theorem confined_raise (h : Based b m) (fault : RuntimeFault) : Confined b (m.perform (Run.raise fault)) :=
  ⟨⟨h.env, h.store, h.stack⟩, Bounds.Covers.nil⟩

theorem confined_items (h : Based b m) {use : Use} {done : List Value} {es : List Expr}
    (hp : (Pending.item use done es).Confined b) : Confined b (m.items use done es) := by
  cases es with
  | nil =>
    cases use with
    | arguments c =>
      obtain ⟨hc, hdone⟩ := List.forall_mem_append.mp hp.closures
      exact ⟨⟨h.env, h.store, h.stack⟩, Bounds.Covers.append hc (Bounds.Covers.reverse hdone)⟩
    | elements => exact confined_perform h (Run.plain_newArray (List.Subset.refl _)) (Bounds.Covers.reverse hp.closures)
  | cons e es =>
    obtain ⟨he, hes⟩ := List.cons.inj hp.unevaluated
    exact confined_push (p := .item use done es) h ⟨by cases use <;> exact hp.closures, hes⟩ he

theorem confined_pairs (h : Based b m) {entries : Entries} (hentries : b.Covers (closuresOfEntries entries))
    {ps : List (Expr × Expr)} (hps : pairsMapLines b.line ps = ps) : Confined b (m.pairs entries ps) := by
  cases ps with
  | nil => exact confined_perform h (Run.plain_newHash (List.Subset.refl _)) hentries
  | cons p ps =>
    obtain ⟨hp, hps⟩ := List.cons.inj hps
    obtain ⟨hk, hv⟩ := Prod.mk.inj hp
    exact confined_push (p := .key entries p.2 ps) h ⟨hentries, hv, hps⟩ hk

theorem confined_statements (h : Based b m) {last : Value} (hlast : b.Covers last.closures) {ss : Block}
    (hss : stmtsMapLines b.line ss = ss) : Confined b (m.statements last ss) := by
  cases ss with
  | nil => exact confined_finish h hlast
  | cons s ss =>
    obtain ⟨hs, hss⟩ := List.cons.inj hss
    exact confined_push (p := .statement ss) h ⟨.nil, hss⟩ hs

theorem confined_expand (h : Based b m) {n : Node} (hn : n.Confined b) : Confined b (m.expand n) := by
  cases n with
  | expr e =>
    cases e with
    | name line x => exact ⟨⟨h.env, h.store, h.stack⟩, h.env⟩
    | literal l => exact confined_finish h (by cases l <;> exact .nil)
    | unary line op e =>
      obtain ⟨-, -, he⟩ := Expr.unary.inj hn
      exact confined_push (p := .operand op) h ⟨.nil, trivial⟩ he
    | binary line op l r =>
      obtain ⟨-, -, hl, hr⟩ := Expr.binary.inj hn
      exact confined_push (p := .left op r) h ⟨.nil, hr⟩ hl
    | conditional c yes no =>
      cases no with
      | none =>
        obtain ⟨hc, hyes, -⟩ := Expr.conditional.inj hn
        exact confined_push (p := .condition yes none) h ⟨.nil, hyes, nofun⟩ hc
      | some no =>
        obtain ⟨hc, hyes, hno⟩ := Expr.conditional.inj hn
        have hno : ∀ ss ∈ some no, stmtsMapLines b.line ss = ss := by
          rintro ss ⟨⟩
          exact Option.some.inj hno
        exact confined_push (p := .condition yes (some no)) h ⟨.nil, hyes, hno⟩ hc
    | function params body =>
      have hbody : stmtsMapLines b.line body = body := (Expr.function.inj hn).2
      exact confined_perform h (Run.plain_newFunction (List.mem_singleton_self _))
        (List.forall_mem_singleton.mpr ⟨h.env, hbody⟩)
    | call line f args =>
      obtain ⟨-, hf, hargs⟩ := Expr.call.inj hn
      exact confined_push (p := .callee args) h ⟨.nil, hargs⟩ hf
    | array elems => exact confined_items h ⟨.nil, Expr.array.inj hn⟩
    | hash line ps => exact confined_pairs h .nil (Expr.hash.inj hn).2
    | index line base subscript =>
      obtain ⟨-, hbase, hsubscript⟩ := Expr.index.inj hn
      exact confined_push (p := .base subscript) h ⟨.nil, hsubscript⟩ hbase
  | stmt s =>
    cases s with
    | binding x e => exact confined_push (p := .binding x) h ⟨.nil, trivial⟩ (Stmt.binding.inj hn).2
    | returning e =>
      cases e with
      | none => exact confined_finish h .nil
      | some e => exact confined_push (p := .returning) h ⟨.nil, trivial⟩ (Option.some.inj (Stmt.returning.inj hn))
    | expression e => exact confined_evaluate h (Stmt.expression.inj hn)
  | block ss => exact confined_statements h .nil hn

theorem confined_advance (h : Based b m) {v : Value} (hv : b.Covers v.closures) {p : Pending} (hp : p.Confined b) :
    Confined b (m.advance v p) := by
  obtain ⟨hclosures, hwaits⟩ := hp
  cases p with
  | operand op => exact confined_perform h (plain_unary op v) .nil
  | left op r => exact confined_push (p := .right op v) h ⟨hv, trivial⟩ hwaits
  | right op l => exact confined_perform h (plain_binary op l v) .nil
  | condition yes no =>
    simp only [advance]
    split
    · exact confined_evaluate h hwaits.1
    · split
      · exact confined_evaluate h (hwaits.2 _ rfl)
      · exact confined_finish h .nil
  | callee args =>
    simp only [advance]
    split
    · next c hc =>
      have hcallee : b.Covers c.closures := closures_of_callable? hc ▸ hv
      exact confined_items h ⟨hcallee.append .nil, hwaits⟩
    · exact confined_raise h _
  | item use done rest =>
    refine confined_items h ⟨?_, hwaits⟩
    cases use with
    | arguments c =>
      obtain ⟨hc, hdone⟩ := List.forall_mem_append.mp hclosures
      exact Bounds.Covers.append hc (Bounds.Covers.append hv hdone)
    | elements => exact Bounds.Covers.append hv hclosures
  | key entries value rest =>
    simp only [advance]
    split
    · exact confined_push (p := .entry entries _ rest) h ⟨hclosures, hwaits.2⟩ hwaits.1
    · exact confined_raise h _
  | entry entries k rest => exact confined_pairs h (Bounds.Covers.put hclosures k hv) hwaits
  | base e => exact confined_push (p := .subscript v) h ⟨hv, trivial⟩ hwaits
  | subscript base => exact confined_perform h (plain_index base v) hclosures
  | binding x =>
    exact confined_finish (h.withStore (h.store.bind hv)) .nil
  | returning => exact confined_finish h hv
  | statement rest => exact confined_statements h hv hwaits

/-- Only here an environment is made. -/
theorem confined_enter (h : Based b m) {c : Callable} {args : List Value}
    (hc : b.Covers (c.closures ++ closuresOfAll args))
    (hmade : m.store.scopes.size < (m.enter c args).store.scopes.size → b.env m.store.scopes.size) :
    Confined b (m.enter c args) := by
  obtain ⟨hc, hargs⟩ := List.forall_mem_append.mp hc
  cases c with
  | builtin builtin => exact confined_perform h (plain_builtin builtin args) hargs
  | function f =>
    by_cases hlength : f.params.length = args.length
    · by_cases hdepth : m.depth < maxCallDepth
      · rw [enter_of_lt hlength hdepth] at hmade ⊢
        obtain ⟨-, hbody⟩ := List.forall_mem_singleton.mp hc
        have hbindings : ∀ x ∈ (f.params.zip args).reverse, b.Covers x.2.closures := fun x hx =>
          Bounds.Covers.subset hargs (closures_subset_of_mem (List.of_mem_zip (List.mem_reverse.mp hx)).2)
        have hsize : m.store.scopes.size < (m.store.enter (some f.env) (f.params.zip args).reverse).2.scopes.size := by
          simp [Store.enter]
        exact ⟨⟨hmade hsize, h.store.enter hbindings, List.forall_mem_cons.mpr ⟨h.env, h.stack⟩⟩, hbody⟩
      · rw [enter_of_not_lt hlength hdepth]
        exact confined_raise h _
    · rw [enter_of_ne hlength]
      exact confined_raise h _

theorem confined_search (h : Based b m) (x : String) {env : Env}
    (hparent : ∀ parent, m.store.parent? env = some parent → b.env parent) : Confined b (m.search x env) := by
  unfold search
  split
  · next v hv => exact confined_finish h (h.store env x v hv)
  · split
    · next parent hp => exact ⟨⟨h.env, h.store, h.stack⟩, hparent parent hp⟩
    · exact confined_raise h _

theorem confined_resume (h : Based b m) {o : Outcome} (ho : b.Covers o.closures) {f : Frame} (hf : f.Confined b) :
    Confined b (m.resume o f) := by
  cases f with
  | node n =>
    refine confined_finish h ?_
    cases n.line? with
    | none => exact ho
    | some line => cases o <;> exact ho
  | body env =>
    have hbased : Based b { m with env, depth := m.depth - 1 } := ⟨hf, h.store, h.stack⟩
    exact confined_finish hbased (by cases o <;> exact ho)
  | pending p =>
    cases o with
    | value v => exact confined_advance h ho hf
    | returned v => exact confined_finish h ho
    | error e => exact confined_finish h ho

theorem Confined.step (h : Confined b m) (hstep : m.step = some m')
    (hparent : ∀ env parent, b.env env → m.store.parent? env = some parent → b.env parent)
    (hmade : m.store.scopes.size < m'.store.scopes.size → b.env m.store.scopes.size) : Confined b m' := by
  have hcontrol := h.control
  unfold Machine.step at hstep
  split at hstep
  · next n hc =>
    cases hstep
    rw [hc] at hcontrol
    exact confined_expand (h.toBased.push (f := .node n) hcontrol) hcontrol
  · next c args hc =>
    cases hstep
    rw [hc] at hcontrol
    exact confined_enter h.toBased hcontrol hmade
  · next x env hc =>
    cases hstep
    rw [hc] at hcontrol
    exact confined_search h.toBased x fun parent => hparent env parent hcontrol
  · next o hc =>
    rw [hc] at hcontrol
    split at hstep
    · cases hstep
    · next f stack hstack =>
      cases hstep
      obtain ⟨hf, hrest⟩ := List.forall_mem_cons.mp (hstack ▸ h.stack)
      have hbased : Based b { m with stack } := ⟨h.env, h.store, hrest⟩
      exact confined_resume hbased hcontrol hf

/-- The bounds may have more environments. -/
theorem Confined.mono {env : Env → Prop} (h : Confined b m) (henv : ∀ i, b.env i → env i) : Confined ⟨env, b.line⟩ m where
  env := henv _ h.env
  store := h.store.mono fun _ hv => hv.mono henv
  stack f hf := by
    have hframe := h.stack f hf
    cases f with
    | node n => exact hframe
    | pending p => exact ⟨hframe.closures.mono henv, hframe.unevaluated⟩
    | body i => exact henv i hframe
  control := by
    have hcontrol := h.control
    cases hc : m.control with
    | task t =>
      rw [hc] at hcontrol
      cases t with
      | evaluate n => exact hcontrol
      | call c args => exact Bounds.Covers.mono hcontrol henv
    | find x i =>
      rw [hc] at hcontrol
      exact henv i hcontrol
    | done o =>
      rw [hc] at hcontrol
      exact Bounds.Covers.mono hcontrol henv

end Machine
end Monkey
