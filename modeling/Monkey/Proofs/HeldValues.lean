import Monkey.Proofs.Identities

/-! The values of all states that a host can bring a machine to, and the equalities of these values. -/
namespace Monkey
namespace Machine

/-- The values that wait with what is still to be evaluated. -/
def Pending.values : Pending → List Value
  | .right _ v => [v]
  | .item _ done _ => done
  | .key entries _ _ | .entry entries _ _ => entries.map Prod.snd
  | .subscript v => [v]
  | _ => []

def Pending.keys : Pending → List Key
  | .key entries _ _ | .entry entries _ _ => entries.map Prod.fst
  | _ => []

def Frame.values : Frame → List Value
  | .pending p => p.values
  | .node _ | .body _ => []

def Frame.keys : Frame → List Key
  | .pending p => p.keys
  | .node _ | .body _ => []

def Control.values : Control → List Value
  | .task (.call _ args) => args
  | .done o => o.values
  | .task (.evaluate _) | .find _ _ => []

/-- A value of a machine, or one that its host holds. -/
inductive Has (m : Machine) (held : List Value) : Value → Prop where
  | bound {env : Env} {x : String} {v : Value} : (m.store.bindings env).lookup x = some v → Has m held v
  | current {v : Value} : v ∈ m.control.values → Has m held v
  | waiting {f : Frame} {v : Value} : f ∈ m.stack → v ∈ f.values → Has m held v
  | held {v : Value} : v ∈ held → Has m held v
  | inside {v w : Value} : Has m held v → w ∈ v.children → Has m held w

structure Frame.Recorded (made : List Value) (f : Frame) : Prop where
  values : ∀ v ∈ f.values, v.Recorded made
  keys : f.keys.Nodup

/-- The record tells of all values of the machine except for those of its control. -/
structure Rests (made : List Value) (m : Machine) : Prop where
  store : m.store.Records made
  stack : ∀ f ∈ m.stack, f.Recorded made

structure Recorded (made : List Value) (m : Machine) : Prop extends Rests made m where
  control : ∀ v ∈ m.control.values, v.Recorded made

/-- A record that goes on from this one tells of all values of the machine. -/
def RecordedOn (made : List Value) (m : Machine) : Prop := ∃ more, Recorded (made ++ more) m

variable {made : List Value} {m m' : Machine}

theorem Frame.Recorded.append {f : Frame} (h : f.Recorded made) (more : List Value) : f.Recorded (made ++ more) :=
  ⟨fun v hv => (h.values v hv).append more, h.keys⟩

theorem Frame.recorded_of_nil {f : Frame} (hv : f.values = []) (hk : f.keys = []) : f.Recorded made :=
  ⟨hv ▸ List.forall_mem_nil _, hk ▸ List.nodup_nil⟩

theorem Recorded.on (h : Recorded made m) : RecordedOn made m := ⟨[], (List.append_nil made).symm ▸ h⟩

theorem Rests.push (h : Rests made m) {f : Frame} (hf : f.Recorded made) : Rests made (m.push f) :=
  ⟨h.store, List.forall_mem_cons.mpr ⟨hf, h.stack⟩⟩

theorem recordedOn_evaluate (h : Rests made m) (n : Node) : RecordedOn made (m.evaluate n) :=
  Recorded.on ⟨⟨h.store, h.stack⟩, List.forall_mem_nil _⟩

theorem recordedOn_push (h : Rests made m) {p : Pending} (hp : (Frame.pending p).Recorded made) (n : Node) :
    RecordedOn made ((m.push (.pending p)).evaluate n) :=
  recordedOn_evaluate (h.push hp) n

theorem recordedOn_finish (h : Rests made m) {o : Outcome} (ho : ∀ v ∈ o.values, v.Recorded made) :
    RecordedOn made (m.finish o) := Recorded.on ⟨⟨h.store, h.stack⟩, ho⟩

theorem recordedOn_value (h : Rests made m) {v : Value} (hv : v.Recorded made) :
    RecordedOn made (m.finish (.value v)) := recordedOn_finish h (List.forall_mem_singleton.mpr hv)

theorem recordedOn_perform (h : Rests made m) {x : Run Value} (hx : Run.Records made x) :
    RecordedOn made (m.perform x) := by
  obtain ⟨more, hstore, hvalues⟩ := hx m.store h.store
  exact ⟨more, ⟨hstore, fun f hf => (h.stack f hf).append more⟩, hvalues⟩

theorem recordedOn_items (h : Rests made m) (use : Use) {done : List Value} (hdone : ∀ v ∈ done, v.Recorded made)
    (es : List Expr) : RecordedOn made (m.items use done es) := by
  have hreverse : ∀ v ∈ done.reverse, v.Recorded made := fun v hv => hdone v (List.mem_reverse.mp hv)
  cases es with
  | nil =>
    cases use with
    | arguments c => exact Recorded.on ⟨⟨h.store, h.stack⟩, hreverse⟩
    | elements => exact recordedOn_perform h (Run.records_newArray hreverse)
  | cons e es => exact recordedOn_push (p := .item use done es) h ⟨hdone, List.nodup_nil⟩ _

theorem recordedOn_pairs (h : Rests made m) {entries : Entries} (hentries : entries.Recorded made)
    (ps : List (Expr × Expr)) : RecordedOn made (m.pairs entries ps) := by
  cases ps with
  | nil => exact recordedOn_perform h (Run.records_newHash hentries)
  | cons e ps => exact recordedOn_push (p := .key entries e.2 ps) h ⟨hentries.values, hentries.keys⟩ _

theorem recordedOn_statements (h : Rests made m) {last : Value} (hlast : last.Recorded made) (b : Block) :
    RecordedOn made (m.statements last b) := by
  cases b with
  | nil => exact recordedOn_value h hlast
  | cons s ss => exact recordedOn_push h (Frame.recorded_of_nil rfl rfl) _

theorem recordedOn_expand (h : Rests made m) (n : Node) : RecordedOn made (m.expand n) := by
  cases n with
  | expr e =>
    cases e with
    | name line x => exact Recorded.on ⟨⟨h.store, h.stack⟩, List.forall_mem_nil _⟩
    | literal l => exact recordedOn_value h (by cases l <;> exact Value.recorded_of_none rfl)
    | function params body => exact recordedOn_perform h (Run.records_newFunction _)
    | array elems => exact recordedOn_items h _ (List.forall_mem_nil _) elems
    | hash line ps => exact recordedOn_pairs h Entries.recorded_nil ps
    | unary | binary | conditional | call | index => exact recordedOn_push h (Frame.recorded_of_nil rfl rfl) _
  | stmt s =>
    cases s with
    | binding x e => exact recordedOn_push h (Frame.recorded_of_nil rfl rfl) _
    | returning e =>
      cases e with
      | none => exact recordedOn_finish h (List.forall_mem_singleton.mpr Value.recorded_null)
      | some e => exact recordedOn_push h (Frame.recorded_of_nil rfl rfl) _
    | expression e => exact recordedOn_evaluate h _
  | block b => exact recordedOn_statements h Value.recorded_null b

theorem recordedOn_advance (h : Rests made m) {v : Value} (hv : v.Recorded made) {p : Pending}
    (hp : (Frame.pending p).Recorded made) : RecordedOn made (m.advance v p) := by
  cases p with
  | operand op => exact recordedOn_perform h (Eval.records_unary op v)
  | left op r => exact recordedOn_push (p := .right op v) h ⟨List.forall_mem_singleton.mpr hv, List.nodup_nil⟩ _
  | right op l => exact recordedOn_perform h (Eval.records_binary op l v)
  | condition consequence alternative =>
    simp only [advance]
    split
    · exact recordedOn_evaluate h _
    · cases alternative with
      | none => exact recordedOn_value h Value.recorded_null
      | some alternative => exact recordedOn_evaluate h _
  | callee args =>
    simp only [advance]
    split
    · exact recordedOn_items h _ (List.forall_mem_nil _) args
    · exact recordedOn_perform h (Run.records_raise _)
  | item use done rest => exact recordedOn_items h use (List.forall_mem_cons.mpr ⟨hv, hp.values⟩) rest
  | key entries value rest =>
    simp only [advance]
    split
    · next k _ => exact recordedOn_push (p := .entry entries k rest) h ⟨hp.values, hp.keys⟩ _
    · exact recordedOn_perform h (Run.records_raise _)
  | entry entries k rest => exact recordedOn_pairs h (Entries.Recorded.put ⟨hp.keys, hp.values⟩ k hv) rest
  | base subscript => exact recordedOn_push (p := .subscript v) h ⟨List.forall_mem_singleton.mpr hv, List.nodup_nil⟩ _
  | subscript base => exact recordedOn_perform h (Eval.records_index v (List.forall_mem_singleton.mp hp.values))
  | binding x =>
    have hrests : Rests made { m with store := m.store.bind m.env x v } := ⟨h.store.bind m.env x hv, h.stack⟩
    exact recordedOn_value hrests Value.recorded_null
  | returning => exact recordedOn_finish h (List.forall_mem_singleton.mpr hv)
  | statement rest => exact recordedOn_statements h hv rest

theorem recordedOn_enter (h : Rests made m) (c : Callable) {args : List Value}
    (hargs : ∀ v ∈ args, v.Recorded made) : RecordedOn made (m.enter c args) := by
  cases c with
  | builtin b => exact recordedOn_perform h (records_builtin b hargs)
  | function f =>
    by_cases hlength : f.params.length = args.length
    · by_cases hdepth : m.depth < maxCallDepth
      · rw [enter_of_lt hlength hdepth]
        have hbindings : ∀ b ∈ (f.params.zip args).reverse, b.2.Recorded made := fun b hb =>
          hargs b.2 (List.of_mem_zip (List.mem_reverse.mp hb)).2
        have hstack := List.forall_mem_cons.mpr ⟨Frame.recorded_of_nil (f := .body m.env) rfl rfl, h.stack⟩
        exact Recorded.on ⟨⟨h.store.enter (some f.env) hbindings, hstack⟩, List.forall_mem_nil _⟩
      · rw [enter_of_not_lt hlength hdepth]
        exact recordedOn_perform h (Run.records_raise _)
    · rw [enter_of_ne hlength]
      exact recordedOn_perform h (Run.records_raise _)

theorem recordedOn_search (h : Rests made m) (x : String) (env : Env) : RecordedOn made (m.search x env) := by
  unfold search
  split
  · next v hv => exact recordedOn_value h (h.store.bound env x v hv)
  · split
    · exact Recorded.on ⟨⟨h.store, h.stack⟩, List.forall_mem_nil _⟩
    · exact recordedOn_perform h (Run.records_raise _)

theorem recordedOn_resume (h : Rests made m) {o : Outcome} (ho : ∀ v ∈ o.values, v.Recorded made) {f : Frame}
    (hf : f.Recorded made) : RecordedOn made (m.resume o f) := by
  cases f with
  | node n =>
    refine recordedOn_finish h ?_
    cases n.line? with
    | none => exact ho
    | some line => cases o <;> exact ho
  | body env =>
    have hrests : Rests made { m with env, depth := m.depth - 1 } := ⟨h.store, h.stack⟩
    exact recordedOn_finish hrests (by cases o <;> exact ho)
  | pending p =>
    cases o with
    | value v => exact recordedOn_advance h (List.forall_mem_singleton.mp ho) hf
    | returned v => exact recordedOn_finish h ho
    | error e => exact recordedOn_finish h ho

/-- A step may make a value, but it changes none. -/
theorem Recorded.step (h : Recorded made m) (hstep : m.step = some m') : RecordedOn made m' := by
  unfold Machine.step at hstep
  split at hstep
  · next n hcontrol =>
    cases hstep
    exact recordedOn_expand (h.toRests.push (Frame.recorded_of_nil (f := .node n) rfl rfl)) n
  · next c args hcontrol =>
    cases hstep
    exact recordedOn_enter h.toRests c (by simpa only [hcontrol, Control.values] using h.control)
  · next x env hcontrol =>
    cases hstep
    exact recordedOn_search h.toRests x env
  · next o hcontrol =>
    have ho : ∀ v ∈ o.values, v.Recorded made := by simpa only [hcontrol, Control.values] using h.control
    split at hstep
    · cases hstep
    · next f stack hstack =>
      cases hstep
      obtain ⟨hf, hrest⟩ := List.forall_mem_cons.mp (hstack ▸ h.stack)
      have hrests : Rests made { m with stack } := ⟨h.store, hrest⟩
      exact recordedOn_resume hrests ho hf

/-- The states that a host brings a machine to, and the values that it has taken hold of or made by then. It can
tell an interpreter what to do and change what there is whenever nothing is under way. -/
inductive Arises : Machine → List Value → Prop where
  | start : Arises { env := 0, depth := 0, store := Store.empty, control := .done (.value .null), stack := [] } []
  | step {m m' : Machine} {held : List Value} : Arises m held → m.step = some m' → Arises m' held
  | take {m : Machine} {held : List Value} {v : Value} : Arises m held → m.Has held v → Arises m (v :: held)
  /-- What the host makes of values that it holds has the next identity, if it has one. -/
  | make {m : Machine} {held : List Value} {v : Value} (hid : ∀ n, v.identity? = some n → n = m.store.nextId)
      (hkeys : v.keys.Nodup) (hchildren : ∀ w ∈ v.children, w ∈ held) : Arises m held → m.step = none →
      Arises { m with store := m.store.fresh.2 } (v :: held)
  | tell {m : Machine} {held : List Value} {i : Interpreter} {t : Task} (hstore : i.store = m.store)
      (hargs : ∀ v ∈ (Control.task t).values, v ∈ held) : Arises m held → m.step = none → Arises (i.start t) held
  | bind {m : Machine} {held : List Value} {env : Env} {x : String} {v : Value} (hv : v ∈ held) :
      Arises m held → m.step = none → Arises { m with store := m.store.bind env x v } held
  | enter {m : Machine} {held : List Value} {parent : Option Env} {bindings : Bindings}
      (hbindings : bindings = [] ∨ bindings = Store.globals) :
      Arises m held → m.step = none → Arises { m with store := (m.store.enter parent bindings).2 } held
  | flush {m : Machine} {held : List Value} :
      Arises m held → m.step = none → Arises { m with store := m.store.flush.2 } held

theorem Arises.steps {held : List Value} (h : m.Arises held) (hsteps : Steps m m') : m'.Arises held := by
  induction hsteps with
  | refl => exact h
  | tail _ hstep ih => exact .step ih hstep

/-- The host waits until what it has told is done. -/
theorem Arises.told {held : List Value} {i : Interpreter} {t : Task} (hstore : i.store = m.store)
    (hargs : ∀ v ∈ (Control.task t).values, v ∈ held) (h : m.Arises held) (hidle : m.step = none)
    (hdepth : i.depth ≤ maxCallDepth) :
    let result := i.store.run (t.run (Eval.apply (maxCallDepth - i.depth)) i.env)
    (i.finished result.1 result.2).Arises held :=
  (Arises.tell hstore hargs h hidle).steps (i.steps_finished t hdepth)

theorem Has.recorded {held : List Value} {v : Value} (h : m.Has held v) (hm : Recorded made m)
    (hheld : ∀ w ∈ held, w.Recorded made) : v.Recorded made := by
  induction h with
  | bound hx => exact hm.store.bound _ _ _ hx
  | current hv => exact hm.control _ hv
  | waiting hf hv => exact (hm.stack _ hf).values _ hv
  | held hv => exact hheld _ hv
  | inside _ hw ih => exact ih.child hw

theorem Recorded.append (h : Recorded made m) {more : List Value} {st : Store} (hst : st.Records (made ++ more)) :
    Recorded (made ++ more) { m with store := st } :=
  ⟨⟨hst, fun f hf => (h.stack f hf).append more⟩, fun v hv => (h.control v hv).append more⟩

theorem Recorded.withStore (h : Recorded made m) {st : Store} (hst : st.Records made) :
    Recorded made { m with store := st } := ⟨⟨hst, h.stack⟩, h.control⟩

theorem Arises.recorded {held : List Value} (h : m.Arises held) :
    ∃ made, Recorded made m ∧ ∀ v ∈ held, v.Recorded made := by
  induction h with
  | start =>
    have hstore : Store.empty.Records [] := ⟨rfl, fun env x v hv => by simp [Store.empty, Store.bindings] at hv⟩
    refine ⟨[], ⟨⟨hstore, List.forall_mem_nil _⟩, ?_⟩, List.forall_mem_nil _⟩
    exact List.forall_mem_singleton.mpr Value.recorded_null
  | step _ hstep ih =>
    obtain ⟨made, hm, hheld⟩ := ih
    obtain ⟨more, hm'⟩ := hm.step hstep
    exact ⟨made ++ more, hm', fun v hv => (hheld v hv).append more⟩
  | take _ hv ih =>
    obtain ⟨made, hm, hheld⟩ := ih
    exact ⟨made, hm, List.forall_mem_cons.mpr ⟨hv.recorded hm hheld, hheld⟩⟩
  | @make m held v hid hkeys hchildren _ _ ih =>
    obtain ⟨made, hm, hheld⟩ := ih
    obtain ⟨hst, hv⟩ := hm.store.fresh hid hkeys fun w hw => hheld w (hchildren w hw)
    exact ⟨made ++ [v], hm.append hst, List.forall_mem_cons.mpr ⟨hv, fun w hw => (hheld w hw).append [v]⟩⟩
  | @tell m held i t hstore hargs _ _ ih =>
    obtain ⟨made, hm, hheld⟩ := ih
    have hrecords : i.store.Records made := hstore ▸ hm.store
    exact ⟨made, ⟨⟨hrecords, List.forall_mem_nil _⟩, fun v hv => hheld v (hargs v hv)⟩, hheld⟩
  | @bind m held env x v hv _ _ ih =>
    obtain ⟨made, hm, hheld⟩ := ih
    exact ⟨made, hm.withStore (hm.store.bind env x (hheld v hv)), hheld⟩
  | @enter m held parent bindings hbindings _ _ ih =>
    obtain ⟨made, hm, hheld⟩ := ih
    refine ⟨made, hm.withStore (hm.store.enter parent fun b hb => ?_), hheld⟩
    rcases hbindings with rfl | rfl
    · cases hb
    · obtain ⟨builtin, hbuiltin⟩ := Store.mem_globals hb
      exact Value.recorded_of_none (by rw [hbuiltin]; rfl)
  | flush _ _ ih =>
    obtain ⟨made, hm, hheld⟩ := ih
    exact ⟨made, hm.withStore hm.store.flush, hheld⟩

/-- Identity and equality by content are equivalence relations on the values of a state that arises, and fit
together: identical values are alike, alike values are of one type, count as true alike and make the same key, and
values that make keys make the same one if and only if they are identical. The operator `==` tells whether the values
of its operands are identical, and cannot fail itself; `!=` does the same as `!` with `==`. -/
theorem equalities_fit_together {held : List Value} (h : m.Arises held) :
    Equivalence (fun v w : {v // m.Has held v} => v.1.identical w.1 = true) ∧
    Equivalence (fun v w : {v // m.Has held v} => v.1.alike w.1 = true) ∧
    (∀ v w, m.Has held v → m.Has held w →
      (v.identical w = true → v.alike w = true) ∧
      (v.alike w = true → v.type = w.type ∧ v.truthy = w.truthy ∧ v.key? = w.key?) ∧
      ∀ k j, v.key? = some k → w.key? = some j → (k = j ↔ v.identical w = true)) ∧
    ∀ (apply : Eval.Apply) (env : Env) (l r : Expr) (line line' line'' : Nat),
      Eval.expr apply env (.binary line .equal l r) = (do
        let v ← Eval.expr apply env l
        let w ← Eval.expr apply env r
        pure (.boolean (v.identical w))) ∧
      Eval.expr apply env (.binary line .notEqual l r) =
        Eval.expr apply env (.unary line' .not (.binary line'' .equal l r)) := by
  obtain ⟨made, hm, hheld⟩ := h.recorded
  have hrecorded (v : {v // m.Has held v}) : v.1.Recorded made := v.2.recorded hm hheld
  refine ⟨⟨fun v => Value.identical_iff.mpr rfl, fun h => ?_, fun h h' => ?_⟩,
    ⟨fun v => ?_, fun {v w} h => ?_, fun h h' => Value.alike_trans h h'⟩, fun v w hv hw => ⟨fun h => ?_, ?_, ?_⟩, ?_⟩
  · exact Value.identical_iff.mpr (Value.identical_iff.mp h).symm
  · exact Value.identical_iff.mpr ((Value.identical_iff.mp h).trans (Value.identical_iff.mp h'))
  · exact Value.alike_refl (hrecorded v).wellKeyed
  · exact Value.alike_symm (hrecorded v).wellKeyed (hrecorded w).wellKeyed h
  · have hv := hrecorded ⟨v, hv⟩
    obtain rfl := hv.eq_of_mark_eq (hrecorded ⟨w, hw⟩) (Value.identical_iff.mp h)
    exact Value.alike_refl hv.wellKeyed
  · exact Value.like_of_alike
  · intro k j hk hj
    rw [Value.identical_iff_key? hj, hk, Option.some_inj]
  · exact fun apply env l r line line' line'' => ⟨Eval.expr_equal line l r, Eval.expr_notEqual line line' line'' l r⟩

/-- Two arrays that are made alike are not identical, but have the same type. -/
theorem arrays_made_alike :
    let one : Expr := .array [.literal (.integer 1)]
    let i : Interpreter := { env := 0, depth := 0, store := Store.start.2 }
    let made (id : Nat) : Value := .array id [.integer 1]
    ∃ m : Machine, Steps (i.start (.evaluate (.expr (.array [one, one])))) m ∧
      m.control = .done (.value (.array 2 [made 0, made 1])) ∧ m.Arises [] ∧
      (made 0).identical (made 1) = false ∧ (made 0).alike (made 1) = true ∧ (made 0).type = (made 1).type := by
  intro one i made
  have henv : (i.finished (.value .null) i.store).Arises [] := @Arises.enter _ _ none _ (.inr rfl) .start rfl
  let result := i.store.run (Eval.expr (Eval.apply (maxCallDepth - 0)) 0 (.array [one, one]))
  have hresult : result.1 = .value (.array 2 [made 0, made 1]) := by cbv
  have harises : (i.finished result.1 result.2).Arises [] :=
    henv.told (i := i) (t := .evaluate (.expr (.array [one, one]))) rfl (List.forall_mem_nil _) rfl (Nat.zero_le _)
  have hhas (v : Value) (hv : v ∈ [made 0, made 1]) : (i.finished result.1 result.2).Has [] v := by
    refine .inside (v := .array 2 [made 0, made 1]) (.current ?_) hv
    rw [hresult]
    exact List.mem_singleton_self _
  have halike : (made 0).alike (made 1) = true := by decide
  have hsame := (equalities_fit_together harises).2.2.1 (made 0) (made 1) (hhas _ (by simp)) (hhas _ (by simp))
  exact ⟨_, i.steps_finished _ (Nat.zero_le _), congrArg Control.done hresult, harises, by decide, halike,
    (hsame.2.1 halike).1⟩

end Machine
end Monkey
