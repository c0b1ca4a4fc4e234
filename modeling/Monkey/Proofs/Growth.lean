import Monkey.Evaluation

/-! What a computation does to the store and ends in, said piece by piece: one rule for each way of putting
computations together. The operations that evaluation ends in make no bindings and no functions of their own. -/
namespace Monkey

mutual

/-- The functions in a value, at any depth of its arrays and hashes. -/
def Value.closures : Value → List Closure
  | .array _ elems => closuresOfAll elems
  | .hash _ entries => closuresOfEntries entries
  | .function _ f => [f]
  | .integer _ | .boolean _ | .string _ | .builtin _ | .null => []

def closuresOfAll : List Value → List Closure
  | [] => []
  | v :: vs => v.closures ++ closuresOfAll vs

def closuresOfEntries : List (Key × Value) → List Closure
  | [] => []
  | (_, v) :: es => v.closures ++ closuresOfEntries es

end

theorem closuresOfAll_eq_flatMap (vs : List Value) : closuresOfAll vs = vs.flatMap Value.closures := by
  induction vs with
  | nil => rfl
  | cons v vs ih => exact congrArg (v.closures ++ ·) ih

theorem closuresOfEntries_eq_flatMap (es : List (Key × Value)) :
    closuresOfEntries es = es.flatMap fun e => e.2.closures := by
  induction es with
  | nil => rfl
  | cons e es ih => exact congrArg (e.2.closures ++ ·) ih

theorem mem_closuresOfAll {f : Closure} {vs : List Value} :
    f ∈ closuresOfAll vs ↔ ∃ v ∈ vs, f ∈ v.closures := closuresOfAll_eq_flatMap vs ▸ List.mem_flatMap

theorem mem_closuresOfEntries {f : Closure} {es : List (Key × Value)} :
    f ∈ closuresOfEntries es ↔ ∃ e ∈ es, f ∈ e.2.closures :=
  closuresOfEntries_eq_flatMap es ▸ List.mem_flatMap

theorem closures_subset_of_mem {v : Value} {vs : List Value} (h : v ∈ vs) :
    v.closures ⊆ closuresOfAll vs := fun _ hf => mem_closuresOfAll.mpr ⟨v, h, hf⟩

theorem closuresOfAll_singleton (v : Value) : closuresOfAll [v] = v.closures := List.append_nil _

theorem closuresOfAll_append (vs ws : List Value) :
    closuresOfAll (vs ++ ws) = closuresOfAll vs ++ closuresOfAll ws := by
  simp only [closuresOfAll_eq_flatMap, List.flatMap_append]

theorem eq_or_mem_of_mem_put {k : Key} {v : Value} {e : Key × Value} {es : Entries} (h : e ∈ es.put k v) :
    e = (k, v) ∨ e ∈ es := by
  induction es with
  | nil => exact .inl (List.mem_singleton.mp h)
  | cons d es ih =>
    simp only [Entries.put] at h
    split at h
    · exact (List.mem_cons.mp h).imp_right (List.mem_cons_of_mem d)
    · rcases List.mem_cons.mp h with rfl | h
      · exact .inr List.mem_cons_self
      · exact (ih h).imp_right (List.mem_cons_of_mem d)

theorem closures_put_subset (k : Key) (v : Value) (es : Entries) :
    closuresOfEntries (es.put k v) ⊆ v.closures ++ closuresOfEntries es := by
  intro f hf
  obtain ⟨e, he, hf⟩ := mem_closuresOfEntries.mp hf
  rcases eq_or_mem_of_mem_put he with rfl | he
  · exact List.mem_append_left _ hf
  · exact List.mem_append_right _ (mem_closuresOfEntries.mpr ⟨e, he, hf⟩)

/-- Every environment of `st` is there in `st'`, inside of the same one, with the bindings that it had and
newer ones of names that it may gain. -/
def Store.Grows (may : Env → String → Prop) (st st' : Store) : Prop :=
  ∀ i s, st.scopes[i]? = some s →
    ∃ new : Bindings, st'.scopes[i]? = some ⟨new ++ s.bindings, s.parent⟩ ∧ ∀ b ∈ new, may i b.1

namespace Store

variable {may may' : Env → String → Prop} {st st' st'' : Store}

theorem grows_of_scopes (h : st'.scopes = st.scopes) : st.Grows may st' :=
  fun _ s hs => ⟨[], by rw [h, hs]; rfl, by simp⟩

theorem Grows.trans (h : st.Grows may st') (h' : st'.Grows may st'') : st.Grows may st'' := by
  intro i s hs
  obtain ⟨new, hnew, hmay⟩ := h i s hs
  obtain ⟨newer, hnewer, hmay'⟩ := h' i _ hnew
  refine ⟨newer ++ new, by simpa using hnewer, fun b hb => ?_⟩
  exact (List.mem_append.mp hb).elim (hmay' b) (hmay b)

theorem Grows.mono (h : st.Grows may st') (hmay : ∀ i x, may i x → may' i x) : st.Grows may' st' := by
  intro i s hs
  obtain ⟨new, hnew, hb⟩ := h i s hs
  exact ⟨new, hnew, fun b hm => hmay i b.1 (hb b hm)⟩

/-- What is bound only in environments that were not there leaves those that were as they were. -/
theorem Grows.confine (h : st.Grows (fun i _ => st.scopes.size ≤ i) st') : st.Grows may st' := by
  intro i s hs
  obtain ⟨new, hnew, hlater⟩ := h i s hs
  have hi : i < st.scopes.size := (Array.getElem?_eq_some_iff.mp hs).1
  have hnil : new = [] := List.eq_nil_iff_forall_not_mem.mpr fun b hb => Nat.not_le_of_lt hi (hlater b hb)
  subst hnil
  exact ⟨[], hnew, by simp⟩

theorem grows_bind (env : Env) (name : String) (value : Value) (h : may env name) :
    st.Grows may (st.bind env name value) := by
  intro i s hs
  rw [getElem?_bind]
  split
  · next hi =>
    subst hi
    exact ⟨[(name, value)], by simp [hs], by simpa using h⟩
  · exact ⟨[], by simp [hs], by simp⟩

theorem grows_enter (parent : Option Env) (bindings : Bindings) :
    st.Grows may (st.enter parent bindings).2 := by
  intro i s hs
  have hi : i < st.scopes.size := (Array.getElem?_eq_some_iff.mp hs).1
  rw [getElem?_enter, if_neg (Nat.ne_of_lt hi)]
  exact ⟨[], by simp [hs], by simp⟩

end Store

namespace Run

theorem bind_eq_of_ok {α β : Type} {x : Run α} {f : α → Run β} {a : α} {st st' : Store} (h : x st = .ok a st') :
    (x >>= f) st = f a st' := by
  simp only [Bind.bind, EStateM.bind, h]

theorem bind_eq_of_error {α β : Type} {x : Run α} {f : α → Run β} {e : Exit} {st st' : Store}
    (h : x st = .error e st') : (x >>= f) st = .error e st' := by
  simp only [Bind.bind, EStateM.bind, h]

/-- `x` makes no bindings. It ends in a value without any function but `fs`, or in an error that is not
about a name and that no line is known of. -/
def Plain (fs : List Closure) (x : Run Value) : Prop :=
  ∀ st, match x st with
    | .ok v st' => st'.scopes = st.scopes ∧ v.closures ⊆ fs
    | .error (.error e) st' => st'.scopes = st.scopes ∧ e.line = none ∧ e.fault.category ≠ .unbound
    | .error (.returned _) _ => False

variable {fs : List Closure}

theorem plain_pure {v : Value} (h : v.closures ⊆ fs) : Plain fs (pure v) := fun _ => ⟨rfl, h⟩

theorem plain_raise {fault : RuntimeFault} (h : fault.category ≠ .unbound) : Plain fs (raise fault) :=
  fun _ => ⟨rfl, rfl, h⟩

theorem plain_newArray {elems : List Value} (h : closuresOfAll elems ⊆ fs) : Plain fs (newArray elems) :=
  fun _ => ⟨rfl, h⟩

theorem plain_newHash {entries : Entries} (h : closuresOfEntries entries ⊆ fs) :
    Plain fs (newHash entries) := fun _ => ⟨rfl, h⟩

theorem plain_newFunction {f : Closure} (h : f ∈ fs) : Plain fs (newFunction f) :=
  fun _ => ⟨rfl, List.cons_subset.mpr ⟨h, List.nil_subset fs⟩⟩

variable {α β : Type} {may : Env → String → Prop} {leave : Store → Exit → Prop} {st : Store}

/-- From `st`, `x` makes bindings that it may make, and ends in a `good` value or in an exit that `leave`
allows. -/
def Yields (may : Env → String → Prop) (leave : Store → Exit → Prop) (st : Store) (x : Run α)
    (good : Store → α → Prop) : Prop :=
  match x st with
  | .ok a st' => st.Grows may st' ∧ good st' a
  | .error e st' => st.Grows may st' ∧ leave st' e

theorem yields_pure {a : α} {good : Store → α → Prop} (h : good st a) : Yields may leave st (pure a) good :=
  ⟨Store.grows_of_scopes rfl, h⟩

theorem yields_raise {fault : RuntimeFault} {good : Store → α → Prop} (h : leave st (.error ⟨fault, none⟩)) :
    Yields may leave st (raise fault) good := ⟨Store.grows_of_scopes rfl, h⟩

theorem yields_return {v : Value} {good : Store → α → Prop} (h : leave st (.returned v)) :
    Yields may leave st (throw (.returned v)) good := ⟨Store.grows_of_scopes rfl, h⟩

theorem yields_lookup {env : Env} {name : String} {good : Store → Value → Prop}
    (h : ∀ v, st.lookup env name = some v → good st v)
    (hnone : st.lookup env name = none → leave st (.error ⟨.unbound name, none⟩)) :
    Yields may leave st (lookup env name) good := by
  unfold Yields lookup
  cases hv : st.lookup env name with
  | some v => exact ⟨Store.grows_of_scopes rfl, h v hv⟩
  | none => exact ⟨Store.grows_of_scopes rfl, hnone hv⟩

theorem yields_key {v : Value} {good : Store → Key → Prop} (h : ∀ k, good st k)
    (hleave : leave st (.error ⟨.unhashable v.type, none⟩)) : Yields may leave st (key v) good := by
  unfold key
  split
  · exact yields_pure (h _)
  · exact yields_raise hleave

theorem yields_bind {env : Env} {name : String} {v : Value} {good : Store → Unit → Prop}
    (hmay : may env name) (h : good (st.bind env name v) ()) :
    Yields may leave st (bind env name v) good := ⟨Store.grows_bind env name v hmay, h⟩

theorem yields_enter {parent : Option Env} {bindings : Bindings} {good : Store → Env → Prop}
    (h : good (st.enter parent bindings).2 st.scopes.size) :
    Yields may leave st (enter parent bindings) good := ⟨Store.grows_enter parent bindings, h⟩

/-- An operation that makes no bindings. -/
theorem Plain.yields {x : Run Value} {good : Store → Value → Prop} (hx : Plain fs x)
    (hgood : ∀ st' v, st'.scopes = st.scopes → v.closures ⊆ fs → good st' v)
    (hleave : ∀ st' e, st'.scopes = st.scopes → e.fault.category ≠ .unbound → leave st' (.error e)) :
    Yields may leave st x good := by
  have h := hx st
  unfold Yields
  cases hst : x st with
  | ok v st' =>
    rw [hst] at h
    exact ⟨Store.grows_of_scopes h.1, hgood st' v h.1 h.2⟩
  | error e st' =>
    rw [hst] at h
    cases e with
    | error e => exact ⟨Store.grows_of_scopes h.1, hleave st' e h.1 h.2.2⟩
    | returned v => exact h.elim

namespace Yields

variable {x : Run α} {f : α → Run β} {good : Store → α → Prop} {good' : Store → β → Prop}

theorem bind (hx : Yields may leave st x good)
    (hf : ∀ a st', st.Grows may st' → good st' a → Yields may leave st' (f a) good') :
    Yields may leave st (x >>= f) good' := by
  unfold Yields at *
  simp only [Bind.bind, EStateM.bind]
  cases hst : x st with
  | error e st' => rwa [hst] at hx
  | ok a st' =>
    rw [hst] at hx
    have h := hf a st' hx.1 hx.2
    dsimp only
    split at h
    · exact ⟨hx.1.trans h.1, h.2⟩
    · exact ⟨hx.1.trans h.1, h.2⟩

theorem weaken {good' : Store → α → Prop} (hx : Yields may leave st x good)
    (h : ∀ st' a, st.Grows may st' → good st' a → good' st' a) : Yields may leave st x good' := by
  unfold Yields at *
  split at hx
  · exact ⟨hx.1, h _ _ hx.1 hx.2⟩
  · exact hx

theorem atLine {line : Nat} (hx : Yields may leave st x good)
    (hleave : ∀ st' e, leave st' (.error e) → leave st' (.error (e.atLine line))) :
    Yields may leave st (Run.atLine line x) good := by
  unfold Yields Run.atLine at *
  cases hst : x st with
  | ok a st' => rwa [hst] at hx
  | error e st' =>
    rw [hst] at hx
    cases e with
    | error e => exact ⟨hx.1, hleave st' e hx.2⟩
    | returned v => exact hx

theorem catchReturn {x : Run Value} {good : Store → Value → Prop} (hx : Yields may leave st x good)
    (hgood : ∀ st' v, leave st' (.returned v) → good st' v) :
    Yields may leave st (Run.catchReturn x) good := by
  unfold Yields Run.catchReturn at *
  cases hst : x st with
  | ok v st' => rwa [hst] at hx
  | error e st' =>
    rw [hst] at hx
    cases e with
    | error e => exact hx
    | returned v => exact ⟨hx.1, hgood st' v hx.2⟩

/-- A computation may make any bindings that it is seen not to make. -/
theorem of_grows {may' : Env → String → Prop} (hx : Yields may leave st x good)
    (h : ∀ st', st.Grows may st' → st.Grows may' st') : Yields may' leave st x good := by
  unfold Yields at *
  split at hx
  · exact ⟨h _ hx.1, hx.2⟩
  · exact ⟨h _ hx.1, hx.2⟩

end Yields

end Run

open Run

theorem plain_unary (op : PrefixOp) (v : Value) : Plain [] (Eval.unary op v) := by
  unfold Eval.unary
  split
  · exact plain_pure (List.nil_subset _)
  · exact plain_pure (List.nil_subset _)
  · exact plain_raise (by simp [RuntimeFault.category])

theorem plain_integers (op : InfixOp) (l r : Int64) : Plain [] (Eval.integers op l r) := by
  cases op <;> simp only [Eval.integers]
  case divide =>
    split
    · exact plain_raise (by simp [RuntimeFault.category])
    · exact plain_pure (List.nil_subset _)
  all_goals exact plain_pure (List.nil_subset _)

theorem plain_binary (op : InfixOp) (l r : Value) : Plain [] (Eval.binary op l r) := by
  unfold Eval.binary
  split
  · exact plain_integers _ _ _
  · exact plain_pure (List.nil_subset _)
  · exact plain_pure (List.nil_subset _)
  · exact plain_pure (List.nil_subset _)
  · split <;> exact plain_raise (by simp [RuntimeFault.category])

theorem closures_lookup_subset (k : Key) (es : Entries) :
    ((es.lookup k).getD .null).closures ⊆ closuresOfEntries es := by
  cases h : es.lookup k with
  | none => exact List.nil_subset _
  | some v => exact fun f hf => mem_closuresOfEntries.mpr ⟨(k, v), mem_of_lookup h, hf⟩

theorem closures_getD_subset {v? : Option Value} {vs : List Value} (h : ∀ v ∈ v?, v ∈ vs) :
    (v?.getD .null).closures ⊆ closuresOfAll vs := by
  cases v? with
  | none => exact List.nil_subset _
  | some v => exact closures_subset_of_mem (h v rfl)

theorem plain_index (base subscript : Value) : Plain base.closures (Eval.index base subscript) := by
  unfold Eval.index
  split
  · next elems i =>
    refine plain_pure ?_
    split
    · exact List.nil_subset _
    · exact closures_getD_subset fun v h => List.mem_of_getElem? h
  · next entries v =>
    unfold Run.key
    split
    · exact plain_pure (closures_lookup_subset ..)
    · exact plain_raise (by simp [RuntimeFault.category])
  · exact plain_raise (by simp [RuntimeFault.category])

theorem plain_builtin (b : Builtin) (args : List Value) : Plain (closuresOfAll args) (b.apply args) := by
  have raised {fault : RuntimeFault} (h : fault.category ≠ .unbound) :
      Plain (closuresOfAll args) (raise fault) := plain_raise h
  unfold Builtin.apply
  split
  · exact plain_pure (List.nil_subset _)
  · exact plain_pure (List.nil_subset _)
  · next elems =>
    rw [closuresOfAll_singleton]
    exact plain_pure (closures_getD_subset fun v h => List.mem_of_mem_head? h)
  · next elems =>
    rw [closuresOfAll_singleton]
    exact plain_pure (closures_getD_subset fun v h => List.mem_of_mem_getLast? h)
  · exact plain_pure (List.nil_subset _)
  · rw [closuresOfAll_singleton]
    exact plain_newArray (List.subset_append_right ..)
  · exact plain_newArray (closuresOfAll_append .. ▸ List.Subset.refl _)
  · exact fun _ => ⟨rfl, List.nil_subset _⟩
  all_goals exact raised (by simp [RuntimeFault.category])

end Monkey
