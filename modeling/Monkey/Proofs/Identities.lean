import Mathlib
import Monkey.Proofs.BoundValues
import Monkey.Proofs.CallDepth
import Monkey.Proofs.Equality
import Monkey.Proofs.Growth

/-! One identity has one content. A record of the values that have been made, each under its identity, is kept along
every run of the machine and by all that a host does between runs; so identical values are equal, whatever they are
made of. -/
namespace Monkey

theorem Entries.nodup_put {es : Entries} (h : (es.map Prod.fst).Nodup) (k : Key) (v : Value) :
    ((es.put k v).map Prod.fst).Nodup := by
  induction es with
  | nil => exact List.nodup_singleton k
  | cons e es ih =>
    obtain ⟨k₁, v₁⟩ := e
    obtain ⟨hk₁, hes⟩ := List.nodup_cons.mp h
    rw [put]
    split
    · next hk =>
      subst hk
      exact h
    · next hk =>
      refine List.nodup_cons.mpr ⟨fun hmem => ?_, ih hes⟩
      obtain ⟨e, he, hkey⟩ := List.mem_map.mp hmem
      rcases eq_or_mem_of_mem_put he with rfl | he
      · exact hk hkey.symm
      · exact hk₁ (hkey ▸ List.mem_map_of_mem he)

namespace Value

def identity? : Value → Option Nat
  | array id _ | hash id _ | function id _ => some id
  | _ => none

/-- Every identity in the value is that of the value which the record has in its place, and no hash in it has a key
twice. -/
def Recorded (made : List Value) (v : Value) : Prop :=
  ∀ part, v.Contains part → (∀ n, part.identity? = some n → made[n]? = some part) ∧ part.keys.Nodup

variable {made : List Value} {v w : Value}

theorem recorded_of_children (hid : ∀ n, v.identity? = some n → made[n]? = some v) (hkeys : v.keys.Nodup)
    (h : ∀ w ∈ v.children, w.Recorded made) : v.Recorded made := by
  intro part hpart
  rcases hpart.cases_head with rfl | ⟨w, hw, hpart⟩
  · exact ⟨hid, hkeys⟩
  · exact h w hw part hpart

theorem recorded_of_none (h : v.identity? = none) : v.Recorded made := by
  cases v with
  | array id es => cases h
  | hash id es => cases h
  | function id f => cases h
  | _ => exact recorded_of_children (fun _ h => nomatch h) List.nodup_nil fun _ h => nomatch h

theorem recorded_null : null.Recorded made := recorded_of_none rfl

theorem Recorded.child (h : v.Recorded made) (hw : w ∈ v.children) : w.Recorded made :=
  fun part hpart => h part (.head hw hpart)

theorem Recorded.append (h : v.Recorded made) (more : List Value) : v.Recorded (made ++ more) := by
  intro part hpart
  refine ⟨fun n hn => ?_, (h part hpart).2⟩
  have hmade := (h part hpart).1 n hn
  rw [List.getElem?_append_left (List.getElem?_eq_some_iff.mp hmade).1, hmade]

theorem Recorded.wellKeyed (h : v.Recorded made) : v.WellKeyed := fun part hpart => (h part hpart).2

theorem recorded_getD {v? : Option Value} (h : ∀ v ∈ v?, v.Recorded made) : (v?.getD .null).Recorded made := by
  cases v? with
  | none => exact recorded_null
  | some v => exact h v rfl

theorem identity?_eq_of_mark_eq (h : v.mark = w.mark) : v.identity? = w.identity? := by
  cases v <;> cases w <;> cases h <;> rfl

/-- One record has at most one value with a mark. -/
theorem Recorded.eq_of_mark_eq (hv : v.Recorded made) (hw : w.Recorded made) (h : v.mark = w.mark) : v = w := by
  have hid := identity?_eq_of_mark_eq h
  cases hn : v.identity? with
  | some n =>
    have hv := (hv v .refl).1 n hn
    have hw := (hw w .refl).1 n (hid ▸ hn)
    exact Option.some.inj (hv.symm.trans hw)
  | none => cases v <;> cases hn <;> cases w <;> cases h <;> rfl

end Value

def Outcome.values : Outcome → List Value
  | .value v | .returned v => [v]
  | .error _ => []

/-- These are the values that have been made with an identity, in the order of the identities; all that is bound in
the store is made of them. -/
structure Store.Records (st : Store) (made : List Value) : Prop where
  length : made.length = st.nextId
  bound : st.AllBound (Value.Recorded made)

namespace Store.Records

variable {st : Store} {made : List Value} {v : Value}

theorem bind (h : st.Records made) (env : Env) (x : String) (hv : v.Recorded made) :
    (st.bind env x v).Records made := ⟨h.length, h.bound.bind hv⟩

theorem enter (h : st.Records made) (parent : Option Env) {bindings : Bindings}
    (hb : ∀ b ∈ bindings, b.2.Recorded made) : (st.enter parent bindings).2.Records made :=
  ⟨h.length, h.bound.enter hb⟩

theorem print (h : st.Records made) (text : String) : (st.print text).Records made := ⟨h.length, h.bound⟩

theorem flush (h : st.Records made) : st.flush.2.Records made := ⟨h.length, h.bound⟩

/-- A value that is made with the next identity is recorded under it. -/
theorem fresh (h : st.Records made) (hid : ∀ n, v.identity? = some n → n = st.nextId) (hkeys : v.keys.Nodup)
    (hchildren : ∀ w ∈ v.children, w.Recorded made) :
    st.fresh.2.Records (made ++ [v]) ∧ v.Recorded (made ++ [v]) := by
  refine ⟨⟨?_, ?_⟩, Value.recorded_of_children (fun n hn => ?_) hkeys fun w hw => (hchildren w hw).append [v]⟩
  · rw [List.length_append, h.length]
    rfl
  · exact (h.bound.mono fun w hw => hw.append [v]).of_scopes rfl
  · rw [hid n hn, ← h.length, List.getElem?_concat_length]

end Store.Records

namespace Run

/-- Where these values have been made, `x` makes more, and the value that it ends in is one of them or made of
them. -/
def Records (made : List Value) (x : Run Value) : Prop :=
  ∀ st : Store, st.Records made → ∃ more, (st.run x).2.Records (made ++ more) ∧
    ∀ v ∈ (st.run x).1.values, v.Recorded (made ++ more)

variable {made : List Value}

theorem records_of_eq {x : Run Value} (h : ∀ st : Store, st.Records made →
    (st.run x).2.Records made ∧ ∀ v ∈ (st.run x).1.values, v.Recorded made) : Records made x := by
  intro st hst
  refine ⟨[], ?_⟩
  rw [List.append_nil]
  exact h st hst

theorem records_pure {v : Value} (h : v.Recorded made) : Records made (pure v) :=
  records_of_eq fun _ hst => ⟨hst, List.forall_mem_singleton.mpr h⟩

theorem records_raise (fault : RuntimeFault) : Records made (raise fault) :=
  records_of_eq fun _ hst => ⟨hst, fun _ h => nomatch h⟩

theorem records_fresh {make : Nat → Value} (hid : ∀ n, (make n).identity? = some n) (hkeys : ∀ n, (make n).keys.Nodup)
    (hchildren : ∀ n, ∀ w ∈ (make n).children, w.Recorded made) :
    Records made (modifyGet fun st => st.fresh.map make id) := by
  intro st hst
  obtain ⟨hmade, hv⟩ := hst.fresh (v := make st.nextId) (fun n hn => Option.some.inj (hn.symm.trans (hid _)))
    (hkeys _) (hchildren _)
  exact ⟨[make st.nextId], hmade, List.forall_mem_singleton.mpr hv⟩

theorem records_newArray {elems : List Value} (h : ∀ v ∈ elems, v.Recorded made) : Records made (newArray elems) :=
  records_fresh (fun _ => rfl) (fun _ => List.nodup_nil) fun _ => h

theorem records_newFunction (f : Closure) : Records made (newFunction f) :=
  records_fresh (fun _ => rfl) (fun _ => List.nodup_nil) fun _ _ h => nomatch h

end Run

/-- The entries of a hash that is being made. -/
structure Entries.Recorded (made : List Value) (es : Entries) : Prop where
  keys : (es.map Prod.fst).Nodup
  values : ∀ v ∈ es.map Prod.snd, v.Recorded made

theorem Entries.recorded_nil {made : List Value} : Entries.Recorded made [] := ⟨List.nodup_nil, List.forall_mem_nil _⟩

theorem Entries.Recorded.put {made : List Value} {es : Entries} {v : Value} (h : es.Recorded made) (k : Key)
    (hv : v.Recorded made) : (es.put k v).Recorded made := by
  refine ⟨nodup_put h.keys k v, fun w hw => ?_⟩
  obtain ⟨e, he, rfl⟩ := List.mem_map.mp hw
  rcases eq_or_mem_of_mem_put he with rfl | he
  · exact hv
  · exact h.values _ (List.mem_map_of_mem he)

section
open Run

variable {made : List Value}

theorem Run.records_newHash {es : Entries} (h : es.Recorded made) : Records made (newHash es) :=
  records_fresh (fun _ => rfl) (fun _ => h.keys) fun _ => h.values

namespace Eval

theorem records_unary (op : PrefixOp) (v : Value) : Records made (unary op v) := by
  unfold unary
  split
  · exact records_pure (Value.recorded_of_none rfl)
  · exact records_pure (Value.recorded_of_none rfl)
  · exact records_raise _

theorem records_integers (op : InfixOp) (l r : Int64) : Records made (integers op l r) := by
  cases op <;> simp only [integers]
  case divide =>
    split
    · exact records_raise _
    · exact records_pure (Value.recorded_of_none rfl)
  all_goals exact records_pure (Value.recorded_of_none rfl)

theorem records_binary (op : InfixOp) (l r : Value) : Records made (binary op l r) := by
  unfold binary
  split
  · exact records_integers _ _ _
  · exact records_pure (Value.recorded_of_none rfl)
  · exact records_pure (Value.recorded_of_none rfl)
  · exact records_pure (Value.recorded_of_none rfl)
  · split <;> exact records_raise _

theorem records_index {base : Value} (subscript : Value) (h : base.Recorded made) :
    Records made (index base subscript) := by
  unfold index
  split
  · refine records_pure ?_
    split
    · exact Value.recorded_null
    · exact Value.recorded_getD fun v hv => h.child (List.mem_of_getElem? hv)
  · next id entries =>
    unfold key
    split
    · next k _ =>
      refine records_pure (Value.recorded_getD fun v hv => h.child ?_)
      exact List.mem_map_of_mem (mem_of_lookup hv)
    · exact records_raise _
  · exact records_raise _

end Eval

theorem records_builtin (b : Builtin) {args : List Value} (h : ∀ v ∈ args, v.Recorded made) :
    Records made (b.apply args) := by
  unfold Builtin.apply
  split
  · exact records_pure (Value.recorded_of_none rfl)
  · exact records_pure (Value.recorded_of_none rfl)
  · have helems := h _ List.mem_cons_self
    exact records_pure (Value.recorded_getD fun v hv => helems.child (List.mem_of_mem_head? hv))
  · have helems := h _ List.mem_cons_self
    exact records_pure (Value.recorded_getD fun v hv => helems.child (List.mem_of_mem_getLast? hv))
  · exact records_pure Value.recorded_null
  · have helems := h _ List.mem_cons_self
    exact records_newArray fun v hv => helems.child (List.mem_cons_of_mem _ hv)
  · have helems := h _ List.mem_cons_self
    refine records_newArray (List.forall_mem_append.mpr ⟨fun v hv => helems.child hv, ?_⟩)
    exact List.forall_mem_singleton.mpr (h _ (List.mem_cons_of_mem _ List.mem_cons_self))
  · exact records_of_eq fun _ hst => ⟨hst.print _, List.forall_mem_singleton.mpr Value.recorded_null⟩
  all_goals exact records_raise _

end
end Monkey
