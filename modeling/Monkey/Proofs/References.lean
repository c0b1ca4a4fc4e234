import Monkey.Proofs.Growth

/-! What values refer to: identities, and the environments of functions. -/
namespace Monkey

inductive Ref where
  | environment (i : Env)
  | identity (n : Nat)

mutual

/-- All that a value refers to, at any depth of its arrays and hashes. -/
def Value.refs : Value → List Ref
  | .array id elems => .identity id :: refsOfAll elems
  | .hash id entries => .identity id :: refsOfEntries entries
  | .function id f => [.identity id, .environment f.env]
  | .integer _ | .boolean _ | .string _ | .builtin _ | .null => []

def refsOfAll : List Value → List Ref
  | [] => []
  | v :: vs => v.refs ++ refsOfAll vs

def refsOfEntries : List (Key × Value) → List Ref
  | [] => []
  | (_, v) :: es => v.refs ++ refsOfEntries es

end

theorem refsOfAll_eq_flatMap (vs : List Value) : refsOfAll vs = vs.flatMap Value.refs := by
  induction vs with
  | nil => rfl
  | cons v vs ih => exact congrArg (v.refs ++ ·) ih

theorem refsOfEntries_eq_flatMap (es : List (Key × Value)) : refsOfEntries es = es.flatMap fun e => e.2.refs := by
  induction es with
  | nil => rfl
  | cons e es ih => exact congrArg (e.2.refs ++ ·) ih

theorem mem_refsOfAll {r : Ref} {vs : List Value} : r ∈ refsOfAll vs ↔ ∃ v ∈ vs, r ∈ v.refs :=
  refsOfAll_eq_flatMap vs ▸ List.mem_flatMap

theorem mem_refsOfEntries {r : Ref} {es : List (Key × Value)} :
    r ∈ refsOfEntries es ↔ ∃ e ∈ es, r ∈ e.2.refs := refsOfEntries_eq_flatMap es ▸ List.mem_flatMap

theorem refsOfAll_append (vs ws : List Value) : refsOfAll (vs ++ ws) = refsOfAll vs ++ refsOfAll ws := by
  simp only [refsOfAll_eq_flatMap, List.flatMap_append]

theorem refs_put_subset (k : Key) (v : Value) (es : Entries) :
    refsOfEntries (es.put k v) ⊆ v.refs ++ refsOfEntries es := by
  intro r hr
  obtain ⟨e, he, hr⟩ := mem_refsOfEntries.mp hr
  rcases eq_or_mem_of_mem_put he with rfl | he
  · exact List.mem_append_left _ hr
  · exact List.mem_append_right _ (mem_refsOfEntries.mpr ⟨e, he, hr⟩)

theorem refs_lookup_subset (k : Key) (es : Entries) : ((es.lookup k).getD .null).refs ⊆ refsOfEntries es := by
  cases h : es.lookup k with
  | none => exact List.nil_subset _
  | some v => exact fun f hf => mem_refsOfEntries.mpr ⟨(k, v), mem_of_lookup h, hf⟩

theorem refs_getD_subset {v? : Option Value} {vs : List Value} (h : ∀ v ∈ v?, v ∈ vs) :
    (v?.getD .null).refs ⊆ refsOfAll vs := by
  cases v? with
  | none => exact List.nil_subset _
  | some v => exact fun r hr => mem_refsOfAll.mpr ⟨v, h v rfl, hr⟩

namespace Store

/-- It has been made. -/
def Made (st : Store) : Ref → Prop
  | .environment i => i < st.scopes.size
  | .identity n => n < st.nextId

theorem Made.later {st st' : Store} {r : Ref} (h : st.Made r) (henvs : st.scopes.size ≤ st'.scopes.size)
    (hids : st.nextId ≤ st'.nextId) : st'.Made r := by
  cases r with
  | environment i => exact Nat.lt_of_lt_of_le h henvs
  | identity n => exact Nat.lt_of_lt_of_le h hids

end Store
end Monkey
