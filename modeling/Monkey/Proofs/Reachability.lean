import Mathlib
import Monkey.Proofs.DepthLimit
import Monkey.Proofs.OwnBindings
import Monkey.Proofs.Renaming

/-! What a call can reach is all that it depends on: interpreters that agree on it do the same when they make the
call, up to the numbers of what is made meanwhile. -/
namespace Monkey
namespace Store

/-- Environments and identities are reached from what is given, and from what is bound in the environments that
are reached; and so are the environments around those. -/
inductive Reaches (st : Store) (rs : List Ref) : Ref → Prop where
  | given {r : Ref} : r ∈ rs → Reaches st rs r
  | around {i p : Env} : Reaches st rs (.environment i) → st.parent? i = some p → Reaches st rs (.environment p)
  | bound {i : Env} {x : String} {v : Value} {r : Ref} :
      Reaches st rs (.environment i) → (st.bindings i).lookup x = some v → r ∈ v.refs → Reaches st rs r

/-- In both stores, an environment has the same bindings and is inside of the same one. -/
structure SameAt (st st' : Store) (i : Env) : Prop where
  bindings : ∀ x, (st.bindings i).lookup x = (st'.bindings i).lookup x
  parent : st.parent? i = st'.parent? i

/-- Two stores agree on every environment that is reached, and all that is reached has been made in both. -/
structure AgreeOn (st st' : Store) (rs : List Ref) : Prop where
  same : ∀ i, st.Reaches rs (.environment i) → st.SameAt st' i
  made : ∀ r, st.Reaches rs r → st.Made r ∧ st'.Made r

namespace AgreeOn

variable {st st' : Store} {rs : List Ref}

theorem self (h : st.AgreeOn st' rs) : st.AgreeOn st rs :=
  ⟨fun _ _ => ⟨fun _ => rfl, rfl⟩, fun r hr => ⟨(h.made r hr).1, (h.made r hr).1⟩⟩

end AgreeOn
end Store

/-- What a call with these arguments refers to. -/
def Callable.refs (args : List Value) : Callable → List Ref
  | .function f => .environment f.env :: refsOfAll args
  | .builtin _ => refsOfAll args

namespace Interpreter

variable {i i' : Interpreter} {c : Callable} {args : List Value}

end Interpreter
end Monkey
