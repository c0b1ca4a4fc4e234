import Monkey.Store

/-! What holds of every value that a name stands for. -/
namespace Monkey
namespace Store

def AllBound (P : Value → Prop) (st : Store) : Prop := ∀ env x v, (st.bindings env).lookup x = some v → P v

namespace AllBound

variable {P Q : Value → Prop} {st st' : Store} {env : Env} {x : String} {v : Value}

theorem mono (h : st.AllBound P) (hPQ : ∀ v, P v → Q v) : st.AllBound Q := fun env x v hv => hPQ v (h env x v hv)

theorem of_scopes (h : st.AllBound P) (hscopes : st'.scopes = st.scopes) : st'.AllBound P := by
  intro env x v hv
  rw [bindings, hscopes] at hv
  exact h env x v hv

/-- What is found in an environment is bound in it or in one around it. -/
theorem lookup (h : st.AllBound P) (hx : st.lookup env x = some v) : P v := by
  induction env using Nat.strongRecOn with
  | ind env ih =>
    cases hb : (st.bindings env).lookup x with
    | some w =>
      obtain rfl := Option.some.inj ((lookup_of_bound hb).symm.trans hx)
      exact h env x w hb
    | none =>
      rw [lookup_of_unbound hb] at hx
      obtain ⟨parent, hparent, hx⟩ := Option.bind_eq_some_iff.mp hx
      exact ih parent (parent?_lt hparent) hx

theorem bind (h : st.AllBound P) (hv : P v) : (st.bind env x v).AllBound P := by
  intro i y w hw
  rw [bindings, getElem?_bind] at hw
  split at hw
  · cases hs : st.scopes[i]? with
    | none => simp [hs] at hw
    | some s =>
      simp only [hs, Option.map_some, Option.getD_some, List.lookup_cons] at hw
      split at hw
      · obtain rfl := Option.some.inj hw
        exact hv
      · exact h i y w (by simpa [bindings, hs] using hw)
  · exact h i y w hw

theorem enter {parent : Option Env} {bindings : Bindings} (h : st.AllBound P) (hb : ∀ b ∈ bindings, P b.2) :
    (st.enter parent bindings).2.AllBound P := by
  intro i y w hw
  rw [Store.bindings, getElem?_enter] at hw
  split at hw
  · exact hb (y, w) (mem_of_lookup hw)
  · exact h i y w hw

end AllBound
end Store
end Monkey
