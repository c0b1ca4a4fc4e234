import Monkey.Value

/-! The state of an evaluation: the scopes that environments refer to, the next unused identity, and the text
that has been printed. Scopes are made and bound in, and never taken away; each is inside of an older one. -/
namespace Monkey

theorem mem_of_lookup {α β : Type} [BEq α] [LawfulBEq α] {a : α} {b : β} {l : List (α × β)}
    (h : l.lookup a = some b) : (a, b) ∈ l := by
  obtain ⟨before, after, rfl, -⟩ := List.lookup_eq_some_iff.mp h
  simp

/-- The bindings of one scope, the newest first: it hides older ones of the same name. -/
abbrev Bindings := List (String × Value)

/-- What an environment refers to: bindings of its own, and the environment around it. -/
structure Scope where
  bindings : Bindings
  parent : Option Env

structure Store where
  scopes : Array Scope
  nextId : Nat
  output : String
  parent_lt : ∀ {env parent : Env}, scopes[env]?.bind Scope.parent = some parent → parent < env

namespace Store

def empty : Store := ⟨#[], 0, "", by simp⟩

/-- The bindings of an environment itself. -/
def bindings (st : Store) (env : Env) : Bindings := (st.scopes[env]?.map Scope.bindings).getD []

def parent? (st : Store) (env : Env) : Option Env := st.scopes[env]?.bind Scope.parent

/-- The value of a name: the newest in the innermost scope that binds it. -/
def lookup (st : Store) (env : Env) (name : String) : Option Value :=
  match (st.bindings env).lookup name with
  | some v => some v
  | none =>
    match _h : st.parent? env with
    | some parent => st.lookup parent name
    | none => none
termination_by env
decreasing_by exact st.parent_lt _h

/-- Binds a name in the scope of the environment itself. -/
def bind (st : Store) (env : Env) (name : String) (value : Value) : Store where
  scopes := st.scopes.modify env fun s => { s with bindings := (name, value) :: s.bindings }
  nextId := st.nextId
  output := st.output
  parent_lt {i p} h := by
    refine st.parent_lt (Eq.trans ?_ h)
    rw [Array.getElem?_modify]
    split <;> simp [Option.bind_map, Function.comp_def]

/-- Makes an environment with the given bindings, inside of another one if that exists. -/
def enter (st : Store) (parent : Option Env) (bindings : Bindings) : Env × Store :=
  (st.scopes.size,
    { scopes := st.scopes.push ⟨bindings, parent.filter (· < st.scopes.size)⟩
      nextId := st.nextId
      output := st.output
      parent_lt {i p} h := by
        rw [Array.getElem?_push] at h
        split at h
        · next hi =>
          obtain ⟨_, hp⟩ := Option.filter_eq_some_iff.mp h
          simpa [hi] using hp
        · exact st.parent_lt h })

/-- An identity that no value has yet. -/
def fresh (st : Store) : Nat × Store := (st.nextId, { st with nextId := st.nextId + 1 })

def print (st : Store) (text : String) : Store := { st with output := st.output ++ text }

/-- The printed text, which is taken out of the store. -/
def flush (st : Store) : String × Store := (st.output, { st with output := "" })

/-- The bindings of a new global environment. -/
def globals : Bindings := (Builtin.all.map fun b => (b.name, .builtin b)).reverse

theorem parent?_lt {st : Store} {env parent : Env} (h : st.parent? env = some parent) : parent < env :=
  st.parent_lt h

theorem mem_globals {b : String × Value} (h : b ∈ globals) : ∃ builtin, b.2 = .builtin builtin := by
  obtain ⟨builtin, -, rfl⟩ := List.mem_map.mp (List.mem_reverse.mp h)
  exact ⟨builtin, rfl⟩

theorem getElem?_bind (st : Store) (env : Env) (name : String) (value : Value) (i : Env) :
    (st.bind env name value).scopes[i]? =
      if env = i then st.scopes[i]?.map fun s => { s with bindings := (name, value) :: s.bindings }
      else st.scopes[i]? :=
  Array.getElem?_modify

theorem getElem?_enter (st : Store) (parent : Option Env) (bindings : Bindings) (i : Env) :
    (st.enter parent bindings).2.scopes[i]? =
      if i = st.scopes.size then some ⟨bindings, parent.filter (· < st.scopes.size)⟩ else st.scopes[i]? :=
  Array.getElem?_push

theorem lookup_of_bound {st : Store} {env : Env} {name : String} {v : Value}
    (h : (st.bindings env).lookup name = some v) : st.lookup env name = some v := by
  rw [lookup, h]

theorem lookup_of_unbound {st : Store} {env : Env} {name : String}
    (h : (st.bindings env).lookup name = none) :
    st.lookup env name = (st.parent? env).bind fun parent => st.lookup parent name := by
  rw [lookup, h]
  dsimp only
  split <;> (next hp => rw [hp]; rfl)

end Store
end Monkey
