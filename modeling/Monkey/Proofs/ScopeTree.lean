import Monkey.Store

/-! Environments as a tree of scopes. Whatever environments have been made and whatever has been set in them, in any
order, a name is looked up along the path to the root: the nearest environment in which it has ever been set gives
the value, which is the one set last. -/
namespace Monkey
namespace Store

/-- A sequence of operations by which `n` environments, numbered from 0, have been made and names set in them. -/
inductive History : Nat → Type where
  | start : History 0
  /-- A new global environment. -/
  | global {n : Nat} (h : History n) : History (n + 1)
  /-- A new environment inside of one that has been made. -/
  | child {n : Nat} (h : History n) (parent : Fin n) : History (n + 1)
  | set {n : Nat} (h : History n) (env : Fin n) (x : String) (v : Value) : History n

namespace History

variable {n : Nat}

/-- The store that the operations lead to. -/
def store {n : Nat} : History n → Store
  | start => empty
  | global h => (h.store.enter none globals).2
  | child h parent => (h.store.enter (some parent) []).2
  | set h env x v => h.store.bind env x v

/-- An environment, the one around it, and so on to the root. -/
def path {n : Nat} : History n → Env → List Env
  | start, _ => []
  | @global n h, e => if e = n then [n] else h.path e
  | @child n h parent, e => if e = n then n :: h.path parent else h.path e
  | set h _ _ _, e => h.path e

/-- The value that has been set last for a name in the environment itself. Making a global environment sets the
builtins in it. -/
def latest {n : Nat} : History n → Env → String → Option Value
  | start, _, _ => none
  | @global n h, e, x => if e = n then (Builtin.all.find? fun b => b.name = x).map .builtin else h.latest e x
  | child h _, e, x => h.latest e x
  | set h i y v, e, x => if e = i ∧ x = y then some v else h.latest e x

theorem size_store (h : History n) : h.store.scopes.size = n := by
  induction h with
  | start => rfl
  | global h ih => simp [store, enter, ih]
  | child h parent ih => simp [store, enter, ih]
  | set h env x v ih => simp [store, bind, ih]

theorem lookup_globals_name (b : Builtin) : globals.lookup b.name = some (.builtin b) := by
  cases b <;> rfl

theorem lookup_globals (x : String) :
    globals.lookup x = (Builtin.all.find? fun b => b.name = x).map .builtin := by
  cases hfind : Builtin.all.find? fun b => b.name = x with
  | some b =>
    obtain rfl : b.name = x := by simpa using List.find?_some hfind
    exact lookup_globals_name b
  | none =>
    refine List.lookup_eq_none_iff.mpr fun p hp => ?_
    obtain ⟨b, hb, rfl⟩ := List.mem_map.mp (List.mem_reverse.mp hp)
    have hne : b.name ≠ x := by simpa using List.find?_eq_none.mp hfind b hb
    simpa using hne.symm

theorem getElem?_store_of_le {h : History n} {e : Env} (he : n ≤ e) : h.store.scopes[e]? = none :=
  Array.getElem?_eq_none (h.size_store.symm ▸ he)

theorem lookup_bindings_enter (h : History n) (parent : Option Env) (bindings : Bindings) (e : Env) (x : String) :
    ((h.store.enter parent bindings).2.bindings e).lookup x =
      if e = n then bindings.lookup x else (h.store.bindings e).lookup x := by
  simp only [Store.bindings, getElem?_enter, h.size_store]
  split <;> rfl

theorem lookup_bindings_set (h : History n) (i : Fin n) (y : String) (v : Value) (e : Env) (x : String) :
    ((h.store.bind i y v).bindings e).lookup x =
      if e = i ∧ x = y then some v else (h.store.bindings e).lookup x := by
  by_cases he : e = i
  · have hi : (i : Env) < h.store.scopes.size := h.size_store.symm ▸ i.isLt
    subst he
    by_cases hx : x = y
    · simp [Store.bindings, getElem?_bind, hi, hx]
    · simp [Store.bindings, getElem?_bind, hi, hx, List.lookup_cons, beq_false_of_ne hx]
  · simp [Store.bindings, getElem?_bind, he, Ne.symm he]

/-- The bindings of an environment are those that have been set last. -/
theorem lookup_bindings (h : History n) (e : Env) (x : String) :
    (h.store.bindings e).lookup x = h.latest e x := by
  induction h with
  | start => simp [store, empty, bindings, latest]
  | global h ih => rw [store, lookup_bindings_enter, latest, lookup_globals, ih]
  | @child n h parent ih =>
    rw [store, lookup_bindings_enter, latest, ih, ← ih]
    split
    · next he => rw [bindings, getElem?_store_of_le (Nat.le_of_eq he.symm)]; rfl
    · rfl
  | set h i y v ih => rw [store, lookup_bindings_set, latest, ih]

theorem parent?_enter (h : History n) (parent : Option Env) (bindings : Bindings) (e : Env) :
    (h.store.enter parent bindings).2.parent? e =
      if e = n then parent.filter (· < n) else h.store.parent? e := by
  simp only [parent?, getElem?_enter, h.size_store]
  split <;> rfl

theorem parent?_bind (st : Store) (i : Env) (y : String) (v : Value) (e : Env) :
    (st.bind i y v).parent? e = st.parent? e := by
  simp only [parent?, getElem?_bind]
  split
  · simp [Option.bind_map, Function.comp_def]
  · rfl

theorem path_global (h : History n) (e : Env) : h.global.path e = if e = n then [n] else h.path e := rfl

theorem path_child (h : History n) (parent : Fin n) (e : Env) :
    (h.child parent).path e = if e = n then n :: h.path parent else h.path e := rfl

theorem path_set (h : History n) (i : Fin n) (y : String) (v : Value) (e : Env) :
    (h.set i y v).path e = h.path e := rfl

theorem latest_set (h : History n) (i : Fin n) (y : String) (v : Value) (e : Env) (x : String) :
    (h.set i y v).latest e x = if e = i ∧ x = y then some v else h.latest e x := rfl

theorem path_of_le (h : History n) {e : Env} (he : n ≤ e) : h.path e = [] := by
  induction h with
  | start => rfl
  | global h ih => rw [path_global, if_neg (Nat.ne_of_gt he), ih (Nat.le_of_succ_le he)]
  | child h parent ih => rw [path_child, if_neg (Nat.ne_of_gt he), ih (Nat.le_of_succ_le he)]
  | set h i y v ih => exact ih he

/-- What is made later is on the path of no environment that was there before. -/
theorem elim_parent_congr {h : History n} {e : Env} (he : e < n) {later : Env → List Env}
    (hlater : ∀ p < n, later p = h.path p) :
    (h.store.parent? e).elim [] later = (h.store.parent? e).elim [] h.path := by
  cases hp : h.store.parent? e with
  | none => rfl
  | some p => exact hlater p (Nat.lt_trans (parent?_lt hp) he)

theorem path_of_lt (h : History n) {e : Env} (he : e < n) :
    h.path e = e :: (h.store.parent? e).elim [] h.path := by
  induction h with
  | start => exact absurd he (Nat.not_lt_zero e)
  | @global n h ih =>
    rw [store, parent?_enter]
    rcases Nat.lt_succ_iff_lt_or_eq.mp he with he | rfl
    · rw [path_global, if_neg (Nat.ne_of_lt he), if_neg (Nat.ne_of_lt he), ih he]
      exact congrArg (e :: ·) (elim_parent_congr he fun p hp => if_neg (Nat.ne_of_lt hp)).symm
    · rw [path_global, if_pos rfl, if_pos rfl]
      rfl
  | @child n h parent ih =>
    rw [store, parent?_enter]
    rcases Nat.lt_succ_iff_lt_or_eq.mp he with he | rfl
    · rw [path_child, if_neg (Nat.ne_of_lt he), if_neg (Nat.ne_of_lt he), ih he]
      exact congrArg (e :: ·) (elim_parent_congr he fun p hp => if_neg (Nat.ne_of_lt hp)).symm
    · rw [path_child, if_pos rfl, if_pos rfl, Option.filter_some, if_pos (decide_eq_true parent.isLt)]
      exact congrArg (e :: ·) (if_neg (Nat.ne_of_lt parent.isLt)).symm
  | set h i y v ih =>
    rw [path_set, store, parent?_bind, ih he]
    cases h.store.parent? e <;> rfl

/-- A name is looked up along the path. -/
theorem lookup_store (h : History n) (e : Env) (x : String) :
    h.store.lookup e x = (h.path e).findSome? (h.latest · x) := by
  induction e using Nat.strongRecOn with
  | ind e ih =>
    by_cases he : e < n
    · rw [h.path_of_lt he, List.findSome?_cons, ← h.lookup_bindings]
      cases hx : (h.store.bindings e).lookup x with
      | some v => exact lookup_of_bound hx
      | none =>
        rw [lookup_of_unbound hx]
        cases hp : h.store.parent? e with
        | none => rfl
        | some parent => exact ih parent (parent?_lt hp)
    · have hnone := h.getElem?_store_of_le (Nat.le_of_not_lt he)
      rw [h.path_of_le (Nat.le_of_not_lt he), lookup_of_unbound (by rw [bindings, hnone]; rfl), parent?, hnone]
      rfl

/-- A value that is given to one environment on a path is found unless there is one nearer by. -/
theorem findSome?_update (f : Env → Option Value) (i : Env) (v : Value) (l : List Env) :
    l.findSome? (fun j => if j = i then some v else f j) =
      if i ∈ l ∧ ∀ j ∈ l.takeWhile (· ≠ i), f j = none then some v else l.findSome? f := by
  induction l with
  | nil => simp
  | cons j l ih =>
    by_cases hj : j = i
    · simp [hj]
    · have hi : i ≠ j := Ne.symm hj
      cases hf : f j <;> simp [hj, hi, hf, ih]

end History

/-- A name has the value that has been set last in the nearest environment, on the path to the root, in which it has
ever been set, and no value if there is none. So setting it in one environment is seen from there and from those
inside of it that have no nearer environment with the name, and changes nothing else. -/
theorem lookup_follows_path {n : Nat} (h : History n) (e : Env) (x : String) :
    h.store.lookup e x = (h.path e).findSome? (h.latest · x) ∧
      ∀ (i : Fin n) (y : String) (v : Value), (h.set i y v).store.lookup e x =
        if x = y ∧ i.val ∈ h.path e ∧ ∀ j ∈ (h.path e).takeWhile (· ≠ i.val), h.latest j x = none then some v
        else h.store.lookup e x := by
  refine ⟨h.lookup_store e x, fun i y v => ?_⟩
  rw [h.lookup_store, History.lookup_store]
  by_cases hx : x = y
  · simp only [History.path_set, History.latest_set, hx, and_true, true_and]
    exact History.findSome?_update _ _ _ _
  · simp [History.path_set, History.latest_set, hx]

end Store
end Monkey
