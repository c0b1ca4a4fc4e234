import Monkey.Proofs.BoundValues
import Monkey.Proofs.Growth

/-! Which syntax is well scoped over a set of names, told from its text alone; which names an environment
gives a value; and what it is for the functions in a store to be well scoped over the environments that they
captured. -/
namespace Monkey

def Expr.isFunction : Expr → Bool
  | .function _ _ => true
  | _ => false

/-- The names that a statement adds to the scope of those behind it. -/
def Stmt.binders : Stmt → List String
  | .binding x _ => [x]
  | .returning _ | .expression _ => []

/-! Whether each use of a name is in scope, where the scope begins as the given names. -/

mutual

def Expr.wellScoped : List String → Expr → Bool
  | names, .name _ x => names.contains x
  | _, .literal _ => true
  | names, .unary _ _ e => e.wellScoped names
  | names, .binary _ _ l r => l.wellScoped names && r.wellScoped names
  | names, .conditional c consequence none => c.wellScoped names && wellScopedBlock names consequence
  | names, .conditional c consequence (some alternative) =>
    c.wellScoped names && (wellScopedBlock names consequence && wellScopedBlock names alternative)
  | names, .function params body => wellScopedBlock (params ++ names) body
  | names, .call _ callee args => callee.wellScoped names && wellScopedExprs names args
  | names, .array elems => wellScopedExprs names elems
  | names, .hash _ ps => wellScopedPairs names ps
  | names, .index _ base subscript => base.wellScoped names && subscript.wellScoped names

/-- A function literal may use the name that a `let` gives it; any other value is there before its name. -/
def Stmt.wellScoped : List String → Stmt → Bool
  | names, .binding x e => e.wellScoped (if e.isFunction then x :: names else names)
  | _, .returning none => true
  | names, .returning (some e) => e.wellScoped names
  | names, .expression e => e.wellScoped names

def wellScopedBlock : List String → List Stmt → Bool
  | _, [] => true
  | names, s :: ss => s.wellScoped names && wellScopedBlock (s.binders ++ names) ss

def wellScopedExprs : List String → List Expr → Bool
  | _, [] => true
  | names, e :: es => e.wellScoped names && wellScopedExprs names es

def wellScopedPairs : List String → List (Expr × Expr) → Bool
  | _, [] => true
  | names, (k, v) :: ps => k.wellScoped names && (v.wellScoped names && wellScopedPairs names ps)

end

/-! What is well scoped stays so when there are more names. -/

theorem append_subset_append {names more : List String} (inner : List String) (h : names ⊆ more) :
    inner ++ names ⊆ inner ++ more :=
  List.append_subset.mpr ⟨List.subset_append_left .., List.subset_append_of_subset_right inner h⟩

theorem and_imp_and {a a' b b' : Bool} (ha : a = true → a' = true) (hb : b = true → b' = true) :
    (a && b) = true → (a' && b') = true := by
  simpa only [Bool.and_eq_true] using And.imp ha hb

mutual

theorem Expr.wellScoped_mono {names more : List String} (h : names ⊆ more) :
    ∀ e : Expr, e.wellScoped names = true → e.wellScoped more = true
  | .name _ _ => fun hx => List.contains_iff_mem.mpr (h (List.contains_iff_mem.mp hx))
  | .literal _ => fun _ => rfl
  | .unary _ _ e => Expr.wellScoped_mono h e
  | .binary _ _ l r => and_imp_and (Expr.wellScoped_mono h l) (Expr.wellScoped_mono h r)
  | .conditional c consequence none =>
    and_imp_and (Expr.wellScoped_mono h c) (wellScopedBlock_mono h consequence)
  | .conditional c consequence (some alternative) =>
    and_imp_and (Expr.wellScoped_mono h c)
      (and_imp_and (wellScopedBlock_mono h consequence) (wellScopedBlock_mono h alternative))
  | .function params body => wellScopedBlock_mono (append_subset_append params h) body
  | .call _ callee args => and_imp_and (Expr.wellScoped_mono h callee) (wellScopedExprs_mono h args)
  | .array elems => wellScopedExprs_mono h elems
  | .hash _ ps => wellScopedPairs_mono h ps
  | .index _ base subscript => and_imp_and (Expr.wellScoped_mono h base) (Expr.wellScoped_mono h subscript)

theorem Stmt.wellScoped_mono {names more : List String} (h : names ⊆ more) :
    ∀ s : Stmt, s.wellScoped names = true → s.wellScoped more = true
  | .binding x e => by
    simp only [Stmt.wellScoped]
    split
    · exact Expr.wellScoped_mono (List.cons_subset_cons x h) e
    · exact Expr.wellScoped_mono h e
  | .returning none => fun _ => rfl
  | .returning (some e) => Expr.wellScoped_mono h e
  | .expression e => Expr.wellScoped_mono h e

theorem wellScopedBlock_mono {names more : List String} (h : names ⊆ more) :
    ∀ ss : List Stmt, wellScopedBlock names ss = true → wellScopedBlock more ss = true
  | [] => fun _ => rfl
  | s :: ss =>
    and_imp_and (Stmt.wellScoped_mono h s) (wellScopedBlock_mono (append_subset_append s.binders h) ss)

theorem wellScopedExprs_mono {names more : List String} (h : names ⊆ more) :
    ∀ es : List Expr, wellScopedExprs names es = true → wellScopedExprs more es = true
  | [] => fun _ => rfl
  | e :: es => and_imp_and (Expr.wellScoped_mono h e) (wellScopedExprs_mono h es)

theorem wellScopedPairs_mono {names more : List String} (h : names ⊆ more) :
    ∀ ps : List (Expr × Expr), wellScopedPairs names ps = true → wellScopedPairs more ps = true
  | [] => fun _ => rfl
  | (k, v) :: ps =>
    and_imp_and (Expr.wellScoped_mono h k) (and_imp_and (Expr.wellScoped_mono h v) (wellScopedPairs_mono h ps))

end

namespace Store

variable {may : Env → String → Prop} {st st' : Store} {env : Env} {x : String} {v : Value}

/-- The names that are bound in an environment or in one around it. -/
def names (st : Store) (env : Env) : List String :=
  (st.bindings env).map Prod.fst ++
    match _h : st.parent? env with
    | some parent => st.names parent
    | none => []
termination_by env
decreasing_by exact st.parent_lt _h

theorem mem_names :
    x ∈ st.names env ↔
      x ∈ (st.bindings env).map Prod.fst ∨ ∃ parent, st.parent? env = some parent ∧ x ∈ st.names parent := by
  rw [names, List.mem_append]
  refine or_congr_right ?_
  split
  · next parent hparent => simp [hparent]
  · next hparent => simp [hparent]

theorem lookup_isSome_iff : (st.lookup env x).isSome ↔ x ∈ st.names env := by
  induction env using Nat.strongRecOn with
  | ind env ih =>
    rw [mem_names]
    cases hx : (st.bindings env).lookup x with
    | some v =>
      obtain ⟨l, r, hl, _⟩ := List.lookup_eq_some_iff.mp hx
      simp [lookup_of_bound hx, hl]
    | none =>
      have hnot : x ∉ (st.bindings env).map Prod.fst := fun hmem => by
        obtain ⟨b, hb, hbx⟩ := List.mem_map.mp hmem
        simpa [hbx] using List.lookup_eq_none_iff.mp hx b hb
      rw [lookup_of_unbound hx, or_iff_right hnot]
      cases hparent : st.parent? env with
      | none => simp
      | some parent => simpa using ih parent (parent?_lt hparent)

theorem Grows.bindings_suffix (h : st.Grows may st') (env : Env) : st.bindings env <:+ st'.bindings env := by
  unfold bindings
  cases hs : st.scopes[env]? with
  | none => exact List.nil_suffix
  | some s =>
    obtain ⟨new, hnew, _⟩ := h env s hs
    rw [hnew]
    exact List.suffix_append new s.bindings

theorem Grows.parent? {parent : Env} (h : st.Grows may st') (hparent : st.parent? env = some parent) :
    st'.parent? env = some parent := by
  obtain ⟨s, hs, hp⟩ := Option.bind_eq_some_iff.mp hparent
  obtain ⟨new, hnew, _⟩ := h env s hs
  exact Option.bind_eq_some_iff.mpr ⟨_, hnew, hp⟩

theorem Grows.names_subset (h : st.Grows may st') (env : Env) : st.names env ⊆ st'.names env := by
  induction env using Nat.strongRecOn with
  | ind env ih =>
    intro x hx
    rcases mem_names.mp hx with hx | ⟨parent, hparent, hx⟩
    · exact mem_names.mpr (.inl ((h.bindings_suffix env).map Prod.fst |>.subset hx))
    · exact mem_names.mpr (.inr ⟨parent, h.parent? hparent, ih parent (parent?_lt hparent) hx⟩)

theorem Grows.lt_size (h : st.Grows may st') (henv : env < st.scopes.size) : env < st'.scopes.size := by
  obtain ⟨new, hnew, _⟩ := h env _ (Array.getElem?_eq_getElem henv)
  exact (Array.getElem?_eq_some_iff.mp hnew).1

end Store

/-- The function's body is well scoped over its parameters and the names bound in the environment that it
captured. -/
def Closure.WellScoped (st : Store) (f : Closure) : Prop :=
  wellScopedBlock (f.params ++ st.names f.env) f.body = true

theorem Closure.WellScoped.grows {may : Env → String → Prop} {st st' : Store} {f : Closure}
    (hf : f.WellScoped st) (h : st.Grows may st') : f.WellScoped st' :=
  wellScopedBlock_mono (append_subset_append f.params (h.names_subset f.env)) f.body hf

namespace Store

def Covers (st : Store) (fs : List Closure) : Prop := ∀ f ∈ fs, f.WellScoped st

/-- All functions that names stand for are well scoped, those inside of arrays and hashes among them. -/
def WellScoped (st : Store) : Prop :=
  ∀ env x v, (st.bindings env).lookup x = some v → st.Covers v.closures

variable {may : Env → String → Prop} {st st' : Store} {env : Env} {x : String} {v : Value}
  {fs gs : List Closure}

theorem covers_nil : st.Covers [] := fun _ hf => nomatch hf

theorem Covers.subset (h : st.Covers fs) (hsub : gs ⊆ fs) : st.Covers gs := fun f hf => h f (hsub hf)

theorem Covers.append (hf : st.Covers fs) (hg : st.Covers gs) : st.Covers (fs ++ gs) :=
  List.forall_mem_append.mpr ⟨hf, hg⟩

theorem Covers.grows (h : st.Covers fs) (hg : st.Grows may st') : st'.Covers fs := fun f hf => (h f hf).grows hg

/-! Well scoped functions are a property of all bound values, which a growing store keeps. -/

theorem WellScoped.allBound_grows (h : st.WellScoped) (hg : st.Grows may st') :
    st.AllBound fun v => st'.Covers v.closures := AllBound.mono h fun _ hv => hv.grows hg

theorem WellScoped.lookup (h : st.WellScoped) (hx : st.lookup env x = some v) : st.Covers v.closures :=
  AllBound.lookup h hx

theorem WellScoped.of_scopes (h : st.WellScoped) (hscopes : st'.scopes = st.scopes) : st'.WellScoped := by
  have hg : st.Grows (fun _ _ => True) st' := grows_of_scopes hscopes
  exact (h.allBound_grows hg).of_scopes hscopes

theorem WellScoped.bind (h : st.WellScoped) (hv : (st.bind env x v).Covers v.closures) :
    (st.bind env x v).WellScoped := by
  have hg : st.Grows (fun _ _ => True) (st.bind env x v) := grows_bind env x v trivial
  exact (h.allBound_grows hg).bind hv

theorem WellScoped.enter {parent : Option Env} {bindings : Bindings} (h : st.WellScoped)
    (hb : ∀ b ∈ bindings, st.Covers b.2.closures) : (st.enter parent bindings).2.WellScoped := by
  have hg : st.Grows (fun _ _ => True) (st.enter parent bindings).2 := grows_enter parent bindings
  exact (h.allBound_grows hg).enter fun b hmem => (hb b hmem).grows hg

theorem mem_names_bind (henv : env < st.scopes.size) : x ∈ (st.bind env x v).names env := by
  refine mem_names.mpr (.inl ?_)
  rw [bindings, getElem?_bind, if_pos rfl, Array.getElem?_eq_getElem henv]
  exact List.mem_cons_self

theorem names_eq_nil (h : st.scopes.size ≤ env) : st.names env = [] := by
  rw [names, bindings, parent?, Array.getElem?_eq_none h]
  rfl

theorem subset_names_enter {parent : Env} {bindings : Bindings} :
    bindings.map Prod.fst ++ st.names parent ⊆ (st.enter (some parent) bindings).2.names st.scopes.size := by
  have hscope : (st.enter (some parent) bindings).2.scopes[st.scopes.size]? = _ :=
    (getElem?_enter ..).trans (if_pos rfl)
  intro x hx
  rw [mem_names, Store.bindings, parent?, hscope]
  refine (List.mem_append.mp hx).imp id fun hx => ?_
  have hparent : parent < st.scopes.size := by
    refine Nat.lt_of_not_le fun hle => ?_
    simp [names_eq_nil hle] at hx
  have hg : st.Grows (fun _ _ => True) (st.enter (some parent) bindings).2 := grows_enter (some parent) bindings
  exact ⟨parent, by simp [hparent], hg.names_subset parent hx⟩

end Store
end Monkey
