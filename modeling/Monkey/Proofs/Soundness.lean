import Monkey.Interpreter
import Monkey.Proofs.BoundValues
import Monkey.Proofs.References

/-! Nothing refers to what has not been made: not the values in a store, and none that an evaluation ends in. New
environments and identities are therefore unlike all that values refer to. -/
namespace Monkey
namespace Store

def Holds (st : Store) (rs : List Ref) : Prop := ∀ r ∈ rs, st.Made r

/-- All that bound values refer to has been made. -/
def Sound (st : Store) : Prop := st.AllBound fun v => st.Holds v.refs

/-- A later store, which is sound. -/
structure Leads (st st' : Store) : Prop where
  sound : st'.Sound
  envs : st.scopes.size ≤ st'.scopes.size
  ids : st.nextId ≤ st'.nextId

variable {st st' st'' : Store} {rs rs' : List Ref} {v : Value}

theorem Leads.refl (h : st.Sound) : st.Leads st := ⟨h, Nat.le_refl _, Nat.le_refl _⟩

theorem Leads.trans (h : st.Leads st') (h' : st'.Leads st'') : st.Leads st'' :=
  ⟨h'.sound, Nat.le_trans h.envs h'.envs, Nat.le_trans h.ids h'.ids⟩

theorem holds_nil : st.Holds [] := fun _ hr => nomatch hr

theorem Holds.append (h : st.Holds rs) (h' : st.Holds rs') : st.Holds (rs ++ rs') :=
  List.forall_mem_append.mpr ⟨h, h'⟩

theorem Holds.subset (h : st.Holds rs) (hsub : rs' ⊆ rs) : st.Holds rs' := fun r hr => h r (hsub hr)

theorem Holds.leads (h : st.Holds rs) (hl : st.Leads st') : st'.Holds rs :=
  fun r hr => (h r hr).later hl.envs hl.ids

theorem Sound.fresh (h : st.Sound) : st.Leads st.fresh.2 where
  sound := by
    have hbound : st.fresh.2.AllBound fun v => st.Holds v.refs := h.of_scopes rfl
    exact hbound.mono fun v hv r hr => (hv r hr).later (Nat.le_refl _) (Nat.le_succ _)
  envs := Nat.le_refl _
  ids := Nat.le_succ _

theorem Sound.print (h : st.Sound) (text : String) : st.Leads (st.print text) := ⟨h, Nat.le_refl _, Nat.le_refl _⟩

theorem Sound.flush (h : st.Sound) : st.Leads st.flush.2 := ⟨h, Nat.le_refl _, Nat.le_refl _⟩

theorem Sound.bind (h : st.Sound) (env : Env) (x : String) (hv : st.Holds v.refs) : st.Leads (st.bind env x v) := by
  have hsize : st.scopes.size ≤ (st.bind env x v).scopes.size := by simp [Store.bind]
  have hlater {rs : List Ref} (hrs : st.Holds rs) : (st.bind env x v).Holds rs :=
    fun r hr => (hrs r hr).later hsize (Nat.le_refl _)
  exact ⟨(h.mono fun _ => hlater).bind (hlater hv), hsize, Nat.le_refl _⟩

theorem Sound.enter (h : st.Sound) (parent : Option Env) {bindings : Bindings}
    (hb : ∀ b ∈ bindings, st.Holds b.2.refs) : st.Leads (st.enter parent bindings).2 := by
  have hsize : st.scopes.size ≤ (st.enter parent bindings).2.scopes.size := by simp [Store.enter]
  have hlater {rs : List Ref} (hrs : st.Holds rs) : (st.enter parent bindings).2.Holds rs :=
    fun r hr => (hrs r hr).later hsize (Nat.le_refl _)
  exact ⟨(h.mono fun _ => hlater).enter fun b hmem => hlater (hb b hmem), hsize, Nat.le_refl _⟩

end Store

def Exit.refs : Exit → List Ref
  | .error _ => []
  | .returned v => v.refs

namespace Run

variable {α β : Type} {rs rs' : List Ref} {held : α → List Ref} {held' : β → List Ref}

/-- Where `rs` have been made, `x` keeps the store sound, and what it ends in refers only to what has been made
by then. -/
def Keeps (rs : List Ref) (held : α → List Ref) (x : Run α) : Prop :=
  ∀ st : Store, st.Sound → st.Holds rs → match x st with
    | .ok a st' => st.Leads st' ∧ st'.Holds (held a)
    | .error e st' => st.Leads st' ∧ st'.Holds e.refs

theorem keeps_pure {a : α} (h : held a ⊆ rs) : Keeps rs held (pure a) :=
  fun _ hst hrs => ⟨.refl hst, hrs.subset h⟩

theorem keeps_raise (fault : RuntimeFault) : Keeps rs held (raise fault) :=
  fun _ hst _ => ⟨.refl hst, Store.holds_nil⟩

theorem keeps_return {v : Value} (h : v.refs ⊆ rs) : Keeps rs held (throw (.returned v)) :=
  fun _ hst hrs => ⟨.refl hst, hrs.subset h⟩

namespace Keeps

/-- What has been made stays made, so the second computation may use it too. -/
theorem bind {x : Run α} {f : α → Run β} (hx : Keeps rs held x) (hf : ∀ a, Keeps (held a ++ rs) held' (f a)) :
    Keeps rs held' (x >>= f) := by
  intro st hst hrs
  have h := hx st hst hrs
  simp only [Bind.bind, EStateM.bind]
  cases hrun : x st with
  | error e st' => rwa [hrun] at h
  | ok a st' =>
    rw [hrun] at h
    have h' := hf a st' h.1.sound (h.2.append (hrs.leads h.1))
    dsimp only
    split at h'
    · exact ⟨h.1.trans h'.1, h'.2⟩
    · exact ⟨h.1.trans h'.1, h'.2⟩

theorem subset {x : Run α} (hx : Keeps rs held x) (h : rs ⊆ rs') : Keeps rs' held x :=
  fun st hst hrs => hx st hst (hrs.subset h)

theorem atLine {x : Run α} (line : Nat) (hx : Keeps rs held x) : Keeps rs held (atLine line x) := by
  intro st hst hrs
  have h := hx st hst hrs
  unfold Run.atLine
  cases hrun : x st with
  | ok a st' => rwa [hrun] at h
  | error e st' =>
    rw [hrun] at h
    cases e with
    | error e => exact ⟨h.1, Store.holds_nil⟩
    | returned v => exact h

theorem catchReturn {x : Run Value} (hx : Keeps rs Value.refs x) : Keeps rs Value.refs (catchReturn x) := by
  intro st hst hrs
  have h := hx st hst hrs
  unfold Run.catchReturn
  cases hrun : x st with
  | ok a st' => rwa [hrun] at h
  | error e st' =>
    rw [hrun] at h
    cases e with
    | error e => exact h
    | returned v => exact h

end Keeps

theorem keeps_lookup (env : Env) (x : String) : Keeps rs Value.refs (lookup env x) := by
  intro st hst hrs
  unfold lookup
  cases hv : st.lookup env x with
  | some v => exact ⟨.refl hst, hst.lookup hv⟩
  | none => exact ⟨.refl hst, Store.holds_nil⟩

theorem keeps_bind (env : Env) (x : String) {v : Value} (h : v.refs ⊆ rs) :
    Keeps rs (fun _ => []) (bind env x v) :=
  fun _ hst hrs => ⟨hst.bind env x (hrs.subset h), Store.holds_nil⟩

theorem keeps_enter (parent : Option Env) {bindings : Bindings} (h : ∀ b ∈ bindings, b.2.refs ⊆ rs) :
    Keeps rs (fun env => [.environment env]) (enter parent bindings) := by
  intro st hst hrs
  refine ⟨hst.enter parent fun b hb => hrs.subset (h b hb), List.forall_mem_singleton.mpr ?_⟩
  simp [Store.Made]

theorem keeps_print (text : String) : Keeps rs (fun _ => []) (print text) :=
  fun _ hst _ => ⟨hst.print text, Store.holds_nil⟩

/-- A value with an identity of its own. -/
theorem keeps_fresh {make : Nat → Value} (h : ∀ n, (make n).refs ⊆ .identity n :: rs) :
    Keeps rs Value.refs (modifyGet fun st => st.fresh.map make id) := by
  intro st hst hrs
  have hnew : st.fresh.2.Made (.identity st.nextId) := Nat.lt_succ_self _
  refine ⟨hst.fresh, Store.Holds.subset ?_ (h st.nextId)⟩
  exact List.forall_mem_cons.mpr ⟨hnew, hrs.leads hst.fresh⟩

theorem keeps_newArray {elems : List Value} (h : refsOfAll elems ⊆ rs) : Keeps rs Value.refs (newArray elems) :=
  keeps_fresh fun _ => List.cons_subset_cons _ h

theorem keeps_newHash {entries : Entries} (h : refsOfEntries entries ⊆ rs) :
    Keeps rs Value.refs (newHash entries) :=
  keeps_fresh fun _ => List.cons_subset_cons _ h

theorem keeps_newFunction {f : Closure} (h : .environment f.env ∈ rs) : Keeps rs Value.refs (newFunction f) :=
  keeps_fresh fun _ => List.cons_subset_cons _ (List.cons_subset.mpr ⟨h, List.nil_subset _⟩)

theorem keeps_key (v : Value) : Keeps rs (fun _ => []) (key v) := by
  unfold key
  split
  · exact keeps_pure (List.nil_subset _)
  · exact keeps_raise _

end Run

open Run

section
variable {rs : List Ref}

theorem keeps_unary (op : PrefixOp) (v : Value) : Keeps rs Value.refs (Eval.unary op v) := by
  unfold Eval.unary
  split
  · exact keeps_pure (List.nil_subset _)
  · exact keeps_pure (List.nil_subset _)
  · exact keeps_raise _

theorem keeps_integers (op : InfixOp) (l r : Int64) : Keeps rs Value.refs (Eval.integers op l r) := by
  cases op <;> simp only [Eval.integers]
  case divide =>
    split
    · exact keeps_raise _
    · exact keeps_pure (List.nil_subset _)
  all_goals exact keeps_pure (List.nil_subset _)

theorem keeps_binary (op : InfixOp) (l r : Value) : Keeps rs Value.refs (Eval.binary op l r) := by
  unfold Eval.binary
  split
  · exact keeps_integers _ _ _
  · exact keeps_pure (List.nil_subset _)
  · exact keeps_pure (List.nil_subset _)
  · exact keeps_pure (List.nil_subset _)
  · split <;> exact keeps_raise _

theorem keeps_index {base : Value} (subscript : Value) (h : base.refs ⊆ rs) :
    Keeps rs Value.refs (Eval.index base subscript) := by
  unfold Eval.index
  split
  · next id elems i =>
    have helems : refsOfAll elems ⊆ rs := fun _ hr => h (List.mem_cons_of_mem _ hr)
    refine keeps_pure ?_
    split
    · exact List.nil_subset _
    · exact List.Subset.trans (refs_getD_subset fun v hv => List.mem_of_getElem? hv) helems
  · next id entries =>
    have hentries : refsOfEntries entries ⊆ rs := fun _ hr => h (List.mem_cons_of_mem _ hr)
    refine (keeps_key subscript).bind fun k => keeps_pure ?_
    exact List.Subset.trans (refs_lookup_subset k entries) (List.subset_append_of_subset_right _ hentries)
  · exact keeps_raise _

theorem keeps_builtin (b : Builtin) {args : List Value} (h : refsOfAll args ⊆ rs) :
    Keeps rs Value.refs (b.apply args) := by
  have element {id : Nat} {elems : List Value} {v? : Option Value} (h : refsOfAll [.array id elems] ⊆ rs)
      (hv : ∀ v ∈ v?, v ∈ elems) : Keeps rs Value.refs (pure (v?.getD .null)) :=
    keeps_pure (List.Subset.trans (refs_getD_subset hv) fun _ hr =>
      h (List.mem_append_left _ (List.mem_cons_of_mem _ hr)))
  unfold Builtin.apply
  split
  · exact keeps_pure (List.nil_subset _)
  · exact keeps_pure (List.nil_subset _)
  · exact element h fun v hv => List.mem_of_mem_head? hv
  · exact element h fun v hv => List.mem_of_mem_getLast? hv
  · exact keeps_pure (List.nil_subset _)
  · refine keeps_newArray fun _ hr => h ?_
    exact List.mem_append_left _ (List.mem_cons_of_mem _ (List.mem_append_right _ hr))
  · refine keeps_newArray fun r hr => h ?_
    rw [refsOfAll_append] at hr
    exact List.mem_cons_of_mem _ hr
  · exact (keeps_print _).bind fun _ => keeps_pure (List.nil_subset _)
  all_goals exact keeps_raise _

end

namespace Eval

/-- Functions can be applied to what has been made: they are evaluated in new environments. -/
def AppliesSoundly (apply : Apply) : Prop := ∀ f args, Keeps (refsOfAll args) Value.refs (apply f args)

section
variable {apply : Apply} {env : Env}

mutual

theorem keeps_expr (happly : AppliesSoundly apply) :
    ∀ (e : Expr) {rs : List Ref}, .environment env ∈ rs → Keeps rs Value.refs (expr apply env e)
  | .name line x, rs, _ => by
    rw [expr]
    exact (keeps_lookup env x).atLine line
  | .literal l, rs, _ => by
    rw [expr]
    exact keeps_pure (by cases l <;> exact List.nil_subset _)
  | .unary line op e, rs, h => by
    rw [expr]
    exact ((keeps_expr happly e h).bind fun v => keeps_unary op v).atLine line
  | .binary line op l r, rs, h => by
    rw [expr]
    exact .atLine line ((keeps_expr happly l h).bind fun v =>
      (keeps_expr happly r (List.mem_append_right _ h)).bind fun w => keeps_binary op v w)
  | .conditional c consequence none, rs, h => by
    rw [expr]
    refine (keeps_expr happly c h).bind fun v => ?_
    split
    · exact keeps_stmts happly consequence .null (List.mem_append_right _ h) (List.nil_subset _)
    · exact keeps_pure (List.nil_subset _)
  | .conditional c consequence (some alternative), rs, h => by
    rw [expr]
    refine (keeps_expr happly c h).bind fun v => ?_
    split
    · exact keeps_stmts happly consequence .null (List.mem_append_right _ h) (List.nil_subset _)
    · exact keeps_stmts happly alternative .null (List.mem_append_right _ h) (List.nil_subset _)
  | .function params body, rs, h => by
    rw [expr]
    exact keeps_newFunction h
  | .call line callee args, rs, h => by
    rw [expr]
    refine .atLine line ((keeps_expr happly callee h).bind fun v => ?_)
    split
    · next f =>
      exact (keeps_exprs happly args (List.mem_append_right _ h)).bind fun vs =>
        (happly f vs).subset (List.subset_append_left ..)
    · next b =>
      exact (keeps_exprs happly args (List.mem_append_right _ h)).bind fun vs =>
        keeps_builtin b (List.subset_append_left ..)
    · exact keeps_raise _
  | .array elems, rs, h => by
    rw [expr]
    exact (keeps_exprs happly elems h).bind fun vs => keeps_newArray (List.subset_append_left ..)
  | .hash line ps, rs, h => by
    rw [expr]
    exact .atLine line ((keeps_pairs happly ps [] h (List.nil_subset _)).bind fun entries =>
      keeps_newHash (List.subset_append_left ..))
  | .index line base subscript, rs, h => by
    rw [expr]
    exact .atLine line ((keeps_expr happly base h).bind fun v =>
      (keeps_expr happly subscript (List.mem_append_right _ h)).bind fun w =>
        keeps_index w (List.subset_append_of_subset_right _ (List.subset_append_left ..)))

theorem keeps_exprs (happly : AppliesSoundly apply) :
    ∀ (es : List Expr) {rs : List Ref}, .environment env ∈ rs → Keeps rs refsOfAll (exprs apply env es)
  | [], rs, _ => by
    rw [exprs]
    exact keeps_pure (List.nil_subset _)
  | e :: es, rs, h => by
    rw [exprs]
    refine (keeps_expr happly e h).bind fun v =>
      (keeps_exprs happly es (List.mem_append_right _ h)).bind fun vs => keeps_pure ?_
    exact List.append_subset.mpr
      ⟨List.subset_append_of_subset_right _ (List.subset_append_left ..), List.subset_append_left ..⟩

theorem keeps_pairs (happly : AppliesSoundly apply) :
    ∀ (ps : List (Expr × Expr)) (entries : Entries) {rs : List Ref}, .environment env ∈ rs →
    refsOfEntries entries ⊆ rs → Keeps rs refsOfEntries (pairs apply env entries ps)
  | [], entries, rs, _, hentries => by
    rw [pairs]
    exact keeps_pure hentries
  | (k, v) :: ps, entries, rs, h, hentries => by
    rw [pairs]
    refine (keeps_expr happly k h).bind fun _ => (keeps_key _).bind fun k =>
      (keeps_expr happly v ?_).bind fun w => keeps_pairs happly ps (entries.put k w) ?_ ?_
    · simp [h]
    · simp [h]
    · refine List.Subset.trans (refs_put_subset k w entries) (List.append_subset.mpr ⟨?_, ?_⟩)
      · exact List.subset_append_left ..
      · exact fun r hr => by simp [hentries hr]

theorem keeps_stmt (happly : AppliesSoundly apply) :
    ∀ (s : Stmt) {rs : List Ref}, .environment env ∈ rs → Keeps rs Value.refs (stmt apply env s)
  | .binding x e, rs, h => by
    rw [stmt]
    exact (keeps_expr happly e h).bind fun v =>
      (keeps_bind env x (List.subset_append_left ..)).bind fun _ => keeps_pure (List.nil_subset _)
  | .returning none, rs, _ => by
    rw [stmt]
    exact keeps_return (List.nil_subset _)
  | .returning (some e), rs, h => by
    rw [stmt]
    exact (keeps_expr happly e h).bind fun v => keeps_return (List.subset_append_left ..)
  | .expression e, rs, h => by
    rw [stmt]
    exact keeps_expr happly e h

theorem keeps_stmts (happly : AppliesSoundly apply) :
    ∀ (ss : List Stmt) (last : Value) {rs : List Ref}, .environment env ∈ rs → last.refs ⊆ rs →
    Keeps rs Value.refs (stmts apply env last ss)
  | [], last, rs, _, hlast => by
    rw [stmts]
    exact keeps_pure hlast
  | s :: ss, last, rs, h, _ => by
    rw [stmts]
    exact (keeps_stmt happly s h).bind fun v =>
      keeps_stmts happly ss v (List.mem_append_right _ h) (List.subset_append_left ..)

end

end

/-- By induction on the calls to go. Nothing is asked of the environment that the function was defined in: the
body is evaluated in one that is made for it. -/
theorem appliesSoundly_apply : ∀ left, AppliesSoundly (apply left)
  | 0, f, args => by
    rw [apply]
    split <;> exact keeps_raise _
  | left + 1, f, args => by
    rw [apply]
    split
    · refine Keeps.bind (keeps_enter _ fun b hb r hr => ?_) fun env => Keeps.catchReturn ?_
      · exact mem_refsOfAll.mpr ⟨b.2, (List.of_mem_zip (List.mem_reverse.mp hb)).2, hr⟩
      · exact keeps_stmts (appliesSoundly_apply left) f.body .null (by simp) (List.nil_subset _)
    · exact keeps_raise _

end Eval
end Monkey
