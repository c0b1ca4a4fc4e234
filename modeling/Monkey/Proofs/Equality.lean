import Mathlib
import Monkey.Evaluation

/-! The two equalities of values, by identity and by content, and what the operators `==` and `!=` make of them. -/
namespace Monkey

/-- What the language compares of a value: its content if it has no identity, and its identity if it has one. -/
inductive Mark where
  | integer (n : Int64)
  | boolean (b : Bool)
  | string (s : String)
  | array (id : Nat)
  | hash (id : Nat)
  | function (id : Nat)
  | builtin (b : Builtin)
  | null

def Key.mark : Key → Mark
  | integer n => .integer n
  | boolean b => .boolean b
  | string s => .string s

namespace Value

/-- The values right inside of a value. -/
def children : Value → List Value
  | array _ elems => elems
  | hash _ entries => entries.map Prod.snd
  | _ => []

/-- The keys of a hash. -/
def keys : Value → List Key
  | hash _ entries => entries.map Prod.fst
  | _ => []

/-- The value itself, or one inside of it at any depth. -/
abbrev Contains (v part : Value) : Prop := Relation.ReflTransGen (fun v w => w ∈ v.children) v part

/-- No key occurs twice in a hash, at any depth. -/
def WellKeyed (v : Value) : Prop := ∀ part, v.Contains part → part.keys.Nodup

variable {u v w : Value}

theorem sizeOf_lt_of_mem_children (h : w ∈ v.children) : sizeOf w < sizeOf v := by
  cases v with
  | array id elems =>
    have hlt : sizeOf w < sizeOf elems := List.sizeOf_lt_of_mem h
    rw [array.sizeOf_spec]
    omega
  | hash id entries =>
    obtain ⟨⟨k, w'⟩, he, rfl⟩ := List.mem_map.mp h
    have hlt : sizeOf (k, w') < sizeOf entries := List.sizeOf_lt_of_mem he
    rw [Prod.mk.sizeOf_spec] at hlt
    rw [hash.sizeOf_spec]
    show sizeOf w' < _
    omega
  | _ => cases h

/-- What holds of a value whenever it holds of those right inside of it holds of all values. -/
theorem child_induction {P : Value → Prop} (step : ∀ v, (∀ w ∈ v.children, P w) → P v) (v : Value) : P v :=
  step v fun w _ => child_induction step w
termination_by v
decreasing_by exact sizeOf_lt_of_mem_children ‹_›

theorem WellKeyed.child (h : v.WellKeyed) (hw : w ∈ v.children) : w.WellKeyed :=
  fun part hpart => h part (.head hw hpart)

theorem WellKeyed.nodup (h : v.WellKeyed) : v.keys.Nodup := h v .refl

def mark : Value → Mark
  | integer n => .integer n
  | boolean b => .boolean b
  | string s => .string s
  | array id _ => .array id
  | hash id _ => .hash id
  | function id _ => .function id
  | builtin b => .builtin b
  | null => .null

theorem mark_eq_of_identical (h : v.identical w = true) : v.mark = w.mark := by
  cases v <;> cases w <;> first | cases h <;> rfl | (cases of_decide_eq_true h; rfl)

theorem identical_of_mark_eq (h : v.mark = w.mark) : v.identical w = true := by
  cases v <;> cases w <;> cases h <;> first | rfl | exact decide_eq_true rfl

theorem identical_iff : v.identical w = true ↔ v.mark = w.mark :=
  ⟨mark_eq_of_identical, identical_of_mark_eq⟩

theorem key?_eq_some_iff {k : Key} : v.key? = some k ↔ v.mark = k.mark := by
  refine ⟨fun h => ?_, fun h => ?_⟩ <;> cases v <;> cases k <;> cases h <;> rfl

/-- Of values that can be keys, those with one key are identical. -/
theorem identical_iff_key? {k : Key} (hw : w.key? = some k) : v.identical w = true ↔ v.key? = some k := by
  rw [key?_eq_some_iff] at hw
  rw [identical_iff, key?_eq_some_iff, hw]

/-! Equality by content. -/

theorem alikeAll_cons {vs ws : List Value} : alikeAll (v :: vs) (w :: ws) = (v.alike w && alikeAll vs ws) := rfl

theorem alikeAll_iff {vs ws : List Value} :
    alikeAll vs ws = true ↔ List.Forall₂ (fun v w => v.alike w = true) vs ws := by
  induction vs generalizing ws with
  | nil =>
    cases ws with
    | nil => exact ⟨fun _ => .nil, fun _ => rfl⟩
    | cons w ws => exact ⟨nofun, nofun⟩
  | cons v vs ih =>
    cases ws with
    | nil => exact ⟨nofun, nofun⟩
    | cons w ws => rw [alikeAll_cons, Bool.and_eq_true, ih, List.forall₂_cons]

theorem alikeEntries_cons {e : Key × Value} {es fs : Entries} :
    alikeEntries (e :: es) fs = ((match fs.lookup e.1 with
      | some w => e.2.alike w
      | none => false) && alikeEntries es fs) := rfl

theorem alikeEntries_iff {es fs : List (Key × Value)} :
    alikeEntries es fs = true ↔ ∀ e ∈ es, ∃ w, fs.lookup e.1 = some w ∧ e.2.alike w = true := by
  induction es with
  | nil => exact ⟨fun _ => nofun, fun _ => rfl⟩
  | cons e es ih =>
    rw [alikeEntries_cons, Bool.and_eq_true, ih, List.forall_mem_cons]
    refine and_congr_left fun _ => ?_
    cases fs.lookup e.1 with
    | none => exact ⟨nofun, fun ⟨_, h, _⟩ => nomatch h⟩
    | some w => exact ⟨fun h => ⟨w, rfl, h⟩, fun ⟨_, hw, h⟩ => Option.some.inj hw ▸ h⟩

theorem array_of_alike {id : Nat} {es : List Value} (h : (array id es).alike w = true) :
    ∃ j fs, w = array j fs ∧ List.Forall₂ (fun v w => v.alike w = true) es fs := by
  cases w with
  | array j fs => exact ⟨j, fs, rfl, alikeAll_iff.mp h⟩
  | _ => cases h

theorem alike_array {id j : Nat} {es fs : List Value} (h : List.Forall₂ (fun v w => v.alike w = true) es fs) :
    (array id es).alike (array j fs) = true := alikeAll_iff.mpr h

theorem hash_of_alike {id : Nat} {es : Entries} (h : (hash id es).alike w = true) :
    ∃ j fs, w = hash j fs ∧ es.length = fs.length ∧
      ∀ e ∈ es, ∃ w, fs.lookup e.1 = some w ∧ e.2.alike w = true := by
  cases w with
  | hash j fs =>
    obtain ⟨hlength, hentries⟩ := Bool.and_eq_true_iff.mp h
    exact ⟨j, fs, rfl, of_decide_eq_true hlength, alikeEntries_iff.mp hentries⟩
  | _ => cases h

theorem alike_hash {id j : Nat} {es fs : Entries} (hlength : es.length = fs.length)
    (h : ∀ e ∈ es, ∃ w, fs.lookup e.1 = some w ∧ e.2.alike w = true) : (hash id es).alike (hash j fs) = true :=
  Bool.and_eq_true_iff.mpr ⟨decide_eq_true hlength, alikeEntries_iff.mpr h⟩

/-- Neither an array nor a hash. -/
def Flat (v : Value) : Prop := v.type ≠ .array ∧ v.type ≠ .hash

theorem Flat.alike_eq (h : v.Flat) : v.alike w = v.identical w := by
  cases v with
  | array id es => exact absurd rfl h.1
  | hash id es => exact absurd rfl h.2
  | _ => cases w <;> rfl

/-- Values that are not made of others are alike only if they are identical. -/
theorem Flat.alike_iff (h : v.Flat) : v.alike w = true ↔ v.mark = w.mark := by
  rw [h.alike_eq, identical_iff]

theorem shape (v : Value) : (∃ id es, v = array id es) ∨ (∃ id es, v = hash id es) ∨ v.Flat := by
  cases v with
  | array id es => exact .inl ⟨id, es, rfl⟩
  | hash id es => exact .inr (.inl ⟨id, es, rfl⟩)
  | _ => exact .inr (.inr ⟨nofun, nofun⟩)

/-- What the language goes by beside the identity is the same for all values with one mark. -/
theorem like_of_mark_eq (h : v.mark = w.mark) : v.type = w.type ∧ v.truthy = w.truthy ∧ v.key? = w.key? := by
  cases v <;> cases w <;> cases h <;> exact ⟨rfl, rfl, rfl⟩

theorem like_of_alike (h : v.alike w = true) : v.type = w.type ∧ v.truthy = w.truthy ∧ v.key? = w.key? := by
  rcases v.shape with ⟨id, es, rfl⟩ | ⟨id, es, rfl⟩ | hv
  · obtain ⟨j, fs, rfl, -⟩ := array_of_alike h
    exact ⟨rfl, rfl, rfl⟩
  · obtain ⟨j, fs, rfl, -⟩ := hash_of_alike h
    exact ⟨rfl, rfl, rfl⟩
  · exact like_of_mark_eq (hv.alike_iff.mp h)

theorem Flat.of_alike (hv : v.Flat) (h : v.alike w = true) : w.Flat := by
  unfold Flat
  rw [← (like_of_alike h).1]
  exact hv

theorem lookup_of_mem {es : Entries} {e : Key × Value} (hes : (es.map Prod.fst).Nodup) (he : e ∈ es) :
    es.lookup e.1 = some e.2 := by
  obtain ⟨before, after, rfl⟩ := List.append_of_mem he
  rw [List.map_append, List.map_cons] at hes
  refine List.lookup_eq_some_iff.mpr ⟨before, after, rfl, fun b hb => ?_⟩
  have hne : e.1 ≠ b.1 := (List.nodup_append.mp hes).2.2 b.1 (List.mem_map_of_mem hb) e.1 List.mem_cons_self |>.symm
  simpa using hne

theorem snd_mem_children {id : Nat} {es : Entries} {e : Key × Value} (h : e ∈ es) : e.2 ∈ (hash id es).children :=
  List.mem_map_of_mem h

theorem alike_refl {v : Value} (h : v.WellKeyed) : v.alike v = true := by
  induction v using child_induction with
  | step v ih =>
    rcases v.shape with ⟨id, es, rfl⟩ | ⟨id, es, rfl⟩ | hv
    · exact alike_array (List.forall₂_same.mpr fun v hv => ih v hv (h.child hv))
    · refine alike_hash rfl fun e he => ⟨e.2, lookup_of_mem h.nodup he, ?_⟩
      exact ih e.2 (snd_mem_children he) (h.child (snd_mem_children he))
    · exact hv.alike_iff.mpr rfl

/-- Where the keys of one hash are all keys of another of the same size, they have the same keys. -/
theorem keys_subset {es fs : Entries} (hes : (es.map Prod.fst).Nodup) (hlength : es.length = fs.length)
    (h : ∀ e ∈ es, ∃ w, fs.lookup e.1 = some w) : fs.map Prod.fst ⊆ es.map Prod.fst := by
  have hsubset : es.map Prod.fst ⊆ fs.map Prod.fst := by
    intro k hk
    obtain ⟨e, he, rfl⟩ := List.mem_map.mp hk
    obtain ⟨w, hw⟩ := h e he
    exact List.mem_map.mpr ⟨_, mem_of_lookup hw, rfl⟩
  have hperm := (List.subperm_of_subset hes hsubset).perm_of_length_le (by simp [hlength])
  exact hperm.symm.subset

theorem forall₂_symm {R S : Value → Value → Prop} {es fs : List Value} (h : List.Forall₂ R es fs)
    (hsymm : ∀ e ∈ es, ∀ f ∈ fs, R e f → S f e) : List.Forall₂ S fs es := by
  induction h with
  | nil => exact .nil
  | cons hef _ ih =>
    refine .cons (hsymm _ List.mem_cons_self _ List.mem_cons_self hef) (ih fun e he f hf => ?_)
    exact hsymm e (List.mem_cons_of_mem _ he) f (List.mem_cons_of_mem _ hf)

theorem forall₂_trans {R : Value → Value → Prop} {es fs gs : List Value} (h : List.Forall₂ R es fs)
    (h' : List.Forall₂ R fs gs) (htrans : ∀ e ∈ es, ∀ f g, R e f → R f g → R e g) : List.Forall₂ R es gs := by
  induction h generalizing gs with
  | nil => exact h'
  | cons hef _ ih =>
    cases h' with
    | cons hfg hfs =>
      refine .cons (htrans _ List.mem_cons_self _ _ hef hfg) (ih hfs fun e he => ?_)
      exact htrans e (List.mem_cons_of_mem _ he)

theorem alike_symm {v w : Value} (hv : v.WellKeyed) (hw : w.WellKeyed) (h : v.alike w = true) :
    w.alike v = true := by
  induction v using child_induction generalizing w with
  | step v ih =>
    rcases v.shape with ⟨id, es, rfl⟩ | ⟨id, es, rfl⟩ | hflat
    · obtain ⟨j, fs, rfl, hes⟩ := array_of_alike h
      refine alike_array (forall₂_symm hes fun e he f hf => ?_)
      exact ih e he (hv.child he) (hw.child hf)
    · obtain ⟨j, fs, rfl, hlength, hes⟩ := hash_of_alike h
      refine alike_hash hlength.symm fun f hf => ?_
      have hkeys := keys_subset hv.nodup hlength fun e he => (hes e he).imp fun _ h => h.1
      obtain ⟨e, he, hkey⟩ := List.mem_map.mp (hkeys (List.mem_map_of_mem hf))
      obtain ⟨w, hlookup, hw'⟩ := hes e he
      obtain rfl : f.2 = w := Option.some.inj ((lookup_of_mem hw.nodup hf).symm.trans (hkey ▸ hlookup))
      refine ⟨e.2, hkey ▸ lookup_of_mem hv.nodup he, ?_⟩
      exact ih e.2 (snd_mem_children he) (hv.child (snd_mem_children he)) (hw.child (snd_mem_children hf)) hw'
    · exact (hflat.of_alike h).alike_iff.mpr (hflat.alike_iff.mp h).symm

theorem alike_trans {u v w : Value} (h : u.alike v = true) (h' : v.alike w = true) : u.alike w = true := by
  induction u using child_induction generalizing v w with
  | step u ih =>
    rcases u.shape with ⟨id, es, rfl⟩ | ⟨id, es, rfl⟩ | hflat
    · obtain ⟨j, fs, rfl, hes⟩ := array_of_alike h
      obtain ⟨l, gs, rfl, hfs⟩ := array_of_alike h'
      exact alike_array (forall₂_trans hes hfs fun e he f g => ih e he)
    · obtain ⟨j, fs, rfl, hlength, hes⟩ := hash_of_alike h
      obtain ⟨l, gs, rfl, hlength', hfs⟩ := hash_of_alike h'
      refine alike_hash (hlength.trans hlength') fun e he => ?_
      obtain ⟨v, hv, hev⟩ := hes e he
      obtain ⟨w, hw, hvw⟩ := hfs _ (mem_of_lookup hv)
      exact ⟨w, hw, ih e.2 (snd_mem_children he) hev hvw⟩
    · have hv := hflat.of_alike h
      exact hflat.alike_iff.mpr ((hflat.alike_iff.mp h).trans (hv.alike_iff.mp h'))

end Value

/-! The operators. -/

namespace Run

variable {α β : Type}

/-- The errors of `x` say which line they come from. -/
def Located (x : Run α) : Prop := ∀ st e st', x st = .error (.error e) st' → ∃ line, e.line = some line

theorem located_pure (a : α) : Located (pure a : Run α) := fun _ _ _ h => nomatch h

theorem located_atLine (line : Nat) (x : Run α) : Located (atLine line x) := by
  intro st e st' h
  unfold atLine at h
  split at h
  · cases h
    exact ⟨_, Option.or_some⟩
  · next hx => exact absurd h (hx e st')

theorem Located.bind {x : Run α} {f : α → Run β} (hx : Located x) (hf : ∀ a, Located (f a)) : Located (x >>= f) := by
  intro st e st' h
  simp only [Bind.bind, EStateM.bind] at h
  split at h
  · next a st₁ _ => exact hf a st₁ e st' h
  · next hrun =>
    cases h
    exact hx st e st' hrun

/-- Errors keep the line that they have. -/
theorem Located.atLine_eq {x : Run α} (hx : Located x) (line : Nat) : atLine line x = x := by
  funext st
  unfold atLine
  cases h : x st with
  | ok a st' => rfl
  | error e st' =>
    cases e with
    | returned v => rfl
    | error e =>
      obtain ⟨fault, line?⟩ := e
      obtain ⟨line', rfl⟩ := hx st _ st' h
      rfl

end Run

namespace Eval
open Run

variable {apply : Apply} {env : Env}

mutual

/-- What can go wrong in an expression, outside of the calls that it makes, is a node that records its line. -/
theorem located_expr : ∀ e : Expr, Located (expr apply env e)
  | .name line x => located_atLine line _
  | .literal l => by
    rw [expr]
    exact located_pure _
  | .unary line op e => by
    rw [expr]
    exact located_atLine line _
  | .binary line op l r => by
    rw [expr]
    exact located_atLine line _
  | .conditional c consequence none => by
    rw [expr]
    refine .bind (located_expr c) fun v => ?_
    split
    · exact located_stmts consequence .null
    · exact located_pure _
  | .conditional c consequence (some alternative) => by
    rw [expr]
    refine .bind (located_expr c) fun v => ?_
    split
    · exact located_stmts consequence .null
    · exact located_stmts alternative .null
  | .function params body => by
    rw [expr]
    exact fun _ _ _ h => nomatch h
  | .call line callee args => by
    rw [expr]
    exact located_atLine line _
  | .array elems => by
    rw [expr]
    exact .bind (located_exprs elems) fun vs => fun _ _ _ h => nomatch h
  | .hash line ps => by
    rw [expr]
    exact located_atLine line _
  | .index line base subscript => by
    rw [expr]
    exact located_atLine line _

theorem located_exprs : ∀ es : List Expr, Located (exprs apply env es)
  | [] => by
    rw [exprs]
    exact located_pure _
  | e :: es => by
    rw [exprs]
    exact .bind (located_expr e) fun v => .bind (located_exprs es) fun vs => located_pure _

theorem located_stmt : ∀ s : Stmt, Located (stmt apply env s)
  | .binding x e => by
    rw [stmt]
    exact .bind (located_expr e) fun v => .bind (fun _ _ _ h => nomatch h) fun _ => located_pure _
  | .returning none => by
    rw [stmt]
    exact fun _ _ _ h => nomatch h
  | .returning (some e) => by
    rw [stmt]
    exact .bind (located_expr e) fun v => fun _ _ _ h => nomatch h
  | .expression e => by
    rw [stmt]
    exact located_expr e

theorem located_stmts : ∀ (ss : List Stmt) (last : Value), Located (stmts apply env last ss)
  | [], last => by
    rw [stmts]
    exact located_pure _
  | s :: ss, last => by
    rw [stmts]
    exact .bind (located_stmt s) fun v => located_stmts ss v

end

theorem binary_equal (v w : Value) : binary .equal v w = pure (.boolean (v.identical w)) := by
  cases v <;> cases w <;> rfl

theorem binary_notEqual (v w : Value) : binary .notEqual v w = pure (.boolean !(v.identical w)) := by
  cases v <;> cases w <;> first | rfl | exact congrArg (pure ∘ Value.boolean) decide_not

/-- An operator that does not fail itself needs no line. -/
theorem located_operands (l r : Expr) (f : Value → Value → Value) :
    Located (do
      let v ← expr apply env l
      let w ← expr apply env r
      pure (f v w)) :=
  .bind (located_expr l) fun v => .bind (located_expr r) fun w => located_pure (f v w)

/-- The operator `==` compares by identity, whatever the values of its operands, and does not fail itself. -/
theorem expr_equal (line : Nat) (l r : Expr) :
    expr apply env (.binary line .equal l r) = (do
      let v ← expr apply env l
      let w ← expr apply env r
      pure (.boolean (v.identical w))) := by
  rw [expr]
  simp only [binary_equal]
  exact (located_operands l r fun v w => .boolean (v.identical w)).atLine_eq line

/-- The operator `!=` is `==` and `!`, wherever they stand. -/
theorem expr_notEqual (line line' line'' : Nat) (l r : Expr) :
    expr apply env (.binary line .notEqual l r) =
      expr apply env (.unary line' .not (.binary line'' .equal l r)) := by
  rw [expr, expr, expr_equal]
  simp only [binary_notEqual, unary, bind_assoc, pure_bind, Value.truthy]
  have hlocated := @located_operands apply env l r fun v w => .boolean !(v.identical w)
  rw [hlocated.atLine_eq line, hlocated.atLine_eq line']

end Eval
end Monkey
