import Mathlib
import Monkey.Interpreter
import Monkey.Proofs.Equality
import Monkey.Proofs.Growth

/-! Hash literals. Their pairs are evaluated from left to right, each key before its value, up to the first that goes
wrong; if none does, the hash gives for each key the value of the last pair with that key. -/
namespace Monkey

/-- Integers, booleans and strings may stand before the colon. -/
def Value.IsKey (v : Value) : Prop := v.type = .integer ∨ v.type = .boolean ∨ v.type = .string

theorem Value.isKey_iff {v : Value} : v.IsKey ↔ ∃ k, v.key? = some k := by
  cases v <;> simp [IsKey, type, key?]

theorem Value.not_isKey_iff {v : Value} : ¬ v.IsKey ↔ v.key? = none := by
  cases v <;> simp [IsKey, type, key?]

/-- The value of the last pair whose key equals `k`, or null if there is none. -/
def lastValue (kvs : List (Value × Value)) (k : Value) : Value :=
  ((kvs.reverse.find? fun kv => kv.1.identical k).map Prod.snd).getD .null

def Exit.atLine (line : Nat) : Exit → Exit
  | .error e => .error (e.atLine line)
  | .returned v => .returned v

/-- Puts pairs one after the other. -/
def Entries.putAll (entries : Entries) (kvs : List (Value × Value)) : Entries :=
  kvs.foldl (fun es kv => kv.1.key?.elim es fun k => es.put k kv.2) entries

theorem Entries.lookup_cons (k k' : Key) (v : Value) (es : Entries) :
    List.lookup k' ((k, v) :: es) = if k' = k then some v else List.lookup k' es := by
  by_cases h : k' = k
  · simp [h]
  · simp [List.lookup_cons, if_neg h, beq_eq_false_iff_ne.mpr h]

theorem Entries.lookup_put (k k' : Key) (v : Value) (es : Entries) :
    (es.put k v).lookup k' = if k' = k then some v else es.lookup k' := by
  induction es with
  | nil => exact lookup_cons k k' v []
  | cons e es ih =>
    obtain ⟨k₁, v₁⟩ := e
    rw [put]
    by_cases h₁ : k₁ = k
    · subst h₁
      simp only [if_true, lookup_cons]
      split_ifs <;> rfl
    · rw [if_neg h₁, lookup_cons, lookup_cons, ih]
      split_ifs with h h'
      · exact absurd (h.symm.trans h') h₁
      all_goals rfl

theorem Entries.lookup_putAll (es : Entries) (kvs : List (Value × Value)) (k : Key) :
    (es.putAll kvs).lookup k =
      ((kvs.reverse.find? fun kv => kv.1.key? = some k).map Prod.snd).or (es.lookup k) := by
  induction kvs generalizing es with
  | nil => simp [putAll]
  | cons kv kvs ih =>
    rw [putAll, List.foldl_cons, ← putAll, ih, List.reverse_cons, List.find?_append]
    cases kvs.reverse.find? fun kv => kv.1.key? = some k with
    | some _ => rfl
    | none =>
      cases hkey : kv.1.key? with
      | none => simp [hkey]
      | some j => by_cases hj : k = j <;> simp [hkey, lookup_put, hj, eq_comm]

namespace Run

theorem key_of_some {v : Value} {k : Key} {st : Store} (h : v.key? = some k) : key v st = .ok k st := by
  simp only [key, h]
  rfl

theorem key_of_none {v : Value} {st : Store} (h : v.key? = none) :
    key v st = .error (.error ⟨.unhashable v.type, none⟩) st := by
  simp only [key, h]
  rfl

theorem atLine_of_ok {α : Type} {x : Run α} {st st' : Store} {a : α} (line : Nat) (h : x st = .ok a st') :
    atLine line x st = .ok a st' := by
  unfold atLine
  rw [h]

theorem atLine_of_error {α : Type} {x : Run α} {st st' : Store} {e : Exit} (line : Nat) (h : x st = .error e st') :
    atLine line x st = .error (e.atLine line) st' := by
  unfold atLine
  rw [h]
  cases e <;> rfl

end Run

namespace Eval
open Run

variable {apply : Apply} {env : Env}

/-- From one store to another, the pairs are evaluated one after the other, each key before its value, to these keys
and values. All keys can be keys of a hash. -/
inductive PairsCome (apply : Apply) (env : Env) :
    List (Expr × Expr) → Store → List (Value × Value) → Store → Prop where
  | nil {st : Store} : PairsCome apply env [] st [] st
  | cons {k v : Expr} {ps : List (Expr × Expr)} {kv vv : Value} {kvs : List (Value × Value)} {st st₁ st₂ st₃ : Store}
      (hk : expr apply env k st = .ok kv st₁) (hkey : kv.IsKey) (hv : expr apply env v st₁ = .ok vv st₂)
      (hps : PairsCome apply env ps st₂ kvs st₃) :
      PairsCome apply env ((k, v) :: ps) st ((kv, vv) :: kvs) st₃

/-- How a pair goes wrong, and the store that is left then. -/
inductive PairFails (apply : Apply) (env : Env) (k v : Expr) (st : Store) : Exit → Store → Prop where
  | key {e : Exit} {st₁ : Store} (hk : expr apply env k st = .error e st₁) : PairFails apply env k v st e st₁
  | unhashable {kv : Value} {st₁ : Store} (hk : expr apply env k st = .ok kv st₁) (hkey : ¬ kv.IsKey) :
      PairFails apply env k v st (.error ⟨.unhashable kv.type, none⟩) st₁
  | value {kv : Value} {e : Exit} {st₁ st₂ : Store} (hk : expr apply env k st = .ok kv st₁) (hkey : kv.IsKey)
      (hv : expr apply env v st₁ = .error e st₂) : PairFails apply env k v st e st₂

/-- One pair goes wrong after all those before it have come to keys and values. -/
def PairsFail (apply : Apply) (env : Env) (ps : List (Expr × Expr)) (st : Store) (e : Exit) (st' : Store) : Prop :=
  ∃ before k v after kvs st₁, ps = before ++ (k, v) :: after ∧ PairsCome apply env before st kvs st₁ ∧
    PairFails apply env k v st₁ e st'

variable {ps before after : List (Expr × Expr)} {k v : Expr} {kvs : List (Value × Value)} {e : Exit}
  {st st₁ st₂ : Store}

theorem pairs_cons (entries : Entries) (k v : Expr) (ps : List (Expr × Expr)) :
    pairs apply env entries ((k, v) :: ps) = (do
      let kv ← expr apply env k
      let key ← key kv
      let vv ← expr apply env v
      pairs apply env (entries.put key vv) ps) := rfl

theorem pairs_of_come (h : PairsCome apply env before st kvs st₁) (entries : Entries)
    (after : List (Expr × Expr)) :
    pairs apply env entries (before ++ after) st = pairs apply env (entries.putAll kvs) after st₁ := by
  induction h generalizing entries with
  | nil => rfl
  | @cons k v ps kv vv kvs st st₁ st₂ st₃ hk hkey hv _ ih =>
    obtain ⟨key, hkey⟩ := Value.isKey_iff.mp hkey
    rw [List.cons_append, pairs_cons, bind_eq_of_ok hk, bind_eq_of_ok (key_of_some hkey), bind_eq_of_ok hv, ih]
    simp only [Entries.putAll, List.foldl_cons, hkey, Option.elim_some]

theorem pairs_of_fails (h : PairFails apply env k v st e st₁) (entries : Entries) :
    pairs apply env entries ((k, v) :: after) st = .error e st₁ := by
  rw [pairs_cons]
  cases h with
  | key hk => exact bind_eq_of_error hk
  | unhashable hk hkey =>
    rw [bind_eq_of_ok hk]
    exact bind_eq_of_error (key_of_none (Value.not_isKey_iff.mp hkey))
  | value hk hkey hv =>
    obtain ⟨key, hkey⟩ := Value.isKey_iff.mp hkey
    rw [bind_eq_of_ok hk, bind_eq_of_ok (key_of_some hkey)]
    exact bind_eq_of_error hv

/-- The pairs all come to keys and values, or else there is a first that goes wrong. -/
theorem come_or_fails (apply : Apply) (env : Env) (ps : List (Expr × Expr)) (st : Store) :
    (∃ kvs st₁, PairsCome apply env ps st kvs st₁) ∨ ∃ e st₁, PairsFail apply env ps st e st₁ := by
  induction ps generalizing st with
  | nil => exact .inl ⟨[], st, .nil⟩
  | cons p ps ih =>
    obtain ⟨k, v⟩ := p
    have first {e : Exit} {st₁ : Store} (h : PairFails apply env k v st e st₁) :
        ∃ e st₁, PairsFail apply env ((k, v) :: ps) st e st₁ :=
      ⟨e, st₁, [], k, v, ps, [], st, rfl, .nil, h⟩
    cases hk : expr apply env k st with
    | error e st₁ => exact .inr (first (.key hk))
    | ok kv st₁ =>
      by_cases hkey : kv.IsKey
      · cases hv : expr apply env v st₁ with
        | error e st₂ => exact .inr (first (.value hk hkey hv))
        | ok vv st₂ =>
          rcases ih st₂ with ⟨kvs, st₃, h⟩ | ⟨e, st₃, before, k', v', after, kvs, st₄, rfl, hbefore, hfails⟩
          · exact .inl ⟨(kv, vv) :: kvs, st₃, .cons hk hkey hv h⟩
          · exact .inr ⟨e, st₃, (k, v) :: before, k', v', after, (kv, vv) :: kvs, st₄, rfl,
              .cons hk hkey hv hbefore, hfails⟩
      · exact .inr (first (.unhashable hk hkey))

theorem expr_literal (l : Literal) (st : Store) : expr apply env (.literal l) st = .ok (literal l) st := rfl

theorem expr_array_nil (st : Store) : expr apply env (.array []) st = .ok (.array st.nextId []) st.fresh.2 := rfl

theorem index_putAll (id : Nat) (kvs : List (Value × Value)) {w : Value} (hw : w.IsKey) (st : Store) :
    index (.hash id (Entries.putAll [] kvs)) w st = .ok (lastValue kvs w) st := by
  obtain ⟨key, hkey⟩ := Value.isKey_iff.mp hw
  have hidentical (v : Value) : v.identical w = decide (v.key? = some key) :=
    Bool.eq_iff_iff.mpr ((Value.identical_iff_key? hkey).trans decide_eq_true_iff.symm)
  simp only [index, bind_eq_of_ok (key_of_some hkey), Entries.lookup_putAll, lastValue, hidentical,
    List.lookup_nil, Option.or_none]
  rfl

/-- A hash literal evaluates its pairs in their order, up to the first that goes wrong, and then goes wrong in the
same way. If none does, it makes a hash that has for each key the value of the last pair with an equal key, null for
other keys, and an error for what cannot be a key. -/
theorem hash_literal_keeps_last_values (apply : Apply) (env : Env) (line : Nat) (ps : List (Expr × Expr))
    (st : Store) :
    (∀ kvs st₁, PairsCome apply env ps st kvs st₁ →
      ∃ h, expr apply env (.hash line ps) st = .ok h st₁.fresh.2 ∧ ∀ w st₂,
        (w.IsKey → index h w st₂ = .ok (lastValue kvs w) st₂) ∧
        (¬ w.IsKey → index h w st₂ = .error (.error ⟨.unhashable w.type, none⟩) st₂)) ∧
    (∀ e st₁, PairsFail apply env ps st e st₁ →
      expr apply env (.hash line ps) st = .error (e.atLine line) st₁) ∧
    ((∃ kvs st₁, PairsCome apply env ps st kvs st₁) ∨ ∃ e st₁, PairsFail apply env ps st e st₁) := by
  refine ⟨fun kvs st₁ hcome => ?_, ?_, come_or_fails apply env ps st⟩
  · refine ⟨.hash st₁.nextId (Entries.putAll [] kvs), ?_, fun w st₂ => ⟨fun hw => ?_, fun hw => ?_⟩⟩
    · have hpairs : pairs apply env [] ps st = .ok (Entries.putAll [] kvs) st₁ := by
        rw [← List.append_nil ps]
        exact pairs_of_come hcome [] []
      exact atLine_of_ok line (bind_eq_of_ok hpairs)
    · exact index_putAll _ kvs hw st₂
    · exact bind_eq_of_error (key_of_none (Value.not_isKey_iff.mp hw))
  · rintro e st₁ ⟨before, k, v, after, kvs, st₂, rfl, hcome, hfails⟩
    have hpairs := (pairs_of_come hcome [] ((k, v) :: after)).trans (pairs_of_fails hfails _)
    exact atLine_of_error line (bind_eq_of_error hpairs)

/-- Keys of different kinds are different, however they are printed, and of two equal ones the later counts. What
stands behind a key that cannot be one is not looked up. -/
theorem integer_boolean_and_string_keys :
    let st := Store.start.2
    let text (s : String) : Expr := .literal (.string s)
    let ps : List (Expr × Expr) := [(.literal (.integer 1), text "a"), (.literal (.boolean true), text "b"),
      (text "1", text "c"), (.literal (.integer 1), text "d")]
    (∃ h, expr (Eval.apply maxCallDepth) 0 (.hash 1 ps) st = .ok h st.fresh.2 ∧
      index h (.integer 1) st = .ok (.string "d") st ∧ index h (.boolean true) st = .ok (.string "b") st ∧
      index h (.string "true") st = .ok .null st ∧
      index h .null st = .error (.error ⟨.unhashable .null, none⟩) st) ∧
    expr (Eval.apply maxCallDepth) 0 (.hash 1 (ps ++ [(.array [], .name 1 "x")])) st =
      .error (.error ⟨.unhashable .array, some 1⟩) st.fresh.2 := by
  intro st text ps
  have hcome : PairsCome (Eval.apply maxCallDepth) 0 ps st [(.integer 1, .string "a"), (.boolean true, .string "b"),
      (.string "1", .string "c"), (.integer 1, .string "d")] st :=
    .cons (expr_literal _ st) (.inl rfl) (expr_literal _ st)
      (.cons (expr_literal _ st) (.inr (.inl rfl)) (expr_literal _ st)
        (.cons (expr_literal _ st) (.inr (.inr rfl)) (expr_literal _ st)
          (.cons (expr_literal _ st) (.inl rfl) (expr_literal _ st) .nil)))
  have hfails : PairFails (Eval.apply maxCallDepth) 0 (.array []) (.name 1 "x") st
      (.error ⟨.unhashable .array, none⟩) st.fresh.2 :=
    .unhashable (expr_array_nil st) (by simp [Value.IsKey, Value.type])
  constructor
  · obtain ⟨h, hh, hindex⟩ := (hash_literal_keeps_last_values (Eval.apply maxCallDepth) 0 1 ps st).1 _ _ hcome
    refine ⟨h, hh, ?_, ?_, ?_, ?_⟩
    · exact (hindex (.integer 1) st).1 (.inl rfl)
    · exact (hindex (.boolean true) st).1 (.inr (.inl rfl))
    · exact (hindex (.string "true") st).1 (.inr (.inr rfl))
    · exact (hindex .null st).2 (by simp [Value.IsKey, Value.type])
  · exact (hash_literal_keeps_last_values (Eval.apply maxCallDepth) 0 1 _ st).2.1 _ _
      ⟨ps, .array [], .name 1 "x", [], _, st, rfl, hcome, hfails⟩

end Eval
end Monkey
