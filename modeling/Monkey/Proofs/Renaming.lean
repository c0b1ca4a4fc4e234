import Monkey.Proofs.Parallel

/-! New numbers for identities and environments. In two runs that go alike, what is made has the numbers that come
next, so the values of one are those of the other with its numbers moved. -/
namespace Monkey

/-- A known number corresponds to itself, and what comes after `a` to what comes after `b`. -/
def Corresponds (known : Nat → Prop) (a b m n : Nat) : Prop := (m = n ∧ known m) ∨ ∃ k, m = a + k ∧ n = b + k

section
variable {known : Nat → Prop} {a b m n m' n' : Nat}

theorem Corresponds.unique (hknown : ∀ n, known n → n < a ∧ n < b) (h : Corresponds known a b m n)
    (h' : Corresponds known a b m' n') : m = m' ↔ n = n' := by
  rcases h with ⟨rfl, hm⟩ | ⟨k, rfl, rfl⟩ <;> rcases h' with ⟨rfl, hm'⟩ | ⟨k', rfl, rfl⟩
  · rfl
  · have := hknown m hm
    omega
  · have := hknown m' hm'
    omega
  · omega

end

/-- New numbers for identities and environments. -/
structure Renaming where
  ids : Nat → Nat
  envs : Env → Env

def Closure.rename (ρ : Renaming) (f : Closure) : Closure := { f with env := ρ.envs f.env }

mutual

def Value.rename (ρ : Renaming) : Value → Value
  | .array id elems => .array (ρ.ids id) (renameAll ρ elems)
  | .hash id entries => .hash (ρ.ids id) (renameEntries ρ entries)
  | .function id f => .function (ρ.ids id) (f.rename ρ)
  | .integer n => .integer n
  | .boolean b => .boolean b
  | .string s => .string s
  | .builtin b => .builtin b
  | .null => .null

def renameAll (ρ : Renaming) : List Value → List Value
  | [] => []
  | v :: vs => v.rename ρ :: renameAll ρ vs

def renameEntries (ρ : Renaming) : List (Key × Value) → List (Key × Value)
  | [] => []
  | (k, v) :: es => (k, v.rename ρ) :: renameEntries ρ es

end

def Outcome.rename (ρ : Renaming) : Outcome → Outcome
  | .value v => .value (v.rename ρ)
  | .returned v => .returned (v.rename ρ)
  | .error e => .error e

/-- Lines are the same, and what corresponds is what is renamed to it. -/
structure Likeness.Renames (R : Likeness) (ρ : Renaming) : Prop where
  line : R.line = id
  ids : ∀ {m n}, R.ids m n → ρ.ids m = n
  envs : ∀ {i j}, R.envs i j → ρ.envs i = j

section
variable {R : Likeness} {ρ : Renaming}

theorem Closure.Like.eq_rename (hR : R.Renames ρ) {f g : Closure} (h : f.Like R g) : g = f.rename ρ := by
  obtain ⟨params, body, env⟩ := f
  obtain ⟨params', body', env'⟩ := g
  obtain ⟨hparams, hbody, henv⟩ := h
  rw [hR.line, stmtsMapLines_id, stmtsMapLines_id] at hbody
  subst hparams hbody
  rw [Closure.rename, hR.envs henv]

mutual

theorem Value.Like.eq_rename (hR : R.Renames ρ) : ∀ {v w : Value}, v.Like R w → w = v.rename ρ
  | _, _, .integer | _, _, .boolean | _, _, .string | _, _, .builtin | _, _, .null => by rw [Value.rename]
  | _, _, .array hid h => by rw [Value.rename, hR.ids hid, ← h.eq_rename hR]
  | _, _, .hash hid h => by rw [Value.rename, hR.ids hid, ← h.eq_rename hR]
  | _, _, .function hid h => by rw [Value.rename, hR.ids hid, ← h.eq_rename hR]

theorem ValuesLike.eq_rename (hR : R.Renames ρ) : ∀ {vs ws : List Value}, ValuesLike R vs ws → ws = renameAll ρ vs
  | _, _, .nil => by rw [renameAll]
  | _, _, .cons h hs => by rw [renameAll, ← h.eq_rename hR, ← hs.eq_rename hR]

theorem EntriesLike.eq_rename (hR : R.Renames ρ) :
    ∀ {es fs : List (Key × Value)}, EntriesLike R es fs → fs = renameEntries ρ es
  | _, _, .nil => by rw [renameEntries]
  | _, _, .cons h hs => by rw [renameEntries, ← h.eq_rename hR, ← hs.eq_rename hR]

end

theorem RuntimeError.Like.eq (hR : R.Renames ρ) {e e' : RuntimeError} (h : e.Like R e') : e' = e := by
  obtain ⟨fault, line⟩ := e
  obtain ⟨fault', line'⟩ := e'
  obtain ⟨hfault, hline⟩ := h
  rw [hR.line, Option.map_id_apply, Option.map_id_apply] at hline
  subst hfault hline
  rfl

theorem Outcome.Like.eq_rename (hR : R.Renames ρ) {o o' : Outcome} (h : o.Like R o') : o' = o.rename ρ := by
  cases h with
  | value h => rw [Outcome.rename, ← h.eq_rename hR]
  | returned h => rw [Outcome.rename, ← h.eq_rename hR]
  | error h => rw [Outcome.rename, h.eq hR]

end

end Monkey
