import Monkey.Proofs.HeldValues

/-! Arrays are sequences that nothing changes. The index operator and the builtins tell the same about the elements of
an array; `rest` and `push` make new ones, and the arrays that there are stay as they are. -/
namespace Monkey
namespace Eval

variable {id : Nat} {elems : List Value} {i : Int64}

theorem index_of_nonneg {k : Nat} (hi : i.toInt = k) :
    index (.array id elems) (.integer i) = pure (elems[k]?.getD .null) := by
  have hnonneg : ¬ i < 0 := by
    rw [Int64.lt_iff_toInt_lt, hi]
    exact Int.not_lt.mpr (Int.natCast_nonneg k)
  rw [index, if_neg hnonneg, hi, Int.toNat_natCast]

theorem index_of_neg (hi : i.toInt < 0) : index (.array id elems) (.integer i) = pure .null := by
  rw [index, if_pos (Int64.lt_iff_toInt_lt.mpr hi)]

theorem index_of_lt {k : Nat} (hk : k < elems.length) (hi : i.toInt = k) :
    index (.array id elems) (.integer i) = pure elems[k] := by
  rw [index_of_nonneg hi, List.getElem?_eq_getElem hk, Option.getD_some]

theorem index_of_outside (hi : i.toInt < 0 ∨ elems.length ≤ i.toInt) :
    index (.array id elems) (.integer i) = pure .null := by
  rcases hi with hi | hi
  · exact index_of_neg hi
  · obtain ⟨k, hk⟩ := Int.eq_ofNat_of_zero_le (Int.le_trans (Int.natCast_nonneg _) hi)
    rw [index_of_nonneg hk, List.getElem?_eq_none (by omega), Option.getD_none]

/-- The index behind the last one but one is not reduced. -/
theorem toInt_add_one (hi : i.toInt < 2 ^ 63 - 1) : (i + 1).toInt = i.toInt + 1 := by
  have hlow := Int64.le_toInt i
  rw [Int64.toInt_add]
  exact Int.bmod_eq_of_le (by simp; omega) (by simp; omega)

theorem index_tail (id' : Nat) (hi : 0 ≤ i.toInt) (hi' : i.toInt < 2 ^ 63 - 1) :
    index (.array id' elems.tail) (.integer i) = index (.array id elems) (.integer (i + 1)) := by
  obtain ⟨k, hk⟩ := Int.eq_ofNat_of_zero_le hi
  have hnext : (i + 1).toInt = (k + 1 : Nat) := by
    rw [toInt_add_one hi', hk]
    rfl
  rw [index_of_nonneg hk, index_of_nonneg hnext, List.getElem?_tail]

theorem index_append_of_lt (id' : Nat) (w : Value) (hi : i.toInt < elems.length) :
    index (.array id' (elems ++ [w])) (.integer i) = index (.array id elems) (.integer i) := by
  rcases Int.lt_or_le i.toInt 0 with hneg | hnonneg
  · rw [index_of_neg hneg, index_of_neg hneg]
  · obtain ⟨k, hk⟩ := Int.eq_ofNat_of_zero_le hnonneg
    rw [index_of_nonneg hk, index_of_nonneg hk, List.getElem?_append_left (by omega)]

theorem index_append_length (id' : Nat) (w : Value) (hi : i.toInt = elems.length) :
    index (.array id' (elems ++ [w])) (.integer i) = pure w := by
  rw [index_of_nonneg hi, List.getElem?_concat_length, Option.getD_some]

end Eval

namespace Builtin
open Eval Run

variable (id : Nat) {elems : List Value}

theorem apply_first : first.apply [.array id elems] = index (.array id elems) (.integer 0) := by
  rw [index_of_nonneg (k := 0) rfl, ← List.head?_eq_getElem?]
  rfl

/-- The index of the last element of an array, and -1 if it is empty. -/
theorem toInt_length_sub_one {n : Nat} (hn : n ≤ 2 ^ 63) : (Int64.ofNat n - 1).toInt = n - 1 := by
  have hofInt : Int64.ofNat n - 1 = Int64.ofInt (n - 1) := by
    rw [Int64.ofInt_sub, Int64.ofInt_eq_ofNat]
    rfl
  rw [hofInt, Int64.toInt_ofInt]
  exact Int.bmod_eq_of_le (by simp; omega) (by simp; omega)

theorem apply_last (h : elems.length ≤ 2 ^ 63) :
    last.apply [.array id elems] = (do
      let n ← len.apply [.array id elems]
      let i ← binary .subtract n (.integer 1)
      index (.array id elems) i) := by
  have hlast := toInt_length_sub_one h
  change pure (elems.getLast?.getD .null) = index (.array id elems) (.integer (Int64.ofNat elems.length - 1))
  rw [List.getLast?_eq_getElem?]
  cases elems with
  | nil => rw [index_of_neg (by rw [hlast]; decide)]; rfl
  | cons e es =>
    rw [index_of_nonneg (k := es.length) (by rw [hlast]; simp)]
    rfl

end Builtin

namespace Machine
open Run

variable {m m' : Machine} {held : List Value} {v w : Value}

/-- The identity of an array that is made is that of no value made before. -/
theorem Arises.not_identical_newArray (h : m.Arises held) (hw : m.Has held w) (elems : List Value) :
    (Value.array m.store.nextId elems).identical w = false := by
  obtain ⟨made, hm, hheld⟩ := h.recorded
  refine Bool.eq_false_iff.mpr fun hsame => ?_
  have hid := Value.identity?_eq_of_mark_eq (Value.identical_iff.mp hsame)
  have hmade := (hw.recorded hm hheld w .refl).1 m.store.nextId hid.symm
  exact Nat.lt_irrefl _ (hm.store.length ▸ (List.getElem?_eq_some_iff.mp hmade).1)

/-- What a value was when it was there, it still is when it is found again. -/
theorem Arises.eq_of_identical (h : m.Arises held) (hsteps : Steps m m') (hv : m.Has held v) (hw : m'.Has held w)
    (hsame : v.identical w = true) : v = w := by
  obtain ⟨made, hm', hheld⟩ := ((h.take hv).steps hsteps).recorded
  obtain ⟨hv, hheld⟩ := List.forall_mem_cons.mp hheld
  exact hv.eq_of_mark_eq (hw.recorded hm' hheld) (Value.identical_iff.mp hsame)

/-- An array is the sequence of its elements. An index gives the element at its place, and null outside; `first` and
`last` are the elements at 0 and at `len` - 1; `rest` moves every element one place to the front, and is null for an
empty array; `push` adds one element behind the others. What `rest` and `push` make is identical to no value that was
there before; and a value that the machine had, or that its host has taken hold of at any time, is unchanged in all its
elements wherever it is found again, whatever calls have been made by then. Lengths are signed integers of 64 bits. -/
theorem arrays_are_immutable_sequences (id : Nat) (elems : List Value) (v : Value) :
    let a := Value.array id elems
    (∀ i : Int64,
      (∀ k, ∀ hk : k < elems.length, i.toInt = k → Eval.index a (.integer i) = pure elems[k]) ∧
        (i.toInt < 0 ∨ elems.length ≤ i.toInt → Eval.index a (.integer i) = pure .null)) ∧
    (∀ id elems, Builtin.len.apply [.array id elems] = pure (.integer (Int64.ofNat elems.length))) ∧
    Builtin.first.apply [a] = Eval.index a (.integer 0) ∧
    (elems.length ≤ 2 ^ 63 → Builtin.last.apply [a] = (do
      let n ← Builtin.len.apply [a]
      let i ← Eval.binary .subtract n (.integer 1)
      Eval.index a i)) ∧
    (elems = [] → Builtin.rest.apply [a] = pure .null) ∧
    (elems ≠ [] → ∃ rest : List Value, Builtin.rest.apply [a] = newArray rest ∧ rest.length = elems.length - 1 ∧
      ∀ id, ∀ i : Int64, 0 ≤ i.toInt → i.toInt < 2 ^ 63 - 1 →
        Eval.index (.array id rest) (.integer i) = Eval.index a (.integer (i + 1))) ∧
    (∃ pushed : List Value, Builtin.push.apply [a, v] = newArray pushed ∧ pushed.length = elems.length + 1 ∧
      ∀ id, ∀ i : Int64,
        (i.toInt < elems.length → Eval.index (.array id pushed) (.integer i) = Eval.index a (.integer i)) ∧
          (i.toInt = elems.length → Eval.index (.array id pushed) (.integer i) = pure v)) ∧
    (∀ (m : Machine) (held : List Value) (w : Value), m.Arises held → m.Has held w →
      ∀ elems r st, newArray elems m.store = .ok r st → r.identical w = false) ∧
    ∀ (m m' : Machine) (held : List Value) (w w' : Value), m.Arises held → Steps m m' →
      m.Has held w → m'.Has held w' → w.identical w' = true → w = w' := by
  refine ⟨fun i => ⟨fun k hk => Eval.index_of_lt hk, Eval.index_of_outside⟩, fun _ _ => rfl, Builtin.apply_first id,
    Builtin.apply_last id, ?_, fun hne => ?_, ?_, ?_, fun m m' held w w' => Arises.eq_of_identical⟩
  · rintro rfl
    rfl
  · refine ⟨elems.tail, ?_, List.length_tail, fun id' i => Eval.index_tail id'⟩
    cases elems with
    | nil => exact absurd rfl hne
    | cons e es => rfl
  · exact ⟨elems ++ [v], rfl, List.length_append, fun id' i =>
      ⟨Eval.index_append_of_lt id' v, Eval.index_append_length id' v⟩⟩
  · intro m held w h hw elems r st hr
    cases hr
    exact h.not_identical_newArray hw elems

/-- After `[1, 2]`, pushing 3 makes another array. -/
theorem pushing_makes_another_array :
    let a := Value.array 0 [.integer 1, .integer 2]
    let i : Interpreter := { env := 0, depth := 0, store := Store.start.2 }
    let two : Expr := .array [.literal (.integer 1), .literal (.integer 2)]
    Eval.index a (.integer 1) = pure (.integer 2) ∧ Eval.index a (.integer (-1)) = pure .null ∧
    Builtin.last.apply [a] = (do
      let n ← Builtin.len.apply [a]
      let i ← Eval.binary .subtract n (.integer 1)
      Eval.index a i) ∧
    (∃ rest : List Value, Builtin.rest.apply [a] = newArray rest ∧
      Eval.index (.array 1 rest) (.integer 0) = Eval.index a (.integer 1)) ∧
    ∃ m : Machine, Steps (i.start (.evaluate (.expr two))) m ∧ m.control = .done (.value a) ∧
      ∃ pushed st, Builtin.push.apply [a, .integer 3] m.store = .ok (.array 1 pushed) st ∧
        Eval.index (.array 1 pushed) (.integer 2) = pure (.integer 3) ∧ (Value.array 1 pushed).identical a = false := by
  intro a i two
  obtain ⟨hindex, -, -, hlast, -, hrest, ⟨pushed, hpush, -, hpushed⟩, hnew, -⟩ :=
    arrays_are_immutable_sequences 0 [.integer 1, .integer 2] (.integer 3)
  obtain ⟨rest, hmade, -, hmoved⟩ := hrest (List.cons_ne_nil _ _)
  let result := i.store.run (Eval.expr (Eval.apply (maxCallDepth - 0)) 0 two)
  have hresult : result.1 = .value a := by cbv
  have henv : (i.finished (.value .null) i.store).Arises [] := @Arises.enter _ _ none _ (.inr rfl) .start rfl
  have harises : (i.finished result.1 result.2).Arises [] :=
    henv.told (i := i) (t := .evaluate (.expr two)) rfl (List.forall_mem_nil _) rfl (Nat.zero_le _)
  have hhas : (i.finished result.1 result.2).Has [] a := .current (hresult ▸ List.mem_singleton_self _)
  have hid : result.2.nextId = 1 := by cbv
  have hnewArray : newArray pushed result.2 = .ok (.array 1 pushed) result.2.fresh.2 := by
    rw [← hid]
    rfl
  refine ⟨(hindex 1).1 1 (by decide) rfl, (hindex (-1)).2 (.inl (by decide)), hlast (by decide),
    ⟨rest, hmade, hmoved 1 0 (by decide) (by decide)⟩, _, i.steps_finished _ (Nat.zero_le _),
    congrArg Control.done hresult, pushed, _, hpush ▸ hnewArray, (hpushed 1 2).2 rfl,
    hnew _ _ _ harises hhas _ _ _ hnewArray⟩

end Machine
end Monkey
