import Monkey.Proofs.TokenClasses

/-! Walking a cursor from reading to reading up to the end of its source and past it. -/
namespace Monkey
open Token (Kind)
open Piece

/-- The text of a token in its source: its lexeme, in quotes if it is a string. -/
def Token.spelling (t : Token) : List Char :=
  if t.kind = .string then '"' :: (t.lexeme.toList ++ ['"']) else t.lexeme.toList

namespace Token
variable {rest w : List Char} {k : Kind}

theorem InClass.ne_nil (h : InClass rest k w) : w ≠ [] := by
  cases h with
  | identifier hw | keyword hw =>
    obtain ⟨c, cs, rfl, -⟩ := hw
    exact List.cons_ne_nil c cs
  | _ => exact List.cons_ne_nil _ _

theorem InClass.eq_of_string (h : InClass rest .string w) :
    ∃ inside, w = '"' :: (inside ++ ['"']) ∧ ∀ c ∈ inside, c ≠ '"' ∧ c ≠ '\n' := by
  generalize hk : Kind.string = k at h
  cases h with
  | string h => exact ⟨_, rfl, h⟩
  | mark h => exact absurd hk.symm (plain_of_ofChar? h).2.1
  | keyword _ h => exact absurd hk.symm (plain_of_ofKeyword? h).2.1
  | _ => cases hk

theorem InClass.ne_endOfFile (h : InClass rest k w) : k ≠ .endOfFile := by
  cases h with
  | mark h =>
    unfold Kind.ofChar? at h
    split at h <;> cases h <;> decide
  | keyword _ h =>
    unfold Kind.ofKeyword? at h
    split at h <;> cases h <;> decide
  | _ => decide

theorem InClass.taken_ofWord (h : InClass rest k w) : (ofWord k w rest).taken = w := by
  by_cases hk : k = .string
  · subst hk
    obtain ⟨inside, rfl, -⟩ := h.eq_of_string
    simp [ofWord, taken]
  · simp [ofWord, taken, hk]

theorem InClass.spelling_token (h : InClass rest k w) (pos : Cursor) :
    (pos.token k (ofWord k w rest)).spelling = w := by
  by_cases hk : k = .string
  · subst hk
    obtain ⟨inside, rfl, -⟩ := h.eq_of_string
    simp [spelling, Cursor.token, ofWord]
  · simp [spelling, Cursor.token, ofWord, hk]

end Token

namespace Cursor

/-- The cursor after so many readings. -/
def advance : Nat → Cursor → Cursor
  | 0, pos => pos
  | n + 1, pos => advance n pos.next.2

theorem advance_succ (n : Nat) (pos : Cursor) : advance (n + 1) pos = (advance n pos).next.2 := by
  induction n generalizing pos with
  | zero => rfl
  | succ n ih => exact ih pos.next.2

theorem next_of_atEnd {pos : Cursor} (h : pos.rest = []) :
    pos.next = (.ok ⟨.endOfFile, pos.offset, pos.offset, pos.line, Kind.endOfFile.text⟩, pos) := by
  unfold next
  rw [h]

theorem advance_of_atEnd {pos : Cursor} (h : pos.rest = []) (n : Nat) : advance n pos = pos := by
  induction n with
  | zero => rfl
  | succ n ih => rw [advance_succ, ih, next_of_atEnd h]

theorem steps_eq_map (n : Nat) (pos : Cursor) : steps n pos = (List.range n).map fun i => (advance i pos).next.1 := by
  induction n generalizing pos with
  | zero => rfl
  | succ n ih =>
    rw [List.range_succ_eq_map, List.map_cons, List.map_map, steps, ih]
    rfl

/-- A walk comes to the end of its source, and the readings up to there are those of all the pieces. -/
theorem exists_end : ∀ pos : Cursor,
    ∃ n, (∀ m, (advance m pos).rest = [] ↔ n ≤ m) ∧ pos.readings = steps n pos
  | ⟨[], offset, line⟩ => by
    refine ⟨0, fun m => ?_, readings_nil offset line⟩
    rw [advance_of_atEnd rfl]
    exact iff_of_true rfl (Nat.zero_le m)
  | ⟨c :: cs, offset, line⟩ => by
    have hlength := length_rest_le c cs
    obtain ⟨n, hend, hread⟩ := exists_end (after ⟨c :: cs, offset, line⟩ (cut c cs))
    refine ⟨n + 1, fun m => ?_, ?_⟩
    · cases m with
      | zero => exact iff_of_false (List.cons_ne_nil c cs) (Nat.not_succ_le_zero n)
      | succ m => exact (hend m).trans Nat.succ_le_succ_iff.symm
    · rw [readings_cons, hread]
      rfl
termination_by pos => pos.rest.length
decreasing_by
  simp only [after, List.length_cons]
  omega

end Cursor
end Monkey
