import Monkey.Proofs.Relocation
import Monkey.Proofs.TokenClasses

/-! Where a line ends and another text begins behind it. No token goes on behind a line break, so the tokens before
it are the same whatever follows, and those behind it are the same as in a text of their own, only further behind. -/
namespace Monkey
open Token (Kind)

namespace Piece

/-- The piece where its text goes on. -/
def onto (p : Piece) (zs : List Char) : Piece := { p with rest := p.rest ++ zs }

variable {c : Char} {cs : List Char} {k : Kind}

/-- A token ends where its line does, and no other text behind that line changes it. -/
theorem cut_onto (h : (cut c cs).reading = .ok k) (zs : List Char) :
    cut c (cs ++ '\n' :: zs) = (cut c cs).onto ('\n' :: zs) := by
  have hwhole := isWhole_cut c cs k h
  have hends : ∀ d ∈ ((cut c cs).rest ++ '\n' :: zs).head?, k.goesOn d = false := by
    have hrest := hwhole.ends
    cases hcut : (cut c cs).rest with
    | nil =>
      rintro _ ⟨⟩
      exact k.goesOn_newline
    | cons e rest =>
      rw [hcut] at hrest
      exact hrest
  have htext : c :: (cs ++ '\n' :: zs) = (cut c cs).taken ++ ((cut c cs).rest ++ '\n' :: zs) := by
    rw [← List.append_assoc, taken_append_rest]
    rfl
  have honto (w rest : List Char) : (ofWord k w rest).onto ('\n' :: zs) = ofWord k w (rest ++ '\n' :: zs) := by
    unfold ofWord
    split <;> rfl
  rw [cut_of_whole (hwhole.before hends) htext, ← honto, ← cut_eq_ofWord h]

end Piece

theorem utf8Length_append (cs ds : List Char) : utf8Length (cs ++ ds) = utf8Length cs + utf8Length ds := by
  induction cs with
  | nil => exact (Nat.zero_add _).symm
  | cons c cs ih =>
    have hcons : ∀ xs : List Char, utf8Length (c :: xs) = c.utf8Size + utf8Length xs := fun _ => rfl
    rw [List.cons_append, hcons, hcons, ih, Nat.add_assoc]

namespace Cursor

theorem reading_eq_ok {pos : Cursor} {p : Piece} {t : Token} (h : pos.reading p = .ok t) :
    ∃ k, p.reading = .ok k ∧ t = pos.token k p := by
  unfold reading at h
  split at h
  · next k hk => exact ⟨k, hk, (Except.ok.inj h).symm⟩
  · cases h

/-- The tokens before a line break are the same whatever follows. -/
theorem readings_append_newline (zs : List Char) : ∀ (cs : List Char) (offset line : Nat) {ts : List Token},
    readings ⟨cs, offset, line⟩ = ts.map .ok →
      readings ⟨cs ++ '\n' :: zs, offset, line⟩ =
        ts.map .ok ++ readings ⟨'\n' :: zs, offset + utf8Length cs, line + cs.count '\n'⟩
  | [], offset, line, ts, h => by
    rw [readings_nil] at h
    rw [← h]
    rfl
  | c :: cs, offset, line, ts, h => by
    have hlen := Piece.length_rest_le c cs
    have htaken := Piece.taken_append_rest c cs
    rw [readings_cons] at h
    cases ts with
    | nil => cases h
    | cons t ts =>
      obtain ⟨hhead, htail⟩ := List.cons.inj h
      obtain ⟨k, hk, rfl⟩ := reading_eq_ok hhead
      have ih := readings_append_newline zs (Piece.cut c cs).rest _ _ htail
      rw [Nat.add_assoc, Nat.add_assoc, ← utf8Length_append, ← List.count_append, htaken] at ih
      rw [List.cons_append, readings_cons, Piece.cut_onto hk zs, List.map_cons, List.cons_append, ← ih, reading,
        Piece.onto, hk]
      rfl
termination_by cs => cs.length
decreasing_by
  rw [List.length_cons]
  omega

theorem token_behind (bytes lines : Nat) (cs : List Char) (offset line : Nat) (k : Kind) (p : Piece) :
    token ⟨cs, offset + bytes, line + lines⟩ k p = (token ⟨cs, offset, line⟩ k p).behind bytes lines := by
  simp only [token, Token.behind, Token.mk.injEq, true_and, and_true]
  omega

theorem after_behind (bytes lines : Nat) (cs : List Char) (offset line : Nat) (p : Piece) :
    after ⟨cs, offset + bytes, line + lines⟩ p =
      ⟨p.rest, offset + utf8Length p.taken + bytes, line + p.taken.count '\n' + lines⟩ := by
  rw [after, Nat.add_right_comm offset, Nat.add_right_comm line]

/-- A text that begins further behind has the same tokens further behind. -/
theorem readings_behind (bytes lines : Nat) : ∀ (cs : List Char) (offset line : Nat) {ts : List Token},
    readings ⟨cs, offset, line⟩ = ts.map .ok →
      readings ⟨cs, offset + bytes, line + lines⟩ = (ts.map (.behind bytes lines)).map .ok
  | [], offset, line, ts, h => by
    rw [readings_nil] at h ⊢
    obtain rfl := List.map_eq_nil_iff.mp h.symm
    rfl
  | c :: cs, offset, line, ts, h => by
    have hlen := Piece.length_rest_le c cs
    rw [readings_cons] at h
    cases ts with
    | nil => cases h
    | cons t ts =>
      obtain ⟨hhead, htail⟩ := List.cons.inj h
      obtain ⟨k, hk, rfl⟩ := reading_eq_ok hhead
      have ih := readings_behind bytes lines (Piece.cut c cs).rest _ _ htail
      rw [readings_cons, List.map_cons, List.map_cons, ← ih, ← token_behind, ← after_behind, reading, hk]
termination_by cs => cs.length
decreasing_by
  rw [List.length_cons]
  omega

end Cursor

/-- A line break is a token by itself. -/
theorem Cursor.readings_newline (zs : List Char) (offset line : Nat) :
    readings ⟨'\n' :: zs, offset, line⟩ =
      .ok (token ⟨'\n' :: zs, offset, line⟩ .whitespace (Piece.cut '\n' zs)) ::
        readings ⟨zs, offset + 1, line + 1⟩ := by
  rw [readings_cons]
  rfl

/-- Two sources that lex also lex with a line break between them, into the tokens of both. -/
theorem Token.significant_append {source source' : String} {ts ts' : List Token} (h : significant source = .ok ts)
    (h' : significant source' = .ok ts') :
    significant (source ++ "\n" ++ source') =
      .ok (ts ++ ts'.map (.behind (utf8Length source.toList + 1) (source.toList.count '\n' + 1))) := by
  obtain ⟨us, hus, rfl⟩ := significant_eq_ok_iff.mp h
  obtain ⟨vs, hvs, rfl⟩ := significant_eq_ok_iff.mp h'
  have htext : (source ++ "\n" ++ source').toList = source.toList ++ '\n' :: source'.toList := by simp
  have hfirst := Cursor.readings_append_newline source'.toList source.toList 0 0 hus
  have hsecond := Cursor.readings_behind (utf8Length source.toList + 1) (source.toList.count '\n' + 1)
    source'.toList 0 0 hvs
  rw [Nat.zero_add, Nat.zero_add, Cursor.readings_newline] at hfirst
  rw [Nat.zero_add, Nat.zero_add] at hsecond
  rw [hsecond, ← List.map_cons, ← List.map_append] at hfirst
  refine significant_eq_ok_iff.mpr ⟨_, by rw [Cursor.ofString, htext, hfirst], ?_⟩
  rw [List.filter_append, List.filter_cons_of_neg (by simp [Cursor.token, Kind.isLayout]), List.filter_map]
  rfl

end Monkey
