import Mathlib
import Monkey.Syntax.Parser

/-! Braces in token lists: how many more are opened than closed, and what skipping to a statement does to
that number. -/
namespace Monkey
open Token (Kind)

/-- A token of the kind at the start of a source. -/
def Token.ofKind (k : Kind) : Token := { kind := k, start := 0, stop := 0, line := 0, lexeme := k.text }

/-- What a token adds to the number of open braces. -/
def Token.weight (t : Token) : Int :=
  match t.kind with
  | .leftBrace => 1
  | .rightBrace => -1
  | _ => 0

/-- Opening braces less closing braces. -/
def net (ts : List Token) : Int := (ts.map Token.weight).sum

@[simp] theorem net_nil : net [] = 0 := rfl

@[simp] theorem net_cons (t : Token) (ts : List Token) : net (t :: ts) = t.weight + net ts := List.sum_cons

@[simp] theorem net_append (ts us : List Token) : net (ts ++ us) = net ts + net us :=
  (congrArg List.sum List.map_append).trans List.sum_append

/-- The weight depends on the kind only. -/
theorem Token.weight_of_kind {t : Token} {k : Kind} (h : t.kind = k) : t.weight = (ofKind k).weight :=
  congrArg (fun k => (ofKind k).weight) h

theorem Token.weight_leftBrace {t : Token} (h : t.kind = .leftBrace) : t.weight = 1 := weight_of_kind h

theorem Token.weight_rightBrace {t : Token} (h : t.kind = .rightBrace) : t.weight = -1 := weight_of_kind h

theorem Token.weight_other {t : Token} (h : t.kind ≠ .leftBrace) (h' : t.kind ≠ .rightBrace) :
    t.weight = 0 := by
  unfold weight
  split <;> simp_all

theorem Token.weight_semicolon {t : Token} (h : t.kind = .semicolon) : t.weight = 0 := weight_of_kind h

/-- Every closing brace closes one that was opened before, and none is left open. -/
structure WellNested (ts : List Token) : Prop where
  opened : ∀ us, us <+: ts → 0 ≤ net us
  closed : net ts = 0

theorem wellNested_nil : WellNested [] := by
  refine ⟨fun us h => ?_, rfl⟩
  rw [List.prefix_nil.mp h]
  exact Int.le_refl 0

theorem WellNested.cons {t : Token} {ts : List Token} (ht : t.kind ≠ .leftBrace) (ht' : t.kind ≠ .rightBrace)
    (h : WellNested ts) : WellNested (t :: ts) := by
  have hw := Token.weight_other ht ht'
  refine ⟨fun us hus => ?_, by rw [net_cons, hw, h.closed, Int.zero_add]⟩
  rcases List.prefix_cons_iff.mp hus with rfl | ⟨vs, rfl, hvs⟩
  · exact Int.le_refl 0
  · rw [net_cons, hw, Int.zero_add]
    exact h.opened vs hvs

/-- What is left of well nested tokens closes at least as many braces as it opens. -/
theorem WellNested.net_suffix_le {ts us : List Token} (h : WellNested ts) (hus : us <:+ ts) : net us ≤ 0 := by
  obtain ⟨vs, rfl⟩ := hus
  have hopened := h.opened vs (List.prefix_append vs us)
  have hclosed := h.closed
  rw [net_append] at hclosed
  omega

namespace Parser

@[simp] theorem skipToStatement_nil (depth : Nat) : skipToStatement depth [] = [] := by cases depth <;> rfl

/-- Where no brace is open, skipping stops before or behind the token; else it goes on behind it. -/
theorem skipToStatement_cons (depth : Nat) (t : Token) :
    (depth = 0 ∧ (t.kind = .rightBrace ∨ t.kind = .letWord ∨ t.kind = .returnWord) ∧
        ∀ ts, skipToStatement depth (t :: ts) = t :: ts) ∨
      (depth = 0 ∧ t.kind = .semicolon ∧ ∀ ts, skipToStatement depth (t :: ts) = ts) ∨
      ∃ depth' : Nat, (depth' : Int) = depth + t.weight ∧
        ∀ ts, skipToStatement depth (t :: ts) = skipToStatement depth' ts := by
  cases depth with
  | zero =>
    simp only [skipToStatement]
    split
    · next h => exact .inl ⟨trivial, .inl h, fun _ => rfl⟩
    · next h => exact .inl ⟨trivial, .inr (.inl h), fun _ => rfl⟩
    · next h => exact .inl ⟨trivial, .inr (.inr h), fun _ => rfl⟩
    · next h => exact .inr (.inl ⟨trivial, h, fun _ => rfl⟩)
    · next h => exact .inr (.inr ⟨1, by rw [Token.weight_leftBrace h]; rfl, fun _ => rfl⟩)
    · next h _ _ _ h' => exact .inr (.inr ⟨0, by rw [Token.weight_other h' h]; rfl, fun _ => rfl⟩)
  | succ depth =>
    simp only [skipToStatement]
    split
    · next h => exact .inr (.inr ⟨depth + 2, by rw [Token.weight_leftBrace h]; omega, fun _ => rfl⟩)
    · next h => exact .inr (.inr ⟨depth, by rw [Token.weight_rightBrace h]; omega, fun _ => rfl⟩)
    · next h h' => exact .inr (.inr ⟨depth + 1, by rw [Token.weight_other h h']; omega, fun _ => rfl⟩)

/-- Skipping never closes more braces than are open. -/
theorem net_le_of_skipToStatement {depth : Nat} {us vs : List Token} (hvs : vs <:+ us)
    (hlen : (skipToStatement depth us).length ≤ vs.length) : net vs ≤ depth + net us := by
  induction us generalizing depth with
  | nil =>
    obtain rfl := List.suffix_nil.mp hvs
    simp
  | cons t ts ih =>
    rcases List.suffix_cons_iff.mp hvs with rfl | hvs
    · omega
    · rcases skipToStatement_cons depth t with ⟨_, _, h⟩ | ⟨h0, hk, h⟩ | ⟨depth', hd, h⟩
      · have hle := hvs.length_le
        rw [h, List.length_cons] at hlen
        omega
      · rw [h] at hlen
        obtain rfl := hvs.eq_of_length_le hlen
        rw [net_cons, Token.weight_semicolon hk]
        omega
      · rw [h] at hlen
        have hrec := ih hvs hlen
        rw [net_cons]
        omega

/-- Skipping that stops before the end has closed all the braces that it opened. -/
theorem net_skipToStatement {depth : Nat} {us : List Token} (h : skipToStatement depth us ≠ []) :
    net (skipToStatement depth us) = depth + net us := by
  induction us generalizing depth with
  | nil => exact absurd (skipToStatement_nil depth) h
  | cons t ts ih =>
    rcases skipToStatement_cons depth t with ⟨h0, _, hs⟩ | ⟨h0, hk, hs⟩ | ⟨depth', hd, hs⟩
    · rw [hs]
      omega
    · rw [hs, net_cons, Token.weight_semicolon hk]
      omega
    · rw [hs] at h ⊢
      rw [ih h, net_cons]
      omega

/-- Skipping that stops before the end stops there whatever follows. -/
theorem skipToStatement_append {depth : Nat} {us : List Token} (vs : List Token)
    (h : skipToStatement depth us ≠ []) :
    skipToStatement depth (us ++ vs) = skipToStatement depth us ++ vs := by
  induction us generalizing depth with
  | nil => exact absurd (skipToStatement_nil depth) h
  | cons t ts ih =>
    rw [List.cons_append]
    rcases skipToStatement_cons depth t with ⟨_, _, hs⟩ | ⟨_, _, hs⟩ | ⟨depth', _, hs⟩
    · rw [hs, hs, List.cons_append]
    · rw [hs, hs]
    · rw [hs] at h
      rw [hs, hs, ih h]

/-- Skipping that finds nothing but the semicolon at the end stops behind it whatever follows. -/
theorem skipToStatement_semicolon {depth : Nat} {us : List Token} {s : Token} (vs : List Token)
    (hs : s.kind = .semicolon) (hnet : depth + net us ≤ 0) (h : skipToStatement depth (us ++ [s]) = []) :
    skipToStatement depth (us ++ s :: vs) = vs := by
  induction us generalizing depth with
  | nil =>
    obtain rfl : depth = 0 := by
      rw [net_nil] at hnet
      omega
    simp [skipToStatement, hs]
  | cons t ts ih =>
    rw [List.cons_append] at h ⊢
    rcases skipToStatement_cons depth t with ⟨_, _, hstop⟩ | ⟨_, _, hstop⟩ | ⟨depth', hd, hon⟩
    · rw [hstop] at h
      exact absurd h (List.cons_ne_nil t _)
    · rw [hstop] at h
      exact absurd h (List.append_ne_nil_of_right_ne_nil ts (List.cons_ne_nil s []))
    · rw [hon] at h ⊢
      rw [net_cons] at hnet
      exact ih (by omega) h

end Parser
end Monkey
