import Monkey.Proofs.Words
import Monkey.Text.Decimal
import Monkey.Token.Cursor

/-! Texts on one line that the lexer cuts into given words, with blanks between them. -/
namespace Monkey
open Token (Kind)
open Piece

/-- Up to `rest`, the text reads as the words `ws` set apart by blanks. -/
inductive Lexes : List Char → List Word → List Char → Prop where
  | done {rest : List Char} : Lexes rest [] rest
  | blank {cs rest : List Char} {ws : List Word} : Lexes cs ws rest → Lexes (' ' :: cs) ws rest
  | word {c : Char} {cs rest : List Char} {k : Kind} {ws : List Word} :
      (cut c cs).reading = .ok k → k.isLayout = false → '\n' ∉ (cut c cs).taken →
      Lexes (cut c cs).rest ws rest → Lexes (c :: cs) ((k, String.ofList (cut c cs).lexeme) :: ws) rest

/-- What comes next is no part of a word before it. -/
def EndsWord (cs : List Char) : Prop := ∀ c ∈ cs.head?, isWordPart c = false

theorem takeWhile_append_stop {p : Char → Bool} {cs rest : List Char} (hcs : cs.all p = true)
    (hrest : ∀ c ∈ rest.head?, p c = false) :
    (cs ++ rest).takeWhile p = cs ∧ (cs ++ rest).dropWhile p = rest := by
  have hall : ∀ c ∈ cs, p c = true := List.all_eq_true.mp hcs
  rw [List.takeWhile_append_of_pos hall, List.dropWhile_append_of_pos hall]
  cases rest with
  | nil => exact ⟨List.append_nil cs, rfl⟩
  | cons c rest => simp [hrest c rfl]

theorem cut_mark {c : Char} {k : Kind} (cs : List Char) (h : Kind.ofChar? c = some k) :
    cut c cs = single (.ok k) c cs := by
  have hne (d : Char) (hd : Kind.ofChar? d = none) : c ≠ d := by
    rintro rfl
    rw [hd] at h
    cases h
  simp only [cut, hne '!' rfl, hne '=' rfl, hne '"' rfl, hne '/' rfl, if_false, h]

theorem isWordPart_of_isWordStart {c : Char} (h : isWordStart c = true) : isWordPart c = true := by
  simp only [isWordStart, isWordPart, Char.isAlphanum, Bool.or_eq_true] at h ⊢
  exact h.elim (fun h => .inl (.inl h)) .inr

theorem isWordPart_of_isDigit {c : Char} (h : c.isDigit = true) : isWordPart c = true := by
  simp [isWordPart, Char.isAlphanum, h]

theorem ofChar?_of_isWordPart {c : Char} (h : isWordPart c = true) : Kind.ofChar? c = none := by
  unfold Kind.ofChar?
  split <;> first | rfl | cases h

/-- The characters of words begin no other token. -/
theorem cut_wordPart {c : Char} (cs : List Char) (h : isWordPart c = true) :
    cut c cs = if isWordStart c then Piece.word c cs
      else if c.isDigit then digits c cs
      else single (.error .unexpectedCharacter) c cs := by
  have hne (d : Char) (hd : isWordPart d = false) : c ≠ d := by
    rintro rfl
    rw [hd] at h
    cases h
  have hmark := ofChar?_of_isWordPart h
  simp only [cut, hne '!' (by decide), hne '=' (by decide), hne '"' (by decide), hne '/' (by decide), if_false,
    hmark]

theorem cut_word {c : Char} {cs rest : List Char} (hc : isWordStart c = true)
    (hcs : cs.all isWordPart = true) (hrest : EndsWord rest) :
    cut c (cs ++ rest) = { reading := .ok (wordKind (c :: cs)), lexeme := c :: cs, rest } := by
  obtain ⟨htake, hdrop⟩ := takeWhile_append_stop hcs hrest
  rw [cut_wordPart _ (isWordPart_of_isWordStart hc), if_pos hc, Piece.word, htake, hdrop]

theorem isWordStart_eq_false {c : Char} (h : c.isDigit = true) : isWordStart c = false := by
  refine Bool.eq_false_iff.mpr fun hstart => ?_
  have between {least most : UInt32} (h : least ≤ c.val ∧ c.val ≤ most) :
      least.toNat ≤ c.val.toNat ∧ c.val.toNat ≤ most.toNat :=
    h.imp UInt32.le_iff_toNat_le.mp UInt32.le_iff_toNat_le.mp
  have both {p q : Prop} [Decidable p] [Decidable q] (h : (decide p && decide q) = true) : p ∧ q := by
    simpa only [Bool.and_eq_true, decide_eq_true_eq] using h
  have hdigit : 48 ≤ c.val.toNat ∧ c.val.toNat ≤ 57 := between (both h)
  rcases Bool.or_eq_true_iff.mp hstart with hletter | hunderscore
  · rcases Bool.or_eq_true_iff.mp hletter with hupper | hlower
    · have hupper : 65 ≤ c.val.toNat ∧ c.val.toNat ≤ 90 := between (of_decide_eq_true hupper)
      omega
    · have hlower : 97 ≤ c.val.toNat ∧ c.val.toNat ≤ 122 := between (both hlower)
      omega
  · obtain rfl := of_decide_eq_true hunderscore
    exact absurd h (by decide)

theorem EndsWord.isDigit_eq_false {cs : List Char} (h : EndsWord cs) : ∀ d ∈ cs.head?, d.isDigit = false := by
  intro d hd
  refine Bool.eq_false_iff.mpr fun hdigit => ?_
  have hpart := h d hd
  rw [isWordPart_of_isDigit hdigit] at hpart
  cases hpart

theorem cut_digits {c : Char} {cs rest : List Char} (hc : c.isDigit = true)
    (hcs : cs.all Char.isDigit = true) (hrest : ∀ d ∈ rest.head?, d.isDigit = false) :
    cut c (cs ++ rest) = { reading := .ok .integer, lexeme := c :: cs, rest } := by
  obtain ⟨htake, hdrop⟩ := takeWhile_append_stop hcs hrest
  rw [cut_wordPart _ (isWordPart_of_isDigit hc), isWordStart_eq_false hc, if_neg Bool.false_ne_true, if_pos hc,
    digits, htake, hdrop]

theorem cut_string {cs : List Char} (rest : List Char) (hcs : cs.all isStringPart = true) :
    cut '"' (cs ++ '"' :: rest) =
      { reading := .ok .string, opening := ['"'], lexeme := cs, closing := ['"'], rest } := by
  have hquote : ∀ c ∈ ('"' :: rest).head?, isStringPart c = false := by
    rintro _ ⟨⟩
    decide
  obtain ⟨htake, hdrop⟩ := takeWhile_append_stop hcs hquote
  change Piece.string '"' (cs ++ '"' :: rest) = _
  simp only [Piece.string, htake, hdrop, if_true]

theorem newline_notMem {p : Char → Bool} {cs : List Char} (hp : p '\n' = false) (hcs : cs.all p = true) :
    '\n' ∉ cs := by
  intro hn
  have hall := List.all_eq_true.mp hcs _ hn
  rw [hp] at hall
  cases hall

namespace Lexes
variable {cs ds rest : List Char} {ws vs : List Word}

theorem append (h : Lexes cs ws ds) (h' : Lexes ds vs rest) : Lexes cs (ws ++ vs) rest := by
  induction h with
  | done => exact h'
  | blank _ ih => exact .blank (ih h')
  | word hk hl hn _ ih => exact .word hk hl hn (ih h')

/-- A text that is cut into one word and the rest. -/
theorem of_cut {c : Char} {k : Kind} {opening lexeme closing : List Char}
    (hcut : cut c cs = { reading := .ok k, opening, lexeme, closing, rest := ds }) (hl : k.isLayout = false)
    (hn : '\n' ∉ opening ++ lexeme ++ closing) (h : Lexes ds ws rest) :
    Lexes (c :: cs) ((k, String.ofList lexeme) :: ws) rest := by
  have hw := @Lexes.word c cs rest k ws
  rw [hcut] at hw
  exact hw rfl hl hn h

theorem mark {c : Char} {k : Kind} (hc : Kind.ofChar? c = some k) (hl : k.isLayout = false)
    (h : Lexes cs ws rest) : Lexes (c :: cs) ((k, String.ofList [c]) :: ws) rest := by
  refine of_cut (cut_mark cs hc) hl ?_ h
  rintro hn
  obtain rfl := List.mem_singleton.mp hn
  cases hc
  cases hl

private theorem of_word {c : Char} {xs : List Char} (hc : isWordStart c = true)
    (hxs : xs.all isWordPart = true) (hcs : EndsWord cs) (hl : (wordKind (c :: xs)).isLayout = false)
    (h : Lexes cs ws rest) :
    Lexes (c :: (xs ++ cs)) ((wordKind (c :: xs), String.ofList (c :: xs)) :: ws) rest := by
  refine of_cut (cut_word hc hxs hcs) hl ?_ h
  have hall : (c :: xs).all isWordPart = true := by
    rw [List.all_cons, isWordPart_of_isWordStart hc, hxs]
    rfl
  simpa using newline_notMem (by decide) hall

theorem name {x : String} (hx : IsName x) (hcs : EndsWord cs) (h : Lexes cs ws rest) :
    Lexes (x.toList ++ cs) ((.identifier, x) :: ws) rest := by
  obtain ⟨c, xs, hlist, hc, hxs, hkey⟩ := hx
  have hkind : wordKind (c :: xs) = .identifier := by
    rw [wordKind, ← hlist, String.ofList_toList, hkey]
    rfl
  have hword := of_word hc hxs hcs (by rw [hkind]; rfl) h
  rw [hkind, ← hlist, String.ofList_toList] at hword
  rwa [hlist, List.cons_append]

/-- A keyword is a word that is no name. -/
theorem keyword {k : Kind} (hk : Kind.ofKeyword? k.text = some k) (hcs : EndsWord cs)
    (h : Lexes cs ws rest) : Lexes (k.text.toList ++ cs) (k.word :: ws) rest := by
  cases k with
  | elseWord | falseWord | fnWord | ifWord | letWord | returnWord | trueWord =>
    exact of_word rfl rfl hcs rfl h
  | _ => cases hk

theorem integer {n : Int64} (hn : 0 ≤ n.toInt) (hcs : EndsWord cs) (h : Lexes cs ws rest) :
    Lexes ((toString n.toInt).toList ++ cs) ((.integer, toString n.toInt) :: ws) rest := by
  obtain ⟨m, hm⟩ := Int.eq_ofNat_of_zero_le hn
  have hds : (toString n.toInt).toList = Nat.toDigits 10 m := by
    rw [hm]
    exact Decimal.toList_toString_ofNat m
  have hall : (Nat.toDigits 10 m).all Char.isDigit = true :=
    List.all_eq_true.mpr fun _ hd => Nat.isDigit_of_mem_toDigits (by decide) (by decide) hd
  obtain ⟨d, ds, hcons, hd⟩ := Decimal.toDigits_eq_cons m
  have hnewline := newline_notMem (by decide) hall
  rw [hcons] at hds hall hnewline
  rw [List.all_cons, Bool.and_eq_true] at hall
  have hword := of_cut (cut_digits hd hall.2 hcs.isDigit_eq_false) rfl (by simpa using hnewline) h
  rw [← hds, String.ofList_toList] at hword
  rwa [hds, List.cons_append]

theorem string {s : String} (hs : IsText s) (h : Lexes cs ws rest) :
    Lexes ('"' :: (s.toList ++ '"' :: cs)) ((.string, s) :: ws) rest := by
  have hword := of_cut (cut_string cs hs) rfl (by simpa using newline_notMem (by decide) hs) h
  rwa [String.ofList_toList] at hword

theorem infixOp (op : InfixOp) (h : Lexes cs ws rest) :
    Lexes (op.text.toList ++ ' ' :: cs) (op.kind.word :: ws) rest := by
  have hcs : Lexes (' ' :: cs) ws rest := .blank h
  cases op with
  | divide => exact of_cut (c := '/') rfl rfl (by decide) hcs
  | multiply => exact mark (c := '*') rfl rfl hcs
  | add => exact mark (c := '+') rfl rfl hcs
  | subtract => exact mark (c := '-') rfl rfl hcs
  | greater => exact mark (c := '>') rfl rfl hcs
  | less => exact mark (c := '<') rfl rfl hcs
  | notEqual => exact of_cut (c := '!') rfl rfl (by decide) hcs
  | equal => exact of_cut (c := '=') rfl rfl (by decide) hcs

theorem equal (h : Lexes cs ws rest) : Lexes ('=' :: ' ' :: cs) (Kind.equal.word :: ws) rest :=
  of_cut (c := '=') rfl rfl (by decide) (.blank h)

theorem prefixOp (op : PrefixOp) (hcs : ∀ c ∈ cs.head?, c ≠ '=') (h : Lexes cs ws rest) :
    Lexes (op.text.toList ++ cs) (op.kind.word :: ws) rest := by
  cases op with
  | negate => exact mark rfl rfl h
  | not =>
    have hcut : cut '!' cs = single (.ok .bang) '!' cs := by
      cases cs with
      | nil => rfl
      | cons c cs =>
        change pair '=' .bangEqual .bang '!' (c :: cs) = _
        rw [pair, if_neg (hcs c rfl)]
    exact of_cut hcut rfl (by decide) h

end Lexes

namespace Lexes
variable {cs rest : List Char} {ws : List Word}

/-- A cursor on the first line reads the words, and stays on that line. -/
theorem readings (h : Lexes cs ws rest) (hrest : rest = []) (offset : Nat) :
    ∃ ts : List Token, (Cursor.readings ⟨cs, offset, 0⟩) = ts.map .ok ∧
      Written ws (ts.filter fun t => !t.kind.isLayout) [] := by
  induction h generalizing offset with
  | done =>
    rw [hrest, Cursor.readings_nil]
    exact ⟨[], rfl, rfl⟩
  | @blank cs rest ws _ ih =>
    obtain ⟨ts, hts, hw⟩ := ih hrest (offset + utf8Length [' '])
    refine ⟨Cursor.token ⟨' ' :: cs, offset, 0⟩ .whitespace (cut ' ' cs) :: ts, ?_, hw⟩
    rw [Cursor.readings_cons, List.map_cons, ← hts]
    rfl
  | @word c cs rest k ws hk hl hn _ ih =>
    obtain ⟨ts, hts, hw⟩ := ih hrest (offset + utf8Length (cut c cs).taken)
    have hafter : Cursor.after ⟨c :: cs, offset, 0⟩ (cut c cs) =
        ⟨(cut c cs).rest, offset + utf8Length (cut c cs).taken, 0⟩ := by
      rw [Cursor.after, List.count_eq_zero.mpr hn]
    refine ⟨Cursor.token ⟨c :: cs, offset, 0⟩ k (cut c cs) :: ts, ?_, ?_⟩
    · rw [Cursor.readings_cons, List.map_cons, ← hts, hafter, Cursor.reading, hk]
    · have hlexeme : '\n' ∉ (cut c cs).lexeme := fun h => hn (by simp [taken, h])
      rw [List.filter_cons_of_pos (by simp [Cursor.token, hl])]
      exact ⟨_, _, rfl, by simp [Cursor.token, List.count_eq_zero.mpr hlexeme], rfl, hw⟩

theorem significant {source : String} (h : Lexes source.toList ws []) :
    ∃ ts, Token.significant source = .ok ts ∧ Written ws ts [] := by
  obtain ⟨ts, hts, hw⟩ := h.readings rfl 0
  exact ⟨_, Token.significant_eq_ok_iff.mpr ⟨ts, hts, rfl⟩, hw⟩

end Lexes

end Monkey
