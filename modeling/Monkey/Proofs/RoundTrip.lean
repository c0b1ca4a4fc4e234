import Monkey.Proofs.GrammarExactness
import Monkey.Proofs.SourceWords
import Monkey.Proofs.Survivors
import Monkey.Proofs.WordsDerive

/-! Printing a program and reading its text gives the program back, on one line. -/
namespace Monkey
open Token (Kind)

/-- The text of the program lexes and has no mistakes, and is read as the same program on line 1. -/
def Program.ReadsBack (p : Program) : Prop :=
  ∃ ts, Token.significant p.source = .ok ts ∧ Program.ofTokens? ts = .ok p.onFirstLine

theorem Program.lexes {p : Program} (hp : p.Writable) : Lexes p.source.toList (stmtsWords p) [] := by
  have h := stmts_lex p [] hp
  rwa [List.append_nil] at h

theorem Program.readsBack {p : Program} (hp : p.Writable) : p.ReadsBack := by
  obtain ⟨ts, hts, hw⟩ := (Program.lexes hp).significant
  have hread := Grammar.program_eq_iff_derives.mpr (stmts_derived p hw)
  exact ⟨ts, hts, Grammar.ofTokens?_eq_ok_iff.mpr hread⟩

/-- What survives in any source that lexes, with mistakes or without, reads back from its text, and so does
every program whose names, numbers and strings can be written. -/
theorem text_reads_back :
    (∀ source ts, Token.significant source = .ok ts → (Program.ofTokens ts).1.ReadsBack) ∧
      ∀ p : Program, p.Writable → p.ReadsBack :=
  ⟨fun _ _ hts => Program.readsBack (survivors_writable hts), fun _ hp => Program.readsBack hp⟩

/-- A source whose second statement is broken off, and a program that records other lines. -/
theorem broken_text_reads_back :
    (∃ ts, Token.significant "-1 let" = .ok ts ∧ (Program.ofTokens ts).1.ReadsBack) ∧
      Program.ReadsBack [.returning (some (.hash 7 [(.name 3 "x", .literal (.string "a b"))]))] := by
  have hlex : Lexes "-1 let".toList [Kind.minus.word, (.integer, "1"), Kind.letWord.word] [] := by
    have hlet : Lexes "let".toList [Kind.letWord.word] [] := Lexes.keyword (k := .letWord) rfl nofun .done
    simp only [String.reduceToList] at hlet ⊢
    exact .mark rfl rfl (.of_cut (c := '1') rfl rfl (by decide) (.blank hlet))
  obtain ⟨ts, hts, -⟩ := hlex.significant
  have hwritable : Program.Writable [.returning (some (.hash 7 [(.name 3 "x", .literal (.string "a b"))]))] :=
    ⟨⟨⟨⟨'x', [], rfl, rfl, rfl, rfl⟩, rfl⟩, trivial⟩, trivial⟩
  exact ⟨⟨ts, hts, text_reads_back.1 _ ts hts⟩, text_reads_back.2 _ hwritable⟩

end Monkey
