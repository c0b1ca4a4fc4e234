import Monkey.Proofs.LongestMatch
import Monkey.Proofs.MistakeOrder
import Monkey.Proofs.Relocation
import Monkey.ReadLoop

/-! Texts of one line, which the read loop cuts its input into. All that the lexer and the parser say of such a text,
they say of line 1. -/
namespace Monkey
open Token (Kind)

/-- No line break but at the end. -/
def IsLine (cs : List Char) : Prop := '\n' ∉ cs.dropLast

namespace IsLine

variable {cs ds : List Char}

theorem of_append (h : IsLine (cs ++ ds)) : IsLine ds := by
  by_cases hds : ds = []
  · subst hds
    exact List.not_mem_nil
  · rw [IsLine, List.dropLast_append_of_ne_nil hds] at h
    exact fun hn => h (List.mem_append_right cs hn)

theorem notMem_of_append (h : IsLine (cs ++ ds)) (hds : ds ≠ []) : '\n' ∉ cs := by
  rw [IsLine, List.dropLast_append_of_ne_nil hds] at h
  exact fun hn => h (List.mem_append_left _ hn)

end IsLine

namespace ReadLoop

/-- These are the lines of the text: it is cut behind each line break, and nowhere else. -/
structure Cuts (text : List Char) (ls : List String) : Prop where
  join : ls.flatMap String.toList = text
  isLine : ∀ l ∈ ls, IsLine l.toList
  ends : ∀ l ∈ ls.dropLast, l.toList.getLast? = some '\n'
  ne_empty : "" ∉ ls

theorem Cuts.cons {text line : List Char} {ls : List String} (h : Cuts text ls) (hline : '\n' ∉ line) :
    Cuts (line ++ '\n' :: text) (String.ofList (line ++ ['\n']) :: ls) where
  join := by simp [h.join]
  isLine := by
    refine List.forall_mem_cons.mpr ⟨?_, h.isLine⟩
    rwa [String.toList_ofList, IsLine, List.dropLast_concat]
  ends := by
    cases ls with
    | nil => exact List.forall_mem_nil _
    | cons l ls => exact List.forall_mem_cons.mpr ⟨by simp, h.ends⟩
  ne_empty := by
    refine List.not_mem_cons_of_ne_of_not_mem (fun hempty => ?_) h.ne_empty
    simpa using congrArg String.toList hempty

theorem cuts_singleton {line : List Char} (hline : '\n' ∉ line) (hne : line ≠ []) :
    Cuts line [String.ofList line] where
  join := by simp
  isLine := List.forall_mem_singleton.mpr fun hn => hline (List.mem_of_mem_dropLast (by simpa using hn))
  ends := List.forall_mem_nil _
  ne_empty := by
    refine List.not_mem_cons_of_ne_of_not_mem (fun hempty => ?_) List.not_mem_nil
    exact hne (by simpa using (congrArg String.toList hempty).symm)

/-- By induction on the text, where `seen` is what has been read of the line so far, the last character first. -/
theorem cuts_cut {seen : List Char} (cs : List Char) (hseen : '\n' ∉ seen) :
    Cuts (seen.reverse ++ cs) (lines.cut seen cs) := by
  induction cs generalizing seen with
  | nil =>
    rw [lines.cut, List.append_nil]
    split
    · next hempty =>
      obtain rfl := List.isEmpty_iff.mp hempty
      exact ⟨rfl, List.forall_mem_nil _, List.forall_mem_nil _, List.not_mem_nil⟩
    · next hne =>
      refine cuts_singleton (fun hn => hseen (List.mem_reverse.mp hn)) fun hempty => hne ?_
      exact List.isEmpty_iff.mpr (List.reverse_eq_nil_iff.mp hempty)
  | cons c cs ih =>
    rw [lines.cut]
    split
    · next hc =>
      subst hc
      rw [List.reverse_cons]
      exact (ih List.not_mem_nil).cons fun hn => hseen (List.mem_reverse.mp hn)
    · next hc =>
      have hrest := ih (List.not_mem_cons_of_ne_of_not_mem (Ne.symm hc) hseen)
      simpa using hrest

theorem cuts_lines (text : String) : Cuts text.toList (lines text) := cuts_cut text.toList List.not_mem_nil

end ReadLoop

namespace Token

/-- Only layout may have a line break in it. -/
theorem InClass.newline_notMem {rest w : List Char} {k : Kind} (h : InClass rest k w) (hk : k.isLayout = false) :
    '\n' ∉ w := by
  cases h with
  | @mark c _ hc =>
    intro hn
    obtain rfl := List.mem_singleton.mp hn
    obtain rfl := Option.some.inj hc
    cases hk
  | comment => cases hk
  | bang | bangEqual | equal | equalEqual | slash => decide
  | @string inside hinside =>
    intro hn
    simp only [List.mem_cons, List.mem_append] at hn
    rcases hn with hn | hn | hn | hn
    · exact absurd hn (by decide)
    · exact (hinside _ hn).2 rfl
    · exact absurd hn (by decide)
    · cases hn
  | integer hdigits => exact fun hn => absurd (hdigits _ hn) (by decide)
  | identifier hw | keyword hw _ =>
    obtain ⟨c, cs, rfl, hc, hcs⟩ := hw
    intro hn
    rcases List.mem_cons.mp hn with rfl | hn
    · revert hc
      decide
    · have hpart := hcs _ hn
      revert hpart
      decide

end Token

namespace Cursor

/-- On the first line; but layout goes beyond it with its line break. -/
def OnFirstLine : Except LexError Token → Prop
  | .ok t => t.kind.isLayout = false → t.line = 0
  | .error e => e.line = 1

theorem onFirstLine_reading (c : Char) (cs : List Char) (offset : Nat) :
    OnFirstLine (reading ⟨c :: cs, offset, 0⟩ (Piece.cut c cs)) := by
  unfold reading
  split
  · next k hk =>
    intro hlayout
    have hnewline : '\n' ∉ (Piece.cut c cs).taken := (Piece.isWhole_cut c cs k hk).inClass.newline_notMem hlayout
    have hlexeme : '\n' ∉ (Piece.cut c cs).lexeme := fun hn =>
      hnewline (List.mem_append_left _ (List.mem_append_right _ hn))
    simp [token, List.count_eq_zero.mpr hlexeme]
  · rfl

/-- By induction on the pieces: there is a line break in a piece only if it is the last. -/
theorem onFirstLine_readings : ∀ (cs : List Char) (offset : Nat), IsLine cs →
    ∀ r ∈ readings ⟨cs, offset, 0⟩, OnFirstLine r
  | [], offset, _, r, hr => by
    rw [readings_nil] at hr
    cases hr
  | c :: cs, offset, hline, r, hr => by
    have hlength := Piece.length_rest_le c cs
    rw [readings_cons] at hr
    rcases List.mem_cons.mp hr with rfl | hr
    · exact onFirstLine_reading c cs offset
    · have htaken := Piece.taken_append_rest c cs
      rw [← htaken] at hline
      by_cases hrest : (Piece.cut c cs).rest = []
      · rw [after, hrest, readings_nil] at hr
        cases hr
      · have hcount : (Piece.cut c cs).taken.count '\n' = 0 :=
          List.count_eq_zero.mpr (hline.notMem_of_append hrest)
        rw [after, hcount] at hr
        exact onFirstLine_readings _ _ hline.of_append r hr
termination_by cs => cs.length
decreasing_by
  rw [List.length_cons]
  omega

end Cursor

namespace Token

variable {text : String}

theorem errors_on_first_line (htext : IsLine text.toList) {errors : List LexError}
    (h : significant text = .error errors) : ∀ e ∈ errors, e.line = 1 := by
  have hsource : ofSource text = .error errors := by
    unfold significant at h
    cases hsource : ofSource text with
    | error es =>
      rw [hsource] at h
      exact congrArg _ (Except.error.inj h)
    | ok ts =>
      rw [hsource] at h
      cases h
  obtain ⟨-, rfl⟩ := ofSource_eq_error_iff.mp hsource
  intro e he
  obtain ⟨r, hr, hre⟩ := List.mem_filterMap.mp he
  have hfirst := Cursor.onFirstLine_readings _ _ htext r hr
  cases r with
  | ok t => cases hre
  | error e' =>
    obtain rfl := Option.some.inj hre
    exact hfirst

theorem tokens_on_first_line (htext : IsLine text.toList) {tokens : List Token} (h : significant text = .ok tokens) :
    ∀ t ∈ tokens, t.line = 0 := by
  obtain ⟨us, hus, rfl⟩ := significant_eq_ok_iff.mp h
  intro t ht
  obtain ⟨ht, hlayout⟩ := List.mem_filter.mp ht
  have hread : .ok t ∈ (Cursor.ofString text).readings := hus ▸ List.mem_map_of_mem ht
  exact Cursor.onFirstLine_readings _ _ htext _ hread (by simpa using hlayout)

end Token

/-- Tokens on the first line make syntax on it. -/
theorem Program.onFirstLine_of_tokens {tokens : List Token} (h : ∀ t ∈ tokens, t.line = 0) :
    stmtsMapLines (fun _ => 1) (ofTokens tokens).1 = (ofTokens tokens).1 := by
  have hsame : tokens.map Token.Move.nowhere.token = tokens.map Token.Move.onLines.token := by
    refine List.map_congr_left fun t ht => ?_
    simp [Token.Move.nowhere, Token.Move.onLines, h t ht]
  have hread := Parser.program_move Token.Move.nowhere tokens
  rw [hsame, Parser.program_move] at hread
  exact (Prod.mk.inj hread).1.symm.trans (stmtsMapLines_id _)

/-- The message of a mistake that is about no token tells that they have ended. -/
theorem SyntaxError.message_of_none {e : SyntaxError} (h : e.fault.found? = none) :
    ∃ detail, e.message = "Parse error: " ++ detail ++ "end of stream" := by
  obtain ⟨fault, unread, unclosed⟩ := e
  cases fault with
  | endOfTokens =>
    have hsplit : "Parse error: end of stream" = "Parse error: " ++ "" ++ "end of stream" := by decide
    exact ⟨"", hsplit⟩
  | noOperand found | badInteger found => cases h
  | expected kind found =>
    cases found with
    | some found => cases h
    | none =>
      have hbegin : "Parse error: expected " = "Parse error: " ++ "expected " := by decide
      have hend : ", found end of stream" = ", found " ++ "end of stream" := by decide
      have hmessage : SyntaxError.message ⟨.expected kind none, unread, unclosed⟩ =
          "Parse error: expected " ++ kind.text ++ ", found end of stream" := rfl
      rw [hbegin, hend] at hmessage
      refine ⟨"expected " ++ (kind.text ++ ", found "), ?_⟩
      rw [hmessage]
      simp only [String.append_assoc]

end Monkey
