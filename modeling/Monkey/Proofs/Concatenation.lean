import Mathlib
import Monkey.Proofs.Seam
import Monkey.Proofs.StatementRecovery
import Monkey.Proofs.UpToLines
import Monkey.Session

/-! A source behind another one. If the first has no mistakes and ends with a semicolon, the two together are read as
one after the other, and running them together is running one after the other. -/
namespace Monkey

/-- Two evaluations of a statement come to the same up to lines and print the same. -/
def AlikeAndPrinted (R : Likeness) (a b : Outcome × String) : Prop := a.1.Like R b.1 ∧ a.2 = b.2

namespace Session

theorem statementwise_append (st : Store) (env : Env) (ss tt : List Stmt) :
    statementwise st env (ss ++ tt) =
      ((statementwise st env ss).1 ++ (statementwise (statementwise st env ss).2 env tt).1,
        (statementwise (statementwise st env ss).2 env tt).2) := by
  induction ss generalizing st with
  | nil => rfl
  | cons s ss ih => simp only [List.cons_append, statementwise, ih]

end Session

theorem Store.Like.flush {st st' : Store} (h : st.Like .upToLines st') :
    st.flush.1 = st'.flush.1 ∧ st.flush.2.Like .upToLines st'.flush.2 := by
  obtain ⟨text, htext, htext'⟩ := h.printed
  exact ⟨htext.trans htext'.symm,
    { scopes := h.scopes, envs_made := h.envs_made, ids_made := h.ids_made, printed := ⟨"", rfl, rfl⟩ }⟩

theorem Session.statementwise_alike (env : Env) {ss tt : List Stmt}
    (h : stmtsMapLines Likeness.upToLines.line ss = stmtsMapLines Likeness.upToLines.line tt) {st st' : Store}
    (hst : st.Like .upToLines st') :
    List.Forall₂ (AlikeAndPrinted .upToLines) (statementwise st env ss).1 (statementwise st' env tt).1 ∧
      (statementwise st env ss).2.Like .upToLines (statementwise st' env tt).2 := by
  induction ss generalizing tt st st' with
  | nil =>
    cases tt with
    | nil => exact ⟨.nil, hst⟩
    | cons t tt => cases h
  | cons s ss ih =>
    cases tt with
    | nil => cases h
    | cons t tt =>
      obtain ⟨hs, hss⟩ := List.cons.inj h
      have hrun := (Eval.parallel_stmt (Eval.parallel_apply maxCallDepth) (i := env) (j := env) rfl s t hs).run hst
      obtain ⟨ho, hst'⟩ := hrun
      obtain ⟨hprinted, hst'⟩ := hst'.flush
      obtain ⟨hos, hend⟩ := ih hss hst'
      exact ⟨.cons ⟨ho, hprinted⟩ hos, hend⟩

/-- Behind tokens without mistakes that end with a semicolon, other tokens are read as they are by themselves. -/
theorem Program.ofTokens_append {ts : List Token} {p : Program} (hp : ofTokens? ts = .ok p)
    (hend : ∀ t ∈ ts.getLast?, t.kind = .semicolon) (ts' : List Token) (bytes lines : Nat) :
    ofTokens (ts ++ ts'.map (.behind bytes lines)) =
      (p ++ stmtsMapLines (· + lines) (ofTokens ts').1, (ofTokens ts').2.map (.behind bytes lines)) := by
  unfold ofTokens? at hp
  split at hp
  · next q hread =>
    obtain rfl := Except.ok.inj hp
    unfold ofTokens at hread ⊢
    rw [Parser.program_append ts _ hend (by rw [hread]), hread, Parser.program_behind]
  · cases hp

/-- Where a source without mistakes that is empty or ends with a semicolon stands before another source that lexes,
the two are read as the statements of the first, followed by those of the second and its mistakes, the lines of the
second moved by those of the first. One by one, the statements come to the same, up to lines, as those of the first
and then those of the second. -/
theorem concatenation_is_one_after_the_other (source source' : String) (ts ts' : List Token) (p : Program)
    (hts : Token.significant source = .ok ts) (hp : Program.ofTokens? ts = .ok p)
    (hend : ∀ t ∈ ts.getLast?, t.kind = .semicolon) (hts' : Token.significant source' = .ok ts') :
    let bytes := utf8Length source.toList + 1
    let lines := source.toList.count '\n' + 1
    let p' := Program.ofTokens ts'
    let both := ts ++ ts'.map (.behind bytes lines)
    Token.significant (source ++ "\n" ++ source') = .ok both ∧
      Program.ofTokens both = (p ++ stmtsMapLines (· + lines) p'.1, p'.2.map (.behind bytes lines)) ∧
        ∀ (st : Store) (env : Env),
          let first := Session.statementwise st env p
          let second := Session.statementwise first.2 env p'.1
          let together := Session.statementwise st env (Program.ofTokens both).1
          List.Forall₂ (AlikeAndPrinted .upToLines) together.1 (first.1 ++ second.1) ∧
            together.2.Like .upToLines second.2 := by
  intro bytes lines p' both
  have hboth : Program.ofTokens both = (p ++ stmtsMapLines (· + lines) p'.1, p'.2.map (.behind bytes lines)) :=
    Program.ofTokens_append hp hend ts' bytes lines
  refine ⟨Token.significant_append hts hts', hboth, fun st env => ?_⟩
  have hmoved : stmtsMapLines Likeness.upToLines.line (p ++ stmtsMapLines (· + lines) p'.1) =
      stmtsMapLines Likeness.upToLines.line (p ++ p'.1) := by
    rw [stmtsMapLines_append, stmtsMapLines_append, stmtsMapLines_stmtsMapLines]
    rfl
  have halike := Session.statementwise_alike env hmoved st.like_upToLines
  rw [Session.statementwise_append st env p p'.1] at halike
  intro first second together
  have htogether : together = Session.statementwise st env (p ++ stmtsMapLines (· + lines) p'.1) :=
    congrArg (fun read => Session.statementwise st env read.1) hboth
  rw [htogether]
  exact halike

/-- Before the line break a comment, behind it a statement that is broken off at its first token. -/
theorem broken_statement_behind_comment :
    let ts : List Token := [⟨.letWord, 0, 3, 0, "let"⟩, ⟨.identifier, 4, 5, 0, "a"⟩, ⟨.equal, 6, 7, 0, "="⟩,
      ⟨.integer, 8, 9, 0, "1"⟩, ⟨.semicolon, 9, 10, 0, ";"⟩]
    let ts' : List Token := [⟨.rightParen, 0, 1, 0, ")"⟩, ⟨.semicolon, 2, 3, 1, ";"⟩, ⟨.identifier, 4, 5, 1, "a"⟩]
    let both := ts ++ ts'.map (.behind 16 1)
    Token.significant "let a = 1; // a\n)\n; a" = .ok both ∧
      Program.ofTokens both = ([.binding "a" (.literal (.integer 1)), .expression (.name 3 "a")],
        [⟨.noOperand ⟨.rightParen, 16, 17, 1, ")"⟩, 3, 0⟩]) := by
  intro ts ts' both
  have hts : Token.significant "let a = 1; // a" = .ok ts := by decide +kernel
  have hp : Program.ofTokens? ts = .ok [.binding "a" (.literal (.integer 1))] := by decide +kernel
  have hts' : Token.significant ")\n; a" = .ok ts' := by decide +kernel
  have hread : Program.ofTokens ts' =
      ([.expression (.name 2 "a")], [⟨.noOperand ⟨.rightParen, 0, 1, 0, ")"⟩, 3, 0⟩]) := by decide +kernel
  have htogether := concatenation_is_one_after_the_other "let a = 1; // a" ")\n; a" ts ts' _ hts hp (by decide) hts'
  rw [hread] at htogether
  exact ⟨htogether.1, htogether.2.1⟩

end Monkey
