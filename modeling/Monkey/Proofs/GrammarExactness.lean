import Monkey.Proofs.GrammarCompleteness

/-! Reading and the grammar agree: a program is read without a mistake exactly when the tokens derive it. -/
namespace Monkey.Grammar
open Token (Kind)
open Monkey.Parser Reply

theorem statements_of_program {ts : List Token} {p : Program} (h : program ts = (p, [])) :
    Statements ts p [] := by
  cases ts with
  | nil =>
    rw [program] at h
    cases h
    exact .nil
  | cons t ts =>
    obtain ⟨s, us, ss, hs, hp, rfl⟩ := program_cons_eq_nil.mp h
    have := hs.length_le
    exact .cons (statement_of_reads hs) (statements_of_program hp)
termination_by ts.length
decreasing_by
  subst_vars
  simp only [List.length_cons]
  omega

/-- A derived statement in front of a derived program is read, and the rest as it is read without it. -/
theorem Statement.program {ts us : List Token} {s : Stmt} {ss : List Stmt} (hs : Statement ts s us)
    (hss : Statements us ss []) (hread : Parser.program us = (ss, [])) : Parser.program ts = (s :: ss, []) := by
  have hnext {k : Kind} (hk : startsStatement k = false) : nextKind us ≠ some k :=
    hss.next hk (Option.some_ne_none k).symm
  obtain ⟨t, vs, rfl, _, hfirst⟩ := hs.reads (hnext rfl) (hnext rfl)
  exact program_cons_eq_nil.mpr ⟨_, _, _, hfirst, hread, rfl⟩

theorem program_nil : Parser.program [] = ([], []) := by rw [Parser.program]

theorem Statements.program {ts us : List Token} {ss : List Stmt} :
    Statements ts ss us → us = [] → program ts = (ss, [])
  | .nil, hus => hus ▸ program_nil
  | .cons hs hss, hus => hs.program (hus ▸ hss) (hss.program hus)

theorem program_eq_iff_derives {ts : List Token} {p : Program} :
    Parser.program ts = (p, []) ↔ Derives ts p :=
  ⟨statements_of_program, fun h => Statements.program h rfl⟩

theorem ofTokens?_eq_ok_iff {ts : List Token} {p : Program} :
    Program.ofTokens? ts = .ok p ↔ Parser.program ts = (p, []) := by
  rw [Program.ofTokens?, Program.ofTokens]
  rcases Parser.program ts with ⟨q, errors⟩
  cases errors with
  | nil => simp
  | cons e es => simp

/-- The tokens of a mistake-free program derive it and no other, and every program they derive is read. -/
theorem reads_exactly_what_derives (ts : List Token) :
    (∀ p, Program.ofTokens? ts = .ok p ↔ Derives ts p) ∧ ∀ p q, Derives ts p → Derives ts q → p = q := by
  have reads (p : Program) : Program.ofTokens? ts = .ok p ↔ Derives ts p :=
    ofTokens?_eq_ok_iff.trans program_eq_iff_derives
  refine ⟨reads, fun p q hp hq => ?_⟩
  have hpq := ((reads p).mpr hp).symm.trans ((reads q).mpr hq)
  exact Except.ok.inj hpq

theorem difference_leans_left :
    let a : Token := ⟨.identifier, 0, 1, 0, "a"⟩
    let minus : Token := ⟨.minus, 1, 2, 0, "-"⟩
    let difference := Expr.binary 1 .subtract (.binary 1 .subtract (.name 1 "a") (.name 1 "a")) (.name 1 "a")
    Program.ofTokens? [a, minus, a, minus, a] = .ok [.expression difference] ∧
      ∀ p, Derives [a, minus, a, minus, a] p → p = [.expression difference] := by
  intro a minus difference
  have name (rest : List Token) : Phrase .atom (a :: rest) (.name 1 "a") rest := .name (t := a) rfl
  have left (rest : List Token) : Phrase .sum (a :: minus :: a :: rest)
      (.binary 1 .subtract (.name 1 "a") (.name 1 "a")) rest :=
    .chain (by decide) ((name _).loosen (by decide)) (t := minus) rfl ((name _).loosen (by decide))
  have whole : Phrase .sum [a, minus, a, minus, a] difference [] :=
    .chain (by decide) (left _) (t := minus) rfl ((name _).loosen (by decide))
  have derived : Derives [a, minus, a, minus, a] [.expression difference] :=
    .cons (.expression (whole.loosen (by decide)) (.omitted nofun)) .nil
  exact ⟨((reads_exactly_what_derives _).1 _).mpr derived,
    fun p hp => (reads_exactly_what_derives _).2 _ _ hp derived⟩

end Monkey.Grammar
