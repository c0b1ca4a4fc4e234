import Mathlib
import Monkey.Proofs.Parallel
import Monkey.Proofs.RoundTrip

/-! Lines are there for messages only. Programs that differ in nothing but the lines they record, run from stores
that differ in nothing else, do the same; so the text of a program does what the program does. -/
namespace Monkey

/-- The same environments and identities, and any lines. -/
def Likeness.upToLines : Likeness where
  first := Store.empty
  second := Store.empty
  line _ := 1
  envs := Eq
  ids := Eq
  envs_unique h h' := by rw [h, h']
  ids_unique h h' := by rw [h, h']
  envs_later _ := rfl
  ids_later _ := rfl

theorem Likeness.upToLines_fixes (r : Ref) : upToLines.Fixes r := by cases r <;> rfl

/-- Two runs end alike: both in a value, or both in a failure. -/
inductive ResultLike (R : Likeness) {ε : Type} (failsAlike : ε → ε → Prop) :
    Except ε Value → Except ε Value → Prop where
  | ok {v w : Value} : v.Like R w → ResultLike R failsAlike (.ok v) (.ok w)
  | error {e e' : ε} : failsAlike e e' → ResultLike R failsAlike (.error e) (.error e')

/-- Both fail while they run. -/
inductive Failure.Like (R : Likeness) : Failure → Failure → Prop where
  | runtime {e e' : RuntimeError} : e.Like R e' → Failure.Like R (.runtime e) (.runtime e')

namespace Store

variable {R : Likeness} {st st' : Store} {i j : Env}

theorem Like.runProgram (hst : st.Like R st') (hij : R.envs i j) {p q : Program}
    (hpq : stmtsMapLines R.line p = stmtsMapLines R.line q) :
    ResultLike R (RuntimeError.Like R) (st.runProgram i p).1 (st'.runProgram j q).1 ∧
      (st.runProgram i p).2.Like R (st'.runProgram j q).2 := by
  have hrun := (Eval.parallel_stmts (Eval.parallel_apply maxCallDepth) hij p q hpq .null).run hst
  unfold Store.runProgram
  generalize st.run (Eval.stmts (Eval.apply maxCallDepth) i .null p) = r at hrun
  generalize st'.run (Eval.stmts (Eval.apply maxCallDepth) j .null q) = r' at hrun
  obtain ⟨o, st⟩ := r
  obtain ⟨o', st'⟩ := r'
  obtain ⟨ho, hst'⟩ := hrun
  cases ho with
  | value hv => exact ⟨.ok hv, hst'⟩
  | returned hv => exact ⟨.ok hv, hst'⟩
  | error he => exact ⟨.error he, hst'⟩

theorem runSource_of_ok {source : String} {p : Program} (hp : Program.ofSource source = .ok p) :
    st.runSource i source = ((st.runProgram i p).1.mapError .runtime, (st.runProgram i p).2) := by
  unfold runSource
  rw [hp]
  dsimp only
  generalize st.runProgram i p = r
  obtain ⟨v | e, st⟩ := r <;> rfl

/-- A store is what it is up to lines. -/
theorem like_upToLines (st : Store) : st.Like .upToLines st where
  scopes {i j} hij := by
    obtain rfl : i = j := hij
    cases st.scopes[i]? with
    | none => exact .none
    | some s =>
      refine .some ⟨fun x => ?_, ?_⟩
      · cases s.bindings.lookup x with
        | none => exact .none
        | some v => exact .some (v.like_self fun r _ => Likeness.upToLines_fixes r)
      · cases s.parent with
        | none => exact .none
        | some p => exact .some rfl
  envs_made := ⟨st.scopes.size, (Nat.zero_add _).symm, (Nat.zero_add _).symm⟩
  ids_made := ⟨st.nextId, (Nat.zero_add _).symm, (Nat.zero_add _).symm⟩
  printed := ⟨st.output, String.empty_append.symm, String.empty_append.symm⟩

end Store

theorem ResultLike.mapError {R : Likeness} {r r' : Except RuntimeError Value}
    (h : ResultLike R (RuntimeError.Like R) r r') :
    ResultLike R (Failure.Like R) (r.mapError .runtime) (r'.mapError .runtime) := by
  cases h with
  | ok hv => exact .ok hv
  | error he => exact .error (.runtime he)

theorem stmtsMapLines_eq_of_onFirstLine {p q : Program} (h : p.onFirstLine = q.onFirstLine) :
    stmtsMapLines Likeness.upToLines.line p = stmtsMapLines Likeness.upToLines.line q := by
  rwa [Program.onFirstLine, Program.onFirstLine, ← stmtsMapLines_one, ← stmtsMapLines_one] at h

theorem Program.onFirstLine_onFirstLine (p : Program) : p.onFirstLine.onFirstLine = p.onFirstLine := by
  simp only [Program.onFirstLine, ← stmtsMapLines_one, stmtsMapLines_stmtsMapLines]
  rfl

theorem Program.writable_of_ofSource {source : String} {p : Program} (hp : Program.ofSource source = .ok p) :
    p.Writable := by
  unfold Program.ofSource at hp
  split at hp
  · cases hp
  · next ts hts =>
    have hsurvivors := survivors_writable hts
    unfold Program.ofTokens? at hp
    cases hread : Program.ofTokens ts with
    | mk p' errors =>
      rw [hread] at hp hsurvivors
      cases errors with
      | nil =>
        obtain rfl := Except.ok.inj hp
        exact hsurvivors
      | cons _ _ => cases hp

/-- The text of a program is read as the program, up to lines. -/
theorem Program.ofSource_source {p : Program} (hp : p.Writable) : Program.ofSource p.source = .ok p.onFirstLine := by
  obtain ⟨ts, hts, hread⟩ := Program.readsBack hp
  simp only [Program.ofSource, hts, hread]

/-- From any store and environment the text of a program gives what its source gives: an alike value, or the same
fault at some line, with the same text printed and alike bindings in every environment. And so do any two programs
that are equal up to lines, from stores that are. -/
theorem text_means_what_its_source_means :
    (∀ source p, Program.ofSource source = .ok p → ∀ (st : Store) (env : Env),
      let R := Likeness.upToLines
      ResultLike R (Failure.Like R) (st.runSource env p.source).1 (st.runSource env source).1 ∧
        (st.runSource env p.source).2.Like R (st.runSource env source).2) ∧
    ∀ (p q : Program) (st st' : Store) (env : Env),
      let R := Likeness.upToLines
      p.onFirstLine = q.onFirstLine → st.Like R st' →
        ResultLike R (RuntimeError.Like R) (st.runProgram env p).1 (st'.runProgram env q).1 ∧
          (st.runProgram env p).2.Like R (st'.runProgram env q).2 := by
  have hprograms : ∀ (p q : Program) (st st' : Store) (env : Env), p.onFirstLine = q.onFirstLine →
      st.Like .upToLines st' →
        ResultLike .upToLines (RuntimeError.Like .upToLines) (st.runProgram env p).1 (st'.runProgram env q).1 ∧
          (st.runProgram env p).2.Like .upToLines (st'.runProgram env q).2 :=
    fun p q st st' env hpq hst => hst.runProgram rfl (stmtsMapLines_eq_of_onFirstLine hpq)
  refine ⟨fun source p hp st env => ?_, hprograms⟩
  have htext : Program.ofSource p.source = .ok p.onFirstLine :=
    Program.ofSource_source (Program.writable_of_ofSource hp)
  rw [Store.runSource_of_ok hp, Store.runSource_of_ok htext]
  obtain ⟨hresult, hst⟩ := hprograms _ _ st st env p.onFirstLine_onFirstLine st.like_upToLines
  exact ⟨hresult.mapError, hst⟩

/-- A name that nothing stands for is missed on line 2 of a source, and on line 1 of its text. -/
theorem missing_name_means_the_same :
    let R := Likeness.upToLines
    let p : Program := [.expression (.name 2 "x")]
    Program.ofSource "\nx" = .ok p ∧
      ResultLike R (Failure.Like R) (Store.start.2.runSource 0 p.source).1 (Store.start.2.runSource 0 "\nx").1 ∧
        ResultLike R (RuntimeError.Like R) (Store.start.2.runProgram 0 p.onFirstLine).1
          (Store.start.2.runProgram 0 p).1 := by
  intro R p
  have htokens : Token.significant "\nx" = .ok [⟨.identifier, 1, 2, 1, "x"⟩] := by decide +kernel
  have hread : Program.ofTokens? [⟨.identifier, 1, 2, 1, "x"⟩] = .ok p := by decide +kernel
  have hp : Program.ofSource "\nx" = .ok p := by simp only [Program.ofSource, htokens, hread]
  obtain ⟨hsource, -⟩ := text_means_what_its_source_means.1 "\nx" p hp Store.start.2 0
  obtain ⟨hprogram, -⟩ := text_means_what_its_source_means.2 p.onFirstLine p _ _ 0 p.onFirstLine_onFirstLine
    Store.start.2.like_upToLines
  exact ⟨hp, hsource, hprogram⟩

end Monkey
