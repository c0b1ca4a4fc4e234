import Monkey.Proofs.CallDepth

/-! Every evaluation ends. An evaluation nested in another one has fewer calls to go or, with as many to go, a
smaller piece of syntax; and looking a name up leads to older and older environments. -/
namespace Monkey
namespace Machine

/-- The evaluations under way, the innermost first: how many more calls each may nest, and the size of its
syntax. -/
def evaluations : Nat → List Frame → List (Nat × Nat)
  | _, [] => []
  | depth, .node n :: stack => (maxCallDepth - depth, n.size) :: evaluations depth stack
  | depth, .pending _ :: stack => evaluations depth stack
  | depth, .body _ :: stack => evaluations (depth - 1) stack

/-- The evaluations under way, the one that begins next among them. -/
def nested (m : Machine) : List (Nat × Nat) :=
  match m.control with
  | .task (.evaluate n) => (maxCallDepth - m.depth, n.size) :: evaluations m.depth m.stack
  | .task (.call _ _) | .find _ _ | .done _ => evaluations m.depth m.stack

/-- Syntax of size `k` fits on top of the stack: with what waits there it is smaller than the innermost node,
and so on downwards; a body is one call deeper than what is below it. -/
def Fits (k : Nat) (depth : Nat) : List Frame → Prop
  | [] => True
  | .node n :: stack => k < n.size ∧ Fits n.size depth stack
  | .pending p :: stack => Fits (k + p.size) depth stack
  | .body _ :: stack => 0 < depth ∧ depth ≤ maxCallDepth ∧ Fits 0 (depth - 1) stack

variable {k k' depth : Nat} {m m' : Machine}

theorem Fits.mono {stack : List Frame} (h : Fits k depth stack) (hk : k' ≤ k) : Fits k' depth stack := by
  induction stack generalizing k k' with
  | nil => trivial
  | cons f stack ih =>
    cases f with
    | node n => exact ⟨Nat.lt_of_le_of_lt hk h.1, h.2⟩
    | pending p => exact ih h (Nat.add_le_add_right hk p.size)
    | body env => exact h

theorem Within.fits (h : Within k m m') (hm : Fits k m.depth m.stack) :
    Fits m'.control.size m'.depth m'.stack := by
  rw [h.depth]
  rcases h.stack with ⟨hstack, hk⟩ | ⟨p, hstack, hk⟩
  · rw [hstack]
    exact hm.mono hk
  · rw [hstack]
    show Fits (m'.control.size + p.size) m.depth m.stack
    exact hm.mono hk

theorem Moves.fits (h : Moves m m') (hm : Fits m.control.size m.depth m.stack) :
    Fits m'.control.size m'.depth m'.stack := by
  cases h with
  | opens n hcontrol h =>
    rw [hcontrol] at hm
    exact h.fits ⟨Nat.sub_lt n.size_pos Nat.one_pos, hm⟩
  | works h => exact h.fits (hm.mono (Nat.zero_le _))
  | enters env store body hdepth h =>
    subst h
    exact ⟨Nat.succ_pos _, hdepth, hm.mono (Nat.zero_le _)⟩
  | closes n stack hstack h =>
    rw [hstack] at hm
    exact h.fits (hm.2.mono (Nat.zero_le _))
  | resumes p stack hstack h =>
    rw [hstack] at hm
    have hrest : Fits (m.control.size + p.size) m.depth stack := hm
    exact h.fits (hrest.mono (Nat.le_add_left _ _))
  | leaves env stack hstack o h =>
    subst h
    rw [hstack] at hm
    exact hm.2.2

theorem Steps.fits (h : Steps m m') (hm : Fits m.control.size m.depth m.stack) :
    Fits m'.control.size m'.depth m'.stack := by
  induction h with
  | refl => exact hm
  | tail _ hstep ih => exact (moves_of_step hstep).fits ih

/-- What fits on top of the stack is below each evaluation under way. -/
theorem Fits.below {stack : List Frame} (h : Fits k depth stack) {e : Nat × Nat}
    (he : e ∈ evaluations depth stack) : Prod.Lex (· < ·) (· < ·) (maxCallDepth - depth, k) e := by
  rw [Prod.lex_def]
  induction stack generalizing k depth with
  | nil => cases he
  | cons f stack ih =>
    cases f with
    | node n =>
      rcases List.mem_cons.mp he with rfl | he
      · exact .inr ⟨rfl, h.1⟩
      · have hn := ih h.2 he
        have hk := h.1
        dsimp only at *
        omega
    | pending p =>
      have hp := ih h he
      dsimp only at *
      omega
    | body env =>
      obtain ⟨hpos, hdepth, hstack⟩ := h
      have hbody := ih hstack he
      dsimp only at *
      omega

theorem Fits.pairwise {stack : List Frame} (h : Fits k depth stack) :
    (evaluations depth stack).Pairwise (Prod.Lex (· < ·) (· < ·)) := by
  induction stack generalizing k depth with
  | nil => exact .nil
  | cons f stack ih =>
    cases f with
    | node n => exact .cons (fun e he => h.2.below he) (ih h.2)
    | pending p => exact ih h
    | body env => exact ih h.2.2

/-- Along a run from a state in which nothing is under way, each evaluation is below all those around it. -/
theorem Steps.pairwise_nested {i : Interpreter} {t : Task} (h : Steps (i.start t) m) :
    m.nested.Pairwise (Prod.Lex (· < ·) (· < ·)) := by
  have hfits : Fits m.control.size m.depth m.stack := h.fits trivial
  unfold nested
  split
  · next n hcontrol =>
    rw [hcontrol] at hfits
    exact .cons (fun e he => hfits.below he) hfits.pairwise
  · exact hfits.pairwise
  · exact hfits.pairwise
  · exact hfits.pairwise

/-- One step of looking a name up ends it or leads to an older environment. -/
theorem search_older (m : Machine) (x : String) (env : Env) :
    (∃ o, (m.search x env).control = .done o) ∨
      ∃ parent, parent < env ∧ (m.search x env).control = .find x parent := by
  unfold search
  split
  · exact .inl ⟨_, rfl⟩
  · split
    · next parent hparent => exact .inr ⟨parent, Store.parent?_lt hparent, rfl⟩
    · exact .inl ⟨_, rfl⟩

end Machine

namespace Interpreter
open Machine

/-- Every evaluation ends. However functions refer to each other and to themselves, there are finitely many
steps to the end that evaluation gives; each evaluation has fewer calls to go than those that it is nested in,
or as many and smaller syntax; and each step of looking a name up ends it or leads to an older environment. -/
theorem every_evaluation_ends (i : Interpreter) (t : Task) (hdepth : i.depth ≤ maxCallDepth) :
    let result := i.store.run (t.run (Eval.apply (maxCallDepth - i.depth)) i.env)
    Acc (fun m' m => m.step = some m') (i.start t) ∧ Steps (i.start t) (i.finished result.1 result.2) ∧
      ∀ m, Steps (i.start t) m →
        m.nested.Pairwise (Prod.Lex (· < ·) (· < ·)) ∧
          ∀ x env m', m.control = .find x env → m.step = some m' →
            (∃ o, m'.control = .done o) ∨ ∃ parent, parent < env ∧ m'.control = .find x parent := by
  intro result
  have hend : Steps (i.start t) (i.finished result.1 result.2) := steps_finished i t hdepth
  refine ⟨acc_of_steps hend rfl, hend, fun m hm => ⟨hm.pairwise_nested, fun x env m' hcontrol hstep => ?_⟩⟩
  have hsearch : m.step = some (m.search x env) := by simp only [step, hcontrol]
  obtain rfl := Option.some.inj (hsearch.symm.trans hstep)
  exact search_older m x env

/-- The call of `fn(f) { f(f) }` with itself. -/
def selfApplication : Stmt :=
  let twice : Expr := .function ["f"] [.expression (.call 1 (.name 1 "f") [.name 1 "f"])]
  .expression (.call 1 twice [twice])

/-- A function that is passed to itself and calls itself comes to an end. -/
theorem self_application_ends :
    Acc (fun m' m => m.step = some m')
      (start { env := 0, depth := 0, store := Store.start.2 } (.evaluate (.stmt selfApplication))) :=
  (every_evaluation_ends { env := 0, depth := 0, store := Store.start.2 } (.evaluate (.stmt selfApplication))
    (Nat.zero_le _)).1

end Interpreter
end Monkey
