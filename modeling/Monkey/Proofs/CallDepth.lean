import Monkey.Proofs.MachineRuns
import Monkey.Proofs.MachineSteps

/-! The environment and the call depth of an interpreter. At every moment the depth is that of the start and
one more for each body that is being evaluated; and however an evaluation ends, both are what they were. -/
namespace Monkey
namespace Machine

/-- How many bodies of functions have been entered and not yet left. -/
def bodies : List Frame → Nat
  | [] => 0
  | .body _ :: stack => bodies stack + 1
  | .node _ :: stack | .pending _ :: stack => bodies stack

/-- The depth of a machine that started at `depth`. -/
structure Level (depth : Nat) (m : Machine) : Prop where
  depth_eq : m.depth = depth + bodies m.stack
  depth_le : m.depth ≤ maxCallDepth

variable {depth : Nat} {m m' : Machine}

theorem Within.depth_eq {k : Nat} (h : Within k m m') (hm : m.depth = depth + bodies m.stack) :
    m'.depth = depth + bodies m'.stack := by
  have hbodies : bodies m'.stack = bodies m.stack := by
    rcases h.stack with ⟨hstack, _⟩ | ⟨p, hstack, _⟩
    · rw [hstack]
    · rw [hstack]
      rfl
  rw [h.depth, hbodies, hm]

theorem Moves.depth_eq (h : Moves m m') (hm : m.depth = depth + bodies m.stack) :
    m'.depth = depth + bodies m'.stack := by
  cases h with
  | opens n _ h => exact h.depth_eq hm
  | works h => exact h.depth_eq hm
  | enters env store body hdepth h =>
    subst h
    exact congrArg (· + 1) hm
  | closes n stack hstack h =>
    rw [hstack] at hm
    exact h.depth_eq hm
  | resumes p stack hstack h =>
    rw [hstack] at hm
    exact h.depth_eq hm
  | leaves env stack hstack o h =>
    subst h
    rw [hstack] at hm
    exact Nat.sub_eq_of_eq_add hm

theorem Moves.depth_le (h : Moves m m') (hm : m.depth ≤ maxCallDepth) : m'.depth ≤ maxCallDepth := by
  cases h with
  | opens _ _ h | works h | closes _ _ _ h | resumes _ _ _ h => exact h.depth ▸ hm
  | enters env store body hdepth h =>
    subst h
    exact hdepth
  | leaves env stack hstack o h =>
    subst h
    exact Nat.le_trans (Nat.sub_le m.depth 1) hm

theorem Moves.level (h : Moves m m') (hm : Level depth m) : Level depth m' :=
  ⟨h.depth_eq hm.depth_eq, h.depth_le hm.depth_le⟩

theorem Steps.level (h : Steps m m') (hm : Level depth m) : Level depth m' := by
  induction h with
  | refl => exact hm
  | tail _ hstep ih => exact (moves_of_step hstep).level ih

end Machine

namespace Interpreter
open Machine

/-- What is left when an interpreter has done what it was told: nothing is under way, and only the store may
have changed. -/
def finished (i : Interpreter) (o : Outcome) (st : Store) : Machine :=
  { env := i.env, depth := i.depth, store := st, control := .done o, stack := [] }

theorem steps_finished (i : Interpreter) (t : Task) (hdepth : i.depth ≤ maxCallDepth) :
    let result := i.store.run (t.run (Eval.apply (maxCallDepth - i.depth)) i.env)
    Steps (i.start t) (i.finished result.1 result.2) := steps_task t (i.start t) hdepth

/-- A machine comes to one end. -/
theorem ends_iff (i : Interpreter) (t : Task) (hdepth : i.depth ≤ maxCallDepth) :
    let result := i.store.run (t.run (Eval.apply (maxCallDepth - i.depth)) i.env)
    ∀ m, Steps (i.start t) m ∧ m.step = none ↔ m = i.finished result.1 result.2 := by
  intro result m
  have hend := i.steps_finished t hdepth
  refine ⟨fun ⟨hm, hlast⟩ => eq_of_steps hend rfl hm hlast, ?_⟩
  rintro rfl
  exact ⟨hend, rfl⟩

/-- Whatever an interpreter is told to do, its depth is at every moment that of the start and one more for each
body entered and not yet left, and within the limit; and it ends once, as evaluation does, whether with a
value, a return signal or an error, in the environment and at the depth of the start. -/
theorem handed_back_as_found (i : Interpreter) (t : Task) (hdepth : i.depth ≤ maxCallDepth) :
    let result := i.store.run (t.run (Eval.apply (maxCallDepth - i.depth)) i.env)
    (∀ m, Steps (i.start t) m → m.depth = i.depth + bodies m.stack ∧ m.depth ≤ maxCallDepth) ∧
      ∀ m, Steps (i.start t) m ∧ m.step = none ↔ m = i.finished result.1 result.2 := by
  intro result
  have hend : Steps (i.start t) (i.finished result.1 result.2) := steps_finished i t hdepth
  refine ⟨fun m hm => ?_, fun m => ⟨fun ⟨hm, hlast⟩ => eq_of_steps hend rfl hm hlast, ?_⟩⟩
  · have hlevel : Level i.depth m := hm.level ⟨rfl, hdepth⟩
    exact ⟨hlevel.depth_eq, hlevel.depth_le⟩
  · rintro rfl
    exact ⟨hend, rfl⟩

/-- Where no call may be nested any more, a call is refused, and the interpreter is as it was. -/
theorem refused_call_hands_back :
    let i : Interpreter := { env := 0, depth := maxCallDepth, store := Store.start.2 }
    ∀ m, Steps (i.start (.call (.function ⟨[], [], 0⟩) [])) m ∧ m.step = none ↔
      m = i.finished (.error ⟨.callsTooDeep, none⟩) i.store :=
  (handed_back_as_found { env := 0, depth := maxCallDepth, store := Store.start.2 }
    (.call (.function ⟨[], [], 0⟩) []) (Nat.le_refl _)).2

end Interpreter
end Monkey
