import Monkey.Proofs.Reachability
import Monkey.Proofs.Soundness
import Monkey.Session

/-! A session never refers to what has not been made, whatever commands it is given. So two interpreters need only
agree on the environments that a call reaches. -/
namespace Monkey

def Outcome.refs : Outcome → List Ref
  | .value v | .returned v => v.refs
  | .error _ => []

/-- What the values of a result refer to, if there is one. -/
def refsOfResult {ε α : Type} (refs : α → List Ref) : Except ε α → List Ref
  | .ok a => refs a
  | .error _ => []

theorem refsOfResult_mapError {ε ε' α : Type} (refs : α → List Ref) (f : ε → ε') (result : Except ε α) :
    refsOfResult refs (result.mapError f) = refsOfResult refs result := by
  cases result <;> rfl

def Answer.refs : Answer → List Ref
  | .ran result => refsOfResult Value.refs result
  | .evaluated result => refsOfResult Value.refs result
  | .statements _ results => results.flatMap fun result => result.1.refs
  | .called outcome => outcome.refs
  | .bound v? => v?.elim [] Value.refs
  | .compared values => refsOfAll values
  | .notCallable | .added _ | .parent _ | .failed _ => []

namespace Store

/-- A later store, where all that the first part refers to has been made. -/
def Gives {α : Type} (st : Store) (refs : α → List Ref) (result : α × Store) : Prop :=
  st.Leads result.2 ∧ result.2.Holds (refs result.1)

variable {st : Store} {env : Env} {rs : List Ref}

theorem gives_run {x : Run Value} (hx : Run.Keeps rs Value.refs x) (hst : st.Sound) (hrs : st.Holds rs) :
    st.Gives Outcome.refs (st.run x) := by
  have h := hx st hst hrs
  unfold run
  cases hrun : x st with
  | ok v st' => rwa [hrun] at h
  | error e st' =>
    rw [hrun] at h
    cases e with
    | returned v => exact h
    | error e => exact h

theorem gives_runStatement (hst : st.Sound) (henv : st.Holds [.environment env]) (s : Stmt) :
    st.Gives Outcome.refs (st.runStatement env s) :=
  gives_run (Eval.keeps_stmt (Eval.appliesSoundly_apply maxCallDepth) s (List.mem_singleton_self _)) hst henv

theorem gives_runProgram (hst : st.Sound) (henv : st.Holds [.environment env]) (p : Program) :
    st.Gives (refsOfResult Value.refs) (st.runProgram env p) := by
  have h := gives_run (Eval.keeps_stmts (Eval.appliesSoundly_apply maxCallDepth) p .null
    (List.mem_singleton_self (Ref.environment env)) (List.nil_subset _)) hst henv
  unfold runProgram
  generalize st.run (Eval.stmts (Eval.apply maxCallDepth) env .null p) = r at h ⊢
  obtain ⟨outcome, st'⟩ := r
  cases outcome <;> exact h

theorem gives_runSource (hst : st.Sound) (henv : st.Holds [.environment env]) (text : String) :
    st.Gives (refsOfResult Value.refs) (st.runSource env text) := by
  unfold runSource
  split
  · exact ⟨.refl hst, holds_nil⟩
  · next p hp =>
    have h := gives_runProgram hst henv p
    split
    · next v st' hrun => rwa [hrun] at h
    · next e st' hrun => rwa [hrun] at h

theorem gives_runSources (hst : st.Sound) (henv : st.Holds [.environment env]) (texts : List String) :
    st.Gives (refsOfResult refsOfAll) (st.runSources env texts) := by
  induction texts generalizing st with
  | nil => exact ⟨.refl hst, holds_nil⟩
  | cons text texts ih =>
    have h := gives_runSource hst henv text
    rw [runSources]
    split
    · next failure st' hrun => rwa [hrun] at h
    · next v st' hrun =>
      rw [hrun] at h
      have h' := ih h.1.sound (henv.leads h.1)
      split
      · next failure st'' hruns =>
        rw [hruns] at h'
        exact ⟨h.1.trans h'.1, h'.2⟩
      · next vs st'' hruns =>
        rw [hruns] at h'
        exact ⟨h.1.trans h'.1, (h.2.leads h'.1).append h'.2⟩

theorem gives_call {callee : Value} {args : List Value} {result : Outcome × Store} (hst : st.Sound)
    (hargs : st.Holds (refsOfAll args)) (h : st.call? callee args = some result) :
    st.Gives Outcome.refs result := by
  cases callee with
  | function id f =>
    obtain rfl := Option.some.inj h
    exact gives_run (Eval.appliesSoundly_apply maxCallDepth f args) hst hargs
  | builtin b =>
    obtain rfl := Option.some.inj h
    exact gives_run (keeps_builtin b (List.Subset.refl _)) hst hargs
  | _ => cases h

theorem gives_statementwise (hst : st.Sound) (henv : st.Holds [.environment env]) (ss : List Stmt) :
    st.Gives (fun results => results.flatMap fun result => result.1.refs) (Session.statementwise st env ss) := by
  induction ss generalizing st with
  | nil => exact ⟨.refl hst, holds_nil⟩
  | cons s ss ih =>
    have h := gives_runStatement hst henv s
    have hflushed : st.Leads (st.runStatement env s).2.flush.2 := h.1.trans h.1.sound.flush
    have h' := ih hflushed.sound (henv.leads hflushed)
    exact ⟨hflushed.trans h'.1, ((h.2.leads h.1.sound.flush).leads h'.1).append h'.2⟩

end Store

namespace Session

/-- All that the values and the interpreters of a session refer to has been made. -/
structure Sound (s : Session) : Prop where
  store : s.store.Sound
  envs : ∀ env ∈ s.envs, s.store.Made (.environment env)

variable {s : Session} {env : Env}

theorem Sound.leads {store : Store} (h : s.Sound) (hl : s.store.Leads store) : Sound { s with store } :=
  ⟨hl.sound, fun env henv => (h.envs env henv).later hl.envs hl.ids⟩

theorem Sound.add (h : s.Sound) (parent : Option Env) {bindings : Bindings}
    (hb : ∀ b ∈ bindings, s.store.Holds b.2.refs) : (s.add parent bindings).2.Sound := by
  have hl := h.store.enter parent hb
  refine ⟨hl.sound, fun env henv => ?_⟩
  rcases Array.mem_push.mp henv with henv | rfl
  · exact (h.envs env henv).later hl.envs hl.ids
  · simp [Store.Made, Session.add, Store.enter]

theorem holds_globals (st : Store) : ∀ b ∈ Store.globals, st.Holds b.2.refs := by
  intro b hb
  obtain ⟨builtin, hbuiltin⟩ := Store.mem_globals hb
  rw [hbuiltin]
  exact Store.holds_nil

theorem sound_start : start.Sound := by
  have hempty : Store.empty.Sound := fun env x v hv => by simp [Store.empty, Store.bindings] at hv
  refine ⟨(hempty.enter none (holds_globals _)).sound, fun env henv => ?_⟩
  obtain rfl : env = 0 := by simpa [start, Store.start, Store.enter, Store.empty] using henv
  exact Nat.zero_lt_one

/-- The session is sound, and the answer that comes with it refers only to what has been made. -/
structure Reports (result : Answer × Session) : Prop where
  sound : result.2.Sound
  made : result.2.store.Holds result.1.refs

theorem Sound.reports {answer : Answer} {store : Store} (h : s.Sound) (hl : s.store.Leads store)
    (hrefs : store.Holds answer.refs) : Reports (answer, { s with store }) := ⟨h.leads hl, hrefs⟩

theorem Sound.reports_call (h : s.Sound) (hat : s.store.Holds [.environment env]) (callee : String)
    (args : List String) : Reports (s.perform env (.call callee args)) := by
  have hrun := Store.gives_runSources h.store hat (callee :: args)
  rw [Session.perform]
  split
  · next hruns =>
    rw [hruns] at hrun
    exact h.reports hrun.1 Store.holds_nil
  · next hruns =>
    rw [hruns] at hrun
    exact h.reports hrun.1 Store.holds_nil
  · next v vs st hruns =>
    rw [hruns] at hrun
    have hargs : st.Holds (refsOfAll vs) := hrun.2.subset (List.subset_append_right ..)
    split
    · exact h.reports hrun.1 Store.holds_nil
    · next outcome st' hcall =>
      have hcalled := Store.gives_call hrun.1.sound hargs hcall
      exact h.reports (hrun.1.trans hcalled.1) hcalled.2

theorem Sound.reports_set (h : s.Sound) (hat : s.store.Holds [.environment env]) (name source : String) :
    Reports (s.perform env (.set name source)) := by
  have hrun := Store.gives_runSource h.store hat source
  rw [Session.perform]
  split
  · next hruns =>
    rw [hruns] at hrun
    exact h.reports hrun.1 Store.holds_nil
  · next v st hruns =>
    rw [hruns] at hrun
    have hbound := hrun.1.sound.bind env name hrun.2
    exact h.reports (hrun.1.trans hbound) (Store.Holds.leads hrun.2 hbound)

theorem Sound.perform (h : s.Sound) (henv : env ∈ s.envs) (c : Command) : Reports (s.perform env c) := by
  have hat : s.store.Holds [.environment env] := List.forall_mem_singleton.mpr (h.envs env henv)
  cases c with
  | run source =>
    have hrun := Store.gives_runSource h.store hat source
    refine h.reports hrun.1 ?_
    rw [Answer.refs, refsOfResult_mapError]
    exact hrun.2
  | evaluate source =>
    have hrun := Store.gives_runSource h.store hat source
    exact h.reports hrun.1 hrun.2
  | statements source =>
    rw [Session.perform]
    split
    · exact ⟨h, Store.holds_nil⟩
    · next tokens _ =>
      have hrun := Store.gives_statementwise h.store hat (Program.ofTokens tokens).1
      exact h.reports hrun.1 hrun.2
  | call callee args => exact h.reports_call hat callee args
  | get name =>
    refine ⟨h, ?_⟩
    rw [Session.perform, Answer.refs]
    cases hv : s.store.lookup env name with
    | some v => exact h.store.lookup hv
    | none => exact Store.holds_nil
  | set name source => exact h.reports_set hat name source
  | newGlobal => exact ⟨h.add none (holds_globals _), Store.holds_nil⟩
  | newBare => exact ⟨h.add none fun _ hb => (nomatch hb), Store.holds_nil⟩
  | newChild => exact ⟨h.add (some env) fun _ hb => (nomatch hb), Store.holds_nil⟩
  | parent => exact ⟨h, Store.holds_nil⟩
  | compare sources =>
    have hrun := Store.gives_runSources h.store hat sources
    rw [Session.perform]
    split
    · next hruns =>
      rw [hruns] at hrun
      exact h.reports hrun.1 Store.holds_nil
    · next hruns =>
      rw [hruns] at hrun
      exact h.reports hrun.1 hrun.2

theorem Sound.step {s' : Session} {number : Nat} {c : Command} {answer : Answer} {printed : String}
    (h : s.Sound) (hstep : s.step? number c = some (answer, printed, s')) : Reports (answer, s') := by
  obtain ⟨env, henv, hstep⟩ := Option.map_eq_some_iff.mp hstep
  obtain ⟨hs, hrefs⟩ := h.perform (Array.mem_of_getElem? henv) c
  cases hstep
  exact hs.reports hs.store.flush (hrefs.leads hs.store.flush)

/-- The sessions that commands lead to. -/
inductive Arises : Session → Prop where
  | start : Arises start
  | step {s s' : Session} {number : Nat} {c : Command} {answer : Answer} {printed : String} :
      Arises s → s.step? number c = some (answer, printed, s') → Arises s'

theorem Arises.sound (h : s.Arises) : s.Sound := by
  induction h with
  | start => exact sound_start
  | step _ hstep ih => exact (ih.step hstep).sound

end Session

namespace Store

variable {st st' : Store} {rs : List Ref} {r : Ref}

theorem Reaches.made (h : st.Reaches rs r) (hst : st.Sound) (hrs : st.Holds rs) : st.Made r := by
  induction h with
  | given hr => exact hrs _ hr
  | around _ hp ih => exact Nat.lt_trans (parent?_lt hp) ih
  | bound _ hv hr _ => exact hst _ _ _ hv _ hr

theorem Reaches.same (hsame : ∀ i, st.Reaches rs (.environment i) → st.SameAt st' i) (h : st.Reaches rs r) :
    st'.Reaches rs r := by
  induction h with
  | given hr => exact .given hr
  | around hi hp ih => exact .around ih ((hsame _ hi).parent ▸ hp)
  | bound hi hv hr ih => exact .bound ih ((hsame _ hi).bindings _ ▸ hv) hr

end Store

end Monkey
