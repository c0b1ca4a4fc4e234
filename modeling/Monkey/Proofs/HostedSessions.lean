import Monkey.Proofs.CallDepth
import Monkey.Proofs.Hosting
import Monkey.Proofs.SessionSoundness

/-! A session is one way of hosting: whatever a command does, a host can bring about by its moves. So what holds of all
states of a host holds of the store of every session. -/
namespace Monkey
namespace Host
open Machine

/-- Moves lead to a state with this store in which nothing is under way. The host holds these values then, besides
those that it held before. -/
structure Settles (h : Host) (st : Store) (vs : List Value) (h' : Host) : Prop where
  later : Later h h'
  idle : h'.step = none
  store : h'.store = st
  holds : ∀ v ∈ vs, v ∈ h'.held
  keeps : ∀ v ∈ h.held, v ∈ h'.held

variable {h h' h'' : Host} {env : Env} {st : Store} {vs ws : List Value}

/-- Whether something is under way does not depend on the store. -/
theorem idle_of_store {m : Machine} (hidle : m.step = none) (st : Store) : step { m with store := st } = none := by
  simp only [step] at hidle ⊢
  cases hcontrol : m.control with
  | task t => cases t <;> simp [hcontrol] at hidle
  | find x env => simp [hcontrol] at hidle
  | done o =>
    cases hstack : m.stack with
    | nil => rfl
    | cons f stack => simp [hcontrol, hstack] at hidle

theorem settles_refl (hidle : h.step = none) : h.Settles h.store [] h :=
  ⟨.refl, hidle, rfl, List.forall_mem_nil _, fun _ => id⟩

theorem Settles.store_changed (hs : h.Settles st vs h') {st' : Store} (hmove : Move h' { h' with store := st' }) :
    h.Settles st' vs { h' with store := st' } :=
  ⟨hs.later.tail hmove, idle_of_store hs.idle st', rfl, hs.holds, hs.keeps⟩

theorem Settles.trans (hs : h.Settles st vs h') {st' : Store} (hs' : h'.Settles st' ws h'') :
    h.Settles st' (vs ++ ws) h'' :=
  ⟨hs.later.trans hs'.later, hs'.idle, hs'.store,
    List.forall_mem_append.mpr ⟨fun v hv => hs'.keeps v (hs.holds v hv), hs'.holds⟩,
    fun v hv => hs'.keeps v (hs.keeps v hv)⟩

theorem Settles.forget (hs : h.Settles st vs h') : h.Settles st [] h' :=
  { hs with holds := List.forall_mem_nil _ }

theorem Settles.flush (hs : h.Settles st vs h') : ∃ h'', h.Settles st.flush.2 vs h'' := by
  obtain rfl := hs.store
  exact ⟨_, hs.store_changed (.flush hs.idle)⟩

/-- The host tells an interpreter of its own what to do, waits for the end, and takes the value if there is one. -/
theorem settles_told (hidle : h.step = none) (henv : h.Exists env) {t : Task} (ht : t.HeldBy h.held) :
    let result := h.store.run (t.run (Eval.apply maxCallDepth) env)
    ∃ h', h.Settles result.2 result.1.values h' := by
  intro result
  let i : Interpreter := { env, depth := 0, store := h.store }
  let told : Host := { toMachine := i.finished result.1 result.2, held := h.held }
  have hlater : Later h told :=
    .head (.tell (i := i) hidle rfl henv ht) (later_of_steps (i.steps_finished t (Nat.zero_le _)) h.held)
  cases ho : result.1 with
  | error e => exact ⟨told, hlater, rfl, rfl, List.forall_mem_nil _, fun _ => id⟩
  | value v | returned v =>
    have hv : told.Has told.held v := .current (by simp [told, Interpreter.finished, Control.values, ho, Outcome.values])
    exact ⟨_, hlater.tail (.take hv), rfl, rfl, List.forall_mem_singleton.mpr List.mem_cons_self,
      fun _ => List.mem_cons_of_mem v⟩

section
variable (hidle : h.step = none) (henv : h.Exists env)
include hidle henv

theorem settles_program (p : Program) :
    let result := h.store.runProgram env p
    ∃ h', h.Settles result.2 result.1.toOption.toList h' := by
  obtain ⟨h', hs⟩ := settles_told hidle henv (t := .evaluate (.block p)) trivial
  refine ⟨h', ?_⟩
  simp only [Task.run, Node.run] at hs
  unfold Store.runProgram
  generalize h.store.run (Eval.stmts (Eval.apply maxCallDepth) env .null p) = r at hs ⊢
  obtain ⟨outcome, st⟩ := r
  cases outcome <;> exact hs

theorem settles_source (text : String) :
    let result := h.store.runSource env text
    ∃ h', h.Settles result.2 result.1.toOption.toList h' := by
  unfold Store.runSource
  split
  · exact ⟨h, settles_refl hidle⟩
  · next p hp =>
    obtain ⟨h', hs⟩ := settles_program hidle henv p
    refine ⟨h', ?_⟩
    split
    · next v st hrun => rwa [hrun] at hs
    · next e st hrun => rwa [hrun] at hs

end

theorem settles_sources (hidle : h.step = none) (henv : h.Exists env) (texts : List String) :
    let result := h.store.runSources env texts
    ∃ h', h.Settles result.2 (result.1.toOption.getD []) h' := by
  induction texts generalizing h with
  | nil => exact ⟨h, settles_refl hidle⟩
  | cons text texts ih =>
    obtain ⟨h', hs⟩ := settles_source hidle henv text
    rw [Store.runSources]
    split
    · next failure st hrun =>
      rw [hrun] at hs
      exact ⟨h', hs⟩
    · next v st hrun =>
      rw [hrun] at hs
      obtain ⟨h'', hs'⟩ := ih hs.idle (hs.later.exists henv)
      obtain rfl := hs.store
      refine ⟨h'', ?_⟩
      split
      · next failure st' hruns =>
        rw [hruns] at hs'
        exact (hs.trans hs').forget
      · next vs st' hruns =>
        rw [hruns] at hs'
        exact hs.trans hs'

theorem settles_call (hidle : h.step = none) (henv : h.Exists env) {callee : Value} {args : List Value}
    (hcallee : callee ∈ h.held) (hargs : ∀ v ∈ args, v ∈ h.held) {result : Outcome × Store}
    (hcall : h.store.call? callee args = some result) : ∃ h', h.Settles result.2 result.1.values h' := by
  cases callee with
  | function id f =>
    obtain rfl := Option.some.inj hcall
    exact settles_told hidle henv (t := .call (.function f) args) ⟨⟨_, hcallee, rfl⟩, hargs⟩
  | builtin b =>
    obtain rfl := Option.some.inj hcall
    exact settles_told hidle henv (t := .call (.builtin b) args) ⟨⟨_, hcallee, rfl⟩, hargs⟩
  | _ => cases hcall

theorem settles_statementwise (hidle : h.step = none) (henv : h.Exists env) (ss : List Stmt) :
    ∃ h', h.Settles (Session.statementwise h.store env ss).2 [] h' := by
  induction ss generalizing h with
  | nil => exact ⟨h, settles_refl hidle⟩
  | cons s ss ih =>
    obtain ⟨_, hs⟩ := settles_told hidle henv (t := .evaluate (.stmt s)) trivial
    obtain ⟨h', hs⟩ := hs.forget.flush
    obtain ⟨h'', hs'⟩ := ih hs.idle (hs.later.exists henv)
    rw [hs.store] at hs'
    exact ⟨h'', hs.trans hs'⟩

end Host

namespace Session
open Host

/-- The host has brought about the store of the session, with all environments of its interpreters. -/
structure HostedBy (s : Session) (h : Host) : Prop where
  later : Later Host.start h
  idle : h.step = none
  store : h.store = s.store
  envs : ∀ env ∈ s.envs, h.Exists env

variable {s : Session} {h h' : Host} {env : Env}

theorem hostedBy_start : start.HostedBy Host.start where
  later := .refl
  idle := rfl
  store := rfl
  envs := fun env henv => by
    obtain rfl : env = 0 := by simpa [start, Store.start, Store.enter, Store.empty] using henv
    exact Nat.zero_lt_one

theorem HostedBy.settles (hs : s.HostedBy h) {st : Store} {vs : List Value} (hsettles : h.Settles st vs h') :
    HostedBy { s with store := st } h' :=
  ⟨hs.later.trans hsettles.later, hsettles.idle, hsettles.store,
    fun env henv => hsettles.later.exists (hs.envs env henv)⟩

theorem HostedBy.add (hs : s.HostedBy h) {parent : Option Env} {bindings : Bindings}
    (hparent : ∀ env ∈ parent, env ∈ s.envs) (hbindings : bindings = [] ∨ bindings = Store.globals) :
    ∃ h', (s.add parent bindings).2.HostedBy h' := by
  have hmove := Move.enter hs.idle (fun env henv => hs.envs env (hparent env henv)) hbindings
  refine ⟨_, hs.later.tail hmove, idle_of_store hs.idle _, ?_, fun env henv => ?_⟩
  · rw [hs.store]
    rfl
  · rcases Array.mem_push.mp henv with henv | rfl
    · exact Later.exists (.single hmove) (hs.envs env henv)
    · simp [Host.Exists, Store.enter, hs.store]

theorem HostedBy.call (hs : s.HostedBy h) (henv : h.Exists env) (callee : String) (args : List String) :
    ∃ h', (s.perform env (.call callee args)).2.HostedBy h' := by
  obtain ⟨h', hsettles⟩ := settles_sources hs.idle henv (callee :: args)
  rw [hs.store] at hsettles
  rw [perform]
  split
  · next hruns =>
    rw [hruns] at hsettles
    exact ⟨h', hs.settles hsettles⟩
  · next hruns =>
    rw [hruns] at hsettles
    exact ⟨h', hs.settles hsettles⟩
  · next v vs st hruns =>
    rw [hruns] at hsettles
    obtain ⟨hv, hvs⟩ := List.forall_mem_cons.mp hsettles.holds
    split
    · exact ⟨h', hs.settles hsettles⟩
    · next outcome st' hcall =>
      obtain rfl : h'.store = st := hsettles.store
      obtain ⟨h'', hcalled⟩ := settles_call hsettles.idle (hsettles.later.exists henv) hv hvs hcall
      exact ⟨h'', hs.settles (hsettles.trans hcalled)⟩

theorem HostedBy.set (hs : s.HostedBy h) (henv : h.Exists env) (name source : String) :
    ∃ h', (s.perform env (.set name source)).2.HostedBy h' := by
  obtain ⟨h', hsettles⟩ := settles_source hs.idle henv source
  rw [hs.store] at hsettles
  rw [perform]
  split
  · next hruns =>
    rw [hruns] at hsettles
    exact ⟨h', hs.settles hsettles⟩
  · next v st hruns =>
    rw [hruns] at hsettles
    obtain rfl : h'.store = st := hsettles.store
    have hv : v ∈ h'.held := hsettles.holds v (List.mem_singleton_self v)
    exact ⟨_, hs.settles (hsettles.store_changed (.bind hsettles.idle hv))⟩

theorem HostedBy.perform (hs : s.HostedBy h) (henv : env ∈ s.envs) (c : Command) :
    ∃ h', (s.perform env c).2.HostedBy h' := by
  have hexists : h.Exists env := hs.envs env henv
  cases c with
  | run source | evaluate source =>
    obtain ⟨h', hsettles⟩ := settles_source hs.idle hexists source
    rw [hs.store] at hsettles
    exact ⟨h', hs.settles hsettles⟩
  | statements source =>
    rw [Session.perform]
    split
    · exact ⟨h, hs⟩
    · next tokens _ =>
      obtain ⟨h', hsettles⟩ := settles_statementwise hs.idle hexists (Program.ofTokens tokens).1
      rw [hs.store] at hsettles
      exact ⟨h', hs.settles hsettles⟩
  | call callee args => exact hs.call hexists callee args
  | get name => exact ⟨h, hs⟩
  | set name source => exact hs.set hexists name source
  | newGlobal => exact hs.add (fun env he => absurd he (Option.not_mem_none env)) (.inr rfl)
  | newBare => exact hs.add (fun env he => absurd he (Option.not_mem_none env)) (.inl rfl)
  | newChild => exact hs.add (fun _ he => Option.some.inj he ▸ henv) (.inl rfl)
  | parent => exact ⟨h, hs⟩
  | compare sources =>
    obtain ⟨h', hsettles⟩ := settles_sources hs.idle hexists sources
    rw [hs.store] at hsettles
    rw [Session.perform]
    split
    · next hruns =>
      rw [hruns] at hsettles
      exact ⟨h', hs.settles hsettles⟩
    · next hruns =>
      rw [hruns] at hsettles
      exact ⟨h', hs.settles hsettles⟩

/-- By induction on the commands: the host carries out each of them, and takes the printed text. -/
theorem Arises.hosted (harises : s.Arises) : ∃ h, s.HostedBy h := by
  induction harises with
  | start => exact ⟨_, hostedBy_start⟩
  | @step s s' number c answer printed _ hstep ih =>
    obtain ⟨h, hs⟩ := ih
    obtain ⟨env, henv, hstep⟩ := Option.map_eq_some_iff.mp hstep
    obtain ⟨h', hs'⟩ := hs.perform (Array.mem_of_getElem? henv) c
    cases hstep
    obtain ⟨h'', hsettles⟩ := (settles_refl hs'.idle).flush
    rw [hs'.store] at hsettles
    exact ⟨h'', hs'.settles hsettles⟩

end Session
end Monkey
