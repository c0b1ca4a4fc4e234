import Monkey.Proofs.BlockRecovery
import Monkey.Proofs.Extension

/-! What a broken statement costs the rest of the program. Skipping after its mistake ends behind the statement's
own semicolon, unless the mistake has already read that semicolon. -/
namespace Monkey
open Token (Kind)

namespace Course
variable {p : Place} {ts us vs rest : List Token} {es : List SyntaxError} {f : Option SyntaxError}

/-- What ends with a closing brace has read one. -/
theorem closes (h : Course p ts es none rest) (hp : p ≠ .phrase) :
    ∃ c : Token, c.kind = .rightBrace ∧ c :: rest <:+ ts := by
  generalize hf : (none : Option SyntaxError) = f at h
  induction h with
  | stop | token | closed | fail | refuse => exact absurd rfl hp
  | unclosed | broken | ended => cases hf
  | close _ hc => exact ⟨_, hc, List.suffix_refl _⟩
  | more _ h _ _ ih =>
    obtain ⟨c, hc, hsuffix⟩ := ih hp hf
    exact ⟨c, hc, hsuffix.trans h.rest_suffix⟩
  | semicolon _ _ ih =>
    obtain ⟨c, hc, hsuffix⟩ := ih hp hf
    exact ⟨c, hc, hsuffix.trans (List.suffix_cons ..)⟩
  | @recovered ts us rest es es' e f h _ _ ih =>
    obtain ⟨c, hc, hsuffix⟩ := ih hp hf
    exact ⟨c, hc, (hsuffix.trans (Parser.skipToStatement_suffix 0 us)).trans h.rest_suffix⟩

/-- The token that a mistake has read is the last one that was read. -/
theorem refuses {e : SyntaxError} {t : Token} (h : Course p ts es (some e) rest) (ht : e.fault.refused? = some t) :
    Refuses t e.fault ∧ t :: rest <:+ ts := by
  generalize hf : some e = f at h
  induction h generalizing e with
  | stop | close => cases hf
  | token _ _ _ _ ih | semicolon _ _ ih =>
    obtain ⟨hr, hsuffix⟩ := ih ht hf
    exact ⟨hr, hsuffix.trans (List.suffix_cons ..)⟩
  | closed _ _ h _ _ ih =>
    obtain ⟨hr, hsuffix⟩ := ih ht hf
    exact ⟨hr, (hsuffix.trans h.rest_suffix).trans (List.suffix_cons ..)⟩
  | @unclosed p o ts rest es e' hp ho h ih =>
    cases hf
    obtain ⟨hr, hsuffix⟩ := ih (e := e') ht rfl
    exact ⟨hr, hsuffix.trans (List.suffix_cons ..)⟩
  | fail h =>
    cases hf
    rw [h] at ht
    cases ht
  | @refuse fault t' ts h =>
    cases hf
    obtain rfl : t' = t := by cases h <;> exact Option.some.inj ht
    exact ⟨h, List.suffix_refl _⟩
  | more _ h _ _ ih =>
    obtain ⟨hr, hsuffix⟩ := ih ht hf
    exact ⟨hr, hsuffix.trans h.rest_suffix⟩
  | broken _ ih => exact ih ht hf
  | @recovered ts us rest es es' e' f h _ _ ih =>
    obtain ⟨hr, hsuffix⟩ := ih ht hf
    exact ⟨hr, (hsuffix.trans (Parser.skipToStatement_suffix 0 us)).trans h.rest_suffix⟩
  | ended =>
    cases hf
    cases ht

/-- Tokens that are taken without mistakes have their semicolons inside of braces. -/
theorem semicolon_inside {s : Token} (h : Course p ts es f rest) (hes : es = []) (hvs : s :: vs <:+ ts)
    (hs : s.kind = .semicolon) (hend : NotBehind p f rest vs) : 0 < p.closing + (net ts - net vs) := by
  have hlen := hvs.length_le
  rw [List.length_cons] at hlen
  induction h with
  | stop | fail | refuse =>
    simp only [NotBehind, List.length_cons, Place.closing] at hlen hend
    omega
  | @token t ts rest es f hl hr ht h ih =>
    rcases List.suffix_cons_iff.mp hvs with heq | hvs
    · obtain ⟨rfl, -⟩ := List.cons.inj heq
      exact absurd hs ht
    · have hinside := ih hes hvs hend hvs.length_le
      rw [net_cons, Token.weight_other hl hr]
      omega
  | @closed p o ts us rest es es' f hp ho h h' ih ih' =>
    obtain ⟨rfl, rfl⟩ := List.append_eq_nil_iff.mp hes
    have hbraces := h.ledger.2 fun e he => absurd he (Option.not_mem_none e)
    rw [owed, Place.closing_eq_one hp, displacement_nil] at hbraces
    rw [net_cons, Token.weight_leftBrace ho, Place.closing]
    rcases List.suffix_cons_iff.mp hvs with heq | hvs
    · obtain ⟨rfl, -⟩ := List.cons.inj heq
      rw [ho] at hs
      cases hs
    rcases Nat.lt_trichotomy vs.length us.length with hlt | heq | hgt
    · have hvs' := List.suffix_of_suffix_length_le hvs h.rest_suffix hlt
      have hinside := ih' rfl hvs' hend hvs'.length_le
      rw [Place.closing] at hinside
      omega
    · -- The token between the two is the closing brace.
      obtain ⟨c, hc, hclose⟩ := h.closes hp
      have hle : (s :: vs).length = (c :: us).length := congrArg (· + 1) heq
      have hsame := (List.suffix_of_suffix_length_le hvs hclose (Nat.le_of_eq hle)).eq_of_length hle
      obtain ⟨rfl, -⟩ := List.cons.inj hsame
      rw [hc] at hs
      cases hs
    · have hinside := ih rfl hvs (by rwa [NotBehind, Place.closing_eq_one hp]) hvs.length_le
      rw [Place.closing_eq_one hp] at hinside
      omega
  | @unclosed p o ts rest es e hp ho h ih =>
    rcases List.suffix_cons_iff.mp hvs with heq | hvs
    · obtain ⟨rfl, -⟩ := List.cons.inj heq
      rw [ho] at hs
      cases hs
    · have hinside := ih hes hvs hend hvs.length_le
      rw [Place.closing_eq_one hp] at hinside
      rw [net_cons, Token.weight_leftBrace ho, Place.closing]
      omega
  | @close p c rest hp hc =>
    rw [NotBehind, Place.closing_eq_one hp] at hend
    rw [List.length_cons] at hlen
    omega
  | @more p ts us rest es es' f hp h h' ih ih' =>
    obtain ⟨rfl, rfl⟩ := List.append_eq_nil_iff.mp hes
    have hfirst := h.ledger.2 fun e he => absurd he (Option.not_mem_none e)
    rw [owed, Place.closing, displacement_nil] at hfirst
    rcases Nat.lt_or_ge vs.length us.length with hlt | hge
    · have hvs' := List.suffix_of_suffix_length_le hvs h.rest_suffix hlt
      have hinside := ih' rfl hvs' hend hvs'.length_le
      omega
    · have hinside := ih rfl hvs hge hlen
      rw [Place.closing] at hinside
      omega
  | broken h ih =>
    have hinside := ih hes hvs hend hlen
    simp only [Place.closing] at hinside ⊢
    omega
  | @semicolon t ts rest es f ht h ih =>
    have hw := Token.weight_semicolon ht
    rcases List.suffix_cons_iff.mp hvs with heq | hvs
    · obtain ⟨rfl, rfl⟩ := List.cons.inj heq
      rw [net_cons, hw, Place.closing]
      omega
    · have hinside := ih hes hvs hend hvs.length_le
      rw [net_cons, hw]
      omega
  | @recovered ts us rest es es' e f h h' ih ih' =>
    exact absurd hes (List.append_ne_nil_of_right_ne_nil es (List.cons_ne_nil e es'))
  | ended => exact absurd hlen (Nat.not_succ_le_zero _)

/-- The last token of a phrase without mistakes is no semicolon. -/
theorem not_semicolon_last (h : Course .phrase ts [] none []) (hne : ts ≠ []) :
    ¬ ∀ s ∈ ts.getLast?, s.kind = .semicolon := by
  intro hlast
  have hs := hlast (ts.getLast hne) (List.getLast?_eq_some_getLast hne)
  have hsplit := List.dropLast_concat_getLast hne
  have hinside := h.semicolon_inside rfl ⟨ts.dropLast, hsplit⟩ hs (Nat.zero_le _)
  have hbraces := h.ledger.2 fun e he => absurd he (Option.not_mem_none e)
  rw [owed, Place.closing, displacement_nil] at hbraces
  rw [Place.closing] at hinside
  omega

variable {broken : List Token} {semi : Token} {e : SyntaxError}

/-- The mistake of a well nested statement is found at its semicolon or before. -/
theorem unread_ne_zero_of_wellNested (h : Course .phrase (broken ++ [semi]) [] (some e) rest)
    (hin : WellNested broken) (hs : semi.kind = .semicolon) : e.unread ≠ 0 := by
  intro hend
  have hle : e.unread ≤ ([] : List Token).length := Nat.le_of_eq hend
  have hinside := h.semicolon_inside rfl (List.suffix_append broken [semi]) hs hle
  rw [net_append, hin.closed, net_cons, Token.weight_semicolon hs] at hinside
  exact absurd hinside (by decide)

/-- The semicolon has been read exactly if the mistake is that it starts no operand. -/
theorem rest_eq_nil_iff (h : Course .phrase (broken ++ [semi]) [] (some e) rest) (hin : WellNested broken)
    (hs : semi.kind = .semicolon) : rest = [] ↔ e.fault = .noOperand semi ∧ e.unread = 1 := by
  have hresume := h.resume_eq
  have hunread := h.unread_ne_zero_of_wellNested hin hs
  unfold SyntaxError.resume at hresume
  constructor
  · rintro rfl
    cases hread : e.fault.refused? with
    | none =>
      rw [hread] at hresume
      exact absurd hresume hunread
    | some t =>
      rw [hread] at hresume
      obtain ⟨hrefuses, hsuffix⟩ := h.refuses hread
      have hlast := List.suffix_of_suffix_length_le hsuffix (List.suffix_append broken [semi]) (Nat.le_refl 1)
      have hsemi : [t] = [semi] := hlast.eq_of_length rfl
      obtain ⟨rfl, -⟩ := List.cons.inj hsemi
      have hone : e.unread - 1 = 0 := hresume
      refine ⟨?_, by omega⟩
      generalize e.fault = fault at hrefuses
      cases hrefuses with
      | noOperand => rfl
      | badInteger hint =>
        rw [hs] at hint
        cases hint
  · rintro ⟨hfault, hone⟩
    rw [hfault, hone] at hresume
    exact List.eq_nil_of_length_eq_zero hresume.symm

/-- Skipping from the mistake that finds nothing else before the semicolon stops behind it, or skips on if the
semicolon has been read before. -/
theorem skipToStatement_behind (h : Course .phrase (broken ++ [semi]) [] (some e) rest) (hin : WellNested broken)
    (hs : semi.kind = .semicolon) (hskip : Parser.skipToStatement 0 rest = []) (behind : List Token) :
    Parser.skipToStatement 0 (rest ++ behind) =
      if e.fault = .noOperand semi ∧ e.unread = 1 then Parser.skipToStatement 0 behind else behind := by
  simp only [← h.rest_eq_nil_iff hin hs]
  rcases List.suffix_concat_iff.mp h.rest_suffix with hnil | ⟨us, rfl, hus⟩
  · rw [if_pos hnil, hnil, List.nil_append]
  · rw [if_neg (List.append_ne_nil_of_right_ne_nil us (List.cons_ne_nil semi [])), List.append_assoc,
      List.singleton_append]
    have hnet := hin.net_suffix_le hus
    exact Parser.skipToStatement_semicolon behind hs (by omega) hskip

end Course

namespace Reply
variable {α : Type} {m n : Nat} {ts : List Token}

theorem RunsStatement.runs_of_failure {r : Reply n α} {e : SyntaxError} (h : r.RunsStatement ts)
    (he : r.failure = some e) : Course .phrase ts r.errors (some e) r.rest := by
  obtain ⟨us, hrun, rfl | ⟨hnone, _⟩⟩ := h
  · rwa [he] at hrun
  · rw [he] at hnone
    cases hnone

theorem RunsStatement.rest_suffix {r : Reply n α} (h : r.RunsStatement ts) : r.rest <:+ ts := by
  obtain ⟨us, hrun, rfl | ⟨_, s, _, rfl⟩⟩ := h
  · exact hrun.rest_suffix
  · exact (List.suffix_cons s r.rest).trans hrun.rest_suffix

end Reply

namespace Parser
open Reply
variable {n : Nat}

theorem errors_recover (r : Reply n Stmt) : (recover r).errors = r.errors ++ r.failure.toList := by
  obtain ⟨es, o, us, hl⟩ := r
  cases o with
  | error e => rfl
  | ok s => exact (List.append_nil es).symm

theorem stmts_recover_eq_nil {r : Reply n Stmt} (h : (recover r).stmts = []) : ∃ e, r.failure = some e := by
  obtain ⟨es, o, us, hl⟩ := r
  cases o with
  | error e => exact ⟨e, rfl⟩
  | ok s => cases h

theorem stmts_recover_of_failure {r : Reply n Stmt} {e : SyntaxError} (h : r.failure = some e) :
    (recover r).stmts = [] := by
  obtain ⟨es, o, us, hl⟩ := r
  cases o with
  | error e' => rfl
  | ok s => cases h

theorem recover_rest_suffix (t : Token) (ts : List Token) : (recover (statement t ts)).rest <:+ t :: ts := by
  have hsuffix := (runs_statement t ts).rest_suffix
  generalize statement t ts = r at hsuffix
  obtain ⟨es, o, us, hl⟩ := r
  cases o with
  | error e => exact (skipToStatement_suffix 0 us).trans hsuffix
  | ok s => exact hsuffix

/-- Every token belongs to a statement or to a mistake. -/
theorem eq_nil_of_program {ts : List Token} (h : program ts = ([], [])) : ts = [] := by
  cases ts with
  | nil => rfl
  | cons t ts =>
    rw [program_cons] at h
    obtain ⟨hstmts, herrors⟩ := Prod.mk.inj h
    obtain ⟨e, he⟩ := stmts_recover_eq_nil (List.append_eq_nil_iff.mp hstmts).1
    rw [errors_recover, he] at herrors
    simp at herrors

/-- Tokens without mistakes that end with a semicolon are read the same way whatever follows. -/
theorem program_append (ts zs : List Token) (hend : ∀ s ∈ ts.getLast?, s.kind = .semicolon)
    (herrors : (program ts).2 = []) :
    program (ts ++ zs) = ((program ts).1 ++ (program zs).1, (program zs).2) := by
  cases ts with
  | nil => simp [program]
  | cons t ts =>
    rw [program_cons] at herrors
    obtain ⟨hes, hrest⟩ := List.append_eq_nil_iff.mp herrors
    rw [errors_recover] at hes
    obtain ⟨hes, hfailure⟩ := List.append_eq_nil_iff.mp hes
    have hok : (statement t ts).failure = none := Option.toList_eq_nil_iff.mp hfailure
    rcases extends_statement zs t ts with ⟨hatEnd, hruns⟩ | ⟨_, hcarries⟩
    · rw [Runs, hes, hok, hatEnd.rest] at hruns
      exact absurd hend (hruns.not_semicolon_last (List.cons_ne_nil t ts))
    · obtain ⟨hstmts, herrors'⟩ := recover_of_carries zs hcarries
      have hrest' : (recover (statement t (ts ++ zs))).rest = (recover (statement t ts)).rest ++ zs := by
        have hok' := hcarries.failure
        rw [hok] at hok'
        rw [rest_recover_of_ok hok', rest_recover_of_ok hok, hcarries.rest]
      have hlen := (recover (statement t ts)).length_rest_le
      have hend' : ∀ s ∈ (recover (statement t ts)).rest.getLast?, s.kind = .semicolon := by
        intro s hs
        obtain ⟨us, hus⟩ := recover_rest_suffix t ts
        refine hend s ?_
        rw [← hus, List.getLast?_append, hs]
        rfl
      have ih := program_append (recover (statement t ts)).rest zs hend' hrest
      rw [List.cons_append, program_cons, program_cons, hstmts, herrors', hrest', ih, errors_recover, hes, hok]
      simp
termination_by ts.length
decreasing_by
  subst_vars
  rw [List.length_cons]
  omega

/-- Where one mistake is all there is, the first statement has it, and nothing is left behind it. -/
theorem statement_of_program {t : Token} {ts : List Token} {e : SyntaxError}
    (h : program (t :: ts) = ([], [e])) :
    (statement t ts).errors = [] ∧ (statement t ts).failure = some e ∧
      skipToStatement 0 (statement t ts).rest = [] := by
  rw [program_cons] at h
  obtain ⟨hstmts, herrors⟩ := Prod.mk.inj h
  obtain ⟨hstmts, hstmts'⟩ := List.append_eq_nil_iff.mp hstmts
  obtain ⟨e', he⟩ := stmts_recover_eq_nil hstmts
  rw [errors_recover, he, List.append_assoc, Option.toList_some, List.singleton_append] at herrors
  obtain ⟨hes, herrors⟩ | ⟨_, hnil⟩ := List.append_eq_singleton_iff.mp herrors
  · obtain ⟨rfl, herrors'⟩ := List.cons.inj herrors
    refine ⟨hes, he, ?_⟩
    rw [← rest_recover_of_failure he]
    exact eq_nil_of_program (Prod.ext hstmts' herrors')
  · cases hnil

/-- Where a statement is broken and nothing else is found before its semicolon, the rules go on behind the
semicolon, and from there they skip if the mistake is that the semicolon starts no operand. -/
theorem program_broken {broken : List Token} {semi : Token} {e : SyntaxError} (behind : List Token)
    (hin : WellNested broken) (hs : semi.kind = .semicolon) (h : program (broken ++ [semi]) = ([], [e])) :
    program (broken ++ semi :: behind) =
      let next := if e.fault = .noOperand semi ∧ e.unread = 1 then skipToStatement 0 behind else behind
      ((program next).1, e.before behind.length :: (program next).2) := by
  have hne : broken ++ [semi] ≠ [] := List.append_ne_nil_of_right_ne_nil broken (List.cons_ne_nil semi [])
  obtain ⟨t, ts, hts⟩ := List.exists_cons_of_ne_nil hne
  have happend : broken ++ semi :: behind = t :: (ts ++ behind) := by
    rw [← List.cons_append, ← hts, List.append_assoc, List.singleton_append]
  rw [hts] at h
  obtain ⟨hes, he, hskip⟩ := statement_of_program h
  have hrun := (runs_statement t ts).runs_of_failure he
  rw [hes, ← hts] at hrun
  rcases extends_statement behind t ts with ⟨hend, _⟩ | ⟨_, hcarries⟩
  · exact absurd (hend.unread e he) (hrun.unread_ne_zero_of_wellNested hin hs)
  · obtain ⟨hstmts, herrors⟩ := recover_of_carries behind hcarries
    have hfailure := hcarries.failure
    rw [he] at hfailure
    have hrest : (recover (statement t (ts ++ behind))).rest =
        if e.fault = .noOperand semi ∧ e.unread = 1 then skipToStatement 0 behind else behind := by
      rw [rest_recover_of_failure hfailure, hcarries.rest]
      exact hrun.skipToStatement_behind hin hs hskip behind
    rw [happend, program_cons, hstmts, herrors, hrest, stmts_recover_of_failure he, errors_recover, hes, he]
    rfl

end Parser

namespace Program

/-- What a reader is told: the program of the statements without mistakes, and the messages. -/
def reported (ts : List Token) : Program × List String :=
  ((ofTokens ts).1, (ofTokens ts).2.map SyntaxError.message)

/-- A broken statement with well nested braces costs nothing else and is reported once, if and only if its
mistake is not that its own semicolon starts no operand, or nothing depends on the tokens that are skipped
behind that semicolon. -/
theorem broken_statement_costs_only_itself (before broken behind : List Token) (semi : Token) (e : SyntaxError)
    (hbefore : (reported before).2 = []) (hend : ∀ s ∈ before.getLast?, s.kind = .semicolon)
    (hin : WellNested broken) (hs : semi.kind = .semicolon)
    (hbroken : ofTokens (broken ++ [semi]) = ([], [e])) :
    reported (before ++ (broken ++ semi :: behind)) =
        ((reported before).1 ++ (reported behind).1, e.message :: (reported behind).2) ↔
      (e.fault = .noOperand semi ∧ e.unread = 1 →
        reported (Parser.skipToStatement 0 behind) = reported behind) := by
  have herrors : (Parser.program before).2 = [] := List.map_eq_nil_iff.mp hbefore
  have hjoined : reported (before ++ (broken ++ semi :: behind)) =
      let next := if e.fault = .noOperand semi ∧ e.unread = 1 then Parser.skipToStatement 0 behind else behind
      ((reported before).1 ++ (reported next).1, e.message :: (reported next).2) := by
    simp only [reported, ofTokens]
    rw [Parser.program_append before _ hend herrors, Parser.program_broken behind hin hs hbroken]
    simp only [List.map_cons, SyntaxError.message_before]
  rw [hjoined]
  by_cases hread : e.fault = .noOperand semi ∧ e.unread = 1
  · simp only [if_pos hread]
    constructor
    · intro h _
      obtain ⟨hstmts, hmessages⟩ := Prod.mk.inj h
      exact Prod.ext (List.append_cancel_left hstmts) (List.cons.inj hmessages).2
    · intro h
      rw [h hread]
  · simp only [if_neg hread]
    exact ⟨fun _ h => absurd h hread, fun _ => trivial⟩

/-- In `x ; let ; x` the missing name costs neither of the other two statements. -/
theorem missing_name_costs_only_itself :
    let x := Token.ofKind .identifier
    let semi := Token.ofKind .semicolon
    reported [x, semi, .ofKind .letWord, semi, x] =
      ((reported [x, semi]).1 ++ (reported [x]).1, ["Parse error at line 1: expected identifier, found ;"]) := by
  intro x semi
  have hin : WellNested [.ofKind .letWord] := .cons (by decide) (by decide) wellNested_nil
  have hbefore : (ofTokens [x, semi]).2 = [] := by decide +kernel
  have hbehind : (ofTokens [x]).2 = [] := by decide +kernel
  have hbroken : ofTokens [.ofKind .letWord, semi] =
      ([], [{ fault := .expected .identifier (some semi), unread := 1 }]) := by decide +kernel
  have hjoined := (broken_statement_costs_only_itself [x, semi] [.ofKind .letWord] [x] semi _
    (congrArg (·.map SyntaxError.message) hbefore) (by decide) hin rfl hbroken).mpr
      fun h => SyntaxFault.noConfusion h.1
  have hmessage : SyntaxError.message { fault := .expected .identifier (some (.ofKind .semicolon)), unread := 1 } =
      "Parse error at line 1: expected identifier, found ;" := by decide
  have hnone : (reported [x]).2 = [] := congrArg (·.map SyntaxError.message) hbehind
  rw [hnone, hmessage] at hjoined
  exact hjoined

/-- In `let x = ; x ; x` the missing value costs the statement behind it too. -/
theorem missing_value_costs_next_statement :
    ¬ ∀ (before broken behind : List Token) (semi : Token) (e : SyntaxError), (reported before).2 = [] →
      (∀ s ∈ before.getLast?, s.kind = .semicolon) → WellNested broken → semi.kind = .semicolon →
      ofTokens (broken ++ [semi]) = ([], [e]) →
        reported (before ++ (broken ++ semi :: behind)) =
          ((reported before).1 ++ (reported behind).1, e.message :: (reported behind).2) := by
  intro h
  have hin : WellNested [.ofKind .letWord, .ofKind .identifier, .ofKind .equal] :=
    .cons (by decide) (by decide) (.cons (by decide) (by decide) (.cons (by decide) (by decide) wellNested_nil))
  have hbefore : (ofTokens []).2 = [] := by decide +kernel
  have hbroken : ofTokens [.ofKind .letWord, .ofKind .identifier, .ofKind .equal, .ofKind .semicolon] =
      ([], [{ fault := .noOperand (.ofKind .semicolon), unread := 1 }]) := by decide +kernel
  have hkept : (ofTokens [.ofKind .identifier, .ofKind .semicolon, .ofKind .identifier]).1.length = 2 := by
    decide +kernel
  have hlost : (ofTokens [.ofKind .letWord, .ofKind .identifier, .ofKind .equal, .ofKind .semicolon,
      .ofKind .identifier, .ofKind .semicolon, .ofKind .identifier]).1.length = 1 := by decide +kernel
  have hjoined := h [] [.ofKind .letWord, .ofKind .identifier, .ofKind .equal]
    [.ofKind .identifier, .ofKind .semicolon, .ofKind .identifier] (.ofKind .semicolon) _
    (congrArg (·.map SyntaxError.message) hbefore) (by decide) hin rfl hbroken
  have hnone : (reported []).1 = [] := by decide +kernel
  have hlength := congrArg (fun r => r.1.length) hjoined
  simp only [hnone, List.nil_append] at hlength
  have hsame : 1 = 2 := hlost.symm.trans (hlength.trans hkept)
  cases hsame

end Program
end Monkey
