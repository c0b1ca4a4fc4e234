import Monkey.Proofs.Courses
import Monkey.Proofs.GrammarCompleteness

/-! The first mistake. The rules look at one token beyond those they take, so up to their first mistake, and with
it, they do the same whatever stands behind the token that the mistake is about. -/
namespace Monkey
open Token (Kind)

/-- The first of the mistakes is `fault`, noticed with `k` tokens unread. -/
def FirstMistake (es : List SyntaxError) (fault : SyntaxFault) (k : Nat) : Prop :=
  ∃ e, es.head? = some e ∧ e.fault = fault ∧ e.unread = k

@[simp] theorem not_firstMistake_nil {fault : SyntaxFault} {k : Nat} : ¬ FirstMistake [] fault k :=
  fun ⟨_, h, _⟩ => nomatch h

theorem firstMistake_cons {e : SyntaxError} {es : List SyntaxError} {fault : SyntaxFault} {k : Nat} :
    FirstMistake (e :: es) fault k ↔ e.fault = fault ∧ e.unread = k :=
  ⟨fun ⟨_, he, h⟩ => Option.some.inj he ▸ h, fun h => ⟨e, rfl, h⟩⟩

theorem firstMistake_append {es es' : List SyntaxError} {fault : SyntaxFault} {k : Nat} :
    FirstMistake (es ++ es') fault k ↔ FirstMistake es fault k ∨ es = [] ∧ FirstMistake es' fault k := by
  cases es with
  | nil => simp only [List.nil_append, not_firstMistake_nil, true_and, false_or]
  | cons e es => simp only [List.cons_append, firstMistake_cons, reduceCtorEq, false_and, or_false]

namespace Reply
variable {α β : Type} {m n l : Nat} {fault : SyntaxFault} {k : Nat}

/-- The first mistake of the rule, be it one of those recovered from or the one it fails with. -/
def Mistakes (r : Reply n α) (fault : SyntaxFault) (k : Nat) : Prop :=
  FirstMistake (r.errors ++ r.failure.toList) fault k

@[simp] theorem not_mistakes_done {a : α} {us : List Token} : ¬ (done a us).Mistakes fault k :=
  not_firstMistake_nil

@[simp] theorem mistakes_fail {fault' : SyntaxFault} {us : List Token} :
    (fail fault' us : Reply us.length α).Mistakes fault k ↔ fault' = fault ∧ us.length = k :=
  firstMistake_cons

@[simp] theorem mistakes_refuse {fault' : SyntaxFault} {us : List Token} :
    (refuse fault' us : Reply us.length α).Mistakes fault k ↔ fault' = fault ∧ us.length + 1 = k :=
  firstMistake_cons

@[simp] theorem mistakes_relax {r : Reply m α} {h : m ≤ n} :
    (r.relax h).Mistakes fault k ↔ r.Mistakes fault k := Iff.rfl

@[simp] theorem mistakes_weaken {r : Reply (n - 1) α} : r.weaken.Mistakes fault k ↔ r.Mistakes fault k := Iff.rfl

@[simp] theorem mistakes_map {f : α → β} {r : Reply n α} :
    (r.map f).Mistakes fault k ↔ r.Mistakes fault k := by
  rw [Mistakes, failure_map]
  rfl

@[simp] theorem mistakes_inBraces {r : Reply n α} :
    r.inBraces.Mistakes fault k ↔ r.Mistakes fault k := by
  obtain ⟨es, o, us, hl⟩ := r
  cases o with
  | ok a => exact Iff.rfl
  | error e =>
    cases es with
    | nil => exact firstMistake_cons.trans (@firstMistake_cons e [] fault k).symm
    | cons e' es => exact firstMistake_cons.trans firstMistake_cons.symm

/-- Two rules in a row go wrong in the first, or in the second where the first has read its part. -/
theorem mistakes_andThen {r : Reply n α} {next : α → (us : List Token) → Reply us.length β} :
    (r.andThen fun a us _ => next a us).Mistakes fault k ↔
      r.Mistakes fault k ∨ ∃ a us, r.Reads a us ∧ (next a us).Mistakes fault k := by
  obtain ⟨es, o, us, hl⟩ := r
  cases o with
  | error e =>
    have hreads : ¬ ∃ a vs, Reads (⟨es, .error e, us, hl⟩ : Reply n α) a vs ∧ (next a vs).Mistakes fault k :=
      fun ⟨_, _, h, _⟩ => nomatch h.outcome
    exact (or_iff_left hreads).symm
  | ok a =>
    have hfirst : Mistakes (⟨es, .ok a, us, hl⟩ : Reply n α) fault k ↔ FirstMistake es fault k := by
      change FirstMistake (es ++ []) fault k ↔ _
      rw [List.append_nil]
    have hwhole : (andThen (⟨es, .ok a, us, hl⟩ : Reply n α) fun a us _ => next a us).Mistakes fault k ↔
        FirstMistake (es ++ ((next a us).errors ++ (next a us).failure.toList)) fault k := by
      rw [← List.append_assoc]
      rfl
    rw [hwhole, firstMistake_append, hfirst]
    refine or_congr_right ⟨fun ⟨hes, h⟩ => ⟨a, us, ⟨hes, rfl, rfl⟩, h⟩, ?_⟩
    rintro ⟨_, _, ⟨hes, ⟨⟩, rfl⟩, h⟩
    exact ⟨hes, h⟩

/-- The two replies have the same first mistake, or have read the same. -/
structure Alike (r : Reply n α) (r' : Reply m α) : Prop where
  mistakes : ∀ {fault k}, r.Mistakes fault k ↔ r'.Mistakes fault k
  reads : ∀ {a us}, r.Reads a us ↔ r'.Reads a us

theorem Alike.refl (r : Reply n α) : r.Alike r := ⟨Iff.rfl, Iff.rfl⟩

theorem Alike.symm {r : Reply n α} {r' : Reply m α} (h : r.Alike r') : r'.Alike r :=
  ⟨h.mistakes.symm, h.reads.symm⟩

theorem Alike.trans {r : Reply n α} {r' : Reply m α} {r'' : Reply l α} (h : r.Alike r') (h' : r'.Alike r'') :
    r.Alike r'' := ⟨h.mistakes.trans h'.mistakes, h.reads.trans h'.reads⟩

theorem alike_relax (r : Reply m α) (h : m ≤ n) : (r.relax h).Alike r := ⟨mistakes_relax, reads_relax⟩

theorem alike_weaken (r : Reply (n - 1) α) : r.weaken.Alike r := alike_relax r _

theorem Alike.map {r : Reply n α} {r' : Reply m α} (h : r.Alike r') (f : α → β) : (r.map f).Alike (r'.map f) :=
  ⟨mistakes_map.trans (h.mistakes.trans mistakes_map.symm), by simp only [reads_map, h.reads, implies_true]⟩

theorem alike_inBraces (r : Reply n α) : r.inBraces.Alike r := ⟨mistakes_inBraces, reads_inBraces⟩

theorem reads_andThen_iff {r : Reply n α} {next : α → (us : List Token) → Reply us.length β} {b : β}
    {vs : List Token} :
    (r.andThen fun a us _ => next a us).Reads b vs ↔ ∃ a us, r.Reads a us ∧ (next a us).Reads b vs := by
  rw [reads_andThen]
  exact ⟨fun ⟨a, us, _, h, h'⟩ => ⟨a, us, h, h'⟩, fun ⟨a, us, h, h'⟩ => ⟨a, us, h.length_le, h, h'⟩⟩

theorem Alike.andThen {r : Reply n α} {r' : Reply m α} (h : r.Alike r')
    (next : α → (us : List Token) → Reply us.length β) :
    (r.andThen fun a us _ => next a us).Alike (r'.andThen fun a us _ => next a us) := by
  constructor
  · simp only [mistakes_andThen, h.mistakes, h.reads, implies_true]
  · simp only [reads_andThen_iff, h.reads, implies_true]

end Reply

namespace Parser
open Reply Grammar
variable {α β : Type} {f g : (ts : List Token) → Reply ts.length α} {t : Token} {ts us : List Token}

/-- From `ts` the rule decides token by token. It goes wrong within `ts`, and what it does before it comes to a
tail of `ts`, be it a mistake or all there is to read, it does with any other tail as well. -/
structure DecidesAt (f : (ts : List Token) → Reply ts.length α) (ts : List Token) : Prop where
  unread_le : ∀ {fault k}, (f ts).Mistakes fault k → k ≤ ts.length
  mistakes : ∀ {cs d fault k}, ts = cs ++ d → (f ts).Mistakes fault (k + d.length) → 0 < k →
    ∀ d', (f (cs ++ d')).Mistakes fault (k + d'.length)
  reads : ∀ {cs d a us}, ts = cs ++ d → (f ts).Reads a us → d.length < us.length →
    ∃ vs, us = vs ++ d ∧ ∀ d', (f (cs ++ d')).Reads a (vs ++ d')

/-- A tail of `ts` that is not all of it starts behind the first token. -/
theorem DecidesAt.ofTails (hle : ∀ {fault k}, (f (t :: us)).Mistakes fault k → k ≤ us.length + 1)
    (hm : ∀ {cs d fault k}, us = cs ++ d → (f (t :: us)).Mistakes fault (k + d.length) → 0 < k →
      ∀ d', (f (t :: (cs ++ d'))).Mistakes fault (k + d'.length))
    (hr : ∀ {cs d a ws}, us = cs ++ d → (f (t :: us)).Reads a ws → d.length < ws.length →
      ∃ vs, ws = vs ++ d ∧ ∀ d', (f (t :: (cs ++ d'))).Reads a (vs ++ d')) : DecidesAt f (t :: us) := by
  refine ⟨hle, fun {cs d fault k} hts h hk d' => ?_, fun {cs d a ws} hts h hlt => ?_⟩
  · cases cs with
    | nil =>
      obtain rfl : t :: us = d := hts
      exact absurd (hle h) (by simp only [List.length_cons]; omega)
    | cons c cs =>
      obtain ⟨rfl, hus⟩ := List.cons.inj hts
      exact hm hus h hk d'
  · cases cs with
    | nil =>
      obtain rfl : t :: us = d := hts
      exact absurd h.length_le (Nat.not_le_of_lt hlt)
    | cons c cs =>
      obtain ⟨rfl, hus⟩ := List.cons.inj hts
      exact hr hus h hlt

/-- It is enough to look at a rule that does the same as long as the first token is this one. -/
theorem DecidesAt.ofFirst (h : ∀ us, (f (t :: us)).Alike (g (t :: us))) (hg : DecidesAt g (t :: us)) :
    DecidesAt f (t :: us) := by
  refine .ofTails (fun hm => hg.unread_le ((h us).mistakes.mp hm)) (fun {cs d _ _} hus hm hk d' => ?_)
    (fun {cs d _ _} hus hr hlt => ?_)
  · have hts : t :: us = t :: cs ++ d := congrArg (t :: ·) hus
    exact (h _).mistakes.mpr (hg.mistakes hts ((h us).mistakes.mp hm) hk d')
  · have hts : t :: us = t :: cs ++ d := congrArg (t :: ·) hus
    obtain ⟨vs, hvs, hreads⟩ := hg.reads hts ((h us).reads.mp hr) hlt
    exact ⟨vs, hvs, fun d' => (h _).reads.mpr (hreads d')⟩

/-- A rule that takes the token `t` and goes on as another does. -/
theorem DecidesAt.cons (h : ∀ us, (f (t :: us)).Alike (g us)) (hg : DecidesAt g us) :
    DecidesAt f (t :: us) := by
  refine .ofTails (fun hm => Nat.le_succ_of_le (hg.unread_le ((h us).mistakes.mp hm)))
    (fun {cs d _ _} hus hm hk d' => ?_) (fun {cs d _ _} hus hr hlt => ?_)
  · exact (h _).mistakes.mpr (hg.mistakes hus ((h us).mistakes.mp hm) hk d')
  · obtain ⟨vs, hvs, hreads⟩ := hg.reads hus ((h us).reads.mp hr) hlt
    exact ⟨vs, hvs, fun d' => (h _).reads.mpr (hreads d')⟩

theorem DecidesAt.congr (h : ∀ ts, (f ts).Alike (g ts)) (hg : DecidesAt g ts) : DecidesAt f ts where
  unread_le hm := hg.unread_le ((h ts).mistakes.mp hm)
  mistakes hts hm hk d' := (h _).mistakes.mpr (hg.mistakes hts ((h ts).mistakes.mp hm) hk d')
  reads hts hr hlt := by
    obtain ⟨vs, hvs, hreads⟩ := hg.reads hts ((h ts).reads.mp hr) hlt
    exact ⟨vs, hvs, fun d' => (h _).reads.mpr (hreads d')⟩

theorem decidesAt_nil (h : ∀ {fault k}, (f []).Mistakes fault k → k = 0) : DecidesAt f [] where
  unread_le hm := Nat.le_of_eq (h hm)
  mistakes _ hm hk := by
    have := h hm
    omega
  reads _ hr hlt := absurd (Nat.lt_of_lt_of_le hlt hr.length_le) (Nat.not_lt_zero _)

theorem decidesAt_done (a : α) (ts : List Token) : DecidesAt (Reply.done a) ts where
  unread_le hm := absurd hm not_mistakes_done
  mistakes _ hm := absurd hm not_mistakes_done
  reads {cs d b us} hts hr _ := by
    obtain ⟨rfl, rfl⟩ := reads_done.mp hr
    exact ⟨cs, hts, fun d' => reads_done.mpr ⟨rfl, rfl⟩⟩

theorem decidesAt_fail (fault : SyntaxFault) (ts : List Token) :
    DecidesAt (fun ts => (Reply.fail fault ts : Reply ts.length α)) ts where
  unread_le hm := Nat.le_of_eq (mistakes_fail.mp hm).2.symm
  mistakes {cs d _ k} hts hm _ d' := by
    obtain ⟨rfl, hk⟩ := mistakes_fail.mp hm
    refine mistakes_fail.mpr ⟨rfl, ?_⟩
    rw [hts, List.length_append] at hk
    rw [List.length_append]
    omega
  reads _ hr _ := absurd hr not_reads_fail

theorem decidesAt_refuse {fault : SyntaxFault}
    (h : ∀ us, (f (t :: us)).Alike (Reply.refuse fault us : Reply us.length α)) (us : List Token) :
    DecidesAt f (t :: us) := by
  refine DecidesAt.ofFirst (g := fun ts => Reply.fail fault ts) (fun us => (h us).trans ⟨?_, ?_⟩)
    (decidesAt_fail fault (t :: us))
  · simp
  · simp

/-- A rule that takes a token of this kind if it is the first, and does something else if it is not. -/
theorem decidesAt_accept (kind : Kind) (yes no : (ts : List Token) → Reply ts.length α)
    (hyes : ∀ t us, t.kind = kind → (f (t :: us)).Alike (yes us))
    (hno : ∀ ts, nextKind ts ≠ some kind → (f ts).Alike (no ts))
    (hy : ∀ t us, ts = t :: us → DecidesAt yes us) (hn : DecidesAt no ts) : DecidesAt f ts := by
  cases ts with
  | nil =>
    refine decidesAt_nil fun hm => ?_
    exact Nat.le_zero.mp (hn.unread_le ((hno [] (Option.some_ne_none kind).symm).mistakes.mp hm))
  | cons t us =>
    by_cases ht : t.kind = kind
    · exact .cons (fun us => hyes t us ht) (hy t us rfl)
    · refine .ofFirst (fun us => hno (t :: us) ?_) hn
      exact fun he => ht (Option.some.inj he)

theorem DecidesAt.map (h : DecidesAt f ts) (φ : α → β) : DecidesAt (fun ts => (f ts).map φ) ts where
  unread_le hm := h.unread_le (mistakes_map.mp hm)
  mistakes hts hm hk d' := mistakes_map.mpr (h.mistakes hts (mistakes_map.mp hm) hk d')
  reads hts hr hlt := by
    obtain ⟨a, ha, rfl⟩ := reads_map.mp hr
    obtain ⟨vs, hvs, hreads⟩ := h.reads hts ha hlt
    exact ⟨vs, hvs, fun d' => (hreads d').map φ⟩

theorem DecidesAt.inBraces (h : DecidesAt f ts) : DecidesAt (fun ts => (f ts).inBraces) ts :=
  .congr (fun ts => alike_inBraces (f ts)) h

theorem DecidesAt.andThenRead {next : α → (us : List Token) → Reply us.length β} (h : DecidesAt f ts)
    (hn : ∀ a us, (f ts).Reads a us → DecidesAt (next a) us) :
    DecidesAt (fun ts => (f ts).andThen fun a us _ => next a us) ts where
  unread_le hm := by
    rcases mistakes_andThen.mp hm with hm | ⟨a, us, hr, hm⟩
    · exact h.unread_le hm
    · exact Nat.le_trans ((hn a us hr).unread_le hm) hr.length_le
  mistakes {cs d fault k} hts hm hk d' := by
    rcases mistakes_andThen.mp hm with hm | ⟨a, us, hr, hm⟩
    · exact mistakes_andThen.mpr (.inl (h.mistakes hts hm hk d'))
    · have hnext := hn a us hr
      have hle := hnext.unread_le hm
      obtain ⟨vs, hvs, hreads⟩ := h.reads hts hr (by omega)
      exact mistakes_andThen.mpr (.inr ⟨a, _, hreads d', hnext.mistakes hvs hm hk d'⟩)
  reads {cs d b ws} hts hr hlt := by
    obtain ⟨a, us, hr, hr'⟩ := reads_andThen_iff.mp hr
    obtain ⟨vs, hvs, hreads⟩ := h.reads hts hr (Nat.lt_of_lt_of_le hlt hr'.length_le)
    obtain ⟨xs, hxs, hreads'⟩ := (hn a us hr).reads hvs hr' hlt
    exact ⟨xs, hxs, fun d' => reads_andThen_iff.mpr ⟨a, _, hreads d', hreads' d'⟩⟩

theorem DecidesAt.andThen {next : α → (us : List Token) → Reply us.length β} (h : DecidesAt f ts)
    (hn : ∀ a us, us.length ≤ ts.length → DecidesAt (next a) us) :
    DecidesAt (fun ts => (f ts).andThen fun a us _ => next a us) ts :=
  h.andThenRead fun a us hr => hn a us hr.length_le

theorem decides_expect (kind : Kind) (ts : List Token) : DecidesAt (expect kind) ts := by
  cases ts with
  | nil => exact decidesAt_nil (by simp [expect])
  | cons t ts =>
    by_cases ht : t.kind = kind
    · refine .cons (fun us => ?_) (decidesAt_done t ts)
      simp only [expect, ht, if_true]
      exact alike_relax _ _
    · refine .ofFirst (fun us => ?_) (decidesAt_fail (.expected kind (some t)) (t :: ts))
      simp only [expect, ht, if_false]
      exact .refl _

theorem decides_endOfStatement (s : Stmt) (ts : List Token) : DecidesAt (endOfStatement s) ts := by
  refine decidesAt_accept .semicolon (Reply.done s) (Reply.done s) (fun t us ht => ?_) (fun us hus => ?_)
    (fun _ us _ => decidesAt_done s us) (decidesAt_done s ts)
  · rw [endOfStatement, accept?_of_kind ht]
    exact alike_relax _ _
  · rw [endOfStatement, accept?_eq_none hus]
    exact .refl _

theorem decides_paramNames (ts : List Token) : DecidesAt paramNames ts := by
  refine .congr (fun ts => by rw [paramNames]; exact .refl _) ?_
  refine (decides_expect .identifier ts).andThen fun t us _ => ?_
  refine decidesAt_accept .comma (fun vs => (paramNames vs).map (t.lexeme :: ·))
    (fun us => (expect .rightParen us).map fun _ => [t.lexeme]) (fun u us hu => ?_) (fun us hus => ?_)
    (fun _ vs _ => (decides_paramNames vs).map _) ((decides_expect .rightParen us).map _)
  · simp only [accept?_of_kind hu]
    exact alike_relax _ _
  · simp only [accept?_eq_none hus]
    exact .refl _
termination_by ts.length
decreasing_by
  all_goals subst_vars
  all_goals try simp only [List.length_cons] at *
  all_goals omega

theorem decides_params (ts : List Token) : DecidesAt params ts := by
  refine decidesAt_accept .rightParen (Reply.done []) paramNames (fun t us ht => ?_) (fun us hus => ?_)
    (fun _ us _ => decidesAt_done [] us) (decides_paramNames ts)
  · rw [params, accept?_of_kind ht]
    exact alike_relax _ _
  · rw [params, accept?_eq_none hus]
    exact .refl _

/-- A statement from its first token on. -/
def firstStatement : (ts : List Token) → Reply ts.length Stmt
  | [] => .fail .endOfTokens []
  | t :: ts => (statement t ts).relax (length_le_length_cons t ts)

theorem firstMistake_recover {n : Nat} {r : Reply n Stmt} {fault : SyntaxFault} {k : Nat}
    (others : List Token → List SyntaxError) :
    FirstMistake ((recover r).errors ++ others (recover r).rest) fault k ↔
      r.Mistakes fault k ∨ ∃ s us, r.Reads s us ∧ FirstMistake (others us) fault k := by
  have herrors : (recover r).errors = r.errors ++ r.failure.toList := by
    obtain ⟨es, o, us, hl⟩ := r
    cases o with
    | error e => rfl
    | ok s => exact (List.append_nil es).symm
  rw [firstMistake_append, herrors]
  refine or_congr_right ⟨fun ⟨hnil, h⟩ => ?_, fun ⟨s, us, hr, h⟩ => ?_⟩
  · obtain ⟨s, hr, _⟩ := reads_of_recover (herrors.trans hnil)
    exact ⟨s, _, hr, h⟩
  · obtain ⟨_, hnil, hrest⟩ := recover_of_reads hr
    exact ⟨herrors ▸ hnil, hrest ▸ h⟩

/-- A block that goes on does so with a statement and the statements after it. -/
theorem alike_blockBody (ts : List Token) (ht : t.kind ≠ .rightBrace) :
    (blockBody (t :: ts)).Alike
      ((firstStatement (t :: ts)).andThen fun s us _ => (blockBody us).map (s :: ·)) := by
  constructor
  · intro fault k
    obtain ⟨hes, ho, -⟩ := blockBody_cons ts ht
    simp only [mistakes_andThen, mistakes_map, firstStatement, mistakes_relax, reads_relax]
    rw [Mistakes, hes, failure_eq ho, List.append_assoc]
    exact firstMistake_recover (r := statement t ts)
      fun us => (blockBody us).errors ++ (blockBody us).failure.toList
  · intro b rest
    simp only [reads_blockBody_cons ht, reads_andThen_iff, reads_map, firstStatement, reads_relax,
      exists_and_left]

mutual

theorem decides_expr (least : Precedence) (ts : List Token) :
    DecidesAt (fun ts => (expr least ts).weaken) ts := by
  refine .congr (fun ts => ?_) ((decides_operand ts).andThen fun left us _ => decides_continued least left us)
  rw [expr]
  exact (alike_weaken _).trans ((alike_weaken (operand ts)).symm.andThen _)
termination_by 6 * ts.length + 1

theorem decides_operand (ts : List Token) : DecidesAt (fun ts => (operand ts).weaken) ts := by
  cases ts with
  | nil => exact decidesAt_nil (by simp [operand])
  | cons t ts =>
    have goesOn {g : (ts : List Token) → Reply ts.length Expr} (h : ∀ us, operand (t :: us) = g us)
        (hg : DecidesAt g ts) : DecidesAt (fun ts => (operand ts).weaken) (t :: ts) :=
      .cons (fun us => by rw [h]; exact alike_weaken _) hg
    have refused (fault : SyntaxFault) (h : ∀ us, operand (t :: us) = .refuse fault us) :
        DecidesAt (fun ts => (operand ts).weaken) (t :: ts) :=
      decidesAt_refuse (fun us => by rw [h]; exact alike_weaken _) ts
    cases hk : t.kind
    case identifier =>
      exact goesOn (fun us => by simp only [operand, hk]) (decidesAt_done (.name (t.line + 1) t.lexeme) ts)
    case string =>
      exact goesOn (fun us => by simp only [operand, hk]) (decidesAt_done (.literal (.string t.lexeme)) ts)
    case trueWord =>
      exact goesOn (fun us => by simp only [operand, hk]) (decidesAt_done (.literal (.boolean true)) ts)
    case falseWord =>
      exact goesOn (fun us => by simp only [operand, hk]) (decidesAt_done (.literal (.boolean false)) ts)
    case integer =>
      cases hn : Decimal.integer? t.lexeme with
      | none => exact refused (.badInteger t) fun us => by simp only [operand, hk, hn]
      | some n =>
        exact goesOn (fun us => by simp only [operand, hk, hn]) (decidesAt_done (.literal (.integer n)) ts)
    case bang =>
      exact goesOn (fun us => by simp only [operand, hk])
        ((decides_expr .unary ts).map (.unary (t.line + 1) .not))
    case minus =>
      exact goesOn (fun us => by simp only [operand, hk])
        ((decides_expr .unary ts).map (.unary (t.line + 1) .negate))
    case leftParen =>
      exact goesOn (fun us => by simp only [operand, hk])
        ((decides_expr .lowest ts).andThen fun e us _ => (decides_expect .rightParen us).map fun _ => e)
    case ifWord => exact goesOn (fun us => by simp only [operand, hk]) (decides_conditional ts)
    case fnWord => exact goesOn (fun us => by simp only [operand, hk]) (decides_function ts)
    case leftBracket =>
      exact goesOn (fun us => by simp only [operand, hk]) ((decides_exprList .rightBracket ts).map .array)
    case leftBrace =>
      exact goesOn (fun us => by simp only [operand, hk]) ((decides_pairs ts).inBraces.map (.hash (t.line + 1)))
    all_goals exact refused (.noOperand t) fun us => by simp only [operand, hk]
termination_by 6 * ts.length
decreasing_by
  all_goals subst_vars
  all_goals try simp only [List.length_cons] at *
  all_goals omega

theorem decides_continued (least : Precedence) (left : Expr) (ts : List Token) :
    DecidesAt (continued least left) ts := by
  cases ts with
  | nil => exact decidesAt_nil (by simp [continued])
  | cons t ts =>
    cases hc : t.kind.continuation? with
    | none =>
      refine .ofFirst (fun us => ?_) (decidesAt_done left (t :: ts))
      simp only [continued, hc]
      exact .refl _
    | some c =>
      by_cases hle : c.precedence.level ≤ least.level
      · refine .ofFirst (fun us => ?_) (decidesAt_done left (t :: ts))
        simp only [continued, hc, hle, if_true]
        exact .refl _
      · refine .cons (fun us => ?_) ((decides_continuation left c (t.line + 1) ts).andThen
          fun e us _ => decides_continued least e us)
        simp only [continued, hc, hle, if_false]
        exact alike_relax _ _
termination_by 6 * ts.length
decreasing_by
  all_goals subst_vars
  all_goals try simp only [List.length_cons] at *
  all_goals omega

theorem decides_continuation (left : Expr) (c : Continuation) (line : Nat) (ts : List Token) :
    DecidesAt (continuation left c line) ts := by
  cases c with
  | call =>
    refine .congr (fun ts => ?_) ((decides_exprList .rightParen ts).map (.call line left))
    rw [continuation]
    exact .refl _
  | index =>
    refine .congr (fun ts => ?_) ((decides_expr .lowest ts).andThen fun subscript us _ =>
      (decides_expect .rightBracket us).map fun _ => Expr.index line left subscript)
    rw [continuation]
    exact .refl _
  | operator op =>
    refine .congr (fun ts => ?_) ((decides_expr op.precedence ts).map (.binary line op left))
    rw [continuation]
    exact .refl _
termination_by 6 * ts.length + 5

theorem decides_conditional (ts : List Token) : DecidesAt conditional ts := by
  refine .congr (fun ts => by rw [conditional]; exact .refl _) ?_
  refine (decides_expect .leftParen ts).andThen fun _ us _ => (decides_expr .lowest us).andThen fun c vs _ =>
    (decides_expect .rightParen vs).andThen fun _ ws _ => (decides_block ws).andThen fun yes xs _ => ?_
  refine decidesAt_accept .elseWord (fun ys => (block ys).map fun no => .conditional c yes (some no))
    (Reply.done (.conditional c yes none)) (fun u us hu => ?_) (fun us hus => ?_)
    (fun _ ys _ => (decides_block ys).map _) (decidesAt_done _ xs)
  · simp only [accept?_of_kind hu]
    exact alike_relax _ _
  · simp only [accept?_eq_none hus]
    exact .refl _
termination_by 6 * ts.length + 5
decreasing_by
  all_goals subst_vars
  all_goals try simp only [List.length_cons] at *
  all_goals omega

theorem decides_function (ts : List Token) : DecidesAt function ts := by
  refine .congr (fun ts => by rw [function]; exact .refl _) ?_
  exact (decides_expect .leftParen ts).andThen fun _ us _ => (decides_params us).andThen fun names vs _ =>
    (decides_block vs).map _
termination_by 6 * ts.length + 5

theorem decides_exprList (close : Kind) (ts : List Token) : DecidesAt (exprList close) ts := by
  refine decidesAt_accept close (Reply.done []) (exprItems close) (fun t us ht => ?_) (fun us hus => ?_)
    (fun _ us _ => decidesAt_done [] us) (decides_exprItems close ts)
  · rw [exprList, accept?_of_kind ht]
    exact alike_relax _ _
  · rw [exprList, accept?_eq_none hus]
    exact .refl _
termination_by 6 * ts.length + 4

theorem decides_exprItems (close : Kind) (ts : List Token) : DecidesAt (exprItems close) ts := by
  refine .congr (fun ts => by rw [exprItems]; exact .refl _) ?_
  refine (decides_expr .lowest ts).andThen fun e us _ => ?_
  refine decidesAt_accept .comma (fun vs => (exprItems close vs).map (e :: ·))
    (fun us => (expect close us).map fun _ => [e]) (fun u us hu => ?_) (fun us hus => ?_)
    (fun _ vs _ => (decides_exprItems close vs).map _) ((decides_expect close us).map _)
  · simp only [accept?_of_kind hu]
    exact alike_relax _ _
  · simp only [accept?_eq_none hus]
    exact .refl _
termination_by 6 * ts.length + 3
decreasing_by
  all_goals subst_vars
  all_goals try simp only [List.length_cons] at *
  all_goals omega

theorem decides_pairs (ts : List Token) : DecidesAt pairs ts := by
  refine decidesAt_accept .rightBrace (Reply.done []) (fun ts => (expr .lowest ts).weaken.andThen fun key us _ =>
      (expect .colon us).andThen fun _ vs _ => (expr .lowest vs).weaken.andThen fun value ws _ =>
        match accept? .comma ws with
        | some ⟨xs, h⟩ => ((pairs xs).map ((key, value) :: ·)).relax (Nat.le_of_lt h)
        | none => (expect .rightBrace ws).map fun _ => [(key, value)])
    (fun t us ht => ?_) (fun us hus => ?_) (fun _ us _ => decidesAt_done [] us) ?_
  · rw [pairs, accept?_of_kind ht]
    exact alike_relax _ _
  · rw [pairs, accept?_eq_none hus]
    exact .refl _
  · refine (decides_expr .lowest ts).andThen fun key us _ => (decides_expect .colon us).andThen fun _ vs _ =>
      (decides_expr .lowest vs).andThen fun value ws _ => ?_
    refine decidesAt_accept .comma (fun xs => (pairs xs).map ((key, value) :: ·))
      (fun ws => (expect .rightBrace ws).map fun _ => [(key, value)]) (fun u us hu => ?_) (fun us hus => ?_)
      (fun _ xs _ => (decides_pairs xs).map _) ((decides_expect .rightBrace ws).map _)
    · simp only [accept?_of_kind hu]
      exact alike_relax _ _
    · simp only [accept?_eq_none hus]
      exact .refl _
termination_by 6 * ts.length + 3
decreasing_by
  all_goals subst_vars
  all_goals try simp only [List.length_cons] at *
  all_goals omega

theorem decides_block (ts : List Token) : DecidesAt block ts := by
  refine .congr (fun ts => by rw [block]; exact .refl _) ?_
  exact (decides_expect .leftBrace ts).andThen fun _ us _ => (decides_blockBody us).inBraces
termination_by 6 * ts.length + 4

theorem decides_blockBody (ts : List Token) : DecidesAt blockBody ts := by
  cases ts with
  | nil => exact decidesAt_nil (by simp [blockBody])
  | cons t ts =>
    by_cases ht : t.kind = .rightBrace
    · refine .cons (fun us => ?_) (decidesAt_done [] ts)
      rw [blockBody, if_pos ht]
      exact alike_relax _ _
    · refine .ofFirst (fun us => alike_blockBody us ht) ((decides_firstStatement (t :: ts)).andThenRead
        fun s us hr => ?_)
      simp only [firstStatement, reads_relax] at hr
      have hle := hr.length_le
      exact (decides_blockBody us).map (s :: ·)
termination_by 6 * ts.length + 3
decreasing_by
  all_goals subst_vars
  all_goals try simp only [List.length_cons] at *
  all_goals omega

theorem decides_firstStatement (ts : List Token) : DecidesAt firstStatement ts := by
  cases ts with
  | nil => exact decidesAt_nil (by simp [firstStatement])
  | cons t ts =>
    by_cases hlet : t.kind = .letWord
    · refine .cons (fun us => ?_) ((decides_expect .identifier ts).andThen fun name us _ =>
        (decides_expect .equal us).andThen fun _ vs _ => (decides_expr .lowest vs).andThen fun e ws _ =>
          decides_endOfStatement (.binding name.lexeme e) ws)
      simp only [firstStatement, statement, hlet]
      exact alike_relax _ _
    by_cases hreturn : t.kind = .returnWord
    · refine .cons (g := fun us => if bare us then endOfStatement (.returning none) us else
        (expr .lowest us).weaken.andThen fun e vs _ => endOfStatement (.returning (some e)) vs) (fun us => ?_) ?_
      · simp only [firstStatement, statement, hreturn]
        exact alike_relax _ _
      cases ts with
      | nil => exact decidesAt_nil fun hm => Nat.le_zero.mp ((decides_endOfStatement _ []).unread_le hm)
      | cons u us =>
        have hbare (vs : List Token) : bare (u :: vs) = bare (u :: us) := rfl
        by_cases hu : bare (u :: us)
        · refine .ofFirst (fun vs => ?_) (decides_endOfStatement (.returning none) (u :: us))
          rw [hbare, if_pos hu]
          exact .refl _
        · refine .ofFirst (fun vs => ?_) ((decides_expr .lowest (u :: us)).andThen fun e vs _ =>
            decides_endOfStatement (.returning (some e)) vs)
          rw [hbare, if_neg hu]
          exact .refl _
    · refine .ofFirst (fun us => ?_) ((decides_expr .lowest (t :: ts)).andThen fun e us _ =>
        decides_endOfStatement (.expression e) us)
      simp only [firstStatement, statement]
      exact (alike_relax _ _).trans ((alike_weaken (expr .lowest (t :: us))).symm.andThen _)
termination_by 6 * ts.length + 2
decreasing_by
  all_goals subst_vars
  all_goals try simp only [List.length_cons] at *
  all_goals omega

end

/-- A program as the reply of a rule that reads all tokens. -/
def wholeProgram (ts : List Token) : Reply ts.length Program :=
  ⟨(program ts).2, .ok (program ts).1, [], Nat.zero_le _⟩

theorem mistakes_wholeProgram {fault : SyntaxFault} {k : Nat} :
    (wholeProgram ts).Mistakes fault k ↔ FirstMistake (program ts).2 fault k := by
  simp [Mistakes, wholeProgram, Reply.failure]

theorem reads_wholeProgram {p : Program} :
    (wholeProgram ts).Reads p us ↔ program ts = (p, []) ∧ us = [] := by
  constructor
  · rintro ⟨hes, ⟨⟩, rfl⟩
    exact ⟨Prod.ext rfl hes, rfl⟩
  · rintro ⟨h, rfl⟩
    rw [wholeProgram, h]
    exact ⟨rfl, rfl, rfl⟩

theorem alike_wholeProgram (t : Token) (ts : List Token) :
    (wholeProgram (t :: ts)).Alike
      ((firstStatement (t :: ts)).andThen fun s us _ => (wholeProgram us).map (s :: ·)) := by
  constructor
  · intro fault k
    simp only [mistakes_andThen, mistakes_map, mistakes_wholeProgram, firstStatement, mistakes_relax, reads_relax]
    rw [program_cons]
    exact firstMistake_recover (r := statement t ts) fun us => (program us).2
  · intro p us
    simp only [reads_wholeProgram, program_cons_eq_nil, reads_andThen_iff, reads_map, firstStatement, reads_relax]
    constructor
    · rintro ⟨⟨s, vs, ss, hr, hp, rfl⟩, rfl⟩
      exact ⟨s, vs, hr, ss, ⟨hp, rfl⟩, rfl⟩
    · rintro ⟨s, vs, hr, ss, ⟨hp, rfl⟩, rfl⟩
      exact ⟨⟨s, vs, ss, hr, hp, rfl⟩, rfl⟩

theorem decides_wholeProgram (ts : List Token) : DecidesAt wholeProgram ts := by
  cases ts with
  | nil =>
    refine decidesAt_nil fun hm => ?_
    rw [mistakes_wholeProgram, program] at hm
    exact absurd hm not_firstMistake_nil
  | cons t ts =>
    refine .ofFirst (alike_wholeProgram t) ((decides_firstStatement (t :: ts)).andThenRead fun s us hr => ?_)
    simp only [firstStatement, reads_relax] at hr
    have hle := hr.length_le
    exact (decides_wholeProgram us).map (s :: ·)
termination_by ts.length

end Parser
end Monkey
