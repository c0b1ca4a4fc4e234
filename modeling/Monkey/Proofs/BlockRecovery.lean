import Monkey.Proofs.Braces
import Monkey.Proofs.Courses

/-! Which mistakes in a block change the brace that closes it. Skipping after a mistake starts as if no brace
were open, so a mistake displaces the count by the braces that are open then, and by the token it has read. -/
namespace Monkey
open Token (Kind)

/-- How many braces are open when the rules go on after a mistake, against those open before its statement. -/
def SyntaxError.displacement (e : SyntaxError) : Int := e.unclosed + net e.fault.refused?.toList

def displacement (es : List SyntaxError) : Int := (es.map SyntaxError.displacement).sum

@[simp] theorem displacement_nil : displacement [] = 0 := rfl

@[simp] theorem displacement_cons (e : SyntaxError) (es : List SyntaxError) :
    displacement (e :: es) = e.displacement + displacement es := by simp [displacement]

@[simp] theorem displacement_append (es es' : List SyntaxError) :
    displacement (es ++ es') = displacement es + displacement es' := by simp [displacement]

/-- The same for the mistakes after which the rules go on with at least `n` tokens unread. -/
def displacementBefore (n : Nat) (es : List SyntaxError) : Int :=
  displacement (es.filter fun e => n ≤ e.resume)

theorem displacementBefore_append (n : Nat) (es es' : List SyntaxError) :
    displacementBefore n (es ++ es') = displacementBefore n es + displacementBefore n es' := by
  simp [displacementBefore]

theorem displacementBefore_cons {n : Nat} {e : SyntaxError} (es : List SyntaxError) (h : n ≤ e.resume) :
    displacementBefore n (e :: es) = e.displacement + displacementBefore n es := by
  simp [displacementBefore, h]

theorem displacementBefore_eq {n : Nat} {es : List SyntaxError} (h : ∀ e ∈ es, n ≤ e.resume) :
    displacementBefore n es = displacement es := by
  rw [displacementBefore, List.filter_eq_self.mpr]
  simpa using h

theorem displacementBefore_eq_zero {n m : Nat} {es : List SyntaxError} (h : ∀ e ∈ es, e.resume ≤ m) (hm : m < n) :
    displacementBefore n es = 0 := by
  rw [displacementBefore, List.filter_eq_nil_iff.mpr]
  · rfl
  · intro e he
    have hle := h e he
    simp only [decide_eq_true_eq]
    omega

namespace Place

/-- How many braces a course closes that were open when it began. -/
def closing : Place → Nat
  | phrase => 0
  | pairs | body => 1

theorem closing_eq_one {p : Place} (h : p ≠ .phrase) : p.closing = 1 := by
  cases p with
  | phrase => exact absurd rfl h
  | pairs | body => rfl

end Place

/-- The braces that a course owes to its end: the one it closes, or those its mistake has left open. -/
def owed (p : Place) : Option SyntaxError → Int
  | none => -p.closing
  | some e => e.displacement

/-- The place `vs` is not behind the mistake or the closing brace that ends the course. -/
def NotBehind (p : Place) (f : Option SyntaxError) (rest vs : List Token) : Prop :=
  match f with
  | none => rest.length + p.closing ≤ vs.length
  | some e => e.unread ≤ vs.length

namespace Course
variable {p : Place} {ts rest : List Token} {es : List SyntaxError} {f : Option SyntaxError}

/-- Where no tokens are left, only the end of the tokens can be reported. -/
theorem ne_nil (h : Course p ts es f rest) (hp : p ≠ .phrase) (hf : ∀ e ∈ f, e.unread ≠ 0) : ts ≠ [] := by
  rintro rfl
  cases f with
  | none => exact absurd (h.length_rest_lt hp) (Nat.not_lt_zero _)
  | some e => exact hf e rfl (Nat.le_zero.mp h.unread_le)

/-- At most the token that a mistake has read is behind the place where it was noticed. -/
theorem unread_le_succ {us : List Token} {e : SyntaxError} (h : Course p ts es (some e) us) :
    e.unread ≤ us.length + 1 := by
  have hresume := h.resume_eq
  unfold SyntaxError.resume at hresume
  split at hresume <;> omega

/-- Where skipping finds a token, the mistake before it was not about the end of the tokens. -/
theorem unread_ne_zero {us : List Token} {e : SyntaxError} (h : Course p ts es (some e) us)
    (hne : Parser.skipToStatement 0 us ≠ []) : e.unread ≠ 0 := by
  intro h0
  have hresume := h.resume_eq
  have hle : e.resume ≤ e.unread := by
    unfold SyntaxError.resume
    split <;> omega
  have hnil : us = [] := List.eq_nil_of_length_eq_zero (by omega)
  rw [hnil] at hne
  exact hne rfl

/-- The ledger of a course: its braces are those it owes and those that its mistakes displace. Where the tokens
end inside nested braces, the skipping has lost some. -/
theorem ledger (h : Course p ts es f rest) :
    displacement es + owed p f ≤ net ts - net rest ∧
      ((∀ e ∈ f, e.unread ≠ 0) → displacement es + owed p f = net ts - net rest) := by
  induction h with
  | stop => simp [owed, Place.closing]
  | token hl hr _ _ ih =>
    rw [net_cons, Token.weight_other hl hr, Int.zero_add]
    exact ih
  | closed hp ho _ _ ih ih' =>
    have hin := ih.2 fun e he => absurd he (Option.not_mem_none e)
    have hout := ih'.1
    rw [owed, Place.closing_eq_one hp] at hin
    rw [displacement_append, net_cons, Token.weight_leftBrace ho]
    constructor
    · omega
    · intro hf
      have hout := ih'.2 hf
      omega
  | @unclosed p o ts rest es e hp ho _ ih =>
    have hdisp : owed .phrase (some { e with unclosed := e.unclosed + 1 }) = owed p (some e) + 1 := by
      simp only [owed, SyntaxError.displacement]
      omega
    have hle := ih.1
    rw [hdisp, net_cons, Token.weight_leftBrace ho]
    constructor
    · omega
    · intro hf
      have hin : ∀ e' ∈ some e, e'.unread ≠ 0 := by
        rintro e' ⟨⟩
        exact hf { e with unclosed := e.unclosed + 1 } rfl
      have heq := ih.2 hin
      omega
  | fail h => simp [owed, SyntaxError.displacement, h]
  | refuse h => cases h <;> simp [owed, SyntaxError.displacement, SyntaxFault.refused?]
  | close hp hc => simp [owed, Place.closing_eq_one hp, Token.weight_rightBrace hc]
  | more _ _ _ ih ih' =>
    have hfirst := ih.2 fun e he => absurd he (Option.not_mem_none e)
    have hle := ih'.1
    simp only [owed, Place.closing] at hfirst
    rw [displacement_append]
    constructor
    · omega
    · intro hf
      have hrest := ih'.2 hf
      omega
  | broken _ ih => exact ih
  | semicolon ht _ ih =>
    rw [net_cons, Token.weight_semicolon ht, Int.zero_add]
    exact ih
  | @recovered ts us rest es es' e f h h' ih ih' =>
    have hskip := Parser.net_le_of_skipToStatement (Parser.skipToStatement_suffix 0 us) (Nat.le_refl _)
    have hfirst := ih.1
    have hle := ih'.1
    rw [owed] at hfirst
    rw [displacement_append, displacement_cons]
    constructor
    · omega
    · intro hf
      have hne := h'.ne_nil (by decide) hf
      have hunread : ∀ e' ∈ some e, e'.unread ≠ 0 := by
        rintro e' ⟨⟩
        exact h.unread_ne_zero hne
      have heq := ih.2 hunread
      have hskipped := Parser.net_skipToStatement hne
      have hrest := ih'.2 hf
      rw [owed] at heq
      omega
  | ended => simp [owed, SyntaxError.displacement, SyntaxFault.refused?]

theorem length_rest_le_resume (h : Course p ts es f rest) : ∀ e ∈ es, rest.length ≤ e.resume := by
  induction h with
  | stop | fail | refuse | close | ended => exact fun e he => absurd he List.not_mem_nil
  | token _ _ _ _ ih | semicolon _ _ ih | unclosed _ _ _ ih | broken _ ih => exact ih
  | closed _ _ _ h' ih ih' | more _ _ h' ih ih' =>
    intro e he
    rcases List.mem_append.mp he with he | he
    · exact Nat.le_trans h'.rest_suffix.length_le (ih e he)
    · exact ih' e he
  | @recovered ts us rest es es' e f h h' ih ih' =>
    have hle := h'.rest_suffix.length_le
    have hskip := Parser.length_skipToStatement_le 0 us
    intro e' he
    rcases List.mem_append.mp he with he | he
    · have hus := ih e' he
      omega
    rcases List.mem_cons.mp he with rfl | he
    · rw [h.resume_eq]
      omega
    · exact ih' e' he

theorem displacementBefore_cons_eq_zero (h : Course p ts es f rest) (t : Token) :
    displacementBefore (t :: ts).length es = 0 := displacementBefore_eq_zero h.resume_le (Nat.lt_succ_self _)

/-- The ledger of a part of a course: behind any place, only those braces are closed on the whole that have been
opened before it. -/
theorem ledger_before (h : Course p ts es f rest) {vs : List Token} (hvs : vs <:+ ts)
    (hend : NotBehind p f rest vs) : displacementBefore vs.length es ≤ net ts - net vs := by
  induction h generalizing vs with
  | stop =>
    obtain rfl := hvs.eq_of_length_le hend
    simp [displacementBefore]
  | token hl hr _ h ih =>
    rcases List.suffix_cons_iff.mp hvs with rfl | hvs
    · rw [h.displacementBefore_cons_eq_zero]
      omega
    · rw [net_cons, Token.weight_other hl hr, Int.zero_add]
      exact ih hvs hend
  | semicolon ht h ih =>
    rcases List.suffix_cons_iff.mp hvs with rfl | hvs
    · rw [h.displacementBefore_cons_eq_zero]
      omega
    · rw [net_cons, Token.weight_semicolon ht, Int.zero_add]
      exact ih hvs hend
  | @closed p o ts us rest es es' f hp ho h h' ih ih' =>
    have hwhole := h.ledger.2 fun e he => absurd he (Option.not_mem_none e)
    rw [owed, Place.closing_eq_one hp] at hwhole
    rw [displacementBefore_append]
    rcases Nat.lt_or_ge us.length vs.length with hlen | hlen
    · rw [displacementBefore_eq_zero h'.resume_le hlen]
      rcases List.suffix_cons_iff.mp hvs with rfl | hvs
      · rw [h.displacementBefore_cons_eq_zero]
        omega
      · have hpart := ih hvs (by rwa [NotBehind, Place.closing_eq_one hp])
        rw [net_cons, Token.weight_leftBrace ho]
        omega
    · have hvs' := List.suffix_of_suffix_length_le hvs (h.rest_suffix.trans (List.suffix_cons o ts)) hlen
      have hrest := ih' hvs' hend
      rw [displacementBefore_eq fun e he => Nat.le_trans hlen (h.length_rest_le_resume e he), net_cons,
        Token.weight_leftBrace ho]
      omega
  | unclosed hp ho h ih =>
    rcases List.suffix_cons_iff.mp hvs with rfl | hvs
    · rw [h.displacementBefore_cons_eq_zero]
      omega
    · have hpart := ih hvs hend
      rw [net_cons, Token.weight_leftBrace ho]
      omega
  | fail _ | refuse _ =>
    obtain rfl := hvs.eq_of_length_le hend
    simp [displacementBefore]
  | close hp _ =>
    rw [NotBehind, Place.closing_eq_one hp] at hend
    obtain rfl := hvs.eq_of_length_le hend
    simp [displacementBefore]
  | @more p ts us rest es es' f hp h h' ih ih' =>
    have hwhole := h.ledger.2 fun e he => absurd he (Option.not_mem_none e)
    simp only [owed, Place.closing] at hwhole
    rw [displacementBefore_append]
    rcases Nat.lt_or_ge us.length vs.length with hlen | hlen
    · have hpart := ih hvs (Nat.le_of_lt hlen)
      rw [displacementBefore_eq_zero h'.resume_le hlen]
      omega
    · have hrest := ih' (List.suffix_of_suffix_length_le hvs h.rest_suffix hlen) hend
      rw [displacementBefore_eq fun e he => Nat.le_trans hlen (h.length_rest_le_resume e he)]
      omega
  | broken _ ih => exact ih hvs hend
  | @recovered ts us rest es es' e f h h' ih ih' =>
    have hwhole := h.ledger.1
    have hskip := Parser.length_skipToStatement_le 0 us
    rw [owed] at hwhole
    rw [displacementBefore_append]
    rcases Nat.lt_or_ge us.length vs.length with hlen | hlen
    · have hpart := ih hvs (Nat.le_trans h.unread_le_succ hlen)
      have hlate : ∀ e' ∈ e :: es', e'.resume ≤ us.length := by
        intro e' he
        rcases List.mem_cons.mp he with rfl | he
        · exact Nat.le_of_eq h.resume_eq
        · exact Nat.le_trans (h'.resume_le e' he) hskip
      rw [displacementBefore_eq_zero hlate hlen]
      omega
    · have hvs' := List.suffix_of_suffix_length_le hvs h.rest_suffix hlen
      rw [displacementBefore_eq fun e he => Nat.le_trans hlen (h.length_rest_le_resume e he),
        displacementBefore_cons es' (by rw [h.resume_eq]; exact hlen)]
      rcases Nat.lt_or_ge (Parser.skipToStatement 0 us).length vs.length with hlen' | hlen'
      · have hskipped := Parser.net_le_of_skipToStatement hvs' (Nat.le_of_lt hlen')
        rw [displacementBefore_eq_zero h'.resume_le hlen']
        omega
      · have hskipped := Parser.net_le_of_skipToStatement (Parser.skipToStatement_suffix 0 us) (Nat.le_refl _)
        have hrest := ih' (List.suffix_of_suffix_length_le hvs' (Parser.skipToStatement_suffix 0 us) hlen') hend
        omega
  | ended =>
    obtain rfl := List.suffix_nil.mp hvs
    simp [displacementBefore]

end Course

theorem block_cons {o : Token} (ts : List Token) (ho : o.kind = .leftBrace) :
    (Parser.block (o :: ts)).errors = (Parser.blockBody ts).errors ∧
      (Parser.block (o :: ts)).rest = (Parser.blockBody ts).rest ∧
      ((∃ b, (Parser.block (o :: ts)).outcome = .ok b) ↔ (Parser.blockBody ts).failure = none) := by
  rw [Parser.block, Parser.expect, if_pos ho]
  refine ⟨rfl, rfl, ?_⟩
  cases h : (Parser.blockBody ts).outcome <;>
    simp [Reply.failure, Reply.andThen, Reply.inBraces, Reply.done, Reply.relax, h, Except.mapError]

/-- A block that closes at a brace before its own closes one that its statements have opened. -/
theorem WellNested.net_ne {inside after rest : List Token} {c : Token} (hin : WellNested inside)
    (hrest : rest <:+ inside ++ c :: after) (hlen : after.length < rest.length) :
    net (inside ++ c :: after) - net rest ≠ -1 := by
  obtain ⟨us, hus⟩ := hrest
  have hprefix : us <+: inside := by
    refine List.prefix_of_prefix_length_le (hus ▸ List.prefix_append us rest) (List.prefix_append inside _) ?_
    have hlength := congrArg List.length hus
    simp only [List.length_append, List.length_cons] at hlength
    omega
  have hopened := hin.opened us hprefix
  rw [← hus, net_append]
  omega

/-- A block leaves unread exactly what stands behind its braces if and only if the mistakes before that place
displace no brace on the whole. -/
theorem block_ends_at_its_brace (o c : Token) (inside after : List Token) (ho : o.kind = .leftBrace)
    (hc : c.kind = .rightBrace) (hin : WellNested inside) :
    let r := Parser.block (o :: (inside ++ c :: after))
    ((∃ b, r.outcome = .ok b) ∧ r.rest = after) ↔ displacementBefore after.length r.errors = 0 := by
  intro r
  obtain ⟨herrors, hrest, hok⟩ := block_cons (inside ++ c :: after) ho
  have hrun : Course .body (inside ++ c :: after) r.errors
      (Parser.blockBody (inside ++ c :: after)).failure r.rest := by
    rw [herrors, hrest]
    exact Parser.runs_blockBody _
  have hnet : net (inside ++ c :: after) - net after = -1 := by
    rw [net_append, net_cons, hin.closed, Token.weight_rightBrace hc]
    omega
  have hafter : after <:+ inside ++ c :: after := (List.suffix_cons c after).trans (List.suffix_append inside _)
  rw [hok]
  generalize (Parser.blockBody (inside ++ c :: after)).failure = f at hrun
  constructor
  · rintro ⟨rfl, hr⟩
    have hledger := hrun.ledger.2 fun e he => absurd he (Option.not_mem_none e)
    rw [owed, Place.closing, hr] at hledger
    rw [displacementBefore_eq fun e he => hr ▸ hrun.length_rest_le_resume e he]
    omega
  · intro hzero
    -- The block cannot have run past what stands behind it: the ledger would be one brace short there.
    have hpast : ¬ NotBehind .body f r.rest after := by
      intro hend
      have hpart := hrun.ledger_before hafter hend
      omega
    cases f with
    | some e =>
      have hunread := hrun.unread_eq_zero rfl
      exact absurd (by rw [NotBehind, hunread]; exact Nat.zero_le _) hpast
    | none =>
      have hle : after.length ≤ r.rest.length := Nat.le_of_not_lt hpast
      have hledger := hrun.ledger.2 fun e he => absurd he (Option.not_mem_none e)
      rw [displacementBefore_eq fun e he => Nat.le_trans hle (hrun.length_rest_le_resume e he)] at hzero
      rw [owed, Place.closing, hzero] at hledger
      rcases Nat.lt_or_eq_of_le hle with hlt | heq
      · exact absurd hledger.symm (hin.net_ne hrun.rest_suffix hlt)
      · refine ⟨rfl, ?_⟩
        exact (List.suffix_of_suffix_length_le hafter hrun.rest_suffix hle).eq_of_length heq |>.symm

/-- The block of `{ let ; x } x` recovers from the missing name and ends at its brace. -/
theorem block_ends_behind_missing_name :
    let x := Token.ofKind .identifier
    let r := Parser.block [.ofKind .leftBrace, .ofKind .letWord, .ofKind .semicolon, x, .ofKind .rightBrace, x]
    (∃ b, r.outcome = .ok b) ∧ r.rest = [x] := by
  intro x r
  have hin : WellNested [.ofKind .letWord, .ofKind .semicolon, x] :=
    .cons (by decide) (by decide) (.cons (by decide) (by decide) (.cons (by decide) (by decide) wellNested_nil))
  exact (block_ends_at_its_brace (.ofKind .leftBrace) (.ofKind .rightBrace) _ [x] rfl rfl hin).mpr (by decide +kernel)

/-- The block of `{ let x = } x` takes its own brace for the missing value and runs on to the end. -/
theorem block_swallows_its_brace :
    ¬ ∀ (o c : Token) (inside after : List Token), o.kind = .leftBrace → c.kind = .rightBrace →
      WellNested inside →
        (∃ b, (Parser.block (o :: (inside ++ c :: after))).outcome = .ok b) ∧
          (Parser.block (o :: (inside ++ c :: after))).rest = after := by
  intro h
  have hin : WellNested [.ofKind .letWord, .ofKind .identifier, .ofKind .equal] :=
    .cons (by decide) (by decide) (.cons (by decide) (by decide) (.cons (by decide) (by decide) wellNested_nil))
  obtain ⟨-, hrest⟩ := h (.ofKind .leftBrace) (.ofKind .rightBrace) _ [.ofKind .identifier] rfl rfl hin
  have hend : (Parser.block [.ofKind .leftBrace, .ofKind .letWord, .ofKind .identifier, .ofKind .equal,
      .ofKind .rightBrace, .ofKind .identifier]).rest = [] := by decide +kernel
  cases hend.symm.trans hrest

end Monkey
