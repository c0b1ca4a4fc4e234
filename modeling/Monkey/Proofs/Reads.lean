import Monkey.Syntax.Parser

/-! Replies without mistakes: what they read and what they leave unread, rule by rule. -/
namespace Monkey
open Token (Kind)

namespace Reply
variable {α β : Type} {m n : Nat}

/-- The reply has no mistake of its own and none recovered from: it reads `a` and leaves `rest`. -/
structure Reads (r : Reply n α) (a : α) (rest : List Token) : Prop where
  errors : r.errors = []
  outcome : r.outcome = .ok a
  rest : r.rest = rest

theorem Reads.length_le {r : Reply n α} {a : α} {rest : List Token} (h : r.Reads a rest) :
    rest.length ≤ n := h.rest ▸ r.length_rest_le

@[simp] theorem reads_done {a b : α} {us vs : List Token} :
    (done a us).Reads b vs ↔ a = b ∧ us = vs := by
  constructor
  · rintro ⟨_, ho, hr⟩
    exact ⟨Except.ok.inj ho, hr⟩
  · rintro ⟨rfl, rfl⟩
    exact ⟨rfl, rfl, rfl⟩

@[simp] theorem not_reads_fail {fault : SyntaxFault} {a : α} {us vs : List Token} :
    ¬ (fail fault us).Reads a vs := fun h => by cases h.outcome

@[simp] theorem not_reads_refuse {fault : SyntaxFault} {a : α} {us vs : List Token} :
    ¬ (refuse fault us).Reads a vs := fun h => by cases h.outcome

@[simp] theorem reads_relax {r : Reply m α} {h : m ≤ n} {a : α} {us : List Token} :
    (r.relax h).Reads a us ↔ r.Reads a us :=
  ⟨fun ⟨e, o, k⟩ => ⟨e, o, k⟩, fun ⟨e, o, k⟩ => ⟨e, o, k⟩⟩

@[simp] theorem reads_weaken {r : Reply (n - 1) α} {a : α} {us : List Token} :
    r.weaken.Reads a us ↔ r.Reads a us := reads_relax

@[simp] theorem reads_map {f : α → β} {r : Reply n α} {b : β} {us : List Token} :
    (r.map f).Reads b us ↔ ∃ a, r.Reads a us ∧ f a = b := by
  obtain ⟨es, o, rest, h⟩ := r
  constructor
  · rintro ⟨he, ho, hr⟩
    cases o with
    | error e => cases ho
    | ok a => exact ⟨a, ⟨he, rfl, hr⟩, Except.ok.inj ho⟩
  · rintro ⟨a, ⟨he, ho, hr⟩, rfl⟩
    exact ⟨he, congrArg (Except.map f) ho, hr⟩

@[simp] theorem reads_inBraces {r : Reply n α} {a : α} {us : List Token} :
    r.inBraces.Reads a us ↔ r.Reads a us := by
  obtain ⟨es, o, rest, h⟩ := r
  constructor
  · rintro ⟨he, ho, hr⟩
    cases o with
    | error e => cases ho
    | ok b => exact ⟨he, ho, hr⟩
  · rintro ⟨he, ho, hr⟩
    cases ho
    exact ⟨he, rfl, hr⟩

/-- Two rules in a row read what the first reads and then what the second reads on. -/
theorem reads_andThen {r : Reply n α}
    {next : α → (rest : List Token) → rest.length ≤ n → Reply rest.length β} {b : β} {vs : List Token} :
    (r.andThen next).Reads b vs ↔ ∃ a us, ∃ h : us.length ≤ n, r.Reads a us ∧ (next a us h).Reads b vs := by
  obtain ⟨es, o, rest, h⟩ := r
  constructor
  · rintro ⟨he, ho, hr⟩
    cases o with
    | error e => cases ho
    | ok a =>
      obtain ⟨hes, hns⟩ := List.append_eq_nil_iff.mp he
      exact ⟨a, rest, h, ⟨hes, rfl, rfl⟩, hns, ho, hr⟩
  · rintro ⟨a, us, hu, ⟨he, ho, hr⟩, hne, hno, hnr⟩
    cases ho
    cases hr
    exact ⟨List.append_eq_nil_iff.mpr ⟨he, hne⟩, hno, hnr⟩

theorem Reads.relax {r : Reply m α} {a : α} {us : List Token} (h : r.Reads a us) (hl : m ≤ n) :
    (r.relax hl).Reads a us := reads_relax.mpr h

theorem Reads.weaken {r : Reply (n - 1) α} {a : α} {us : List Token} (h : r.Reads a us) :
    r.weaken.Reads a us := reads_weaken.mpr h

theorem Reads.map {r : Reply n α} {a : α} {us : List Token} (h : r.Reads a us) (f : α → β) :
    (r.map f).Reads (f a) us := reads_map.mpr ⟨a, h, rfl⟩

theorem Reads.andThen {r : Reply n α} {a : α} {us : List Token} (h : r.Reads a us)
    {next : α → (rest : List Token) → rest.length ≤ n → Reply rest.length β} {b : β} {vs : List Token}
    (h' : ∀ hl, (next a us hl).Reads b vs) : (r.andThen next).Reads b vs :=
  reads_andThen.mpr ⟨a, us, h.length_le, h, h' _⟩

end Reply

namespace Parser
open Reply

theorem eq_cons_of_accept? {kind : Kind} {ts us : List Token} {h : us.length < ts.length}
    (ha : accept? kind ts = some ⟨us, h⟩) : ∃ t, ts = t :: us ∧ t.kind = kind := by
  cases ts with
  | nil => cases ha
  | cons t ts =>
    by_cases hk : t.kind = kind
    · simp only [accept?, hk, if_true, Option.some.injEq, Subtype.mk.injEq] at ha
      exact ⟨t, by rw [ha], hk⟩
    · simp [accept?, hk] at ha

@[simp] theorem reads_expect {kind : Kind} {ts : List Token} {t : Token} {us : List Token} :
    (expect kind ts).Reads t us ↔ ts = t :: us ∧ t.kind = kind := by
  cases ts with
  | nil => simp [expect]
  | cons t' ts =>
    by_cases h : t'.kind = kind
    · simp only [expect, h, if_true, reads_relax, reads_done]
      constructor
      · rintro ⟨rfl, rfl⟩
        exact ⟨rfl, h⟩
      · rintro ⟨he, _⟩
        exact List.cons.inj he
    · simp only [expect, h, if_false, not_reads_fail, List.cons.injEq, false_iff]
      rintro ⟨⟨rfl, _⟩, hk⟩
      exact h hk

theorem expect_reads {kind : Kind} {t : Token} (us : List Token) (h : t.kind = kind) :
    (expect kind (t :: us)).Reads t us := reads_expect.mpr ⟨rfl, h⟩

theorem recover_of_reads {n : Nat} {r : Reply n Stmt} {s : Stmt} {rest : List Token} (h : r.Reads s rest) :
    (recover r).stmts = [s] ∧ (recover r).errors = [] ∧ (recover r).rest = rest := by
  obtain ⟨es, o, us, hl⟩ := r
  cases h.outcome
  exact ⟨rfl, h.errors, h.rest⟩

/-- An attempt without errors has read its statement. -/
theorem reads_of_recover {n : Nat} {r : Reply n Stmt} (h : (recover r).errors = []) :
    ∃ s, r.Reads s (recover r).rest ∧ (recover r).stmts = [s] := by
  obtain ⟨es, o, us, hl⟩ := r
  cases o with
  | error e => exact absurd h (by simp [Parser.recover])
  | ok s => exact ⟨s, ⟨h, rfl, rfl⟩, rfl⟩

/-- A block that does not end at once reads a statement and then a block's other statements. -/
theorem reads_blockBody_cons {t : Token} {ts rest : List Token} {b : Block} (ht : t.kind ≠ .rightBrace) :
    (blockBody (t :: ts)).Reads b rest ↔
      ∃ s us ss, (statement t ts).Reads s us ∧ (blockBody us).Reads ss rest ∧ s :: ss = b := by
  obtain ⟨hes, ho, hr⟩ := blockBody_cons ts ht
  constructor
  · intro h
    obtain ⟨he, he'⟩ := List.append_eq_nil_iff.mp (hes.symm.trans h.errors)
    obtain ⟨s, hs, hss⟩ := reads_of_recover he
    have hout := ho.symm.trans h.outcome
    cases hb : (blockBody (recover (statement t ts)).rest).outcome with
    | error e => rw [hb] at hout; cases hout
    | ok ss =>
      rw [hb, hss] at hout
      exact ⟨s, _, ss, hs, ⟨he', hb, hr.symm.trans h.rest⟩, Except.ok.inj hout⟩
  · rintro ⟨s, us, ss, hs, hb, rfl⟩
    obtain ⟨h1, h2, h3⟩ := recover_of_reads hs
    rw [h1, h3] at ho
    rw [h2, h3] at hes
    rw [h3] at hr
    exact ⟨by rw [hes, hb.errors, List.append_nil], by rw [ho, hb.outcome]; rfl, by rw [hr, hb.rest]⟩

theorem program_cons_eq_nil {t : Token} {ts : List Token} {p : Program} :
    program (t :: ts) = (p, []) ↔
      ∃ s us ss, (statement t ts).Reads s us ∧ program us = (ss, []) ∧ s :: ss = p := by
  rw [program_cons]
  constructor
  · intro h
    obtain ⟨hp, hes⟩ := Prod.mk.inj h
    obtain ⟨he, he'⟩ := List.append_eq_nil_iff.mp hes
    obtain ⟨s, hs, hss⟩ := reads_of_recover he
    rw [hss] at hp
    exact ⟨s, _, _, hs, Prod.ext rfl he', hp⟩
  · rintro ⟨s, us, ss, hs, hp, rfl⟩
    obtain ⟨h1, h2, h3⟩ := recover_of_reads hs
    rw [h1, h2, h3, hp]
    rfl

end Parser
end Monkey
