import Monkey.Proofs.Reads
import Monkey.Proofs.TokenClasses

/-! The statements that survive in a source that lexes are writable, whatever mistakes stand between them. -/
namespace Monkey
open Token (Kind)

/-- The lexeme is one that the lexer makes for the kind. -/
structure Legible (k : Kind) (lexeme : String) : Prop where
  name : k = .identifier → IsName lexeme
  text : k = .string → IsText lexeme
  digits : k = .integer → lexeme.toList.all Char.isDigit = true

def AllLegible (ts : List Token) : Prop := ∀ t ∈ ts, Legible t.kind t.lexeme

theorem allLegible_cons {t : Token} {ts : List Token} :
    AllLegible (t :: ts) ↔ Legible t.kind t.lexeme ∧ AllLegible ts := List.forall_mem_cons

theorem AllLegible.of_suffix {ts us : List Token} (h : AllLegible ts) (hs : us <:+ ts) : AllLegible us :=
  fun t ht => h t (hs.subset ht)

theorem nonneg_of_integer? {s : String} {n : Int64} (hs : s.toList.all Char.isDigit = true)
    (h : Decimal.integer? s = some n) : 0 ≤ n.toInt := by
  have hpositive (ds : List Char) (h : Decimal.integer?.positive? ds = some n) : 0 ≤ n.toInt := by
    rw [Decimal.integer?.positive?] at h
    obtain ⟨m, -, hm⟩ := Option.bind_eq_some_iff.mp h
    split at hm
    · next hlt =>
      cases hm
      rw [Int64.toInt_ofNat_of_lt hlt]
      exact Int.natCast_nonneg m
    · cases hm
  unfold Decimal.integer? at h
  split at h
  · next hds =>
    rw [hds] at hs
    cases hs
  · next hds =>
    rw [hds] at hs
    cases hs
  · exact hpositive _ h

namespace Reply
variable {α β : Type} {m n : Nat}

/-- The result has the property `P` if there is one, and the unread tokens are legible. -/
structure Gives (r : Reply n α) (P : α → Prop) : Prop where
  result : ∀ a, r.outcome = .ok a → P a
  rest : AllLegible r.rest

variable {P : α → Prop} {Q : β → Prop}

theorem gives_done {a : α} {us : List Token} (ha : P a) (hus : AllLegible us) : (done a us).Gives P := by
  refine ⟨?_, hus⟩
  rintro _ ⟨⟩
  exact ha

theorem gives_fail {fault : SyntaxFault} {us : List Token} (hus : AllLegible us) : (fail fault us).Gives P :=
  ⟨nofun, hus⟩

theorem gives_refuse {fault : SyntaxFault} {us : List Token} (hus : AllLegible us) :
    (refuse fault us).Gives P := ⟨nofun, hus⟩

theorem Gives.relax {r : Reply m α} (h : r.Gives P) (hl : m ≤ n) : (r.relax hl).Gives P := ⟨h.result, h.rest⟩

theorem Gives.weaken {r : Reply (n - 1) α} (h : r.Gives P) : r.weaken.Gives P := h.relax _

theorem Gives.map {r : Reply n α} (h : r.Gives P) {f : α → β} (hf : ∀ a, P a → Q (f a)) : (r.map f).Gives Q := by
  refine ⟨fun b hb => ?_, h.rest⟩
  cases ho : r.outcome with
  | error e => simp [Reply.map, ho, Except.map] at hb
  | ok a =>
    simp only [Reply.map, ho, Except.map, Except.ok.injEq] at hb
    exact hb ▸ hf a (h.result a ho)

theorem Gives.inBraces {r : Reply n α} (h : r.Gives P) : r.inBraces.Gives P := by
  refine ⟨fun a ha => ?_, h.rest⟩
  rw [Reply.inBraces] at ha
  cases ho : r.outcome with
  | error e =>
    rw [ho] at ha
    cases ha
  | ok b =>
    rw [ho] at ha
    obtain rfl := Except.ok.inj ha
    exact h.result b ho

theorem Gives.andThen {r : Reply n α} (h : r.Gives P)
    {next : α → (rest : List Token) → rest.length ≤ n → Reply rest.length β}
    (h' : ∀ a us hl, P a → AllLegible us → (next a us hl).Gives Q) : (r.andThen next).Gives Q := by
  obtain ⟨es, o, us, hl⟩ := r
  cases o with
  | error e => exact ⟨nofun, h.rest⟩
  | ok a =>
    have hnext := h' a us hl (h.result a rfl) h.rest
    exact ⟨hnext.result, hnext.rest⟩

end Reply

namespace Parser
open Reply

theorem gives_expect {kind : Kind} {ts : List Token} (hts : AllLegible ts) :
    (expect kind ts).Gives fun t => t.kind = kind ∧ Legible t.kind t.lexeme := by
  cases ts with
  | nil => exact gives_fail hts
  | cons t ts =>
    rw [expect]
    split
    · next hk => exact (gives_done ⟨hk, hts t List.mem_cons_self⟩ (allLegible_cons.mp hts).2).relax _
    · exact gives_fail hts

theorem allLegible_of_accept? {kind : Kind} {ts us : List Token} {h : us.length < ts.length}
    (hts : AllLegible ts) (ha : accept? kind ts = some ⟨us, h⟩) : AllLegible us := by
  obtain ⟨t, rfl, -⟩ := eq_cons_of_accept? ha
  exact (allLegible_cons.mp hts).2

/-- A statement's attempt gives writable statements. -/
theorem Gives.recover {n : Nat} {r : Reply n Stmt} (h : r.Gives Stmt.Writable) :
    StmtsWritable (recover r).stmts ∧ AllLegible (recover r).rest := by
  obtain ⟨es, o, us, hl⟩ := r
  cases o with
  | ok s => exact ⟨⟨h.result s rfl, trivial⟩, h.rest⟩
  | error e => exact ⟨trivial, h.rest.of_suffix (skipToStatement_suffix 0 us)⟩

theorem stmtsWritable_append {ss tt : List Stmt} (h : StmtsWritable ss) (h' : StmtsWritable tt) :
    StmtsWritable (ss ++ tt) := by
  induction ss with
  | nil => exact h'
  | cons s ss ih => exact ⟨h.1, ih h.2⟩

theorem gives_endOfStatement {s : Stmt} {ts : List Token} (hs : s.Writable) (hts : AllLegible ts) :
    (endOfStatement s ts).Gives Stmt.Writable := by
  rw [endOfStatement]
  split
  · next ha => exact (gives_done hs (allLegible_of_accept? hts ha)).relax _
  · exact gives_done hs hts

theorem gives_paramNames {ts : List Token} (hts : AllLegible ts) :
    (paramNames ts).Gives fun xs => ∀ x ∈ xs, IsName x := by
  rw [paramNames]
  refine (gives_expect hts).andThen fun t us _ ht hus => ?_
  have hname : IsName t.lexeme := ht.2.name ht.1
  split
  · next ha =>
    refine ((gives_paramNames (allLegible_of_accept? hus ha)).map fun xs hxs => ?_).relax _
    exact List.forall_mem_cons.mpr ⟨hname, hxs⟩
  · exact (gives_expect hus).map fun _ _ => List.forall_mem_singleton.mpr hname
termination_by ts.length

theorem gives_params {ts : List Token} (hts : AllLegible ts) :
    (params ts).Gives fun xs => ∀ x ∈ xs, IsName x := by
  rw [params]
  split
  · next ha => exact (gives_done (List.forall_mem_nil _) (allLegible_of_accept? hts ha)).relax _
  · exact gives_paramNames hts

mutual

theorem gives_expr {least : Precedence} {ts : List Token} (hts : AllLegible ts) :
    (expr least ts).Gives Expr.Writable := by
  rw [expr]
  exact (gives_operand hts).andThen fun left us _ hl hus => gives_continued hl hus
termination_by 6 * ts.length + 1

theorem gives_operand {ts : List Token} (hts : AllLegible ts) : (operand ts).Gives Expr.Writable := by
  cases ts with
  | nil =>
    rw [operand]
    exact gives_fail hts
  | cons t ts =>
    obtain ⟨ht, hts⟩ := allLegible_cons.mp hts
    rw [operand]
    split
    · next hk => exact gives_done (ht.name hk) hts
    · next hk =>
      split
      · next n hn => exact gives_done (nonneg_of_integer? (ht.digits hk) hn) hts
      · exact gives_refuse hts
    · next hk => exact gives_done (ht.text hk) hts
    · exact gives_done trivial hts
    · exact gives_done trivial hts
    · exact (gives_expr hts).weaken.map fun _ he => he
    · exact (gives_expr hts).weaken.map fun _ he => he
    · exact (gives_expr hts).weaken.andThen fun e us _ he hus => (gives_expect hus).map fun _ _ => he
    · exact gives_conditional hts
    · exact gives_function hts
    · exact (gives_exprList hts).map fun _ hes => hes
    · exact (gives_pairs hts).inBraces.map fun _ hps => hps
    · exact gives_refuse hts
termination_by 6 * ts.length
decreasing_by
  all_goals subst_vars
  all_goals try simp only [List.length_cons] at *
  all_goals omega

theorem gives_continued {least : Precedence} {left : Expr} {ts : List Token} (hl : left.Writable)
    (hts : AllLegible ts) : (continued least left ts).Gives Expr.Writable := by
  cases ts with
  | nil =>
    rw [continued]
    exact gives_done hl hts
  | cons t ts =>
    rw [continued]
    split
    · exact gives_done hl hts
    · split
      · exact gives_done hl hts
      · refine ((gives_continuation hl (allLegible_cons.mp hts).2).andThen fun e us _ he hus => ?_).relax _
        exact gives_continued he hus
termination_by 6 * ts.length
decreasing_by
  all_goals subst_vars
  all_goals try simp only [List.length_cons] at *
  all_goals omega

theorem gives_continuation {left : Expr} {c : Continuation} {line : Nat} {ts : List Token}
    (hl : left.Writable) (hts : AllLegible ts) : (continuation left c line ts).Gives Expr.Writable := by
  cases c with
  | call =>
    rw [continuation]
    exact (gives_exprList hts).map fun _ hes => ⟨hl, hes⟩
  | index =>
    rw [continuation]
    exact (gives_expr hts).weaken.andThen fun i us _ hi hus => (gives_expect hus).map fun _ _ => ⟨hl, hi⟩
  | operator op =>
    rw [continuation]
    exact (gives_expr hts).weaken.map fun _ hr => ⟨hl, hr⟩
termination_by 6 * ts.length + 5

theorem gives_conditional {ts : List Token} (hts : AllLegible ts) : (conditional ts).Gives Expr.Writable := by
  rw [conditional]
  refine (gives_expect hts).andThen fun _ us _ _ hus => (gives_expr hus).weaken.andThen fun c vs _ hc hvs =>
    (gives_expect hvs).andThen fun _ ws _ _ hws => (gives_block hws).andThen fun yes xs _ hyes hxs => ?_
  split
  · next ha => exact ((gives_block (allLegible_of_accept? hxs ha)).map fun _ hno => ⟨hc, hyes, hno⟩).relax _
  · exact gives_done ⟨hc, hyes⟩ hxs
termination_by 6 * ts.length + 5

theorem gives_function {ts : List Token} (hts : AllLegible ts) : (function ts).Gives Expr.Writable := by
  rw [function]
  exact (gives_expect hts).andThen fun _ us _ _ hus => (gives_params hus).andThen fun xs vs _ hxs hvs =>
    (gives_block hvs).map fun _ hb => ⟨hxs, hb⟩
termination_by 6 * ts.length + 5

theorem gives_exprList {close : Kind} {ts : List Token} (hts : AllLegible ts) :
    (exprList close ts).Gives ExprsWritable := by
  rw [exprList]
  split
  · next ha => exact (gives_done trivial (allLegible_of_accept? hts ha)).relax _
  · exact gives_exprItems hts
termination_by 6 * ts.length + 4

theorem gives_exprItems {close : Kind} {ts : List Token} (hts : AllLegible ts) :
    (exprItems close ts).Gives ExprsWritable := by
  rw [exprItems]
  refine (gives_expr hts).weaken.andThen fun e us _ he hus => ?_
  split
  · next ha => exact ((gives_exprItems (allLegible_of_accept? hus ha)).map fun _ hes => ⟨he, hes⟩).relax _
  · exact (gives_expect hus).map fun _ _ => ⟨he, trivial⟩
termination_by 6 * ts.length + 3

theorem gives_pairs {ts : List Token} (hts : AllLegible ts) : (pairs ts).Gives PairsWritable := by
  rw [pairs]
  split
  · next ha => exact (gives_done trivial (allLegible_of_accept? hts ha)).relax _
  · refine (gives_expr hts).weaken.andThen fun key us _ hkey hus => (gives_expect hus).andThen fun _ vs _ _ hvs =>
      (gives_expr hvs).weaken.andThen fun value ws _ hvalue hws => ?_
    split
    · next ha =>
      exact ((gives_pairs (allLegible_of_accept? hws ha)).map fun _ hps => ⟨⟨hkey, hvalue⟩, hps⟩).relax _
    · exact (gives_expect hws).map fun _ _ => ⟨⟨hkey, hvalue⟩, trivial⟩
termination_by 6 * ts.length + 3

theorem gives_block {ts : List Token} (hts : AllLegible ts) : (block ts).Gives StmtsWritable := by
  rw [block]
  exact (gives_expect hts).andThen fun _ us _ _ hus => (gives_blockBody hus).inBraces
termination_by 6 * ts.length + 4

theorem gives_blockBody {ts : List Token} (hts : AllLegible ts) : (blockBody ts).Gives StmtsWritable := by
  cases ts with
  | nil =>
    rw [blockBody]
    exact gives_fail hts
  | cons t ts =>
    by_cases hk : t.kind = .rightBrace
    · rw [blockBody, if_pos hk]
      exact (gives_done trivial (allLegible_cons.mp hts).2).relax _
    · obtain ⟨-, ho, hr⟩ := blockBody_cons ts hk
      obtain ⟨hstmts, hrest⟩ := Gives.recover (gives_statement hts)
      have := (recover (statement t ts)).length_rest_le
      have hbody := gives_blockBody hrest
      refine ⟨fun b hb => ?_, hr ▸ hbody.rest⟩
      cases hout : (blockBody (recover (statement t ts)).rest).outcome with
      | error e =>
        rw [ho, hout] at hb
        cases hb
      | ok ss =>
        rw [ho, hout] at hb
        cases hb
        exact stmtsWritable_append hstmts (hbody.result ss hout)
termination_by 6 * ts.length + 3
decreasing_by
  all_goals subst_vars
  all_goals try simp only [List.length_cons] at *
  all_goals omega

theorem gives_statement {t : Token} {ts : List Token} (hts : AllLegible (t :: ts)) :
    (statement t ts).Gives Stmt.Writable := by
  obtain ⟨-, hrest⟩ := allLegible_cons.mp hts
  rw [statement]
  split
  · exact (gives_expect hrest).andThen fun x us _ hx hus => (gives_expect hus).andThen fun _ vs _ _ hvs =>
      (gives_expr hvs).weaken.andThen fun e ws _ he hws => gives_endOfStatement ⟨hx.2.name hx.1, he⟩ hws
  · split
    · exact gives_endOfStatement trivial hrest
    · exact (gives_expr hrest).weaken.andThen fun e us _ he hus => gives_endOfStatement he hus
  · exact (gives_expr hts).andThen fun e us _ he hus => gives_endOfStatement he hus
termination_by 6 * (ts.length + 1) + 2
decreasing_by
  all_goals try simp only [List.length_cons] at *
  all_goals omega

end

theorem program_writable {ts : List Token} (hts : AllLegible ts) : StmtsWritable (program ts).1 := by
  cases ts with
  | nil =>
    rw [program]
    trivial
  | cons t ts =>
    rw [program_cons]
    have := (recover (statement t ts)).length_rest_le
    obtain ⟨hstmts, hrest⟩ := Gives.recover (gives_statement hts)
    exact stmtsWritable_append hstmts (program_writable hrest)
termination_by ts.length
decreasing_by
  subst_vars
  simp only [List.length_cons]
  omega

end Parser
namespace Piece

/-- If the piece is a token, its lexeme is one of its kind. -/
def IsLegible (p : Piece) : Prop := ∀ k, p.reading = .ok k → Legible k (String.ofList p.lexeme)

theorem Plain.legible {k : Kind} (hk : Plain k) (x : String) : Legible k x :=
  ⟨fun h => absurd h hk.1, fun h => absurd h hk.2.1, fun h => absurd h hk.2.2⟩

theorem isName_of_isWord {w : List Char} (hw : Token.IsWord w) (hk : Kind.ofKeyword? (String.ofList w) = none) :
    IsName (String.ofList w) := by
  obtain ⟨c, cs, rfl, hc, hcs⟩ := hw
  refine ⟨c, cs, String.toList_ofList, isWordStart_iff.mpr hc, ?_, hk⟩
  exact List.all_eq_true.mpr fun d hd => isWordPart_iff.mpr (hcs d hd)

/-- A whole token has a lexeme of its kind. -/
theorem legible_of_whole {k : Kind} {w rest : List Char} (h : Token.Whole k w rest) :
    Legible k (String.ofList (ofWord k w rest).lexeme) := by
  obtain ⟨hin, -, hkey⟩ := h
  cases hin with
  | mark hk => exact (plain_of_ofChar? hk).legible _
  | keyword _ hk => exact (plain_of_ofKeyword? hk).legible _
  | identifier hword =>
    refine ⟨fun _ => isName_of_isWord hword ?_, fun h => Kind.noConfusion h, fun h => Kind.noConfusion h⟩
    refine Option.eq_none_iff_forall_ne_some.mpr fun k' hk' => (plain_of_ofKeyword? hk').1 (hkey k' hk').symm
  | string hinside =>
    refine ⟨fun h => Kind.noConfusion h, fun _ => ?_, fun h => Kind.noConfusion h⟩
    simpa [IsText, ofWord, isStringPart_iff] using hinside
  | integer hds =>
    refine ⟨fun h => Kind.noConfusion h, fun h => Kind.noConfusion h, fun _ => ?_⟩
    rw [ofWord_of_ne (by decide), String.toList_ofList]
    exact List.all_eq_true.mpr hds
  | _ => exact Plain.legible (by decide) _

/-- What the lexer reads as a token has a lexeme of its kind. -/
theorem isLegible_cut (c : Char) (cs : List Char) : (cut c cs).IsLegible := by
  intro k hk
  rw [cut_eq_ofWord hk]
  exact legible_of_whole (isWhole_cut c cs k hk)

end Piece

theorem legible_of_mem_readings : ∀ (pos : Cursor) {t : Token}, .ok t ∈ pos.readings → Legible t.kind t.lexeme
  | ⟨[], offset, line⟩, t, h => by
    rw [Cursor.readings_nil] at h
    cases h
  | ⟨c :: cs, offset, line⟩, t, h => by
    have := Piece.length_rest_le c cs
    rw [Cursor.readings_cons] at h
    rcases List.mem_cons.mp h with h | h
    · rw [Cursor.reading] at h
      split at h
      · next k hk =>
        cases h
        exact Piece.isLegible_cut c cs k hk
      · cases h
    · exact legible_of_mem_readings _ h
termination_by pos => pos.rest.length
decreasing_by
  simp only [Cursor.after, List.length_cons]
  omega

theorem allLegible_of_significant {source : String} {ts : List Token} (h : Token.significant source = .ok ts) :
    AllLegible ts := by
  obtain ⟨us, hus, rfl⟩ := Token.significant_eq_ok_iff.mp h
  intro t ht
  refine legible_of_mem_readings (Cursor.ofString source) ?_
  rw [hus]
  exact List.mem_map_of_mem (List.mem_filter.mp ht).1

/-- The statements that survive in a source are writable. -/
theorem survivors_writable {source : String} {ts : List Token} (h : Token.significant source = .ok ts) :
    Program.Writable (Program.ofTokens ts).1 := Parser.program_writable (allLegible_of_significant h)

end Monkey
