import Monkey.Proofs.Lexes
import Monkey.Syntax.Printer

/-! The text of a writable tree is cut into the words of the tree. -/
namespace Monkey
open Token (Kind)
open Piece

theorem endsWord_cons {c : Char} (cs : List Char) (h : isWordPart c = false) : EndsWord (c :: cs) := by
  rintro d hd
  cases hd
  exact h

theorem IsName.start {x : String} (hx : IsName x) (cs : List Char) :
    ∃ c ds, x.toList ++ cs = c :: ds ∧ isWordPart c = true := by
  obtain ⟨c, xs, hlist, hc, -, -⟩ := hx
  exact ⟨c, xs ++ cs, by rw [hlist, List.cons_append], isWordPart_of_isWordStart hc⟩

/-- No tree's text begins with the sign that would turn a `!` before it into another operator. -/
theorem Expr.source_start : ∀ (e : Expr), e.Writable → ∀ cs, ∃ c ds, e.source.toList ++ cs = c :: ds ∧ c ≠ '='
  | .name _ x, he, cs => by
    obtain ⟨c, ds, h, hc⟩ := IsName.start he cs
    refine ⟨c, ds, h, ?_⟩
    rintro rfl
    cases hc
  | .literal (.integer n), he, cs => by
    obtain ⟨m, hm⟩ := Int.eq_ofNat_of_zero_le he
    obtain ⟨d, ds, hcons, hd⟩ := Decimal.toDigits_eq_cons m
    have hsource : (toString n.toInt).toList = d :: ds := by
      rw [hm]
      exact (Decimal.toList_toString_ofNat m).trans hcons
    refine ⟨d, ds ++ cs, by rw [Expr.source, Literal.source, hsource, List.cons_append], ?_⟩
    rintro rfl
    cases hd
  | .literal (.string s), _, cs => ⟨'"', _, by simp [Expr.source, Literal.source]; rfl, by decide⟩
  | .literal (.boolean true), _, cs => ⟨'t', _, by simp [Expr.source, Literal.source]; rfl, by decide⟩
  | .literal (.boolean false), _, cs => ⟨'f', _, by simp [Expr.source, Literal.source]; rfl, by decide⟩
  | .unary _ op e, _, cs => ⟨'(', _, by simp [Expr.source]; rfl, by decide⟩
  | .binary _ op l r, _, cs => ⟨'(', _, by simp [Expr.source]; rfl, by decide⟩
  | .conditional c yes none, _, cs => ⟨'i', _, by simp [Expr.source]; rfl, by decide⟩
  | .conditional c yes (some no), _, cs => ⟨'i', _, by simp [Expr.source]; rfl, by decide⟩
  | .function params body, _, cs => ⟨'f', _, by simp [Expr.source]; rfl, by decide⟩
  | .call _ f args, he, cs => by
    rw [Expr.source, String.toList_append, String.toList_append, String.toList_append, List.append_assoc,
      List.append_assoc, List.append_assoc]
    exact f.source_start he.1 _
  | .array elems, _, cs => ⟨'[', _, by simp [Expr.source]; rfl, by decide⟩
  | .hash _ pairs, _, cs => ⟨'\x7b', _, by simp [Expr.source]; rfl, by decide⟩
  | .index _ e i, _, cs => ⟨'(', _, by simp [Expr.source]; rfl, by decide⟩

theorem Literal.lexes {l : Literal} {cs : List Char} (hl : l.Writable) (hcs : EndsWord cs) :
    Lexes (l.source.toList ++ cs) l.words cs := by
  match l, hl with
  | .integer n, hn => exact .integer hn hcs .done
  | .string s, hs =>
    simp only [Literal.source, String.toList_append, String.reduceToList, List.append_assoc, List.cons_append,
      List.nil_append]
    exact .string hs .done
  | .boolean true, _ => exact .keyword (k := .trueWord) rfl hcs .done
  | .boolean false, _ => exact .keyword (k := .falseWord) rfl hcs .done

theorem names_lex : ∀ (xs : List String) {cs : List Char}, (∀ x ∈ xs, IsName x) → EndsWord cs →
    Lexes ((commaSeparated xs).toList ++ cs) (commaWords (nameWords xs)) cs
  | [], cs, _, _ => .done
  | [x], cs, hx, hcs => by
    rw [commaSeparated, String.intercalate_singleton]
    exact .name (hx x List.mem_cons_self) hcs .done
  | x :: y :: ys, cs, hx, hcs => by
    have htail := names_lex (y :: ys) (fun z hz => hx z (List.mem_cons_of_mem x hz)) hcs
    rw [commaSeparated] at htail ⊢
    simp only [String.intercalate_cons_cons, String.toList_append, String.reduceToList, List.append_assoc,
      List.cons_append, List.nil_append]
    exact .name (hx x List.mem_cons_self) (endsWord_cons _ rfl) (.mark rfl rfl (.blank htail))

/-- Braces around statements read as braces around their words, once the statements read as their words. -/
theorem block_lexes : ∀ {ss : List Stmt},
    (∀ cs, Lexes ((" ".intercalate (stmtSources ss)).toList ++ cs) (stmtsWords ss) cs) → ∀ cs,
      Lexes ((bracedStmts (stmtSources ss)).toList ++ cs) (braceWords (stmtsWords ss)) cs
  | [], _, cs => by
    simp only [stmtSources, bracedStmts, String.reduceToList, List.cons_append, List.nil_append]
    exact .mark rfl rfl (.blank (.mark rfl rfl .done))
  | s :: ss, hall, cs => by
    have hbody := hall (' ' :: '\x7d' :: cs)
    rw [stmtSources] at hbody
    simp only [stmtSources, bracedStmts, braceWords, String.toList_append, String.reduceToList, List.append_assoc,
      List.cons_append, List.nil_append]
    exact .mark rfl rfl (.blank (hbody.append (.blank (.mark rfl rfl .done))))

mutual

theorem Expr.lexes : ∀ (e : Expr) {cs : List Char}, e.Writable → EndsWord cs →
    Lexes (e.source.toList ++ cs) e.words cs
  | .name _ x, cs, hx, hcs => .name hx hcs .done
  | .literal l, cs, hl, hcs => Literal.lexes hl hcs
  | .unary _ op e, cs, he, _ => by
    obtain ⟨c, ds, hstart, hc⟩ := e.source_start he (')' :: cs)
    have hne : ∀ c ∈ (e.source.toList ++ ')' :: cs).head?, c ≠ '=' := by
      rw [hstart]
      rintro _ ⟨⟩
      exact hc
    simp only [Expr.source, Expr.words, String.toList_append, String.reduceToList, List.append_assoc,
      List.cons_append, List.nil_append]
    exact .mark rfl rfl (.prefixOp op hne ((e.lexes he (endsWord_cons _ rfl)).append (.mark rfl rfl .done)))
  | .binary _ op l r, cs, he, _ => by
    simp only [Expr.source, Expr.words, String.toList_append, String.reduceToList, List.append_assoc,
      List.cons_append, List.nil_append]
    have hright := (r.lexes he.2 (endsWord_cons cs rfl)).append (.mark (c := ')') rfl rfl .done)
    exact .mark rfl rfl ((l.lexes he.1 (endsWord_cons _ rfl)).append (.blank (.infixOp op hright)))
  | .conditional c yes none, cs, he, _ => by
    simp only [Expr.source, Expr.words, String.toList_append, String.reduceToList, List.append_assoc,
      List.cons_append, List.nil_append]
    have hyes := Lexes.mark (c := ')') rfl rfl (.blank (block_lexes (fun cs => stmts_lex yes cs he.2) cs))
    exact .keyword (k := .ifWord) rfl (endsWord_cons _ rfl)
      (.blank (.mark rfl rfl ((c.lexes he.1 (endsWord_cons _ rfl)).append hyes)))
  | .conditional c yes (some no), cs, he, _ => by
    simp only [Expr.source, Expr.words, String.toList_append, String.reduceToList, List.append_assoc,
      List.cons_append, List.nil_append]
    have hno := Lexes.keyword (k := .elseWord) rfl (endsWord_cons _ rfl)
      (.blank (block_lexes (fun cs => stmts_lex no cs he.2.2) cs))
    have hyes := Lexes.mark (c := ')') rfl rfl
      (.blank ((block_lexes (fun cs => stmts_lex yes cs he.2.1) _).append (.blank hno)))
    exact .keyword (k := .ifWord) rfl (endsWord_cons _ rfl)
      (.blank (.mark rfl rfl ((c.lexes he.1 (endsWord_cons _ rfl)).append hyes)))
  | .function params body, cs, he, _ => by
    simp only [Expr.source, Expr.words, String.toList_append, String.reduceToList, List.append_assoc,
      List.cons_append, List.nil_append]
    have hbody := Lexes.mark (c := ')') rfl rfl (.blank (block_lexes (fun cs => stmts_lex body cs he.2) cs))
    exact .keyword (k := .fnWord) rfl (endsWord_cons _ rfl)
      (.mark rfl rfl ((names_lex params he.1 (endsWord_cons _ rfl)).append hbody))
  | .call _ f args, cs, he, _ => by
    simp only [Expr.source, Expr.words, String.toList_append, String.reduceToList, List.append_assoc,
      List.cons_append, List.nil_append]
    have hargs := (exprs_lex args he.2 (endsWord_cons cs rfl)).append (.mark (c := ')') rfl rfl .done)
    exact (f.lexes he.1 (endsWord_cons _ rfl)).append (.mark rfl rfl hargs)
  | .array elems, cs, he, _ => by
    simp only [Expr.source, Expr.words, String.toList_append, String.reduceToList, List.append_assoc,
      List.cons_append, List.nil_append]
    exact .mark rfl rfl ((exprs_lex elems he (endsWord_cons cs rfl)).append (.mark rfl rfl .done))
  | .hash _ pairs, cs, he, _ => by
    simp only [Expr.source, Expr.words, braceWords, String.toList_append, String.reduceToList, List.append_assoc,
      List.cons_append, List.nil_append]
    exact .mark rfl rfl ((pairs_lex pairs he (endsWord_cons cs rfl)).append (.mark rfl rfl .done))
  | .index _ e i, cs, he, _ => by
    simp only [Expr.source, Expr.words, String.toList_append, String.reduceToList, List.append_assoc,
      List.cons_append, List.nil_append]
    have hclose := Lexes.mark (c := ')') rfl rfl (@Lexes.done cs)
    have hsub := (i.lexes he.2 (endsWord_cons _ rfl)).append (.mark (c := ']') rfl rfl hclose)
    exact .mark rfl rfl ((e.lexes he.1 (endsWord_cons _ rfl)).append (.mark rfl rfl hsub))

theorem Stmt.lexes : ∀ (s : Stmt) (cs : List Char), s.Writable → Lexes (s.source.toList ++ cs) s.words cs
  | .binding x e, cs, hs => by
    simp only [Stmt.source, Stmt.words, String.toList_append, String.reduceToList, List.append_assoc,
      List.cons_append, List.nil_append]
    have he := (e.lexes hs.2 (endsWord_cons cs rfl)).append (.mark (c := ';') rfl rfl .done)
    exact .keyword (k := .letWord) rfl (endsWord_cons _ rfl)
      (.blank (.name hs.1 (endsWord_cons _ rfl) (.blank (.equal he))))
  | .returning none, cs, _ => by
    simp only [Stmt.source, Stmt.words, String.reduceToList, List.cons_append, List.nil_append]
    exact .keyword (k := .returnWord) rfl (endsWord_cons cs rfl) (.mark rfl rfl .done)
  | .returning (some e), cs, hs => by
    simp only [Stmt.source, Stmt.words, String.toList_append, String.reduceToList, List.append_assoc,
      List.cons_append, List.nil_append]
    have he := (e.lexes hs (endsWord_cons cs rfl)).append (.mark (c := ';') rfl rfl .done)
    exact .keyword (k := .returnWord) rfl (endsWord_cons _ rfl) (.blank he)
  | .expression e, cs, hs => by
    simp only [Stmt.source, Stmt.words, String.toList_append, String.reduceToList, List.append_assoc,
      List.cons_append, List.nil_append]
    exact (e.lexes hs (endsWord_cons cs rfl)).append (.mark rfl rfl .done)

theorem stmts_lex : ∀ (ss : List Stmt) (cs : List Char), StmtsWritable ss →
    Lexes ((" ".intercalate (stmtSources ss)).toList ++ cs) (stmtsWords ss) cs
  | [], cs, _ => .done
  | [s], cs, hss => by
    rw [stmtSources, stmtSources, String.intercalate_singleton]
    simpa [stmtsWords] using s.lexes cs hss.1
  | s :: s' :: ss, cs, hss => by
    have htail := stmts_lex (s' :: ss) cs hss.2
    rw [stmtSources] at htail
    rw [stmtSources, stmtSources, String.intercalate_cons_cons]
    simp only [String.toList_append, String.reduceToList, List.append_assoc, List.cons_append, List.nil_append]
    exact (s.lexes _ hss.1).append (.blank htail)

theorem exprs_lex : ∀ (es : List Expr) {cs : List Char}, ExprsWritable es → EndsWord cs →
    Lexes ((commaSeparated (exprSources es)).toList ++ cs) (commaWords (exprWords es)) cs
  | [], cs, _, _ => .done
  | [e], cs, hes, hcs => by
    rw [commaSeparated, exprSources, exprSources, String.intercalate_singleton]
    exact e.lexes hes.1 hcs
  | e :: e' :: es, cs, hes, hcs => by
    have htail := exprs_lex (e' :: es) hes.2 hcs
    rw [commaSeparated, exprSources] at htail
    rw [commaSeparated, exprSources, exprSources, String.intercalate_cons_cons]
    simp only [String.toList_append, String.reduceToList, List.append_assoc, List.cons_append, List.nil_append]
    exact (e.lexes hes.1 (endsWord_cons _ rfl)).append (.mark rfl rfl (.blank htail))

theorem pairs_lex : ∀ (ps : List (Expr × Expr)) {cs : List Char}, PairsWritable ps → EndsWord cs →
    Lexes ((commaSeparated (pairSources ps)).toList ++ cs) (commaWords (pairWords ps)) cs
  | [], cs, _, _ => .done
  | [(k, v)], cs, hps, hcs => by
    rw [commaSeparated, pairSources, pairSources, String.intercalate_singleton]
    simp only [pairWords, commaWords, String.toList_append, String.reduceToList, List.append_assoc, List.cons_append,
      List.nil_append]
    exact (k.lexes hps.1.1 (endsWord_cons _ rfl)).append (.mark rfl rfl (.blank (v.lexes hps.1.2 hcs)))
  | (k, v) :: p :: ps, cs, hps, hcs => by
    have htail := pairs_lex (p :: ps) hps.2 hcs
    rw [commaSeparated, pairSources] at htail
    rw [commaSeparated, pairSources, pairSources, String.intercalate_cons_cons]
    simp only [pairWords, commaWords, String.toList_append, String.reduceToList, List.append_assoc, List.cons_append,
      List.nil_append]
    have hv := (v.lexes hps.1.2 (endsWord_cons _ rfl)).append (.mark (c := ',') rfl rfl (.blank htail))
    exact (k.lexes hps.1.1 (endsWord_cons _ rfl)).append (.mark rfl rfl (.blank hv))

end

end Monkey
