import Monkey.Proofs.StatementRecovery

/-! The order of mistakes. The rules go through the tokens from left to right, and where one has recovered from a
mistake they go on at the mistake or behind it; so mistakes come out in the order of the tokens that they are about. -/
namespace Monkey
open Token (Kind)

namespace SyntaxError

/-- Where in `ts` a mistake was raised: the index of its token, or the length of `ts` if the tokens had ended. -/
def position (ts : List Token) (e : SyntaxError) : Nat := ts.length - e.unread

/-- The line that the message of a mistake names, if it names one. -/
def line? (e : SyntaxError) : Option Nat := e.fault.found?.map (·.line + 1)

theorem message_eq (e : SyntaxError) :
    ∃ text, e.message = match e.line? with
      | some line => "Parse error at line " ++ toString line ++ ": " ++ text
      | none => "Parse error: " ++ text := by
  obtain ⟨fault, unread, unclosed⟩ := e
  cases fault with
  | endOfTokens =>
    have hsplit : "Parse error: end of stream" = "Parse error: " ++ "end of stream" := by decide
    exact ⟨_, hsplit⟩
  | noOperand found => exact ⟨_, String.append_assoc⟩
  | badInteger found => exact ⟨_, String.append_assoc⟩
  | expected kind found =>
    cases found with
    | some found => exact ⟨_, String.append_assoc⟩
    | none =>
      refine ⟨"expected " ++ kind.text ++ ", found end of stream", ?_⟩
      have hsplit : "Parse error: expected " = "Parse error: " ++ "expected " := by decide
      change "Parse error: expected " ++ kind.text ++ ", found end of stream" = _
      rw [hsplit, String.append_assoc, String.append_assoc, ← String.append_assoc]
      rfl

/-- The mistake was raised at a token of `ts`, or at their end. -/
structure Within (ts : List Token) (e : SyntaxError) : Prop where
  unread_le : e.unread ≤ ts.length
  found : e.fault.found? = ts[e.position ts]?

variable {ts us : List Token} {e : SyntaxError}

theorem Within.of_suffix (h : e.Within us) (hus : us <:+ ts) : e.Within ts := by
  obtain ⟨cs, rfl⟩ := hus
  have hle := h.unread_le
  have hposition : e.position (cs ++ us) = cs.length + e.position us := by
    rw [position, position, List.length_append]
    omega
  refine ⟨by rw [List.length_append]; omega, ?_⟩
  rw [hposition, List.getElem?_append_right (Nat.le_add_right _ _), Nat.add_sub_cancel_left, h.found]

theorem within_head (h : e.fault.found? = ts.head?) (hunread : e.unread = ts.length) : e.Within ts := by
  refine ⟨Nat.le_of_eq hunread, ?_⟩
  rw [h, position, hunread, Nat.sub_self, List.head?_eq_getElem?]

end SyntaxError

/-- These mistakes were raised one behind the other in `ts`, the last with `left` tokens unread or more. -/
structure Raised (ts : List Token) (es : List SyntaxError) (left : Nat) : Prop where
  within : ∀ e ∈ es, e.Within ts
  left_le : ∀ e ∈ es, left ≤ e.unread
  order : es.Pairwise fun e e' => e'.unread ≤ e.unread

namespace Raised

variable {ts us : List Token} {es es' : List SyntaxError} {e : SyntaxError} {left left' : Nat}

theorem nil : Raised ts [] left := ⟨List.forall_mem_nil _, List.forall_mem_nil _, .nil⟩

theorem singleton (h : e.Within ts) (hleft : left ≤ e.unread) : Raised ts [e] left :=
  ⟨List.forall_mem_singleton.mpr h, List.forall_mem_singleton.mpr hleft, List.pairwise_singleton _ _⟩

theorem of_suffix (h : Raised us es left) (hus : us <:+ ts) : Raised ts es left :=
  ⟨fun e he => (h.within e he).of_suffix hus, h.left_le, h.order⟩

theorem mono (h : Raised ts es left) (hleft : left' ≤ left) : Raised ts es left' :=
  ⟨h.within, fun e he => Nat.le_trans hleft (h.left_le e he), h.order⟩

/-- What is raised in `us` has no more unread than there is of `us`, and what was raised before has no less. -/
theorem append (h : Raised ts es left) (hus : us <:+ ts) (hleft : us.length ≤ left) (h' : Raised us es' left')
    (hle : left' ≤ us.length) : Raised ts (es ++ es') left' where
  within := List.forall_mem_append.mpr ⟨h.within, (h'.of_suffix hus).within⟩
  left_le := List.forall_mem_append.mpr ⟨(h.mono (Nat.le_trans hle hleft)).left_le, h'.left_le⟩
  order := by
    refine List.pairwise_append.mpr ⟨h.order, h'.order, fun e he e' he' => ?_⟩
    calc e'.unread
      _ ≤ us.length := (h'.within e' he').unread_le
      _ ≤ left := hleft
      _ ≤ e.unread := h.left_le e he

/-- The braces that a mistake leaves open do not matter here. -/
theorem reopen (h : Raised ts (es ++ [e]) left) (unclosed : Nat) : Raised ts (es ++ [{ e with unclosed }]) left := by
  obtain ⟨hwithin, hwithin'⟩ := List.forall_mem_append.mp h.within
  obtain ⟨hleft, hleft'⟩ := List.forall_mem_append.mp h.left_le
  obtain ⟨horder, -, hlast⟩ := List.pairwise_append.mp h.order
  have he : e ∈ [e] := List.mem_singleton_self e
  have hsame : Raised ts [{ e with unclosed }] left :=
    .singleton ⟨(hwithin' e he).unread_le, (hwithin' e he).found⟩ (hleft' e he)
  refine ⟨List.forall_mem_append.mpr ⟨hwithin, hsame.within⟩, List.forall_mem_append.mpr ⟨hleft, hsame.left_le⟩, ?_⟩
  refine List.pairwise_append.mpr ⟨horder, hsame.order, fun e' he' e'' he'' => ?_⟩
  rw [List.mem_singleton.mp he'']
  exact hlast e' he' e he

end Raised

/-- By induction on the course: what it reads next begins where it has stopped, or where it has skipped to. -/
theorem Course.raised {p : Place} {ts rest : List Token} {es : List SyntaxError} {f : Option SyntaxError}
    (h : Course p ts es f rest) : Raised ts (es ++ f.toList) rest.length := by
  induction h with
  | stop | close => exact .nil
  | token _ _ _ _ ih | semicolon _ _ ih => exact ih.of_suffix (List.suffix_cons ..)
  | @closed p o ts us rest es es' f _ _ h h' ih ih' =>
    rw [List.append_assoc]
    rw [Option.toList_none, List.append_nil] at ih
    exact (ih.append h.rest_suffix (Nat.le_refl _) ih' h'.rest_suffix.length_le).of_suffix (List.suffix_cons ..)
  | unclosed _ _ _ ih => exact (ih.reopen _).of_suffix (List.suffix_cons ..)
  | fail _ h => exact .singleton (SyntaxError.within_head h rfl) (Nat.le_refl _)
  | refuse h =>
    refine .singleton (SyntaxError.within_head ?_ rfl) (Nat.le_succ _)
    cases h <;> rfl
  | more _ h h' ih ih' =>
    rw [List.append_assoc]
    rw [Option.toList_none, List.append_nil] at ih
    exact ih.append h.rest_suffix (Nat.le_refl _) ih' h'.rest_suffix.length_le
  | broken _ ih => exact ih
  | @recovered ts us rest es es' e f h h' ih ih' =>
    have hskip := Parser.skipToStatement_suffix 0 us
    have happend : es ++ e :: es' ++ f.toList = (es ++ [e]) ++ (es' ++ f.toList) := by simp
    rw [happend]
    exact ih.append (hskip.trans h.rest_suffix) hskip.length_le ih' h'.rest_suffix.length_le
  | ended => exact .singleton (SyntaxError.within_head rfl rfl) (Nat.le_refl _)

namespace Parser

theorem length_rest_recover_le {n : Nat} (r : Reply n Stmt) : (recover r).rest.length ≤ r.rest.length := by
  obtain ⟨es, o, us, hl⟩ := r
  cases o with
  | ok s => exact Nat.le_refl _
  | error e => exact length_skipToStatement_le 0 us

theorem raised_recover (t : Token) (ts : List Token) :
    let a := recover (statement t ts)
    Raised (t :: ts) a.errors a.rest.length := by
  obtain ⟨us, hrun, hend⟩ := runs_statement t ts
  have hraised := hrun.raised
  rw [← errors_recover] at hraised
  refine hraised.mono (Nat.le_trans (length_rest_recover_le _) ?_)
  rcases hend with heq | ⟨-, s, -, heq⟩
  · exact Nat.le_of_eq (congrArg List.length heq)
  · rw [heq]
    exact Nat.le_succ _

theorem raised_program (ts : List Token) : Raised ts (program ts).2 0 := by
  cases ts with
  | nil =>
    rw [program]
    exact .nil
  | cons t ts =>
    have hle := (recover (statement t ts)).length_rest_le
    have hnext := raised_program (recover (statement t ts)).rest
    rw [program_cons]
    exact (raised_recover t ts).append (recover_rest_suffix t ts) (Nat.le_refl _) hnext (Nat.zero_le _)
termination_by ts.length

end Parser

/-- Lines go with places in the tokens. -/
theorem line_le_of_le {ts : List Token} (h : ts.Pairwise fun t t' => t.line ≤ t'.line) {i j : Nat} (hij : i ≤ j)
    {t t' : Token} (ht : ts[i]? = some t) (ht' : ts[j]? = some t') : t.line ≤ t'.line := by
  obtain ⟨hi, rfl⟩ := List.getElem?_eq_some_iff.mp ht
  obtain ⟨hj, rfl⟩ := List.getElem?_eq_some_iff.mp ht'
  rcases Nat.eq_or_lt_of_le hij with rfl | hlt
  · exact Nat.le_refl _
  · exact List.pairwise_iff_getElem.mp h i j hi hj hlt

/-- Mistakes come out in the order of the source, those of nested blocks among those around them. Every mistake names
the token at the place where it was raised, if the tokens had not ended there; these places never decrease, so mistakes
at the end come last; and where the lines of the tokens never decrease, those in the messages do not either. -/
theorem Program.mistakes_in_source_order (ts : List Token) :
    let es := (ofTokens ts).2
    (∀ e ∈ es, e.unread ≤ ts.length ∧ e.fault.found? = ts[e.position ts]?) ∧
      es.Pairwise (fun e e' => e.position ts ≤ e'.position ts) ∧
      es.Pairwise (fun e e' => e.fault.found? = none → e'.fault.found? = none) ∧
      (∀ e ∈ es, ∃ text, e.message = match e.line? with
        | some line => "Parse error at line " ++ toString line ++ ": " ++ text
        | none => "Parse error: " ++ text) ∧
      (ts.Pairwise (fun t t' => t.line ≤ t'.line) → (es.filterMap SyntaxError.line?).Pairwise (· ≤ ·)) := by
  intro es
  have hraised : Raised ts es 0 := Parser.raised_program ts
  have hwithin (e : SyntaxError) (he : e ∈ es) : e.Within ts := hraised.within e he
  have horder : es.Pairwise fun e e' => e.position ts ≤ e'.position ts :=
    hraised.order.imp fun h => Nat.sub_le_sub_left h ts.length
  refine ⟨fun e he => ⟨(hwithin e he).unread_le, (hwithin e he).found⟩, horder, ?_, fun e _ => e.message_eq,
    fun hlines => ?_⟩
  · refine horder.imp_of_mem fun {e e'} he he' hle hend => ?_
    rw [(hwithin e he).found, List.getElem?_eq_none_iff] at hend
    rw [(hwithin e' he').found, List.getElem?_eq_none_iff]
    exact Nat.le_trans hend hle
  · refine List.pairwise_filterMap.mpr (horder.imp_of_mem fun {e e'} he he' hle line hline line' hline' => ?_)
    obtain ⟨t, ht, rfl⟩ := Option.map_eq_some_iff.mp hline
    obtain ⟨t', ht', rfl⟩ := Option.map_eq_some_iff.mp hline'
    rw [(hwithin e he).found] at ht
    rw [(hwithin e' he').found] at ht'
    exact Nat.succ_le_succ (line_le_of_le hlines hle ht ht')

/-- In `fn ( ) { let ; } + ; let`, on three lines, the block of the function has a mistake, the statement around it has
another, and the tokens end in the last statement. -/
theorem Program.mistakes_of_two_levels :
    let token (kind : Kind) (line : Nat) : Token := ⟨kind, 0, 0, line, kind.text⟩
    let ts := [token .fnWord 0, token .leftParen 0, token .rightParen 0, token .leftBrace 0, token .letWord 0,
      token .semicolon 1, token .rightBrace 1, token .plus 2, token .semicolon 2, token .letWord 2]
    ts.Pairwise (fun t t' => t.line ≤ t'.line) ∧
      (ofTokens ts).2.map (fun e => (e.position ts, e.line?)) = [(5, some 2), (8, some 3), (10, none)] ∧
      ((ofTokens ts).2.filterMap SyntaxError.line?).Pairwise (· ≤ ·) := by
  intro token ts
  have hlines : ts.Pairwise fun t t' => t.line ≤ t'.line := by decide
  obtain ⟨-, -, -, -, hordered⟩ := mistakes_in_source_order ts
  exact ⟨hlines, by decide +kernel, hordered hlines⟩

end Monkey
