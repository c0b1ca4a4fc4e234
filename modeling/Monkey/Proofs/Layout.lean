import Mathlib
import Monkey.Proofs.Seam
import Monkey.Proofs.Walks

/-! Layout that comes in between tokens. No token but a comment goes on into a blank, so wherever a token ends there
may be blanks and comments. The tokens that syntax is made of stay, and so do the statements, up to lines. -/
namespace Monkey
open Token (Kind)
open Piece

def blanks : List Char := [' ', '\t', '\r', '\n']

/-- A blank, or a blank and a comment with its line break. -/
inductive IsLayout : List Char → Prop where
  | blank {c : Char} : c ∈ blanks → IsLayout [c]
  | comment {c : Char} {inside : List Char} : c ∈ blanks → '\n' ∉ inside →
      IsLayout (c :: '/' :: '/' :: (inside ++ ['\n']))

namespace Token
variable {k : Kind} {w rest rest' : List Char} {us vs : List Token}

/-- The characters of tokens that stand one behind the other. -/
def spellings (ts : List Token) : List Char := ts.flatMap spelling

/-- The last of the tokens does not go on into the text. -/
def StopBefore (us : List Token) (back : List Char) : Prop :=
  ∀ t ∈ us.getLast?, ∀ c ∈ back.head?, t.kind.goesOn c = false

theorem spellings_cons (t : Token) (ts : List Token) : spellings (t :: ts) = t.spelling ++ spellings ts := rfl

theorem spellings_append (us vs : List Token) : spellings (us ++ vs) = spellings us ++ spellings vs :=
  List.flatMap_append

theorem Kind.ofChar?_of_mem_blanks {c : Char} (h : c ∈ blanks) : ofChar? c = some .whitespace := by
  simp only [blanks, List.mem_cons, List.not_mem_nil, or_false] at h
  rcases h with rfl | rfl | rfl | rfl <;> rfl

theorem Kind.goesOn_of_mem_blanks {c : Char} (h : c ∈ blanks) (hk : k ≠ .comment) : k.goesOn c = false := by
  simp only [blanks, List.mem_cons, List.not_mem_nil, or_false] at h
  rcases h with rfl | rfl | rfl | rfl <;> cases k <;> first | rfl | exact absurd rfl hk

theorem Kind.ofChar?_ne_comment (c : Char) : ofChar? c ≠ some .comment := by
  unfold ofChar?
  split <;> exact nofun

theorem Kind.ofKeyword?_ne_comment (x : String) : ofKeyword? x ≠ some .comment := by
  unfold ofKeyword?
  split <;> exact nofun

theorem InClass.eq_of_comment (h : InClass rest .comment w) :
    ∃ inside, w = '/' :: '/' :: inside ∧ '\n' ∉ inside ∧ ∀ c ∈ rest.head?, c = '\n' := by
  generalize hk : Kind.comment = k at h
  cases h with
  | comment hinside hrest => exact ⟨_, rfl, hinside, hrest⟩
  | mark h => exact absurd (hk ▸ h) (Kind.ofChar?_ne_comment _)
  | keyword _ h => exact absurd (hk ▸ h) (Kind.ofKeyword?_ne_comment _)
  | _ => cases hk

theorem whole_blank {c : Char} (hc : c ∈ blanks) (rest : List Char) : Whole .whitespace [c] rest :=
  .of_head (.mark (Kind.ofChar?_of_mem_blanks hc)) (fun _ _ => rfl) rfl
    (isWordStart_of_ofChar? (Kind.ofChar?_of_mem_blanks hc))

theorem whole_comment {inside : List Char} (hinside : '\n' ∉ inside) (hrest : ∀ c ∈ rest.head?, c = '\n') :
    Whole .comment ('/' :: '/' :: inside) rest :=
  .of_head (.comment hinside hrest) (fun c hc => by simp [Kind.goesOn, hrest c hc]) rfl rfl

end Token

namespace Cursor
open Token
variable {k : Kind} {w rest back cs : List Char} {offset line : Nat} {us vs : List Token}

theorem readings_of_whole (h : Whole k w rest) (offset line : Nat) :
    readings ⟨w ++ rest, offset, line⟩ =
      .ok (token ⟨w, offset, line⟩ k (ofWord k w [])) ::
        readings ⟨rest, offset + utf8Length w, line + w.count '\n'⟩ := by
  obtain ⟨c, cs, hcons⟩ := List.exists_cons_of_ne_nil (List.append_ne_nil_of_left_ne_nil h.inClass.ne_nil rest)
  have htoken : token ⟨c :: cs, offset, line⟩ k (ofWord k w rest) = token ⟨w, offset, line⟩ k (ofWord k w []) := by
    unfold ofWord
    split <;> rfl
  have hreading : reading ⟨c :: cs, offset, line⟩ (ofWord k w rest) =
      .ok (token ⟨c :: cs, offset, line⟩ k (ofWord k w rest)) := by
    unfold ofWord
    split <;> rfl
  have hrest : (ofWord k w rest).rest = rest := by
    unfold ofWord
    split <;> rfl
  rw [hcons, readings_cons, cut_of_whole h hcons.symm, hreading, htoken, after, h.inClass.taken_ofWord, hrest]

/-- What the first reading of a text says about the text, if it is a token. -/
theorem exists_whole {t : Token} {answers : List (Except LexError Token)}
    (h : readings ⟨cs, offset, line⟩ = .ok t :: answers) :
    ∃ rest, cs = t.spelling ++ rest ∧ Whole t.kind t.spelling rest ∧
      t = token ⟨t.spelling, offset, line⟩ t.kind (ofWord t.kind t.spelling []) ∧
        readings ⟨rest, offset + utf8Length t.spelling, line + t.spelling.count '\n'⟩ = answers := by
  cases cs with
  | nil =>
    rw [readings_nil] at h
    cases h
  | cons c cs =>
    have hfirst := h
    rw [readings_cons] at hfirst
    obtain ⟨k, hk, ht⟩ := reading_eq_ok (List.cons.inj hfirst).1
    have hwhole := isWhole_cut c cs k hk
    have hspelling : t.spelling = (cut c cs).taken := by
      rw [ht, cut_eq_ofWord hk, hwhole.inClass.spelling_token, hwhole.inClass.taken_ofWord]
    have hkind : t.kind = k := congrArg Token.kind ht
    have htaken := taken_append_rest c cs
    rw [← htaken, readings_of_whole hwhole] at h
    obtain ⟨hhead, htail⟩ := List.cons.inj h
    rw [hkind, hspelling]
    exact ⟨(cut c cs).rest, htaken.symm, hwhole, (Except.ok.inj hhead).symm, htail⟩

/-- The tokens of a text up to some place are those of the text before it, and the others are those behind it. -/
theorem exists_back (h : readings ⟨cs, offset, line⟩ = (us ++ vs).map .ok) :
    ∃ back, cs = spellings us ++ back ∧ StopBefore us back ∧
      readings ⟨back, offset + utf8Length (spellings us), line + (spellings us).count '\n'⟩ = vs.map .ok := by
  induction us generalizing cs offset line with
  | nil => exact ⟨cs, rfl, nofun, h⟩
  | cons u us ih =>
    obtain ⟨rest, rfl, hwhole, -, hrest⟩ := exists_whole h
    obtain ⟨back, rfl, hstop, hback⟩ := ih hrest
    rw [spellings_cons, utf8Length_append, List.count_append, ← Nat.add_assoc, ← Nat.add_assoc]
    refine ⟨back, (List.append_assoc ..).symm, ?_, hback⟩
    cases us with
    | nil =>
      rintro t ⟨⟩
      exact hwhole.ends
    | cons u' us => exact hstop

theorem spelling_ne_nil {t : Token} {answers : List (Except LexError Token)}
    (h : readings ⟨cs, offset, line⟩ = .ok t :: answers) : t.spelling ≠ [] := by
  obtain ⟨_, -, hwhole, -⟩ := exists_whole h
  exact hwhole.inClass.ne_nil

/-- Tokens stay where another text stands behind them, if the last of them does not go on into it. -/
theorem readings_before {back' : List Char}
    (h : readings ⟨spellings us ++ back, offset, line⟩ = (us ++ vs).map .ok) (hstop : StopBefore us back') :
    readings ⟨spellings us ++ back', offset, line⟩ =
      us.map .ok ++ readings ⟨back', offset + utf8Length (spellings us), line + (spellings us).count '\n'⟩ := by
  induction us generalizing offset line with
  | nil => rfl
  | cons u us ih =>
    rw [spellings_cons, List.append_assoc] at h
    obtain ⟨rest, htext, hwhole, htoken, hrest⟩ := exists_whole h
    obtain rfl := List.append_cancel_left htext
    have hends : ∀ c ∈ (spellings us ++ back').head?, u.kind.goesOn c = false := by
      cases us with
      | nil => exact hstop u rfl
      | cons u' us =>
        -- The next token begins with the same character before either text.
        obtain ⟨d, ds, hcons⟩ := List.exists_cons_of_ne_nil (spelling_ne_nil hrest)
        have hsame := hwhole.ends
        rw [spellings_cons, hcons] at hsame ⊢
        exact hsame
    have hstop' : StopBefore us back' := by
      cases us with
      | nil => exact nofun
      | cons u' us => exact hstop
    rw [spellings_cons, List.append_assoc, readings_of_whole (hwhole.before hends), ← htoken, ih hrest hstop',
      utf8Length_append, List.count_append, ← Nat.add_assoc, ← Nat.add_assoc]
    rfl

/-- The text reads as blanks and comments where `rest` stands behind it. -/
def IsSkipped (text rest : List Char) : Prop :=
  ∀ offset line, ∃ ts : List Token, (∀ t ∈ ts, t.kind.isLayout = true) ∧
    readings ⟨text ++ rest, offset, line⟩ =
      ts.map .ok ++ readings ⟨rest, offset + utf8Length text, line + text.count '\n'⟩

theorem isSkipped_of_whole (h : Whole k w rest) (hk : k.isLayout = true) : IsSkipped w rest := by
  intro offset line
  refine ⟨[token ⟨w, offset, line⟩ k (ofWord k w [])], ?_, readings_of_whole h offset line⟩
  rintro t ht
  obtain rfl := List.mem_singleton.mp ht
  exact hk

theorem IsSkipped.append {text text' : List Char} (h : IsSkipped text (text' ++ rest)) (h' : IsSkipped text' rest) :
    IsSkipped (text ++ text') rest := by
  intro offset line
  obtain ⟨ts, hts, hread⟩ := h offset line
  obtain ⟨ts', hts', hread'⟩ := h' (offset + utf8Length text) (line + text.count '\n')
  refine ⟨ts ++ ts', List.forall_mem_append.mpr ⟨hts, hts'⟩, ?_⟩
  rw [List.append_assoc, hread, hread', utf8Length_append, List.count_append, List.map_append, List.append_assoc,
    Nat.add_assoc, Nat.add_assoc]

theorem isSkipped_newline (rest : List Char) : IsSkipped ['\n'] rest :=
  isSkipped_of_whole (whole_blank (by decide) rest) rfl

theorem isSkipped_comment {inside : List Char} (hinside : '\n' ∉ inside) (rest : List Char) :
    IsSkipped ('/' :: '/' :: (inside ++ ['\n'])) rest :=
  .append (isSkipped_of_whole (whole_comment hinside (by rintro _ ⟨⟩; rfl)) rfl) (isSkipped_newline rest)

end Cursor

namespace IsLayout
open Token Cursor
variable {layout back : List Char}

theorem isSkipped (h : IsLayout layout) (back : List Char) : IsSkipped layout back := by
  cases h with
  | blank hc => exact isSkipped_of_whole (whole_blank hc back) rfl
  | comment hc hinside =>
    exact .append (isSkipped_of_whole (whole_blank hc _) rfl) (isSkipped_comment hinside back)

/-- Layout that does not begin with a line break is one part of a line, with or without its line break. -/
theorem exists_line (h : IsLayout layout) (hhead : layout.head? ≠ some '\n') :
    ∃ part, '\n' ∉ part ∧ (layout = part ∨ layout = part ++ ['\n']) := by
  have hne {c : Char} (hc : (some c) ≠ some '\n') : '\n' ≠ c := fun h => hc (congrArg some h.symm)
  cases h with
  | @blank c hc => exact ⟨[c], by simp [hne hhead], .inl rfl⟩
  | @comment c inside hc hinside => exact ⟨c :: '/' :: '/' :: inside, by simp [hne hhead, hinside], .inr rfl⟩

/-- A comment takes in the layout behind it, up to the line break. -/
theorem isSkipped_behind_comment (h : IsLayout layout) (hhead : layout.head? ≠ some '\n') {w : List Char}
    (hwhole : Whole .comment w back) : IsSkipped (w ++ layout) back := by
  obtain ⟨part, hpart, hlayout⟩ := h.exists_line hhead
  obtain ⟨inside, rfl, hinside, hback⟩ := hwhole.inClass.eq_of_comment
  have hboth : '\n' ∉ inside ++ part := by simp [hinside, hpart]
  rcases hlayout with rfl | rfl
  · have hcomment := isSkipped_of_whole (whole_comment hboth hback) rfl
    simpa using hcomment
  · have hcomment := isSkipped_comment hboth back
    simpa using hcomment

theorem exists_blank (h : IsLayout layout) : ∃ c cs, layout = c :: cs ∧ c ∈ blanks := by
  cases h with
  | blank hc => exact ⟨_, [], rfl, hc⟩
  | comment hc _ => exact ⟨_, _, rfl, hc⟩

theorem stopBefore (h : IsLayout layout) {us : List Token}
    (hlast : ∀ t ∈ us.getLast?, t.kind = .comment → layout.head? = some '\n') (back : List Char) :
    StopBefore us (layout ++ back) := by
  obtain ⟨c, cs, rfl, hblank⟩ := h.exists_blank
  rintro t ht _ ⟨⟩
  by_cases hk : t.kind = .comment
  · obtain rfl := Option.some.inj (hlast t ht hk)
    rw [hk]
    rfl
  · exact Kind.goesOn_of_mem_blanks hblank hk

end IsLayout

namespace Cursor
open Token
variable {back rest gap layout cs : List Char} {offset line : Nat} {us vs ts : List Token}

theorem filter_eq_nil_of_isLayout (h : ∀ t ∈ ts, t.kind.isLayout = true) :
    ts.filter (fun t => !t.kind.isLayout) = [] :=
  List.filter_eq_nil_iff.mpr fun t ht => by simp [h t ht]

theorem exists_readings_gap (h : readings ⟨spellings us ++ back, offset, line⟩ = (us ++ vs).map .ok)
    (hstop : StopBefore us (gap ++ rest)) (hskip : IsSkipped gap rest) :
    ∃ us' : List Token, us'.filter (fun t => !t.kind.isLayout) = us.filter (fun t => !t.kind.isLayout) ∧
      readings ⟨spellings us ++ (gap ++ rest), offset, line⟩ = us'.map .ok ++
        readings ⟨rest, offset + utf8Length (spellings us ++ gap), line + (spellings us ++ gap).count '\n'⟩ := by
  obtain ⟨ts, hts, hread⟩ := hskip (offset + utf8Length (spellings us)) (line + (spellings us).count '\n')
  refine ⟨us ++ ts, ?_, ?_⟩
  · rw [List.filter_append, filter_eq_nil_of_isLayout hts, List.append_nil]
  · rw [readings_before h hstop, hread, utf8Length_append, List.count_append, List.map_append, List.append_assoc,
      Nat.add_assoc, Nat.add_assoc]

theorem spellings_concat (us : List Token) (t : Token) : spellings (us ++ [t]) = spellings us ++ t.spelling := by
  rw [spellings_append]
  exact congrArg (spellings us ++ ·) (List.append_nil _)

/-- Behind a comment, layout that does not begin with a line break makes the comment longer. -/
theorem exists_readings_comment {t : Token} (ht : t.kind = .comment)
    (h : readings ⟨spellings (us ++ [t]) ++ back, offset, line⟩ = (us ++ [t] ++ vs).map .ok)
    (hlayout : IsLayout layout) (hhead : layout.head? ≠ some '\n') :
    ∃ us' : List Token, us'.filter (fun t => !t.kind.isLayout) = us.filter (fun t => !t.kind.isLayout) ∧
      readings ⟨spellings us ++ (t.spelling ++ layout ++ back), offset, line⟩ = us'.map .ok ++
        readings ⟨back, offset + utf8Length (spellings us ++ (t.spelling ++ layout)),
          line + (spellings us ++ (t.spelling ++ layout)).count '\n'⟩ := by
  rw [spellings_concat, List.append_assoc, List.append_assoc, List.singleton_append] at h
  obtain ⟨_, hback, hstop, hread⟩ := exists_back h
  obtain rfl := List.append_cancel_left hback
  obtain ⟨_, hback, hwhole, -⟩ := exists_whole hread
  obtain rfl := List.append_cancel_left hback
  rw [ht] at hwhole
  refine exists_readings_gap h ?_ (hlayout.isSkipped_behind_comment hhead hwhole)
  obtain ⟨d, ds, hcons⟩ := List.exists_cons_of_ne_nil hwhole.inClass.ne_nil
  rw [hcons] at hstop ⊢
  exact hstop

/-- Where layout comes in between tokens, it adds blanks and comments only, or makes a comment before it longer. -/
theorem exists_readings_layout (h : readings ⟨spellings us ++ back, offset, line⟩ = (us ++ vs).map .ok)
    (hlayout : IsLayout layout) :
    ∃ us' : List Token, us'.filter (fun t => !t.kind.isLayout) = us.filter (fun t => !t.kind.isLayout) ∧
      readings ⟨spellings us ++ (layout ++ back), offset, line⟩ = us'.map .ok ++
        readings ⟨back, offset + utf8Length (spellings us ++ layout),
          line + (spellings us ++ layout).count '\n'⟩ := by
  by_cases hlast : ∃ t ∈ us.getLast?, t.kind = .comment ∧ layout.head? ≠ some '\n'
  · obtain ⟨t, ht, hk, hhead⟩ := hlast
    obtain ⟨us, rfl⟩ := List.getLast?_eq_some_iff.mp ht
    obtain ⟨us', hus', hread⟩ := exists_readings_comment hk h hlayout hhead
    have hcomment : ∀ t' ∈ [t], t'.kind.isLayout = true := by simp [hk, Kind.isLayout]
    refine ⟨us', ?_, ?_⟩
    · rw [hus', List.filter_append, filter_eq_nil_of_isLayout hcomment, List.append_nil]
    · rw [spellings_concat, List.append_assoc, List.append_assoc, ← List.append_assoc t.spelling, hread]
  · refine exists_readings_gap h (hlayout.stopBefore (fun t ht hk => ?_) back) (hlayout.isSkipped back)
    exact Classical.byContradiction fun hhead => hlast ⟨t, ht, hk, hhead⟩

/-- A text that lexes is that of its tokens. -/
theorem eq_spellings (h : readings ⟨cs, offset, line⟩ = ts.map .ok) : cs = spellings ts := by
  have hall : readings ⟨cs, offset, line⟩ = (ts ++ []).map .ok := by rw [List.append_nil, h]
  obtain ⟨back, rfl, -, hback⟩ := exists_back hall
  cases back with
  | nil => exact List.append_nil _
  | cons c back =>
    rw [readings_cons] at hback
    cases hback

end Cursor

/-- The text of tokens that stand one behind the other. -/
def Token.text (ts : List Token) : String := String.ofList (spellings ts)

theorem Token.eq_text {source : String} {ts : List Token} (h : ofSource source = .ok ts) : source = text ts := by
  rw [text, ← Cursor.eq_spellings (ofSource_eq_ok_iff.mp h), String.ofList_toList]

/-- Layout between the tokens of a source leaves all that are no layout. Those behind it are further behind. -/
theorem Token.significant_layout {us vs : List Token} {layout : String}
    (h : ofSource (text us ++ text vs) = .ok (us ++ vs)) (hlayout : IsLayout layout.toList) :
    significant (text us ++ layout ++ text vs) =
      .ok (us.filter (fun t => !t.kind.isLayout) ++ (vs.filter fun t => !t.kind.isLayout).map
        (.behind (utf8Length layout.toList) (layout.toList.count '\n'))) := by
  have hread := ofSource_eq_ok_iff.mp h
  have htext : (text us ++ text vs).toList = spellings us ++ spellings vs := by simp [text]
  have hchanged : (text us ++ layout ++ text vs).toList = spellings us ++ (layout.toList ++ spellings vs) := by
    simp [text]
  rw [Cursor.ofString, htext] at hread
  obtain ⟨_, hback, -, hvs⟩ := Cursor.exists_back hread
  obtain rfl := List.append_cancel_left hback
  obtain ⟨us', hus', hread'⟩ := Cursor.exists_readings_layout hread hlayout
  have hmoved := Cursor.readings_behind (utf8Length layout.toList) (layout.toList.count '\n') _ _ _ hvs
  rw [Nat.add_assoc, Nat.add_assoc, ← utf8Length_append, ← List.count_append] at hmoved
  rw [hmoved, ← List.map_append] at hread'
  refine significant_eq_ok_iff.mpr ⟨_, by rw [Cursor.ofString, hchanged, hread'], ?_⟩
  rw [List.filter_append, hus', List.filter_map]
  rfl

namespace Program
open Token.Move
variable (us vs : List Token) (bytes lines : Nat)

theorem map_nowhere_append_behind :
    (us ++ vs.map (Token.behind bytes lines)).map nowhere.token = (us ++ vs).map nowhere.token := by
  rw [List.map_append, List.map_append, List.map_map]
  rfl

/-- Some of the tokens may be further behind, and the statements are the same up to lines. -/
theorem onFirstLine_append_behind :
    (ofTokens (us ++ vs.map (.behind bytes lines))).1.onFirstLine = (ofTokens (us ++ vs)).1.onFirstLine := by
  have hstmts := (Parser.program_eq_of_move nowhere (map_nowhere_append_behind us vs bytes lines)).1
  rw [onFirstLine, onFirstLine, ← stmtsMapLines_one, ← stmtsMapLines_one]
  exact hstmts

theorem errors_append_behind :
    (ofTokens (us ++ vs.map (.behind bytes lines))).2.map nowhere.error =
      (ofTokens (us ++ vs)).2.map nowhere.error :=
  (Parser.program_eq_of_move nowhere (map_nowhere_append_behind us vs bytes lines)).2

/-- Some of the tokens may be further behind on their lines, and all lines are the same. -/
theorem lines_append_behind :
    let ts := us ++ vs
    let ts' := us ++ vs.map (.behind bytes 0)
    ts'.map Token.line = ts.map Token.line ∧ (ofTokens ts').1 = (ofTokens ts).1 ∧
      (ofTokens ts').2.map SyntaxError.message = (ofTokens ts).2.map SyntaxError.message := by
  intro ts ts'
  have hsame : ts'.map onLines.token = ts.map onLines.token := by
    rw [List.map_append, List.map_append, List.map_map]
    rfl
  obtain ⟨hstmts, herrors⟩ := Parser.program_eq_of_move onLines hsame
  have hmessages (es : List SyntaxError) :
      (es.map onLines.error).map SyntaxError.message = es.map SyntaxError.message := by
    rw [List.map_map]
    exact List.map_congr_left fun e _ => message_onLines e
  refine ⟨?_, ?_, ?_⟩
  · rw [List.map_append, List.map_append, List.map_map]
    rfl
  · rwa [onLines, stmtsMapLines_id, stmtsMapLines_id] at hstmts
  · rw [← hmessages, ← hmessages (ofTokens ts).2]
    exact congrArg _ herrors

end Program

/-- Wherever a token of a source that lexes ends, blanks and comments included, layout may come in. What comes of it
lexes, its tokens are of the same kinds and lexemes, and it is read as the same statements up to lines, with as many
mistakes, which are the same up to the places of their tokens. Where the layout has no line break, all the lines stay
too, and with them the messages of the mistakes. -/
theorem layout_does_not_matter (source layout : String) (us vs : List Token)
    (hsource : Token.ofSource source = .ok (us ++ vs)) (hlayout : IsLayout layout.toList) :
    source = Token.text us ++ Token.text vs ∧
      ∃ ts ts' : List Token, Token.significant source = .ok ts ∧
        Token.significant (Token.text us ++ layout ++ Token.text vs) = .ok ts' ∧
          ts'.map (fun t => (t.kind, t.lexeme)) = ts.map (fun t => (t.kind, t.lexeme)) ∧
            let p := Program.ofTokens ts
            let p' := Program.ofTokens ts'
            p'.1.onFirstLine = p.1.onFirstLine ∧
              p'.2.map Token.Move.nowhere.error = p.2.map Token.Move.nowhere.error ∧
                ('\n' ∉ layout.toList → ts'.map Token.line = ts.map Token.line ∧ p'.1 = p.1 ∧
                  p'.2.map SyntaxError.message = p.2.map SyntaxError.message) := by
  have htext : source = Token.text us ++ Token.text vs := by
    rw [Token.eq_text hsource, Token.text, Token.text, Token.text, Token.spellings_append, String.ofList_append]
  have hchanged := Token.significant_layout (htext ▸ hsource) hlayout
  have hts : Token.significant source = .ok ((us ++ vs).filter fun t => !t.kind.isLayout) := by
    rw [Token.significant, hsource]
    rfl
  rw [List.filter_append] at hts
  refine ⟨htext, _, _, hts, hchanged, ?_⟩
  generalize us.filter (fun t => !t.kind.isLayout) = us
  generalize vs.filter (fun t => !t.kind.isLayout) = vs
  refine ⟨?_, Program.onFirstLine_append_behind us vs _ _, Program.errors_append_behind us vs _ _, fun hn => ?_⟩
  · rw [List.map_append, List.map_append, List.map_map]
    rfl
  · rw [List.count_eq_zero.mpr hn]
    exact Program.lines_append_behind us vs _

/-- Behind a comment comes another one, on the same line. -/
theorem layout_behind_comment :
    let us : List Token := [⟨.bang, 0, 1, 0, "!"⟩, ⟨.identifier, 1, 2, 0, "b"⟩, ⟨.comment, 2, 5, 0, "//c"⟩]
    let vs : List Token := [⟨.whitespace, 5, 6, 1, "\n"⟩, ⟨.plus, 6, 7, 1, "+"⟩, ⟨.identifier, 7, 8, 1, "d"⟩]
    Token.ofSource "!b//c\n+d" = .ok (us ++ vs) ∧ IsLayout " //=\n".toList ∧
      ∃ ts, Token.significant "!b//c //=\n\n+d" = .ok ts ∧
        (Program.ofTokens ts).1.onFirstLine =
          [.expression (.binary 1 .add (.unary 1 .not (.name 1 "b")) (.name 1 "d"))] := by
  intro us vs
  have hsource : Token.ofSource "!b//c\n+d" = .ok (us ++ vs) := by decide +kernel
  have hlayout : IsLayout " //=\n".toList := @IsLayout.comment ' ' ['='] (by decide) (by decide)
  refine ⟨hsource, hlayout, ?_⟩
  obtain ⟨-, ts, ts', hts, hts', -, hstmts, -⟩ := layout_does_not_matter _ _ us vs hsource hlayout
  have hsignificant : Token.significant "!b//c\n+d" =
      .ok [⟨.bang, 0, 1, 0, "!"⟩, ⟨.identifier, 1, 2, 0, "b"⟩, ⟨.plus, 6, 7, 1, "+"⟩, ⟨.identifier, 7, 8, 1, "d"⟩] := by
    decide +kernel
  have htext : Token.text us ++ " //=\n" ++ Token.text vs = "!b//c //=\n\n+d" := by decide +kernel
  obtain rfl := Except.ok.inj (hts.symm.trans hsignificant)
  rw [htext] at hts'
  refine ⟨ts', hts', hstmts.trans ?_⟩
  decide +kernel

end Monkey
