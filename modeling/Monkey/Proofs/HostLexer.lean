import Monkey.Proofs.HostFault
import Monkey.Proofs.SourcePieces

/-! A lexer on a source in bytes. It cuts each lexeme out of the source by the positions that it counts, and no
slice is one that the source does not have. -/
namespace Monkey
open Token (Kind)
open Piece

/-- A lexer: its source, the characters still to come, the line, and the ends of the lexeme under way in bytes. -/
structure Scanner where
  source : String
  stream : List Char
  line : Nat
  start : Nat
  current : Nat

namespace Scanner

def ofString (source : String) : Scanner := ⟨source, source.toList, 0, 0, 0⟩

def advance (s : Scanner) : Option Char × Scanner :=
  match s.stream with
  | [] => (none, s)
  | c :: cs => (some c, { s with stream := cs, current := s.current + c.utf8Size })

def advanceIf (s : Scanner) (cond : Char → Bool) : Option Char × Scanner :=
  match s.stream with
  | [] => (none, s)
  | c :: _ => if cond c then s.advance else (none, s)

def advanceWhile (s : Scanner) (cond : Char → Bool) : Scanner :=
  match s with
  | ⟨source, [], line, start, current⟩ => ⟨source, [], line, start, current⟩
  | ⟨source, c :: cs, line, start, current⟩ =>
    if cond c then advanceWhile ⟨source, cs, line, start, current + c.utf8Size⟩ cond
    else ⟨source, c :: cs, line, start, current⟩
termination_by s.stream.length

/-- The lexeme so far. -/
def slice (s : Scanner) : Hosted String :=
  if s.start ≤ s.current ∧ s.current ≤ s.source.utf8ByteSize ∧ String.Pos.Raw.IsValid s.source ⟨s.start⟩ ∧
      String.Pos.Raw.IsValid s.source ⟨s.current⟩ then
    .ok (String.Pos.Raw.extract s.source ⟨s.start⟩ ⟨s.current⟩)
  else .error .badSlice

def token (s : Scanner) (kind : Kind) : Hosted Token := do
  let lexeme ← s.slice
  pure { kind, start := s.start, stop := s.current, line := s.line, lexeme }

def error (s : Scanner) (fault : LexFault) : Hosted LexError := do
  let lexeme ← s.slice
  pure { fault, line := s.line + 1, lexeme }

abbrev Result := Hosted (Except LexError Token × Scanner)

/-- Ends with a token. -/
def accept (s : Scanner) (kind : Kind) : Result := do
  let t ← s.token kind
  pure (.ok t, s)

def refuse (s : Scanner) (fault : LexFault) : Result := do
  let e ← s.error fault
  pure (.error e, s)

def lookahead (s : Scanner) (next : Char) (long short : Kind) : Result :=
  match s.advanceIf (· = next) with
  | (some _, s) => s.accept long
  | (none, s) => s.accept short

def slashOrComment (s : Scanner) : Result :=
  match s.advanceIf (· = '/') with
  | (some _, s) => (s.advanceWhile (· ≠ '\n')).accept .comment
  | (none, s) => s.accept .slash

def word (s : Scanner) : Result := do
  let s := s.advanceWhile isWordPart
  let lexeme ← s.slice
  match Kind.ofKeyword? lexeme with
  | some kind => s.accept kind
  | none => s.accept .identifier

def digits (s : Scanner) : Result := (s.advanceWhile Char.isDigit).accept .integer

/-- Ends a string at its quote. -/
def closeString (s : Scanner) : Result := do
  let t ← s.token .string
  match s.advance with
  | (some _, s) => pure (.ok t, s)
  | (none, s) => s.refuse .unterminatedString

/-- Ends a string behind a line break. -/
def breakString (s : Scanner) : Result := do
  let e ← s.error .unterminatedString
  pure (.error e, { s with line := s.line + 1 })

/-- The rest of a string. Its lexeme starts behind the quote. -/
def string (s : Scanner) : Result :=
  let s := ({ s with start := s.start + 1 } : Scanner).advanceWhile isStringPart
  match s.advanceIf (· = '\n') with
  | (some _, s) => s.breakString
  | (none, s) => s.closeString

/-- Reads the token that starts with `c`, which has been taken. -/
def lexFrom (s : Scanner) (c : Char) : Result :=
  if c = '!' then s.lookahead '=' .bangEqual .bang
  else if c = '=' then s.lookahead '=' .equalEqual .equal
  else if c = '"' then s.string
  else if c = '/' then s.slashOrComment
  else
    match Kind.ofChar? c with
    | some kind => ({ s with line := if c = '\n' then s.line + 1 else s.line } : Scanner).accept kind
    | none =>
      if isWordStart c then s.word
      else if c.isDigit then s.digits
      else s.refuse .unexpectedCharacter

/-- Reads the next token. The host counts on the characters not to end before the source. -/
def lex (s : Scanner) : Result :=
  match ({ s with start := s.current } : Scanner).advance with
  | (some c, s) => s.lexFrom c
  | (none, s) =>
    if s.start = s.source.utf8ByteSize then
      pure (.ok ⟨.endOfFile, s.current, s.current, s.line, "end of file"⟩, s)
    else .error .streamEnded

/-- Nothing is cut out of the source that is not there. -/
theorem slice_eq {s : Scanner} {before part behind : List Char} (h : before ++ (part ++ behind) = s.source.toList)
    (hstart : s.start = utf8Length before) (hcurrent : s.current = utf8Length (before ++ part)) :
    s.slice = .ok (String.ofList part) := by
  have hvalid {cs ds : List Char} (hcs : cs ++ ds = s.source.toList) :
      String.Pos.Raw.IsValid s.source ⟨utf8Length cs⟩ := by
    refine String.Pos.Raw.isValid_iff_exists_append.mpr ⟨String.ofList cs, String.ofList ds, ?_, ?_⟩
    · rw [← String.ofList_append, hcs, String.ofList_toList]
    · rw [utf8Length_eq_utf8Len, String.rawEndPos_ofList]
  have hend : (before ++ part) ++ behind = s.source.toList := by rw [List.append_assoc, h]
  have hle : s.current ≤ s.source.utf8ByteSize := hcurrent ▸ (hvalid hend).le_utf8ByteSize
  have hcheck : s.start ≤ s.current ∧ s.current ≤ s.source.utf8ByteSize ∧
      String.Pos.Raw.IsValid s.source ⟨s.start⟩ ∧ String.Pos.Raw.IsValid s.source ⟨s.current⟩ :=
    ⟨by rw [hstart, hcurrent, utf8Length_append]; exact Nat.le_add_right _ _, hle, hstart ▸ hvalid h,
      hcurrent ▸ hvalid hend⟩
  rw [slice, if_pos hcheck, hstart, hcurrent, utf8Length_append, extract_behind h]

@[simp] theorem advance_nil (source : String) (line start current : Nat) :
    advance ⟨source, [], line, start, current⟩ = (none, ⟨source, [], line, start, current⟩) := rfl

@[simp] theorem advance_cons (source : String) (c : Char) (cs : List Char) (line start current : Nat) :
    advance ⟨source, c :: cs, line, start, current⟩ =
      (some c, ⟨source, cs, line, start, current + c.utf8Size⟩) := rfl

@[simp] theorem advanceIf_nil (source : String) (line start current : Nat) (cond : Char → Bool) :
    advanceIf ⟨source, [], line, start, current⟩ cond = (none, ⟨source, [], line, start, current⟩) := rfl

@[simp] theorem advanceIf_cons (source : String) (c : Char) (cs : List Char) (line start current : Nat)
    (cond : Char → Bool) :
    advanceIf ⟨source, c :: cs, line, start, current⟩ cond =
      if cond c then (some c, ⟨source, cs, line, start, current + c.utf8Size⟩)
      else (none, ⟨source, c :: cs, line, start, current⟩) := rfl

theorem advanceWhile_eq (source : String) (line start : Nat) (cond : Char → Bool) (cs : List Char) (current : Nat) :
    advanceWhile ⟨source, cs, line, start, current⟩ cond =
      ⟨source, cs.dropWhile cond, line, start, current + utf8Length (cs.takeWhile cond)⟩ := by
  induction cs generalizing current with
  | nil =>
    rw [advanceWhile]
    rfl
  | cons c cs ih =>
    rw [advanceWhile]
    by_cases hc : cond c
    · have hlength : utf8Length (c :: cs.takeWhile cond) = c.utf8Size + utf8Length (cs.takeWhile cond) := rfl
      rw [if_pos hc, ih, List.takeWhile_cons_of_pos hc, List.dropWhile_cons_of_pos hc, hlength, Nat.add_assoc]
    · rw [if_neg hc, List.takeWhile_cons_of_neg hc, List.dropWhile_cons_of_neg hc]
      rfl

/-- The lexer is where the cursor is. -/
structure At (s : Scanner) (source : String) (pos : Cursor) : Prop where
  source : s.source = source
  stream : s.stream = pos.rest
  line : s.line = pos.line
  current : s.current = pos.offset

/-- The lexer has read the piece `p` at the cursor, and stands behind it. -/
def Reads (r : Result) (source : String) (pos : Cursor) (p : Piece) : Prop :=
  ∃ s, r = .ok (pos.reading p, s) ∧ s.At source (pos.after p)

section
variable {source : String} {before : List Char} {pos : Cursor} {p : Piece} {s : Scanner}

/-- The lexer holds the lexeme of the piece, which starts behind the quote, if there is one. -/
structure Holds (s : Scanner) (source : String) (pos : Cursor) (p : Piece) : Prop where
  source : s.source = source
  start : s.start = pos.offset + utf8Length p.opening
  current : s.current = pos.offset + utf8Length p.opening + utf8Length p.lexeme

theorem Holds.slice (h : s.Holds source pos p) (hpos : pos.Behind source before)
    (htaken : p.taken ++ p.rest = pos.rest) : s.slice = .ok (String.ofList p.lexeme) := by
  have htext : (before ++ p.opening) ++ (p.lexeme ++ (p.closing ++ p.rest)) = s.source.toList := by
    rw [h.source, ← hpos.text, ← htaken, taken]
    simp only [List.append_assoc]
  refine slice_eq htext ?_ ?_
  · rw [h.start, hpos.offset, utf8Length_append]
  · rw [h.current, hpos.offset, utf8Length_append, utf8Length_append]

theorem Holds.token {kind : Kind} (h : s.Holds source pos p) (hpos : pos.Behind source before)
    (htaken : p.taken ++ p.rest = pos.rest) (hline : s.line = pos.line + p.lexeme.count '\n') :
    s.token kind = .ok (pos.token kind p) := by
  rw [Scanner.token, h.slice hpos htaken, Cursor.token, h.start, h.current, hline]
  rfl

theorem Holds.error (fault : LexFault) (h : s.Holds source pos p) (hpos : pos.Behind source before)
    (htaken : p.taken ++ p.rest = pos.rest) (hline : s.line = pos.line) :
    s.error fault = .ok { fault, line := pos.line + 1, lexeme := String.ofList p.lexeme } := by
  rw [Scanner.error, h.slice hpos htaken, hline]
  rfl

/-- The state of the lexer that has taken a piece without quotes. -/
def holding (source : String) (pos : Cursor) (p : Piece) : Scanner :=
  ⟨source, p.rest, pos.line + p.lexeme.count '\n', pos.offset, pos.offset + utf8Length p.lexeme⟩

theorem holds_holding (source : String) (pos : Cursor) (hopening : p.opening = []) :
    (holding source pos p).Holds source pos p :=
  ⟨rfl, by rw [hopening]; rfl, by rw [hopening]; rfl⟩

theorem at_holding (source : String) (pos : Cursor) (hopening : p.opening = []) (hclosing : p.closing = []) :
    (holding source pos p).At source (pos.after p) := by
  have hword : p.taken = p.lexeme := by rw [taken, hopening, hclosing, List.append_nil, List.nil_append]
  exact ⟨rfl, rfl, by rw [Cursor.after, hword]; rfl, by rw [Cursor.after, hword]; rfl⟩

theorem reads_accept {kind : Kind} (hpos : pos.Behind source before) (htaken : p.taken ++ p.rest = pos.rest)
    (hreading : p.reading = .ok kind) (hopening : p.opening = []) (hclosing : p.closing = []) :
    Reads ((holding source pos p).accept kind) source pos p := by
  refine ⟨_, ?_, at_holding source pos hopening hclosing⟩
  rw [accept, (holds_holding source pos hopening).token hpos htaken rfl, Cursor.reading, hreading]
  rfl

theorem reads_refuse {fault : LexFault} (hpos : pos.Behind source before) (htaken : p.taken ++ p.rest = pos.rest)
    (hreading : p.reading = .error fault) (hopening : p.opening = []) (hclosing : p.closing = [])
    (hline : p.lexeme.count '\n' = 0) : Reads ((holding source pos p).refuse fault) source pos p := by
  refine ⟨_, ?_, at_holding source pos hopening hclosing⟩
  have hsame : (holding source pos p).line = pos.line := by rw [holding, hline, Nat.add_zero]
  rw [refuse, (holds_holding source pos hopening).error fault hpos htaken hsame, Cursor.reading, hreading]
  rfl

end

section
variable {source : String} {before cs : List Char} {pos : Cursor} {c : Char}

/-- The lexer has taken the first character of a piece. -/
def opened (source : String) (pos : Cursor) (c : Char) (cs : List Char) : Scanner :=
  ⟨source, cs, pos.line, pos.offset, pos.offset + c.utf8Size⟩

theorem count_takeWhile {cond : Char → Bool} (h : cond '\n' = false) (cs : List Char) :
    (cs.takeWhile cond).count '\n' = 0 := by
  refine List.count_eq_zero.mpr fun hmem => ?_
  rw [List.all_eq_true.mp List.all_takeWhile _ hmem] at h
  cases h

theorem opened_advanceWhile (cond : Char → Bool) :
    (opened source pos c cs).advanceWhile cond =
      ⟨source, cs.dropWhile cond, pos.line, pos.offset, pos.offset + utf8Length (c :: cs.takeWhile cond)⟩ := by
  rw [opened, advanceWhile_eq, Nat.add_assoc]
  rfl

theorem opened_eq_holding {p : Piece} (hlexeme : p.lexeme = [c]) (hrest : p.rest = cs) (hc : c ≠ '\n') :
    opened source pos c cs = holding source pos p := by
  rw [opened, holding, hlexeme, hrest, List.count_singleton, if_neg (by simpa using hc)]
  rfl

theorem reads_single {kind : Kind} (hpos : pos.Behind source before)
    (htaken : (single (.ok kind) c cs).taken ++ (single (.ok kind) c cs).rest = pos.rest) (hc : c ≠ '\n') :
    Reads ((opened source pos c cs).accept kind) source pos (single (.ok kind) c cs) := by
  have hstate : opened source pos c cs = holding source pos (single (.ok kind) c cs) := opened_eq_holding rfl rfl hc
  exact hstate ▸ reads_accept hpos htaken rfl rfl rfl

theorem reads_lookahead {next : Char} {long short : Kind} (hpos : pos.Behind source before)
    (htaken : (pair next long short c cs).taken ++ (pair next long short c cs).rest = pos.rest)
    (hc : c ≠ '\n') (hnext : next ≠ '\n') :
    Reads ((opened source pos c cs).lookahead next long short) source pos (pair next long short c cs) := by
  cases cs with
  | nil => exact reads_single hpos htaken hc
  | cons d ds =>
    rw [pair] at htaken ⊢
    rw [lookahead, opened, advanceIf_cons]
    by_cases hd : d = next
    · subst hd
      have hline : [c, d].count '\n' = 0 := by simp [hc, hnext]
      have hstate : (⟨source, ds, pos.line, pos.offset, pos.offset + c.utf8Size + d.utf8Size⟩ : Scanner) =
          holding source pos { reading := .ok long, lexeme := [c, d], rest := ds } := by
        rw [holding, hline, Nat.add_assoc]
        rfl
      simp only [if_true, decide_true, hstate] at htaken ⊢
      exact reads_accept hpos htaken rfl rfl rfl
    · simp only [hd, if_false, decide_false, Bool.false_eq_true] at htaken ⊢
      exact reads_single hpos htaken hc

theorem holding_comment (ds : List Char) (hc : c ≠ '\n') :
    advanceWhile ⟨source, ds, pos.line, pos.offset, pos.offset + c.utf8Size + '/'.utf8Size⟩ (· ≠ '\n') =
      holding source pos (Piece.slashOrComment c ('/' :: ds)) := by
  have hline : (c :: '/' :: ds.takeWhile (· ≠ '\n')).count '\n' = 0 := by
    rw [List.count_cons_of_ne hc, List.count_cons_of_ne (by decide), count_takeWhile (by decide)]
  rw [advanceWhile_eq, holding, Piece.slashOrComment, if_pos rfl, hline, Nat.add_assoc, Nat.add_assoc]
  rfl

theorem reads_slashOrComment (hpos : pos.Behind source before)
    (htaken : (Piece.slashOrComment c cs).taken ++ (Piece.slashOrComment c cs).rest = pos.rest) (hc : c ≠ '\n') :
    Reads (opened source pos c cs).slashOrComment source pos (Piece.slashOrComment c cs) := by
  cases cs with
  | nil => exact reads_single hpos htaken hc
  | cons d ds =>
    rw [slashOrComment, opened, advanceIf_cons]
    by_cases hd : d = '/'
    · subst hd
      simp only [decide_true, if_true, holding_comment ds hc]
      exact reads_accept hpos htaken rfl rfl rfl
    · rw [Piece.slashOrComment] at htaken ⊢
      simp only [hd, if_false, decide_false, Bool.false_eq_true] at htaken ⊢
      exact reads_single hpos htaken hc

theorem holding_word (hc : isWordPart c = true) :
    (opened source pos c cs).advanceWhile isWordPart = holding source pos (Piece.word c cs) := by
  have hline : (c :: cs.takeWhile isWordPart).count '\n' = 0 := by
    rw [List.count_cons_of_ne (by rintro rfl; cases hc), count_takeWhile (by decide)]
  rw [opened_advanceWhile, holding, Piece.word, hline]
  rfl

theorem reads_word (hpos : pos.Behind source before)
    (htaken : (Piece.word c cs).taken ++ (Piece.word c cs).rest = pos.rest) (hc : isWordPart c = true) :
    Reads (opened source pos c cs).word source pos (Piece.word c cs) := by
  have hslice := (holds_holding source pos (p := Piece.word c cs) rfl).slice hpos htaken
  have hreading : (Piece.word c cs).reading = .ok (wordKind (Piece.word c cs).lexeme) := rfl
  have hword : (opened source pos c cs).word =
      (holding source pos (Piece.word c cs)).accept (wordKind (Piece.word c cs).lexeme) := by
    rw [word, holding_word hc, hslice, wordKind]
    cases hkind : Kind.ofKeyword? (String.ofList (Piece.word c cs).lexeme) <;>
      simp only [bind, Except.bind, hkind, Option.getD_none, Option.getD_some]
  exact hword ▸ reads_accept hpos htaken hreading rfl rfl

theorem reads_digits (hpos : pos.Behind source before)
    (htaken : (Piece.digits c cs).taken ++ (Piece.digits c cs).rest = pos.rest) (hc : c.isDigit = true) :
    Reads (opened source pos c cs).digits source pos (Piece.digits c cs) := by
  have hline : (c :: cs.takeWhile Char.isDigit).count '\n' = 0 := by
    rw [List.count_cons_of_ne (by rintro rfl; cases hc), count_takeWhile (by decide)]
  have hstate : (opened source pos c cs).advanceWhile Char.isDigit = holding source pos (Piece.digits c cs) := by
    rw [opened_advanceWhile, holding, Piece.digits, hline]
    rfl
  rw [digits, hstate]
  exact reads_accept hpos htaken rfl rfl rfl

theorem count_inside (cs : List Char) : (cs.takeWhile isStringPart).count '\n' = 0 := count_takeWhile (by decide) cs

section
variable {inside tail rest : List Char}

/-- The lexer behind a string, which has no line break before its last character. -/
theorem at_string {p : Piece} (source : String) (pos : Cursor) (start : Nat) (tail : List Char)
    (htaken : p.taken = '"' :: (inside ++ tail)) (hline : inside.count '\n' = 0) :
    At ⟨source, p.rest, pos.line + tail.count '\n', start, pos.offset + 1 + utf8Length inside + utf8Length tail⟩
      source (pos.after p) := by
  have hlength : utf8Length ('"' :: (inside ++ tail)) = 1 + (utf8Length inside + utf8Length tail) := by
    rw [← utf8Length_append]
    rfl
  refine ⟨rfl, rfl, ?_, ?_⟩
  · rw [Cursor.after, htaken, List.count_cons_of_ne (by decide), List.count_append, hline, Nat.zero_add]
  · rw [Cursor.after, htaken, hlength]
    simp only [Nat.add_assoc]

/-- A string that the source ends in. -/
theorem reads_closeString_nil (hpos : pos.Behind source before) (htext : pos.rest = '"' :: inside)
    (hline : inside.count '\n' = 0) :
    Reads (closeString ⟨source, [], pos.line, pos.offset + 1, pos.offset + 1 + utf8Length inside⟩) source pos
      ⟨.error .unterminatedString, ['"'], inside, [], []⟩ := by
  have htaken : taken ⟨.error .unterminatedString, ['"'], inside, [], []⟩ ++ [] = pos.rest := by
    rw [htext, taken, List.append_nil, List.append_nil]
    rfl
  have hholds : Holds ⟨source, [], pos.line, pos.offset + 1, pos.offset + 1 + utf8Length inside⟩ source pos
      ⟨.error .unterminatedString, ['"'], inside, [], []⟩ := ⟨rfl, rfl, rfl⟩
  have hsame : pos.line = pos.line + inside.count '\n' := by rw [hline]; rfl
  refine ⟨_, ?_, at_string source pos (pos.offset + 1) [] rfl hline⟩
  simp only [closeString, hholds.token hpos htaken hsame, advance_nil, refuse,
    hholds.error .unterminatedString hpos htaken rfl, bind, Except.bind]
  rfl

/-- A string with a quote at its end. -/
theorem reads_closeString_cons (hpos : pos.Behind source before) (htext : pos.rest = '"' :: (inside ++ '"' :: rest))
    (hline : inside.count '\n' = 0) :
    Reads (closeString ⟨source, '"' :: rest, pos.line, pos.offset + 1, pos.offset + 1 + utf8Length inside⟩) source pos
      ⟨.ok .string, ['"'], inside, ['"'], rest⟩ := by
  have htaken : taken ⟨.ok .string, ['"'], inside, ['"'], rest⟩ ++ rest = pos.rest := by
    rw [htext, taken, List.append_assoc]
    rfl
  have hholds : Holds ⟨source, '"' :: rest, pos.line, pos.offset + 1, pos.offset + 1 + utf8Length inside⟩ source pos
      ⟨.ok .string, ['"'], inside, ['"'], rest⟩ := ⟨rfl, rfl, rfl⟩
  have hsame : pos.line = pos.line + inside.count '\n' := by rw [hline]; rfl
  refine ⟨_, ?_, at_string source pos (pos.offset + 1) ['"'] rfl hline⟩
  simp only [closeString, hholds.token hpos htaken hsame, advance_cons, bind, Except.bind]
  rfl

/-- A string with a line break where its quote should be. -/
theorem reads_breakString (hpos : pos.Behind source before) (htext : pos.rest = '"' :: (inside ++ '\n' :: rest))
    (hline : inside.count '\n' = 0) :
    Reads (breakString ⟨source, rest, pos.line, pos.offset + 1, pos.offset + 1 + utf8Length inside + '\n'.utf8Size⟩)
      source pos ⟨.error .unterminatedString, ['"'], inside ++ ['\n'], [], rest⟩ := by
  have htaken : taken ⟨.error .unterminatedString, ['"'], inside ++ ['\n'], [], rest⟩ ++ rest = pos.rest := by
    rw [htext, taken, List.append_nil, List.append_assoc, List.append_assoc]
    rfl
  have hholds : Holds ⟨source, rest, pos.line, pos.offset + 1, pos.offset + 1 + utf8Length inside + '\n'.utf8Size⟩
      source pos ⟨.error .unterminatedString, ['"'], inside ++ ['\n'], [], rest⟩ :=
    ⟨rfl, rfl, by rw [utf8Length_append, Nat.add_assoc]; rfl⟩
  refine ⟨_, ?_, at_string source pos (pos.offset + 1) ['\n'] (List.append_nil _) hline⟩
  simp only [breakString, hholds.error .unterminatedString hpos htaken rfl, bind, Except.bind]
  rfl

end

/-- The characters of a string end before a quote or a line break. -/
theorem quote_or_newline {d : Char} {rest : List Char} (h : cs.dropWhile isStringPart = d :: rest) :
    d = '"' ∨ d = '\n' := by
  have hd := List.head?_dropWhile_not isStringPart cs
  rw [h, List.head?_cons] at hd
  by_cases hquote : d = '"'
  · exact .inl hquote
  · exact .inr (by simpa [isStringPart, hquote] using hd)

theorem reads_string (hpos : pos.Behind source before) (htext : pos.rest = '"' :: cs) :
    Reads (opened source pos '"' cs).string source pos (Piece.string '"' cs) := by
  have hinside := List.takeWhile_append_dropWhile (p := isStringPart) (l := cs)
  have hline := count_inside cs
  rw [string, opened, advanceWhile_eq, Piece.string]
  cases hend : cs.dropWhile isStringPart with
  | nil =>
    rw [hend, List.append_nil] at hinside
    exact reads_closeString_nil hpos (by rw [htext, hinside]) hline
  | cons d rest =>
    rw [hend] at hinside
    rw [advanceIf_cons]
    rcases quote_or_newline hend with rfl | rfl
    · exact reads_closeString_cons hpos (by rw [htext, hinside]) hline
    · exact reads_breakString hpos (by rw [htext, hinside]) hline

theorem reads_mark {kind : Kind} (hpos : pos.Behind source before)
    (htaken : (single (.ok kind) c cs).taken ++ (single (.ok kind) c cs).rest = pos.rest) :
    let s := opened source pos c cs
    Reads (({ s with line := if c = '\n' then s.line + 1 else s.line } : Scanner).accept kind) source pos
      (single (.ok kind) c cs) := by
  have hcount : (if c = '\n' then pos.line + 1 else pos.line) = pos.line + [c].count '\n' := by
    by_cases hc : c = '\n'
    · rw [if_pos hc, hc]
      rfl
    · rw [if_neg hc, List.count_singleton, if_neg (by simpa using hc), Nat.add_zero]
  have hstate : (⟨source, cs, if c = '\n' then pos.line + 1 else pos.line, pos.offset, pos.offset + c.utf8Size⟩ :
      Scanner) = holding source pos (single (.ok kind) c cs) := by
    rw [hcount]
    rfl
  have hreads : Reads ((holding source pos (single (.ok kind) c cs)).accept kind) source pos (single (.ok kind) c cs) :=
    reads_accept hpos htaken rfl rfl rfl
  rw [← hstate] at hreads
  exact hreads

theorem reads_unexpected (hpos : pos.Behind source before)
    (htaken : (single (.error .unexpectedCharacter) c cs).taken ++ (single (.error .unexpectedCharacter) c cs).rest =
      pos.rest) (hc : c ≠ '\n') :
    Reads ((opened source pos c cs).refuse .unexpectedCharacter) source pos
      (single (.error .unexpectedCharacter) c cs) := by
  have hstate : opened source pos c cs = holding source pos (single (.error .unexpectedCharacter) c cs) :=
    opened_eq_holding rfl rfl hc
  have hline : [c].count '\n' = 0 := by rw [List.count_singleton, if_neg (by simpa using hc)]
  exact hstate ▸ reads_refuse hpos htaken rfl rfl rfl hline

/-- The lexer reads the piece that is cut off the source. -/
theorem reads_cut (hpos : pos.Behind source before) (hrest : pos.rest = c :: cs) :
    Reads ((opened source pos c cs).lexFrom c) source pos (cut c cs) := by
  have htaken := (taken_append_rest c cs).trans hrest.symm
  unfold lexFrom
  unfold cut at htaken ⊢
  by_cases hbang : c = '!'
  · simp only [if_pos hbang] at htaken ⊢
    exact reads_lookahead hpos htaken (by rw [hbang]; decide) (by decide)
  by_cases hequal : c = '='
  · simp only [if_neg hbang, if_pos hequal] at htaken ⊢
    exact reads_lookahead hpos htaken (by rw [hequal]; decide) (by decide)
  by_cases hquote : c = '"'
  · simp only [if_neg hbang, if_neg hequal, if_pos hquote]
    subst hquote
    exact reads_string hpos hrest
  by_cases hslash : c = '/'
  · simp only [if_neg hbang, if_neg hequal, if_neg hquote, if_pos hslash] at htaken ⊢
    exact reads_slashOrComment hpos htaken (by rw [hslash]; decide)
  simp only [if_neg hbang, if_neg hequal, if_neg hquote, if_neg hslash] at htaken ⊢
  cases hkind : Kind.ofChar? c with
  | some kind =>
    simp only [hkind] at htaken
    exact reads_mark hpos htaken
  | none =>
    simp only [hkind] at htaken
    by_cases hword : isWordStart c
    · simp only [if_pos hword] at htaken ⊢
      exact reads_word hpos htaken (isWordPart_of_isWordStart hword)
    by_cases hdigit : c.isDigit
    · simp only [if_neg hword, if_pos hdigit] at htaken ⊢
      exact reads_digits hpos htaken hdigit
    · simp only [if_neg hword, if_neg hdigit] at htaken ⊢
      exact reads_unexpected hpos htaken (by rintro rfl; cases hkind)

/-- The lexer reads what the cursor reads, and none of its slices fails. -/
theorem At.lex {s : Scanner} (h : s.At source pos) (hpos : pos.Behind source before) :
    ∃ s', s.lex = .ok (pos.next.1, s') ∧ s'.At source pos.next.2 := by
  obtain ⟨source', stream, line, start, current⟩ := s
  obtain ⟨rfl, rfl, rfl, rfl⟩ := h
  rw [Scanner.lex, Cursor.next]
  cases hrest : pos.rest with
  | nil =>
    have hall : before = source'.toList := by rw [← hpos.text, hrest, List.append_nil]
    have hsize : pos.offset = source'.utf8ByteSize := by
      rw [hpos.offset, hall, utf8Length_eq_utf8Len, String.utf8Len_toList]
    refine ⟨⟨source', [], pos.line, pos.offset, pos.offset⟩, ?_, rfl, hrest.symm, rfl, rfl⟩
    rw [advance_nil]
    exact if_pos hsize
  | cons c cs => exact reads_cut hpos hrest

end

end Scanner

theorem Cursor.readings_of_ne_nil {pos : Cursor} (h : pos.rest ≠ []) :
    pos.readings = pos.next.1 :: pos.next.2.readings := by
  obtain ⟨rest, offset, line⟩ := pos
  cases rest with
  | nil => exact absurd rfl h
  | cons c cs => exact readings_cons c cs offset line

namespace Scanner

/-- The lexer reads tokens and errors up to the end of the file. -/
inductive Lexes : Scanner → List (Except LexError Token) → Prop where
  | ended {s s' : Scanner} {t : Token} : s.lex = .ok (.ok t, s') → t.kind = .endOfFile → Lexes s []
  | token {s s' : Scanner} {t : Token} {rs : List (Except LexError Token)} : s.lex = .ok (.ok t, s') →
      t.kind ≠ .endOfFile → Lexes s' rs → Lexes s (.ok t :: rs)
  | error {s s' : Scanner} {e : LexError} {rs : List (Except LexError Token)} : s.lex = .ok (.error e, s') →
      Lexes s' rs → Lexes s (.error e :: rs)

theorem At.lexes {s : Scanner} {source : String} {before : List Char} {pos : Cursor} (h : s.At source pos)
    (hpos : pos.Behind source before) : s.Lexes pos.readings := by
  obtain ⟨s', hlex, hs'⟩ := h.lex hpos
  by_cases hrest : pos.rest = []
  · obtain ⟨rest, offset, line⟩ := pos
    obtain rfl : rest = [] := hrest
    rw [Cursor.readings_nil]
    exact .ended hlex rfl
  · obtain ⟨piece, hne, hcut, hnext, hlocates⟩ := hpos.next hrest
    have hless : pos.next.2.rest.length < pos.rest.length := by
      rw [hcut, List.length_append]
      exact Nat.lt_add_of_pos_left (List.length_pos_iff.mpr hne)
    have hrests := hs'.lexes hnext
    rw [Cursor.readings_of_ne_nil hrest]
    cases hreading : pos.next.1 with
    | error e => exact .error (hreading ▸ hlex) hrests
    | ok t =>
      rw [hreading] at hlocates
      exact .token (hreading ▸ hlex) hlocates.kind hrests
termination_by pos.rest.length

/-- A lexer reads each source to its end without a slice that the source does not have. -/
theorem lexes_ofString (source : String) : (ofString source).Lexes (Cursor.ofString source).readings :=
  have hat : (ofString source).At source (.ofString source) := ⟨rfl, rfl, rfl, rfl⟩
  hat.lexes (Cursor.behind_ofString source)

end Scanner
end Monkey
