import Monkey.Token.Piece

/-! Cutting a source into tokens. A cursor walks the source piece by piece, and a piece that is no token is
reported without ending the walk. -/
namespace Monkey
open Token (Kind)

/-- A part of the source that is no token, with the line it starts on, counted from 1. -/
structure LexError where
  fault : LexFault
  line : Nat
  lexeme : String
  deriving DecidableEq, Repr

def LexError.message (e : LexError) : String :=
  "Lex error at line " ++ toString e.line ++ ": " ++ e.fault.text ++ " " ++ e.lexeme

/-- The number of bytes that a text takes in UTF-8. -/
def utf8Length (cs : List Char) : Nat := cs.foldr (fun c n => c.utf8Size + n) 0

/-- A place in a source: the text still to be read, the number of bytes before it and the number of
line breaks before it. -/
structure Cursor where
  rest : List Char
  offset : Nat
  line : Nat

namespace Cursor

/-- The start of a source. -/
def ofString (source : String) : Cursor := ⟨source.toList, 0, 0⟩

def token (pos : Cursor) (kind : Kind) (p : Piece) : Token :=
  let start := pos.offset + utf8Length p.opening
  { kind, start, stop := start + utf8Length p.lexeme,
    line := pos.line + p.lexeme.count '\n', lexeme := String.ofList p.lexeme }

def reading (pos : Cursor) (p : Piece) : Except LexError Token :=
  match p.reading with
  | .ok kind => .ok (pos.token kind p)
  | .error fault => .error { fault, line := pos.line + 1, lexeme := String.ofList p.lexeme }

def after (pos : Cursor) (p : Piece) : Cursor :=
  { rest := p.rest, offset := pos.offset + utf8Length p.taken, line := pos.line + p.taken.count '\n' }

/-- Reads the next piece. At the end of the source there is always one more end-of-file token. -/
def next (pos : Cursor) : Except LexError Token × Cursor :=
  match pos.rest with
  | [] => (.ok ⟨.endOfFile, pos.offset, pos.offset, pos.line, Kind.endOfFile.text⟩, pos)
  | c :: cs => (pos.reading (Piece.cut c cs), pos.after (Piece.cut c cs))

/-- Reads `count` times, also past the end. -/
def steps : Nat → Cursor → List (Except LexError Token)
  | 0, _ => []
  | count + 1, pos => pos.next.1 :: steps count pos.next.2

private def readingsOnto (seen : Array (Except LexError Token)) (pos : Cursor) :
    Array (Except LexError Token) :=
  match pos with
  | ⟨[], _, _⟩ => seen
  | ⟨c :: cs, offset, line⟩ =>
    have := Piece.length_rest_le c cs
    let p := Piece.cut c cs
    readingsOnto (seen.push (reading ⟨c :: cs, offset, line⟩ p)) (after ⟨c :: cs, offset, line⟩ p)
termination_by pos.rest.length
decreasing_by simp [after]; omega

/-- The readings of all the pieces up to the end of the source. -/
def readings (pos : Cursor) : List (Except LexError Token) := (readingsOnto #[] pos).toList

private theorem readingsOnto_toList : ∀ (pos : Cursor) (seen : Array (Except LexError Token)),
    (readingsOnto seen pos).toList = seen.toList ++ pos.readings
  | ⟨[], _, _⟩, seen => by simp [readings, readingsOnto]
  | ⟨c :: cs, offset, line⟩, seen => by
    have := Piece.length_rest_le c cs
    rw [readings, readingsOnto, readingsOnto_toList, readingsOnto, readingsOnto_toList]
    simp
termination_by pos => pos.rest.length
decreasing_by all_goals simp [after]; omega

theorem readings_nil (offset line : Nat) : readings ⟨[], offset, line⟩ = [] := by
  simp [readings, readingsOnto]

theorem readings_cons (c : Char) (cs : List Char) (offset line : Nat) :
    readings ⟨c :: cs, offset, line⟩ =
      reading ⟨c :: cs, offset, line⟩ (Piece.cut c cs) ::
        (after ⟨c :: cs, offset, line⟩ (Piece.cut c cs)).readings := by
  rw [readings, readingsOnto, readingsOnto_toList]
  rfl

end Cursor

namespace Token

/-- All the tokens of a source, or all its errors if it has any. -/
def ofSource (source : String) : Except (List LexError) (List Token) :=
  let readings := (Cursor.ofString source).readings
  match readings.filterMap fun | .error e => some e | .ok _ => none with
  | [] => .ok (readings.filterMap fun | .ok t => some t | .error _ => none)
  | errors => .error errors

/-- The tokens of a source that syntax is made of: all but whitespace and comments. -/
def significant (source : String) : Except (List LexError) (List Token) :=
  (ofSource source).map fun tokens => tokens.filter fun t => !t.kind.isLayout

theorem ofSource_eq_ok_iff {source : String} {ts : List Token} :
    ofSource source = .ok ts ↔ (Cursor.ofString source).readings = ts.map .ok := by
  unfold ofSource
  generalize (Cursor.ofString source).readings = readings
  constructor
  · intro h
    dsimp only at h
    split at h
    · next herrors =>
      obtain rfl := Except.ok.inj h
      induction readings with
      | nil => rfl
      | cons r rs ih =>
        cases r with
        | error e => simp at herrors
        | ok t =>
          exact congrArg (.ok t :: ·) (ih herrors rfl)
    · cases h
  · rintro rfl
    have herrors : ts.filterMap (fun _ => (none : Option LexError)) = [] :=
      List.filterMap_eq_nil_iff.mpr fun _ _ => rfl
    simp [List.filterMap_map, Function.comp_def, herrors]

theorem significant_eq_ok_iff {source : String} {ts : List Token} :
    significant source = .ok ts ↔
      ∃ us : List Token, (Cursor.ofString source).readings = us.map .ok ∧
        us.filter (fun t => !t.kind.isLayout) = ts := by
  unfold significant
  constructor
  · intro h
    cases hsource : ofSource source with
    | error errors =>
      rw [hsource] at h
      cases h
    | ok us =>
      rw [hsource] at h
      exact ⟨us, ofSource_eq_ok_iff.mp hsource, Except.ok.inj h⟩
  · rintro ⟨us, hus, rfl⟩
    rw [ofSource_eq_ok_iff.mpr hus]
    rfl

end Token
end Monkey
