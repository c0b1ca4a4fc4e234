import Monkey.Token

/-! What the head of a text reads as: a token, or a piece that is none. -/
namespace Monkey
open Token (Kind)

inductive LexFault where
  | unexpectedCharacter
  | unterminatedString
  deriving DecidableEq, Repr

def LexFault.text : LexFault → String
  | unexpectedCharacter => "unexpected character"
  | unterminatedString => "unterminated string"

/-- The head of a text and what it reads as: its lexeme between the quotes around it, and all that
comes after them. -/
structure Piece where
  reading : Except LexFault Kind
  opening : List Char := []
  lexeme : List Char
  closing : List Char := []
  rest : List Char

namespace Piece

def isWordStart (c : Char) : Bool := c.isAlpha || c = '_'

def isWordPart (c : Char) : Bool := c.isAlphanum || c = '_'

/-- The characters a string may hold: there are no escapes, and it ends on its own line. -/
def isStringPart (c : Char) : Bool := c ≠ '"' && c ≠ '\n'

def single (reading : Except LexFault Kind) (c : Char) (cs : List Char) : Piece :=
  { reading, lexeme := [c], rest := cs }

/-- The longer kind when `next` follows at once. -/
def pair (next : Char) (long short : Kind) (c : Char) : List Char → Piece
  | [] => single (.ok short) c []
  | d :: cs =>
    if d = next then { reading := .ok long, lexeme := [c, d], rest := cs }
    else single (.ok short) c (d :: cs)

def slashOrComment (c : Char) : List Char → Piece
  | [] => single (.ok .slash) c []
  | d :: cs =>
    if d = '/' then
      { reading := .ok .comment,
        lexeme := c :: d :: cs.takeWhile (· ≠ '\n'), rest := cs.dropWhile (· ≠ '\n') }
    else single (.ok .slash) c (d :: cs)

/-- A string whose quote is not closed takes the line break with it. -/
def string (quote : Char) (cs : List Char) : Piece :=
  let inside := cs.takeWhile isStringPart
  let opening := [quote]
  match cs.dropWhile isStringPart with
  | [] => { reading := .error .unterminatedString, opening, lexeme := inside, rest := [] }
  | d :: rest =>
    if d = '"' then { reading := .ok .string, opening, lexeme := inside, closing := [d], rest }
    else { reading := .error .unterminatedString, opening, lexeme := inside ++ [d], rest }

def wordKind (word : List Char) : Kind := (Kind.ofKeyword? (String.ofList word)).getD .identifier

def word (c : Char) (cs : List Char) : Piece :=
  let lexeme := c :: cs.takeWhile isWordPart
  { reading := .ok (wordKind lexeme), lexeme, rest := cs.dropWhile isWordPart }

def digits (c : Char) (cs : List Char) : Piece :=
  { reading := .ok .integer, lexeme := c :: cs.takeWhile Char.isDigit, rest := cs.dropWhile Char.isDigit }

/-- The piece that a text with head `c` and tail `cs` begins with. -/
def cut (c : Char) (cs : List Char) : Piece :=
  if c = '!' then pair '=' .bangEqual .bang c cs
  else if c = '=' then pair '=' .equalEqual .equal c cs
  else if c = '"' then string c cs
  else if c = '/' then slashOrComment c cs
  else match Kind.ofChar? c with
    | some kind => single (.ok kind) c cs
    | none =>
      if isWordStart c then word c cs
      else if c.isDigit then digits c cs
      else single (.error .unexpectedCharacter) c cs

/-- All the characters of a piece, its quotes included. -/
def taken (p : Piece) : List Char := p.opening ++ p.lexeme ++ p.closing

private theorem taken_append_rest_of_pair (next : Char) (long short : Kind) (c : Char) (cs : List Char) :
    (pair next long short c cs).taken ++ (pair next long short c cs).rest = c :: cs := by
  cases cs with
  | nil => rfl
  | cons d cs => simp only [pair]; split <;> rfl

private theorem taken_append_rest_of_string (quote : Char) (cs : List Char) :
    (string quote cs).taken ++ (string quote cs).rest = quote :: cs := by
  have body : cs.takeWhile isStringPart ++ cs.dropWhile isStringPart = cs := List.takeWhile_append_dropWhile
  unfold string
  split
  · next h => rw [h] at body; simpa [taken] using body
  · next d rest h =>
    rw [h] at body
    split <;> simpa [taken] using body

private theorem taken_append_rest_of_slash (c : Char) (cs : List Char) :
    (slashOrComment c cs).taken ++ (slashOrComment c cs).rest = c :: cs := by
  cases cs with
  | nil => rfl
  | cons d cs =>
    simp only [slashOrComment]
    split
    · simp [taken, List.takeWhile_append_dropWhile]
    · rfl

/-- A piece and the text after it are the text that was cut. -/
theorem taken_append_rest (c : Char) (cs : List Char) : (cut c cs).taken ++ (cut c cs).rest = c :: cs := by
  unfold cut
  split
  · exact taken_append_rest_of_pair ..
  split
  · exact taken_append_rest_of_pair ..
  split
  · exact taken_append_rest_of_string ..
  split
  · exact taken_append_rest_of_slash ..
  split
  · rfl
  split
  · simp [word, taken, List.takeWhile_append_dropWhile]
  split
  · simp [digits, taken, List.takeWhile_append_dropWhile]
  · rfl

private theorem head_taken_of_pair (next : Char) (long short : Kind) (c : Char) (cs : List Char) :
    (pair next long short c cs).taken.head? = some c := by
  cases cs with
  | nil => rfl
  | cons d cs => simp only [pair]; split <;> rfl

private theorem head_taken_of_string (quote : Char) (cs : List Char) :
    (string quote cs).taken.head? = some quote := by
  unfold string
  split
  · rfl
  · split <;> rfl

private theorem head_taken_of_slash (c : Char) (cs : List Char) :
    (slashOrComment c cs).taken.head? = some c := by
  cases cs with
  | nil => rfl
  | cons d cs => simp only [slashOrComment]; split <;> rfl

/-- A piece takes at least the character it starts with. -/
theorem head_taken (c : Char) (cs : List Char) : (cut c cs).taken.head? = some c := by
  unfold cut
  split
  · exact head_taken_of_pair ..
  split
  · exact head_taken_of_pair ..
  split
  · exact head_taken_of_string ..
  split
  · exact head_taken_of_slash ..
  split
  · rfl
  split
  · rfl
  split <;> rfl

theorem length_rest_le (c : Char) (cs : List Char) : (cut c cs).rest.length ≤ cs.length := by
  have total := congrArg List.length (taken_append_rest c cs)
  have first := head_taken c cs
  cases h : (cut c cs).taken with
  | nil => simp [h] at first
  | cons => simp [h] at total; omega

end Piece
end Monkey
