/-! Tokens: the kinds there are, the text that names a kind, and a token's place in its source. -/
namespace Monkey

/-- The kinds of token; a keyword's kind ends in `Word`. -/
inductive Token.Kind where
  | leftParen | rightParen | leftBrace | rightBrace | leftBracket | rightBracket
  | comma | colon | semicolon
  | bang | minus | plus | slash | star
  | bangEqual | equalEqual | greater | less
  | identifier | string | integer
  | elseWord | falseWord | fnWord | ifWord | letWord | returnWord | trueWord
  | equal | comment | whitespace | endOfFile
  deriving DecidableEq, Repr, Inhabited

namespace Token.Kind

/-- The text by which an error message names a kind. -/
def text : Kind → String
  | leftParen => "("
  | rightParen => ")"
  | leftBrace => "\x7b"
  | rightBrace => "\x7d"
  | leftBracket => "["
  | rightBracket => "]"
  | comma => ","
  | colon => ":"
  | semicolon => ";"
  | bang => "!"
  | minus => "-"
  | plus => "+"
  | slash => "/"
  | star => "*"
  | bangEqual => "!="
  | equalEqual => "=="
  | greater => ">"
  | less => "<"
  | identifier => "identifier"
  | string => "string"
  | integer => "integer"
  | elseWord => "else"
  | falseWord => "false"
  | fnWord => "fn"
  | ifWord => "if"
  | letWord => "let"
  | returnWord => "return"
  | trueWord => "true"
  | equal => "="
  | comment => "comment"
  | whitespace => "whitespace"
  | endOfFile => "end of file"

/-- The kind of a token that is always this one character, whatever follows it. -/
def ofChar? : Char → Option Kind
  | '(' => some leftParen
  | ')' => some rightParen
  | '{' => some leftBrace
  | '}' => some rightBrace
  | '[' => some leftBracket
  | ']' => some rightBracket
  | ',' => some comma
  | ':' => some colon
  | ';' => some semicolon
  | '-' => some minus
  | '+' => some plus
  | '*' => some star
  | '>' => some greater
  | '<' => some less
  | ' ' | '\t' | '\r' | '\n' => some whitespace
  | _ => none

def ofKeyword? : String → Option Kind
  | "else" => some elseWord
  | "false" => some falseWord
  | "fn" => some fnWord
  | "if" => some ifWord
  | "let" => some letWord
  | "return" => some returnWord
  | "true" => some trueWord
  | _ => none

/-- Whitespace and comments, which no syntax rule mentions. -/
def isLayout (k : Kind) : Bool := k = whitespace || k = comment

end Token.Kind

/-- A token with the byte range of its text in the source and the line, counted from 0, on which
that range ends. -/
structure Token where
  kind : Token.Kind
  start : Nat
  stop : Nat
  line : Nat
  lexeme : String
  deriving DecidableEq, Repr, Inhabited

end Monkey
