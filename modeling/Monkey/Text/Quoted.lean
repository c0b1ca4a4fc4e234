/-! Text between quotes, with an escape for each character that cannot stand there as itself. -/
namespace Monkey.Quoted

def hexDigit (n : Nat) : Char :=
  if n < 10 then Char.ofNat ('0'.toNat + n) else Char.ofNat ('a'.toNat + (n - 10))

/-- The text that stands for a character: quote, backslash and the characters below the space are
escaped. -/
def escape (c : Char) : String :=
  match c with
  | '"' => "\\\""
  | '\\' => "\\\\"
  | '\x08' => "\\b"
  | '\x0c' => "\\f"
  | '\n' => "\\n"
  | '\r' => "\\r"
  | '\t' => "\\t"
  | c =>
    if c.toNat < 32 then "\\u00" ++ String.ofList [hexDigit (c.toNat / 16), hexDigit (c.toNat % 16)]
    else c.toString

def encode (s : String) : String := "\"" ++ String.join (s.toList.map escape) ++ "\""

end Monkey.Quoted
