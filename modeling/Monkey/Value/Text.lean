import Monkey.Value
import Monkey.Syntax.Printer
import Monkey.Text.Quoted

/-! The text of a value: as a program prints it, and as it is inspected, where a string differs from all else
and the entries of a hash are in the order of their keys. -/
namespace Monkey

def Closure.display (f : Closure) : String := "fn(" ++ commaSeparated f.params ++ ") " ++ Block.source f.body

def Builtin.display (b : Builtin) : String := "builtin fn " ++ b.name

namespace Key

def display : Key → String
  | integer n => toString n.toInt
  | boolean b => if b then "true" else "false"
  | string s => s

def inspect : Key → String
  | string s => Quoted.encode s
  | key => key.display

/-- Integers by number, then `false` and `true`, then strings by their characters. -/
def le : Key → Key → Bool
  | integer m, integer n => m ≤ n
  | integer _, _ => true
  | boolean a, boolean b => !a || b
  | boolean _, string _ => true
  | string s, string t => s ≤ t
  | _, _ => false

end Key

namespace Value

mutual

/-- The text that `puts` prints. -/
def display : Value → String
  | integer n => toString n.toInt
  | boolean b => if b then "true" else "false"
  | string s => s
  | array _ elems => "[" ++ commaSeparated (displayAll elems) ++ "]"
  | hash _ entries => "\x7b" ++ commaSeparated (displayEntries entries) ++ "\x7d"
  | function _ f => f.display
  | builtin b => b.display
  | null => "null"

def displayAll : List Value → List String
  | [] => []
  | v :: vs => v.display :: displayAll vs

def displayEntries : List (Key × Value) → List String
  | [] => []
  | (k, v) :: es => (k.display ++ ": " ++ v.display) :: displayEntries es

end

/-! The order in which a program prints the entries of a hash is left open, so only the text of a value
without hashes of two or more entries is settled. -/

mutual

def settled : Value → Bool
  | array _ elems => allSettled elems
  | hash _ entries => entries.length < 2 && entriesSettled entries
  | _ => true

def allSettled : List Value → Bool
  | [] => true
  | v :: vs => v.settled && allSettled vs

def entriesSettled : List (Key × Value) → Bool
  | [] => true
  | (_, v) :: es => v.settled && entriesSettled es

end

mutual

def inspect : Value → String
  | string s => Quoted.encode s
  | array _ elems => "[" ++ commaSeparated (inspectAll elems) ++ "]"
  | hash _ entries =>
    "\x7b" ++ commaSeparated (((inspectEntries entries).mergeSort fun a b => a.1.le b.1).map Prod.snd) ++ "\x7d"
  | integer n => display (integer n)
  | boolean b => display (boolean b)
  | function id f => display (function id f)
  | builtin b => display (builtin b)
  | null => display null

def inspectAll : List Value → List String
  | [] => []
  | v :: vs => v.inspect :: inspectAll vs

def inspectEntries : List (Key × Value) → List (Key × String)
  | [] => []
  | (k, v) :: es => (k, k.inspect ++ ": " ++ v.inspect) :: inspectEntries es

end

end Value
end Monkey
