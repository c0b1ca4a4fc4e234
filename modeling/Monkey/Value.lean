import Monkey.Syntax

/-! The values that programs compute with. Arrays, hashes and functions carry an identity, given to them when
they are made, by which the language tells two of them apart. -/
namespace Monkey

/-- The functions that are there from the start. -/
inductive Builtin where
  | len | first | last | rest | push | puts
  deriving DecidableEq, Repr

namespace Builtin

def all : List Builtin := [len, first, last, rest, push, puts]

def name : Builtin → String
  | len => "len"
  | first => "first"
  | last => "last"
  | rest => "rest"
  | push => "push"
  | puts => "puts"

/-- The number of arguments, or `none` if any number will do. -/
def arity : Builtin → Option Nat
  | len | first | last | rest => some 1
  | push => some 2
  | puts => none

end Builtin

/-- An environment is known by its number in the store. -/
abbrev Env := Nat

/-- A function with the environment it was defined in. -/
structure Closure where
  params : List String
  body : Block
  env : Env

/-- The values that may stand before the colon in a hash. -/
inductive Key where
  | integer (n : Int64)
  | boolean (b : Bool)
  | string (s : String)
  deriving DecidableEq, Repr

inductive Value where
  | integer (n : Int64)
  | boolean (b : Bool)
  | string (s : String)
  | array (id : Nat) (elems : List Value)
  | hash (id : Nat) (entries : List (Key × Value))
  | function (id : Nat) (closure : Closure)
  | builtin (b : Builtin)
  | null

instance : Inhabited Value := ⟨.null⟩

inductive ValueType where
  | integer | boolean | string | array | hash | function | builtin | null
  deriving DecidableEq, Repr

def ValueType.text : ValueType → String
  | integer => "INTEGER"
  | boolean => "BOOLEAN"
  | string => "STRING"
  | array => "ARRAY"
  | hash => "HASH"
  | function => "FUNCTION"
  | builtin => "BUILTIN"
  | null => "NULL"

/-- The entries of a hash: no key occurs twice. -/
abbrev Entries := List (Key × Value)

/-- Makes `value` the value of `key`, in the place of the one it had. -/
def Entries.put (key : Key) (value : Value) : Entries → Entries
  | [] => [(key, value)]
  | (k, v) :: es => if k = key then (key, value) :: es else (k, v) :: Entries.put key value es

namespace Value

def type : Value → ValueType
  | integer _ => .integer
  | boolean _ => .boolean
  | string _ => .string
  | array _ _ => .array
  | hash _ _ => .hash
  | function _ _ => .function
  | builtin _ => .builtin
  | null => .null

/-- Only `false` and `null` count as false. -/
def truthy : Value → Bool
  | boolean b => b
  | null => false
  | _ => true

def key? : Value → Option Key
  | integer n => some (.integer n)
  | boolean b => some (.boolean b)
  | string s => some (.string s)
  | _ => none

/-- Equality in the language: by value if there is no identity, and by identity if there is. -/
def identical : Value → Value → Bool
  | integer m, integer n => m = n
  | boolean a, boolean b => a = b
  | string s, string t => s = t
  | array i _, array j _ => i = j
  | hash i _, hash j _ => i = j
  | function i _, function j _ => i = j
  | builtin b, builtin c => b = c
  | null, null => true
  | _, _ => false

/-! Equality by content: two arrays are alike if their elements are, and two hashes if they have the same
keys with alike values. -/

mutual

def alike : Value → Value → Bool
  | array _ es, array _ fs => alikeAll es fs
  | hash _ es, hash _ fs => es.length = fs.length && alikeEntries es fs
  | v, w => v.identical w

def alikeAll : List Value → List Value → Bool
  | [], [] => true
  | v :: vs, w :: ws => v.alike w && alikeAll vs ws
  | _, _ => false

def alikeEntries : List (Key × Value) → List (Key × Value) → Bool
  | [], _ => true
  | (k, v) :: es, fs =>
    (match fs.lookup k with
      | some w => v.alike w
      | none => false) && alikeEntries es fs

end

end Value
end Monkey
