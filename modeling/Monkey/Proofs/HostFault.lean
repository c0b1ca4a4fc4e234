import Monkey.Interpreter

/-! The faults of a host that reads and evaluates programs: what it does not check where it relies on it. -/
namespace Monkey

/-- What would end the host itself, whatever the program says. -/
inductive HostFault where
  /-- A slice of the source with its ends in the wrong order, out of range or within a character. -/
  | badSlice
  /-- The characters end before the source does. -/
  | streamEnded
  /-- A token of this kind is taken for an operator. -/
  | noOperator (kind : Token.Kind)
  /-- The count of open braces is decremented at zero. -/
  | noOpenBrace
  /-- A builtin uses an argument that it was not given. -/
  | noArgument (index : Nat)
  /-- A slice of an array starts behind its end. -/
  | noElement
  /-- The call depth is decremented at zero. -/
  | noCall
  /-- The call depth does not fit into a word. -/
  | overflow
  | zeroDivisor
  deriving DecidableEq, Repr

/-- What a step of the host gives, if it gives anything. -/
abbrev Hosted := Except HostFault

/-! The counters of the host are words: they cannot go below zero, nor beyond what fits. -/

def countDown (fault : HostFault) : Nat → Hosted Nat
  | 0 => .error fault
  | n + 1 => .ok n

def countUp (n : Nat) : Hosted Nat := if n + 1 < USize.size then .ok (n + 1) else .error .overflow

end Monkey
