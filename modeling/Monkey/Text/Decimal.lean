/-! Decimal numerals for signed 64-bit integers. -/
namespace Monkey.Decimal

/-- The value of a run of digits, which may not be empty. -/
def natural? : List Char → Option Nat
  | [] => none
  | ds => if ds.all Char.isDigit then some (ds.foldl (fun n d => 10 * n + (d.toNat - '0'.toNat)) 0) else none

/-- There are this many integers below 0, and as many from 0 on. -/
def bound : Nat := 9223372036854775808

/-- The integer that a numeral with an optional sign denotes, if 64 bits hold it. -/
def integer? (numeral : String) : Option Int64 :=
  match numeral.toList with
  | '-' :: ds => (natural? ds).bind fun n => if n ≤ bound then some (Int64.ofInt (-n)) else none
  | '+' :: ds => positive? ds
  | ds => positive? ds
where
  positive? (ds : List Char) : Option Int64 :=
    (natural? ds).bind fun n => if n < bound then some (Int64.ofNat n) else none

theorem natural?_toDigits (n : Nat) : natural? (Nat.toDigits 10 n) = some n := by
  have hdigits : (Nat.toDigits 10 n).all Char.isDigit = true :=
    List.all_eq_true.mpr fun _ hd => Nat.isDigit_of_mem_toDigits (by decide) (by decide) hd
  have hvalue : Nat.ofDigitChars 10 (Nat.toDigits 10 n) 0 = n := Nat.ofDigitChars_toDigits (by decide) (by decide)
  rw [Nat.ofDigitChars_eq_foldl] at hvalue
  cases h : Nat.toDigits 10 n with
  | nil => exact absurd h Nat.toDigits_ne_nil
  | cons d ds =>
    rw [h] at hdigits hvalue
    simp only [natural?, hdigits, if_true, hvalue]

theorem toDigits_eq_cons (n : Nat) : ∃ d ds, Nat.toDigits 10 n = d :: ds ∧ d.isDigit = true := by
  cases h : Nat.toDigits 10 n with
  | nil => exact absurd h Nat.toDigits_ne_nil
  | cons d ds =>
    refine ⟨d, ds, rfl, Nat.isDigit_of_mem_toDigits (by decide) (by decide) (n := n) (b := 10) ?_⟩
    rw [h]
    exact List.mem_cons_self

theorem toList_toString_ofNat (n : Nat) : (toString (Int.ofNat n)).toList = Nat.toDigits 10 n := by
  rw [Int.toString_eq_repr, Int.repr, Nat.repr, String.toList_ofList]

/-- The numeral that prints an integer denotes it. -/
theorem integer?_toString (n : Int64) : integer? (toString n.toInt) = some n := by
  have hlt := n.toInt_lt
  have hle := n.le_toInt
  have hn : Int64.ofInt n.toInt = n := Int64.ofInt_toInt n
  generalize n.toInt = i at hlt hle hn
  subst hn
  cases i with
  | ofNat m =>
    have hm : m < bound := Int.ofNat_lt.mp hlt
    have hp : integer?.positive? (Nat.toDigits 10 m) = some (Int64.ofInt m) := by
      rw [integer?.positive?, natural?_toDigits, Option.bind_some, if_pos hm, Int64.ofInt_eq_ofNat]
    obtain ⟨d, ds, hcons, hd⟩ := toDigits_eq_cons m
    rw [integer?, toList_toString_ofNat, hcons]
    rw [hcons] at hp
    split
    · next h => obtain ⟨rfl, -⟩ := List.cons.inj h; cases hd
    · next h => obtain ⟨rfl, -⟩ := List.cons.inj h; cases hd
    · exact hp
  | negSucc m =>
    have hm : m + 1 ≤ bound := by
      rw [Int.negSucc_eq] at hle
      unfold bound
      omega
    have hds : (toString (Int.negSucc m)).toList = '-' :: Nat.toDigits 10 (m + 1) := by
      rw [Int.toString_eq_repr, Int.repr, Nat.repr, String.toList_append, String.toList_ofList,
        String.toList_ofList]
      rfl
    simp only [integer?, hds, natural?_toDigits, Option.bind_some, hm, if_true]
    rfl

end Monkey.Decimal
