/-!
# Digits
-/

namespace ForthJit.Text

/-- The value of a digit in `base`, which is at most sixteen; letters of either case stand for ten
and up. -/
def digit? (base : Nat) (c : Char) : Option Nat :=
  let value :=
    if '0' ≤ c ∧ c ≤ '9' then some (c.toNat - '0'.toNat)
    else if 'a' ≤ c ∧ c ≤ 'f' then some (c.toNat - 'a'.toNat + 10)
    else if 'A' ≤ c ∧ c ≤ 'F' then some (c.toNat - 'A'.toNat + 10)
    else none
  value.filter (· < base)

/-- The number that the digits of `value` and then `digits` write. -/
def extendNumeral (base : Nat) : (value : Nat) → (digits : List Char) → Option Nat
  | value, [] => some value
  | value, c :: rest => do
    let d ← digit? base c
    extendNumeral base (value * base + d) rest

/-- The number that one or more digits write. -/
def numeral? (base : Nat) (digits : List Char) : Option Nat :=
  if digits.isEmpty then none else extendNumeral base 0 digits

end ForthJit.Text
