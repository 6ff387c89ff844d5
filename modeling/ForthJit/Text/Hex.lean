/-!
# Hexadecimal text

Lower-case hexadecimal numerals, bare, padded with zeros, or marked with `0x`.
-/

namespace ForthJit.Hex

/-- The digits of `n`, without leading zeros. -/
def digits (n : Nat) : String :=
  String.ofList (Nat.toDigits 16 n)

/-- The digits of `n`, padded on the left with zeros to at least `width` characters. -/
def padded (width n : Nat) : String :=
  let ds := Nat.toDigits 16 n
  String.ofList (List.replicate (width - ds.length) '0' ++ ds)

/-- `0x` and the digits of `n`. -/
def marked (n : Nat) : String :=
  "0x" ++ digits n

/-- `0x` and the digits of `n`, padded with zeros to `width` digits. -/
def markedPadded (width n : Nat) : String :=
  "0x" ++ padded width n

end ForthJit.Hex
