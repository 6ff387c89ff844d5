import ForthJit.Machine.Placeholder
import ForthJit.Text.Hex

/-!
# Listings of words and bytes
-/

namespace ForthJit.Listing

/-- A placeholder by name, any other word as data. -/
def instruction (w : InstrWord) : String :=
  match Placeholder.ofWord? w with
  | some p => "<" ++ p.name ++ ">"
  | none => ".word " ++ Hex.markedPadded 8 w.toNat

/-- How a word shows in diagnostics. -/
def debug (w : InstrWord) : String := "Instruction(" ++ Hex.markedPadded 8 w.toNat ++ ")"

/-- Bytes in groups of eight, each group as one run of digits. -/
def groups (bytes : List UInt8) : List String :=
  go bytes.length bytes
where
  /-- `fuel` bounds the number of groups. -/
  go : Nat → List UInt8 → List String
    | 0, _ => []
    | _, [] => []
    | fuel + 1, bytes =>
      String.join ((bytes.take 8).map fun b => Hex.padded 2 b.toNat) :: go fuel (bytes.drop 8)

end ForthJit.Listing
