/-!
# Numbers in base two and sixteen

Addresses, lane masks and stream masks are shown with their radix in front. Digits are lower case
and there are no leading zeros, except where a width is asked for.
-/

namespace PrimitiveShader.Radix

/-- The digits of `n`, at least `width` of them. -/
def digits (base n width : Nat) : String :=
  let ds := Nat.toDigits base n
  String.ofList (List.replicate (width - ds.length) '0' ++ ds)

/-- Base sixteen, as in `0x1f`. -/
def hex (n : Nat) : String := "0x" ++ digits 16 n 1

/-- Base sixteen with all eight digits of a 32-bit word, as in `0x0000001f`. -/
def hexWord (n : Nat) : String := "0x" ++ digits 16 n 8

/-- Base two, as in `0b101`. -/
def binary (n : Nat) : String := "0b" ++ digits 2 n 1

end PrimitiveShader.Radix
