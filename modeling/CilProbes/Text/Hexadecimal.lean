/-!
# Hexadecimal numerals

Numerals in base 16 with leading zeros: offsets and tokens are written with lower-case digits (`hex`), codes and magic
numbers with upper-case ones (`hexUpper`).
-/

namespace CilProbes

/-- The numeral of `n` in base 16, padded with zeros in front up to `width` digits. -/
def hex (width n : Nat) : String :=
  String.ofList ((Nat.toDigits 16 n).leftpad width '0')

/-- `hex` with capital digits. -/
def hexUpper (width n : Nat) : String :=
  String.ofList (((Nat.toDigits 16 n).leftpad width '0').map Char.toUpper)

end CilProbes
