/-!
# Shortest decimals of binary floating-point numbers

A binary format rounds every real number to a nearest member, so each finite member stands for an interval of reals.
`BinaryFormat.decimal` writes the decimal with the fewest digits in that interval; among those the one nearest to the
number; of two equally near ones the upper. Numbers are given by their bits, and all arithmetic is exact.

The notation is positional for every size: no exponent, and no fraction after a whole number.
-/

namespace CilProbes

/-- A binary interchange format: widths of the fraction and of the exponent field. -/
structure BinaryFormat where
  fraction : Nat
  exponent : Nat

namespace BinaryFormat

def single : BinaryFormat := ⟨23, 8⟩

def double : BinaryFormat := ⟨52, 11⟩

/-- A positive rational with the interval of reals that round to it, over a common denominator. -/
structure Rounded where
  value : Nat
  low : Nat
  high : Nat
  denominator : Nat
  /-- Whether the ends of the interval belong to it. -/
  closed : Bool

/-- The interval of the finite number with fraction field `frac` and exponent field `exp`, not both zero. -/
def rounded (f : BinaryFormat) (frac exp : Nat) : Rounded :=
  let mantissa := if exp = 0 then frac else (1 <<< f.fraction) + frac
  let power : Int := Int.ofNat (max exp 1) - Int.ofNat ((1 <<< (f.exponent - 1)) - 1 + f.fraction)
  -- A power of two lies closer to its lower neighbour.
  let below := if frac = 0 then 1 else 2
  let scale := 1 <<< power.toNat
  { value := 4 * mantissa * scale
    low := (4 * mantissa - below) * scale
    high := (4 * mantissa + 2) * scale
    denominator := 4 <<< (-power).toNat
    closed := mantissa % 2 = 0 }

/-- `c * 10 ^ k` lies in the interval. -/
def Rounded.contains (r : Rounded) (c : Nat) (k : Int) : Bool :=
  let point := c * Nat.pow 10 k.toNat * r.denominator
  let unit := Nat.pow 10 (-k).toNat
  if r.closed then r.low * unit ≤ point ∧ point ≤ r.high * unit
  else r.low * unit < point ∧ point < r.high * unit

/-- The multiple of `10 ^ k` in the interval that is nearest to the value, if there is one. -/
def Rounded.onGrid? (r : Rounded) (k : Int) : Option Nat :=
  let numerator := r.value * Nat.pow 10 (-k).toNat
  let divisor := r.denominator * Nat.pow 10 k.toNat
  let floor := numerator / divisor
  match r.contains floor k, r.contains (floor + 1) k with
  | true, true => some (if 2 * (numerator % divisor) < divisor then floor else floor + 1)
  | true, false => some floor
  | false, true => some (floor + 1)
  | false, false => none

/-- The position of the leading digit: the largest `e` with `10 ^ e ≤ value`. -/
def Rounded.magnitude (r : Rounded) : Int :=
  let whole := r.value / r.denominator
  if whole = 0 then
    -- The least shift that brings the value to one or more; 2 ^ n denominators need fewer than n shifts.
    let shift := (List.range (Nat.log2 r.denominator + 1)).find? fun j => r.denominator ≤ r.value * Nat.pow 10 j
    Int.negOfNat (shift.getD 0)
  else
    Int.ofNat ((Nat.toDigits 10 whole).length - 1)

/-- The shortest decimal `c * 10 ^ k` in the interval: the first grid with a hit, from coarse to fine. -/
def Rounded.shortest (r : Rounded) : Nat × Int :=
  let grid (digits : Nat) : Int := r.magnitude - Int.ofNat digits
  let hit := (List.range 17).findSome? fun digits => (r.onGrid? (grid digits)).map fun c => (c, grid digits)
  hit.getD (r.value / r.denominator, 0)

/-- Positional notation of `c * 10 ^ k`, without zeros at the end of a fraction. -/
def positional (c : Nat) (k : Int) : String :=
  let digits := Nat.toDigits 10 c
  if 0 ≤ k then
    String.ofList (digits ++ List.replicate k.toNat '0')
  else
    let places := (-k).toNat
    let padded := digits.leftpad (places + 1) '0'
    let whole := padded.take (padded.length - places)
    let fraction := (padded.drop (padded.length - places)).reverse.dropWhile (· == '0') |>.reverse
    String.ofList (if fraction.isEmpty then whole else whole ++ '.' :: fraction)

/-- The text of the number with the given bits. -/
def decimal (f : BinaryFormat) (bits : Nat) : String :=
  let frac := bits % (1 <<< f.fraction)
  let exp := (bits >>> f.fraction) % (1 <<< f.exponent)
  let sign := if (bits >>> (f.fraction + f.exponent)) % 2 = 1 then "-" else ""
  if exp = (1 <<< f.exponent) - 1 then
    if frac = 0 then sign ++ "inf" else "NaN"
  else if exp = 0 ∧ frac = 0 then
    sign ++ "0"
  else
    let shortest := (f.rounded frac exp).shortest
    sign ++ positional shortest.1 shortest.2

end BinaryFormat

end CilProbes
