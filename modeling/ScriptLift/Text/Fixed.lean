import ScriptLift.Text.Hex

/-! Six-place decimal text of a binary32 bit pattern.

The exact value `mantissa * 2 ^ exponent` is rounded once, to a multiple of one millionth, and a tie
goes to the even multiple. No exponent is ever written. -/
namespace ScriptLift.Text

/-- The value of a bit pattern, its sign kept apart. -/
inductive Binary32 where
  | nan
  | infinite
  | finite (mantissa : Nat) (exponent : Int)
  deriving DecidableEq, Repr

/-- Magnitude of the pattern: 8 bits of exponent above 23 bits of fraction. -/
def Binary32.ofBits (bits : UInt32) : Binary32 :=
  let fraction : Nat := bits.toNat % 0x800000
  let biased : Nat := bits.toNat / 0x800000 % 0x100
  if biased = 255 then
    if fraction = 0 then .infinite else .nan
  else if biased = 0 then .finite fraction (-149)
  else .finite (fraction + 0x800000) ((biased : Int) - 150)

def isNegative (bits : UInt32) : Bool := 0x80000000 ≤ bits.toNat

/-- Nearest integer to `num / den`, the even one of two. -/
def roundHalfEven (num den : Nat) : Nat :=
  let quotient := num / den
  let twice := 2 * (num % den)
  if twice < den then quotient
  else if den < twice then quotient + 1
  else quotient + quotient % 2

/-- `mantissa * 2 ^ exponent` in millionths. -/
def millionths (mantissa : Nat) (exponent : Int) : Nat :=
  if 0 ≤ exponent then mantissa * Nat.pow 2 exponent.toNat * 1000000
  else roundHalfEven (mantissa * 1000000) (Nat.pow 2 (-exponent).toNat)

/-- Decimal text with six places; infinities are signed and NaN is not. -/
def fixed (bits : UInt32) : String :=
  let sign := if isNegative bits then "-" else ""
  match Binary32.ofBits bits with
  | .nan => "NaN"
  | .infinite => sign ++ "inf"
  | .finite mantissa exponent =>
    let n := millionths mantissa exponent
    sign ++ toString (n / 1000000) ++ "." ++
      String.ofList (padLeft 6 (Nat.toDigits 10 (n % 1000000)))

end ScriptLift.Text
