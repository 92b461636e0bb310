/-!
# Decimal text of a binary fraction

A finite nonnegative double is `m · 2 ^ e` exactly. `Dyadic.centsText` writes such a number with
two decimal places, rounded from its exact value; a half goes to the even neighbour.
-/

namespace SessionBuffers

/-- The natural number nearest to `num / den`; a half goes to the even neighbour. -/
def roundDiv (num den : Nat) : Nat :=
  let q := num / den
  let twice := 2 * (num % den)
  if twice < den then q else if den < twice then q + 1 else q + q % 2

/-- The number `mantissa · 2 ^ exponent`. -/
structure Dyadic where
  mantissa : Nat
  exponent : Int
  deriving DecidableEq

namespace Dyadic

/-- The magnitude of the double with the given bits: eleven bits of exponent above 52 bits of
fraction, and below the least normal exponent no leading one. -/
def ofBits (bits : UInt64) : Dyadic :=
  let fraction : Nat := bits.toNat % Nat.pow 2 52
  let exponent : Nat := bits.toNat / Nat.pow 2 52 % Nat.pow 2 11
  if exponent = 0 then ⟨fraction, -1074⟩ else ⟨Nat.pow 2 52 + fraction, (exponent : Int) - 1075⟩

/-- How many units of the last of `places` decimal places the number is nearest to. -/
def toUnits (x : Dyadic) (places : Nat) : Nat :=
  match x.exponent with
  | .ofNat e => x.mantissa * Nat.pow 2 e * Nat.pow 10 places
  | .negSucc e => roundDiv (x.mantissa * Nat.pow 10 places) (Nat.pow 2 (e + 1))

/-- The number with exactly two decimal places. -/
def centsText (x : Dyadic) : String :=
  let units := x.toUnits 2
  let cents := units % 100
  toString (units / 100) ++ "." ++ toString (cents / 10) ++ toString (cents % 10)

end Dyadic

end SessionBuffers
