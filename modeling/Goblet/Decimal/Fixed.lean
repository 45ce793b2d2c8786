import Goblet.Decimal.Shortest

/-!
# Decimals with a fixed number of places

The exact value of the double, rounded to the given number of places; a half goes to the even neighbour.
-/

namespace Goblet.Decimal

/-- The natural number nearest to `num / den`, the even one of two. -/
def roundDiv (num den : Nat) : Nat :=
  let d := num / den
  let r := num % den
  if 2 * r < den then d else if den < 2 * r then d + 1 else d + d % 2

/-- The text of a double with `places` digits after the point. -/
def fixed (places : Nat) (x : Float) : String :=
  if x.isNaN then "NaN"
  else
    let sign := if x.toBits ≥ 0x8000000000000000 then "-" else ""
    if x.isInf then sign ++ "inf"
    else
      let b := Binary.ofFloat x
      let (p, r) := twoPow b.exponent
      let n := roundDiv (b.mantissa * p * Nat.pow 10 places) r
      let whole := toString (n / Nat.pow 10 places)
      if places = 0 then sign ++ whole
      else
        let ds := Nat.toDigits 10 (n % Nat.pow 10 places)
        sign ++ whole ++ "." ++ String.ofList (List.replicate (places - ds.length) '0' ++ ds)

end Goblet.Decimal
