import Goblet.Decimal.Shortest

/-!
# Reading numbers

Digits to natural numbers, and decimal literals (digits, at most one point, at most one exponent) to the nearest
double.
-/

namespace Goblet.Decimal

def digitValue? (c : Char) : Option Nat :=
  if '0' ≤ c ∧ c ≤ '9' then some (c.toNat - 48)
  else if 'a' ≤ c ∧ c ≤ 'f' then some (c.toNat - 87)
  else if 'A' ≤ c ∧ c ≤ 'F' then some (c.toNat - 55)
  else none

def digitsFrom (base : Nat) : Nat → List Char → Option Nat
  | n, [] => some n
  | n, c :: cs =>
    match digitValue? c with
    | some d => if d < base then digitsFrom base (n * base + d) cs else none
    | none => none

def natOfDigits? (base : Nat) (cs : List Char) : Option Nat :=
  if cs.isEmpty then none else digitsFrom base 0 cs

/-- A number below `2 ^ 63` from its digits. -/
def int64OfDigits? (base : Nat) (cs : List Char) : Option Int64 :=
  match natOfDigits? base cs with
  | some n => if n < Nat.pow 2 63 then some (Int64.ofNat n) else none
  | none => none

/-- An exponent: an optional sign and digits. -/
def exponentOf? : List Char → Option Int
  | '+' :: cs => (natOfDigits? 10 cs).map Int.ofNat
  | '-' :: cs => (natOfDigits? 10 cs).map fun n => -(n : Int)
  | cs => (natOfDigits? 10 cs).map Int.ofNat

/-- The double nearest to `m * 10 ^ e`. Magnitudes far outside the range of doubles are settled by the position of the
leading digit. -/
def nearest (m : Nat) (e : Int) : Float :=
  if m = 0 then 0
  else
    let lead := e + (digitCount m : Int)
    if lead > 400 then Float.ofBits 0x7FF0000000000000
    else if lead < -400 then 0
    else Float.ofScientific m (e < 0) e.natAbs

def floatOfLiteral? (cs : List Char) : Option Float :=
  let mantissa := cs.takeWhile (· ≠ 'e')
  let whole := mantissa.takeWhile (· ≠ '.')
  let frac := (mantissa.drop whole.length).drop 1
  match natOfDigits? 10 (whole ++ frac), cs.drop mantissa.length with
  | some m, [] => some (nearest m (-(frac.length : Int)))
  | some m, _ :: expo => (exponentOf? expo).map fun e => nearest m (e - frac.length)
  | none, _ => none

end Goblet.Decimal
