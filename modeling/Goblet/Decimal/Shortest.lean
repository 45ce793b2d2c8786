/-!
# Shortest decimals

A finite double is `m * 2 ^ q`; the reals that round to it form an interval around it. `shortest` finds the decimal
with the fewest digits in that interval, and of two such the nearer to the double (the larger one on a tie). All
comparisons are between natural numbers, after multiplying out the powers of two and ten.
-/

namespace Goblet.Decimal

/-- A positive finite double as `mantissa * 2 ^ exponent`. -/
structure Binary where
  mantissa : Nat
  exponent : Int
deriving DecidableEq, Repr

def Binary.ofFloat (x : Float) : Binary :=
  let bits := x.toBits.toNat
  let e : Nat := bits / Nat.pow 2 52 % Nat.pow 2 11
  let f : Nat := bits % Nat.pow 2 52
  if e = 0 then ⟨f, -1074⟩ else ⟨f + Nat.pow 2 52, (e : Int) - 1075⟩

/-- `2 ^ e` as a numerator and a denominator. -/
def twoPow (e : Int) : Nat × Nat := (Nat.pow 2 e.toNat, Nat.pow 2 (-e).toNat)

/-- `10 ^ k` as a numerator and a denominator. -/
def tenPow (k : Int) : Nat × Nat := (Nat.pow 10 k.toNat, Nat.pow 10 (-k).toNat)

def digitCount (n : Nat) : Nat := (Nat.toDigits 10 n).length

/-- The exponent of the leading decimal digit of `b`: `10 ^ k ≤ b < 10 ^ (k + 1)`. -/
def Binary.leading (b : Binary) : Int :=
  let (p, r) := twoPow b.exponent
  (digitCount (b.mantissa * p * Nat.pow 10 400 / r) : Int) - 401

/-- The multiples of `10 ^ k` that read back as `b` are those from `lower` to `upper`, in quarters of `2 ^ exponent`;
an odd mantissa leaves out the ends. -/
def Binary.lower (b : Binary) : Nat :=
  if b.mantissa = Nat.pow 2 52 ∧ b.exponent > -1074 then 4 * b.mantissa - 1 else 4 * b.mantissa - 2

@[inherit_doc Binary.lower]
def Binary.upper (b : Binary) : Nat := 4 * b.mantissa + 2

/-- The decimal `d * 10 ^ k` nearest to `b` on the grid of step `10 ^ k`, if it reads back as `b`. -/
def Binary.onGrid? (b : Binary) (k : Int) : Option Nat :=
  let (p, r) := twoPow (b.exponent - 2)
  let (s, t) := tenPow k
  let scale := fun quarters : Nat => quarters * p * t
  let unit := r * s
  let value := scale (4 * b.mantissa)
  let d := value / unit
  let fits := fun d : Nat =>
    if b.mantissa % 2 = 0 then scale b.lower ≤ d * unit ∧ d * unit ≤ scale b.upper
    else scale b.lower < d * unit ∧ d * unit < scale b.upper
  if fits d then
    if fits (d + 1) ∧ (d + 1) * unit - value ≤ value - d * unit then some (d + 1) else some d
  else if fits (d + 1) then some (d + 1)
  else none

/-- `digits * 10 ^ exponent`. -/
structure Scientific where
  digits : Nat
  exponent : Int
deriving DecidableEq, Repr

/-- Without zeros at the end of the digits; `fuel` bounds how many are taken off. -/
def Scientific.strip : (fuel : Nat) → Scientific → Scientific
  | 0, s => s
  | n + 1, s => if s.digits ≠ 0 ∧ s.digits % 10 = 0 then strip n ⟨s.digits / 10, s.exponent + 1⟩ else s

/-- The shortest decimal that reads back as a positive double: grids of one, two, … seventeen digits are tried. -/
def shortest (b : Binary) : Scientific :=
  let k := b.leading
  let found := (List.range 17).findSome? fun (n : Nat) =>
    (b.onGrid? (k - (n : Int))).map (Scientific.mk · (k - (n : Int)))
  (found.getD ⟨0, 0⟩).strip 20

/-! ## Layout -/

/-- How a number is laid out. -/
structure Style where
  /-- A whole number keeps a point and a zero. -/
  keepPoint : Bool
  /-- Whether a leading digit at this decimal exponent calls for scientific layout. -/
  scientific : Int → Bool

/-- Positional without a point on whole numbers, at every magnitude: how values are shown. -/
def Style.value : Style := ⟨false, fun _ => false⟩

/-- A point on whole numbers, and an exponent from `10 ^ 16` on and below `10 ^ -4`: how literals are shown. -/
def Style.literal : Style := ⟨true, fun k => k ≥ 16 || k < -4⟩

def Scientific.positional (s : Scientific) (keepPoint : Bool) : String :=
  let ds := Nat.toDigits 10 s.digits
  if s.exponent ≥ 0 then
    String.ofList (ds ++ List.replicate s.exponent.toNat '0') ++ (if keepPoint then ".0" else "")
  else
    let places := (-s.exponent).toNat
    if places < ds.length then
      String.ofList (ds.take (ds.length - places) ++ '.' :: ds.drop (ds.length - places))
    else String.ofList ('0' :: '.' :: List.replicate (places - ds.length) '0' ++ ds)

/-- One digit before the point, the others after it, and the exponent of the first. -/
def Scientific.exponential (s : Scientific) : String :=
  let ds := Nat.toDigits 10 s.digits
  let lead := s.exponent + (ds.length : Int) - 1
  let mantissa := match ds with
    | d :: r :: rs => String.ofList (d :: '.' :: r :: rs)
    | ds => String.ofList ds
  mantissa ++ "e" ++ toString lead

def text (style : Style) (x : Float) : String :=
  if x.isNaN then "NaN"
  else
    let sign := if x.toBits ≥ 0x8000000000000000 then "-" else ""
    if x.isInf then sign ++ "inf"
    else
      let b := Binary.ofFloat x
      if b.mantissa = 0 then sign ++ (if style.keepPoint then "0.0" else "0")
      else
        let s := shortest b
        let lead := s.exponent + (digitCount s.digits : Int) - 1
        sign ++ (if style.scientific lead then s.exponential else s.positional style.keepPoint)

end Goblet.Decimal
