/-!
# Floats by their bits

A float is its 64 bits. They stand for a `Float`, of which only one is not a number, while bits that stand for it may
differ in sign and payload. A float that is copied keeps its bits; arithmetic passes the bits of an operand on if it is
not a number.
-/

namespace Goblet

/-- A 64-bit float, by its bits. -/
structure Double where
  bits : UInt64
deriving DecidableEq

namespace Double

def toFloat (x : Double) : Float := Float.ofBits x.bits

def isNaN (x : Double) : Bool := x.toFloat.isNaN

/-- What arithmetic gives where numbers have no result. -/
def indefinite : Double := ⟨0xFFF8000000000000⟩

def ofFloat (x : Float) : Double := if x.isNaN then indefinite else ⟨x.toBits⟩

def ofInt (n : Int64) : Double := .ofFloat n.toFloat

/-- What is not a number as arithmetic passes it on, with the bit set that makes it quiet. -/
def quiet (x : Double) : Double := ⟨x.bits ||| 0x0008000000000000⟩

def map (f : Float → Float) (x : Double) : Double := if x.isNaN then x.quiet else .ofFloat (f x.toFloat)

/-- An operation on two numbers. If the result is not a number, an operand that is not is passed on, first the left. -/
def map₂ (f : Float → Float → Float) (x y : Double) : Double :=
  let z := f x.toFloat y.toFloat
  if z.isNaN && x.isNaN then x.quiet else if z.isNaN && y.isNaN then y.quiet else .ofFloat z

def neg (x : Double) : Double := ⟨x.bits ^^^ 0x8000000000000000⟩

def abs (x : Double) : Double := ⟨x.bits &&& 0x7FFFFFFFFFFFFFFF⟩

/-- Equality of numbers. What is not a number is equal to nothing, and the two zeros are equal. -/
def eqv (x y : Double) : Bool := x.toFloat == y.toFloat

def lt (x y : Double) : Bool := x.toFloat < y.toFloat

end Double

end Goblet
