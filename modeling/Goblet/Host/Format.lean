import Goblet.Store.Tree
import Goblet.Decimal.Fixed
import Goblet.Decimal.Reading

/-!
# Formatting

The ways to print operands: one after another, on a line, or by a format with verbs.
-/

namespace Goblet.Format

def isText : Value → Bool
  | .str _ => true
  | _ => false

/-- Operands one after another, with a blank between two that are no texts. -/
def print (h : Store) : List Value → Except Crash String
  | [] => return ""
  | [v] => h.text v
  | v :: w :: vs => do
    return (← h.text v) ++ (if isText v || isText w then "" else " ") ++ (← print h (w :: vs))

def printLine (h : Store) (vs : List Value) : Except Crash String :=
  return Text.joined " " (← vs.mapM h.text) ++ "\n"

def byVerb (h : Store) (verb : Char) (places : Option Nat) (v : Value) : Except Crash String :=
  match verb, v with
  | 'f', v =>
    match v.number? with
    | some x => return Decimal.fixed (places.getD 6) x.toFloat
    | none => return "%!f(" ++ (← h.text v) ++ ")"
  | 'q', .str s => return Text.quoted s
  | 'x', .int n => return Text.hex n.toUInt64.toNat
  | 'd', .int n => return toString n.toInt
  | 'd', v => return "%!d(" ++ (← h.text v) ++ ")"
  | _, v => h.text v

/-- Where a format is read. -/
inductive Reading where
  | plain
  /-- Behind a percent sign. -/
  | verb
  /-- Behind a percent sign and a dot, with the digits so far, the last one first. -/
  | places (digits : List Char)

/-- The number of places that digits give; none if there are no digits or too many. -/
def placesOf (digits : List Char) : Option Nat :=
  match digits with
  | [] => none
  | ds =>
    let n := ds.reverse.foldl (fun n d => n * 10 + (d.toNat - '0'.toNat)) 0
    if n < Nat.pow 2 64 then some n else none

/-- A verb applied to the next of the operands: the text, and the operands left. -/
def applyVerb (h : Store) (verb : Char) (places : Option Nat) (vs : List Value) :
    Except Crash (String × List Value) :=
  if verb = '%' then return ("%", vs)
  else
    match vs with
    | [] => return ("%!" ++ verb.toString ++ "(MISSING)", [])
    | v :: vs => return (← byVerb h verb places v, vs)

def extra (h : Store) (vs : List Value) : Except Crash String :=
  return String.join (← vs.mapM fun v => return "%!(EXTRA " ++ (← h.text v) ++ ")")

def printFrom (h : Store) : Reading → List Char → List Value → Except Crash String
  | .plain, [], vs => extra h vs
  | _, [], vs => return "%!(NOVERB)" ++ (← extra h vs)
  | .plain, c :: cs, vs =>
    if c = '%' then printFrom h .verb cs vs else return c.toString ++ (← printFrom h .plain cs vs)
  | .verb, c :: cs, vs =>
    if c = '.' then printFrom h (.places []) cs vs
    else do
      let (s, vs) ← applyVerb h c none vs
      return s ++ (← printFrom h .plain cs vs)
  | .places ds, c :: cs, vs =>
    if c.isDigit then printFrom h (.places (c :: ds)) cs vs
    else do
      let (s, vs) ← applyVerb h c (placesOf ds) vs
      return s ++ (← printFrom h .plain cs vs)

/-- Operands by a format. Verbs are `v d s q t f x`, and `.N` before a verb sets the places of a float. -/
def printf (h : Store) (format : String) (vs : List Value) : Except Crash String := printFrom h .plain format.toList vs

end Goblet.Format
