import Goblet.Snapshot

/-!
# Dumps as bytes

Numbers are written seven bits to a byte, the low ones first, with the high bit set on all bytes but the last; signed
ones alternate around zero. Texts and sequences have their length in front, a choice has its number in front, and a
float is eight bytes, the low ones first.
-/

namespace Goblet

namespace Encode

def varintTo : (most : Nat) → Nat → List UInt8
  | 0, _ => []
  | k + 1, n => if n < 128 then [UInt8.ofNat n] else UInt8.ofNat (n % 128 + 128) :: varintTo k (n / 128)

def varint (n : Nat) : List UInt8 := varintTo 10 n

/-- A signed number as an unsigned one: 0, -1, 1, -2, and so on. -/
def zigzag (n : Int64) : Nat := if 0 ≤ n then 2 * n.toInt.toNat else 2 * (-(n.toInt + 1)).toNat + 1

def wordTo : Nat → Nat → List UInt8
  | 0, _ => []
  | k + 1, n => UInt8.ofNat (n % 256) :: wordTo k (n / 256)

def word (bits : UInt64) : List UInt8 := wordTo 8 bits.toNat

def text (s : String) : List UInt8 := varint (Text.byteLength s) ++ Text.bytes s

mutual

def value : DumpValue → List UInt8
  | .nil => varint 0
  | .bool b => varint 1 ++ [if b then 1 else 0]
  | .int n => varint 2 ++ varint (zigzag n)
  | .float bits => varint 3 ++ word bits
  | .str s => varint 4 ++ text s
  | .slice items => varint 5 ++ varint items.length ++ values items
  | .map es => varint 6 ++ varint es.length ++ entries es
  | .struct fields => varint 7 ++ varint fields.length ++ values fields
  | .cell n => varint 8 ++ varint n
  | .addr n => varint 9 ++ varint n
  | .func entry => varint 10 ++ varint entry

def values : List DumpValue → List UInt8
  | [] => []
  | d :: ds => value d ++ values ds

def entries : List (DumpValue × DumpValue) → List UInt8
  | [] => []
  | (k, d) :: es => value k ++ value d ++ entries es

end

def kind : DumpKind → List UInt8
  | .var => varint 0
  | .func => varint 1

def record (r : DumpRecord) : List UInt8 :=
  varint r.index ++ text r.name ++ kind r.kind ++ text r.typeName ++ value r.value

def dump (d : Dump) : List UInt8 :=
  varint d.records.length ++ d.records.flatMap record ++ varint d.cells.length ++ values d.cells

end Encode

/-- Reading from bytes: a result and the bytes after it. -/
abbrev Decode := StateT (List UInt8) (Except DecodeError)

namespace Decode

def byte : Decode UInt8 := do
  match ← get with
  | b :: bs =>
    set bs
    return b
  | [] => throw .endOfInput

def bytes (n : Nat) : Decode (List UInt8) := do
  let bs ← get
  if n ≤ bs.length then
    set (bs.drop n)
    return bs.take n
  else throw .endOfInput

/-- A number in at most so many bytes, where a last possible byte is at most `top`. -/
def varintTo (top : UInt8) : (most : Nat) → Decode Nat
  | 0 => throw .varint
  | k + 1 => do
    let b ← byte
    if b < 128 then
      if k = 0 ∧ top < b then throw .varint else return b.toNat
    else return b.toNat - 128 + 128 * (← varintTo top k)

def varint : Decode Nat := varintTo 1 10

def choice : Decode Nat := varintTo 15 5

def unzigzag (n : Nat) : Int64 := Int64.ofInt (if n % 2 = 0 then (n / 2 : Nat) else -((n / 2 : Nat) : Int) - 1)

def number : List UInt8 → Nat
  | [] => 0
  | b :: bs => b.toNat + 256 * number bs

def word : Decode UInt64 := do return UInt64.ofNat (number (← bytes 8))

def text : Decode String := do
  match Text.ofBytes? (← bytes (← varint)) with
  | some s => return s
  | none => throw .text

def bool : Decode Bool := do
  match ← byte with
  | 0 => return false
  | 1 => return true
  | _ => throw .bool

def many (item : Decode α) : Nat → Decode (List α)
  | 0 => return []
  | n + 1 => do
    let a ← item
    return a :: (← many item n)

def sequence (item : Decode α) : Decode (List α) := do many item (← varint)

def valueTo : Nat → Decode DumpValue
  | 0 => throw .endOfInput
  | n + 1 => do
    match ← choice with
    | 0 => return .nil
    | 1 => return .bool (← bool)
    | 2 => return .int (unzigzag (← varint))
    | 3 => return .float (← word)
    | 4 => return .str (← text)
    | 5 => return .slice (← sequence (valueTo n))
    | 6 => return .map (← sequence (do
      let k ← valueTo n
      return (k, ← valueTo n)))
    | 7 => return .struct (← sequence (valueTo n))
    | 8 => return .cell (← varint)
    | 9 => return .addr (← varint)
    | 10 => return .func (← varint)
    | _ => throw .variant

/-- A value. Each level of nesting takes a byte, so there are no more levels than bytes. -/
def value : Decode DumpValue := do valueTo ((← get).length + 1)

def kind : Decode DumpKind := do
  match ← choice with
  | 0 => return .var
  | 1 => return .func
  | _ => throw .variant

def record : Decode DumpRecord := do
  let index ← varint
  let name ← text
  let kind ← kind
  let typeName ← text
  return ⟨index, name, kind, typeName, ← value⟩

end Decode

namespace Dump

def toBytes (d : Dump) : List UInt8 := Encode.dump d

/-- The dump at the head of some bytes. What follows it is ignored. -/
def ofBytes (bs : List UInt8) : Except DecodeError Dump := do
  let (records, bs) ← (Decode.sequence Decode.record).run bs
  let (cells, _) ← (Decode.sequence Decode.value).run bs
  return ⟨records, cells⟩

end Dump

end Goblet
