import Goblet.Value.Kernel
import Goblet.Text.Bytes

/-!
# The store

Arrays behind slices, maps, and heap cells. They are only ever added, so a slice, map or pointer that was made stays
valid. Copies of a slice or map share what they mean.
-/

namespace Goblet

structure Store where
  cells : Array Value
  arrays : Array (Array Value)
  /-- Maps with their entries in the order of keys. -/
  maps : Array (List (Key × Value))

namespace Store

def empty : Store := ⟨#[], #[], #[]⟩

instance : Inhabited Store := ⟨empty⟩

end Store

/-- Something that a store holds. -/
inductive Handle where
  | cell (c : Nat)
  | array (a : Nat)
  | map (m : Nat)
deriving DecidableEq

def Value.handle? : Value → Option Handle
  | .slice w => some (.array w.array)
  | .map m => some (.map m)
  | .heap c => some (.cell c)
  | _ => none

namespace Store

/-! ## Heap cells -/

def newCell (h : Store) (v : Value) : Nat × Store := (h.cells.size, { h with cells := h.cells.push v })

def cell? (h : Store) (c : Nat) : Option Value := h.cells[c]?

def setCell (h : Store) (c : Nat) (v : Value) : Store := { h with cells := h.cells.setIfInBounds c v }

/-! ## Slices -/

def newSlice (h : Store) (items : Array Value) : Window × Store :=
  (⟨h.arrays.size, 0, items.size⟩, { h with arrays := h.arrays.push items })

/-- A slice of the first `len` elements of a new array with at least `cap` elements, all alike. -/
def makeSlice (h : Store) (zero : Value) (len cap : Nat) : Window × Store :=
  (⟨h.arrays.size, 0, len⟩, { h with arrays := h.arrays.push (Array.replicate (max cap len) zero) })

def backing (h : Store) (w : Window) : Array Value := h.arrays.getD w.array #[]

def cap (h : Store) (w : Window) : Nat := (h.backing w).size - w.off

/-- Whether the store holds all that a value refers to: a slice has all its elements. -/
def holds (h : Store) : Value → Bool
  | .slice w => w.array < h.arrays.size && w.off + w.len ≤ (h.backing w).size
  | .map m => m < h.maps.size
  | .heap c => c < h.cells.size
  | _ => true

def items (h : Store) (w : Window) : List Value := ((h.backing w).extract w.off (w.off + w.len)).toList

def get? (h : Store) (w : Window) (i : Nat) : Option Value :=
  if i < w.len then (h.backing w)[w.off + i]? else none

def has (h : Store) (w : Window) (i : Nat) : Bool := i < w.len && w.off + i < (h.backing w).size

def put (h : Store) (w : Window) (i : Nat) (v : Value) : Store :=
  { h with arrays := h.arrays.modify w.array (·.setIfInBounds (w.off + i) v) }

/-- Stores an element where there is one, and gives whether there is. -/
def set (h : Store) (w : Window) (i : Nat) (v : Value) : Bool × Store :=
  if h.has w i then (true, h.put w i v) else (false, h)

/-- Writes values into an array from an index on, over what is there and then past its end. -/
def writeFrom (a : Array Value) (i : Nat) : List Value → Array Value
  | [] => a
  | v :: vs => writeFrom (if i < a.size then a.setIfInBounds i v else a.push v) (i + 1) vs

/-- The slice with more elements. They are written behind it in the same array. -/
def append (h : Store) (w : Window) (vs : List Value) : Window × Store :=
  ({ w with len := w.len + vs.length },
    { h with arrays := h.arrays.modify w.array (writeFrom · (w.off + w.len) vs) })

/-- The elements from `low` up to `high`, which may reach as far as the array does. -/
def subslice? (h : Store) (w : Window) (low high : Nat) : Option Window :=
  if low ≤ high ∧ high ≤ h.cap w then some { w with off := w.off + low, len := high - low } else none

end Store

/-! ## Maps -/

namespace Entries

def get? (k : Key) : List (Key × Value) → Option Value
  | [] => none
  | (l, v) :: es => if l = k then some v else get? k es

def insert (k : Key) (v : Value) : List (Key × Value) → List (Key × Value)
  | [] => [(k, v)]
  | (l, w) :: es =>
    if l = k then (k, v) :: es
    else if k.lt l then (k, v) :: (l, w) :: es
    else (l, w) :: insert k v es

def erase (k : Key) (es : List (Key × Value)) : List (Key × Value) := es.filter (·.1 ≠ k)

end Entries

namespace Store

def entries (h : Store) (m : Nat) : List (Key × Value) := h.maps.getD m []

/-- A new map. Of two entries with one key the later counts. -/
def newMap (h : Store) (es : List (Key × Value)) : Nat × Store :=
  (h.maps.size, { h with maps := h.maps.push (es.foldl (fun m e => Entries.insert e.1 e.2 m) []) })

def setEntry (h : Store) (m : Nat) (k : Key) (v : Value) : Store :=
  { h with maps := h.maps.modify m (Entries.insert k v) }

def eraseEntry (h : Store) (m : Nat) (k : Key) : Store :=
  { h with maps := h.maps.modify m (Entries.erase k) }

/-! ## Ranges -/

/-- The characters of a text as code points, each at the index of its first byte. -/
def characters : Nat → List Char → List (Key × Value)
  | _, [] => []
  | i, c :: cs => (.int (Int64.ofNat i), .int (Int64.ofNat c.toNat)) :: characters (i + c.utf8Size) cs

def numbered : Nat → List Value → List (Key × Value)
  | _, [] => []
  | i, v :: vs => (.int (Int64.ofNat i), v) :: numbered (i + 1) vs

/-- What a range loop over a value visits. Maps are visited in the order of keys. -/
def range (h : Store) : Value → Except ValueError Value
  | .nil => .ok (.items [])
  | .int n => .ok (.count 0 n)
  | .slice w => .ok (.items (numbered 0 (h.items w)))
  | .map m => .ok (.items (h.entries m))
  | .str s => .ok (.items (characters 0 s.toList))
  | v => .error (.notIterable v.typeName)

end Store

def Value.next? : Value → Option ((Value × Value) × Value)
  | .items ((k, v) :: rest) => some ((k.value, v), .items rest)
  | .count i n => if i < n then some ((.int i, .nil), .count (i + 1) n) else none
  | _ => none

/-! ## Conversions -/

namespace Store

/-- The text of one character, given as a code point; a replacement if there is no such character. -/
def characterText (n : Int64) : String :=
  if n < 0 ∨ ¬ n.toInt.toNat.isValidChar then String.singleton Text.replacement
  else String.singleton (Char.ofNat n.toInt.toNat)

/-- The bytes that a slice of integers stands for, if it is one. -/
def bytesOf? : List Value → Option (List UInt8)
  | [] => some []
  | .int n :: vs => (bytesOf? vs).map (n.toUInt64.toUInt8 :: ·)
  | _ => none

/-- The conversion of a value to a type. Converting a text to bytes makes a new slice. -/
def convert (h : Store) (v : Value) (dst : Ty) : Except ValueError (Value × Store) :=
  match dst, v with
  | .unknown, v => .ok (v, h)
  | .any, v => .ok (v, h)
  | .int, .int n => .ok (.int n, h)
  | .int, .float x => .ok (.int x.toFloat.toInt64, h)
  | .float, .int n => .ok (.float (.ofInt n), h)
  | .float, .float x => .ok (.float x, h)
  | .bool, .bool b => .ok (.bool b, h)
  | .string, .str s => .ok (.str s, h)
  | .string, .int n => .ok (.str (characterText n), h)
  | .string, .slice w =>
    match bytesOf? (h.items w) with
    | some bs => .ok (.str (Text.ofBytesLossy bs), h)
    | none => .error (.conversion v.typeName dst)
  | .string, .nil => .ok (.str "", h)
  | .slice .int, .str s =>
    let (w, h) := h.newSlice ((Text.bytes s).map fun b => Value.int (Int64.ofNat b.toNat)).toArray
    .ok (.slice w, h)
  | .slice _, .nil | .map _ _, .nil | .ptr _, .nil | .func _ _ _, .nil => .ok (.nil, h)
  | .slice _, .slice _ | .map _ _, .map _ | .ptr _, .ref _ | .ptr _, .heap _ | .func _ _ _, .func _
  | .func _ _ _, .host _ => .ok (v, h)
  | .struct _ fs, .struct vs => if fs.length = vs.length then .ok (v, h) else .error (.conversion v.typeName dst)
  | dst, v => .error (.conversion v.typeName dst)

end Store

end Goblet
