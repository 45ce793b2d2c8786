import Goblet.Machine

/-!
# Aggregates at run time

Elements, slices, fields, composite values and `make`.
-/

namespace Goblet.Machine

/-! ## Elements and slices -/

/-- The element at an index. A map gives `nil` for what is not there. -/
def element (h : Store) (c i : Value) : Except Fault Value :=
  match c, i with
  | .slice w, .int n =>
    match if n < 0 then none else h.get? w n.toInt.toNat with
    | some v => .ok v
    | none => .error (.indexRange n w.len)
  | .str s, .int n =>
    match if n < 0 then none else Text.byteAt? s n.toInt.toNat with
    | some b => .ok (.int (Int64.ofNat b.toNat))
    | none => .error (.indexRange n (Text.byteLength s))
  | .map m, k =>
    match k.key with
    | .ok k => .ok ((Entries.get? k (h.entries m)).getD .nil)
    | .error e => .error (.value e)
  | .nil, .int n => .error (.indexRange n 0)
  | c, _ => .error (.typeError "slice, map or string" c.typeName)

/-- Stores an element. `isMap` says that a map is meant even where there is `nil`. -/
def setElement (isMap : Bool) (c i v : Value) : Exec Unit := do
  match c, i with
  | .slice w, .int n =>
    let done ← if n < 0 then pure false else lending c (storing fun h => h.set w n.toInt.toNat v)
    if !done then throw (.indexRange n w.len)
  | .map m, i =>
    lending c do
      let k ← value i.key
      modify fun s => { s with store := s.store.setEntry m k v }
  | .nil, i =>
    if isMap then throw .nilMap
    match i with
    | .int n => throw (.indexRange n 0)
    | _ => throw (.typeError "slice or map" "nil")
  | c, _ => throw (.typeError "slice or map" c.typeName)

/-- The bounds of a slice expression over something with a length and a capacity. -/
def bounds (low : Int64) (high : Option Int64) (len cap : Nat) : Except Fault (Nat × Nat) :=
  let high := high.getD (Int64.ofNat len)
  if high < 0 ∨ cap < high.toInt.toNat then .error (.highBound high cap)
  else if low < 0 ∨ high < low then .error (.lowBound low high)
  else .ok (low.toInt.toNat, high.toInt.toNat)

/-- A part of a slice or text. A text that is cut inside a character gets replacement characters. -/
def slice (h : Store) (c : Value) (low : Int64) (high : Option Int64) : Except Fault Value := do
  match c with
  | .slice w =>
    let (lo, hi) ← bounds low high w.len (h.cap w)
    match h.subslice? w lo hi with
    | some w => return .slice w
    | none => throw .sliceRange
  | .str s =>
    let (lo, hi) ← bounds low high (Text.byteLength s) (Text.byteLength s)
    return .str (Text.ofBytesLossy (((Text.bytes s).drop lo).take (hi - lo)))
  | .nil =>
    let _ ← bounds low high 0 0
    return .nil
  | v => throw (.typeError "slice or string" v.typeName)

/-! ## Fields -/

/-- What storing along a path of fields comes to. -/
inductive PathStore where
  /-- The value with the new field in it. -/
  | stored (v : Value)
  /-- A pointer on the way, and the path below it. -/
  | follow (p : Value) (path : List Nat)

/-- Stores a value into a struct along a path, up to the first pointer. -/
def storeInto (v : Value) : (path : List Nat) → (target : Value) → Except Fault PathStore
  | [], .struct _ => .error .emptyPath
  | i :: path, .struct fs =>
    match fs[i]? with
    | none => .error (.fieldRange i)
    | some field =>
      match path, field with
      | [], _ => .ok (.stored (.struct (fs.set i v)))
      | _ :: _, .ref _ | _ :: _, .heap _ => .ok (.follow field path)
      | _ :: _, .nil => .error .nilPointer
      | _ :: _, field =>
        match storeInto v path field with
        | .ok (.stored field) => .ok (.stored (.struct (fs.set i field)))
        | r => r
  | _, target => .error (.typeError "struct" target.typeName)

/-- Stores a value along a path of fields of what a pointer points to. Gives a pointer on the way, if there is one, and
the path below it. -/
def storeBelow (v p : Value) (path : List Nat) : Exec (Option (Value × List Nat)) :=
  lending p do
    match ← given (storeInto v path (← content p)) with
    | .stored target =>
      setContent p target
      return none
    | .follow q path => return some (q, path)

/-- Stores a value through a pointer along a path of fields, following pointers among them at most `n` times. -/
def storePath (v : Value) : (n : Nat) → (p : Value) → (path : List Nat) → Exec Unit
  | n, p, path => do
    match ← storeBelow v p path with
    | none => pure ()
    | some (q, path) =>
      match n with
      | 0 => throw .emptyPath
      | n + 1 => storePath v n q path

/-! ## Composite values -/

/-- The value as an element of a type: an integer among floats is a float. -/
def fit (t : Ty) (v : Value) : Value :=
  match t, v with
  | .float, .int n => .float (.ofInt n)
  | _, v => v

def setFields (types : List (String × Ty)) : List Nat → List Value → List Value → List Value
  | i :: is, v :: vs, fs =>
    setFields types is vs (match types[i]? with
      | some (_, t) => fs.set i (fit t v)
      | none => fs)
  | _, _, fs => fs

def pairs (key val : Ty) : List Value → Except ValueError (List (Key × Value))
  | k :: v :: rest => do
    let k ← (fit key k).key
    return (k, fit val v) :: (← pairs key val rest)
  | _ => .ok []

def composite (ty : Ty) (len : Nat) (layout : Layout) : Exec Value := do
  match ty, layout with
  | .slice elem, .positional =>
    let vs ← popN len "COMPOSITE"
    return .slice (← storing fun h => h.newSlice (vs.map (fit elem)).toArray)
  | .struct _ fields, .positional =>
    if len = 0 then return ty.zero
    else
      let vs ← popN len "COMPOSITE"
      return .struct ((fields.zip vs).map fun (f, v) => fit f.2 v)
  | .struct _ fields, .fields order =>
    let vs ← popN len "COMPOSITE"
    return .struct (setFields fields order vs (Ty.zeros fields))
  | .map key val, .pairs =>
    let vs ← popN (2 * len) "COMPOSITE"
    let es ← value (pairs key val vs)
    return .map (← storing fun h => h.newMap es)
  | ty, _ => throw (.notComposite ty)

/-! ## Making slices and maps -/

/-- A size given to `make`; a whole float will do. -/
def size? : Option Value → Except Fault (Option Int64)
  | some (.int n) => .ok (some n)
  | some (.float x) =>
    if x.toFloat.isFinite && x.toFloat.floor == x.toFloat then .ok (some x.toFloat.toInt64)
    else .error (.typeError "int" "float64")
  | some v => .error (.typeError "int" v.typeName)
  | none => .ok none

def make (ty : Ty) (sizes : List Value) : Exec Value := do
  match ty with
  | .slice elem =>
    let len := ((← size sizes[0]?).getD 0)
    let cap := ((← size sizes[1]?).getD len)
    if len < 0 then throw .makeLength
    if cap < len then throw .makeCapacity
    room cap.toInt.toNat
    return .slice (← storing fun h => h.makeSlice elem.zero len.toInt.toNat cap.toInt.toNat)
  | .map _ _ => return .map (← storing fun h => h.newMap [])
  | ty => throw (.notMakeable ty)
where
  size (v : Option Value) : Exec (Option Int64) :=
    match size? v with
    | .ok n => return n
    | .error e => throw e

end Goblet.Machine
