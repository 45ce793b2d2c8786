import Goblet.Compile.Name

/-!
# Code for expressions

Operations on constants are carried out while compiling, as long as the constants were loaded just before and nothing
jumps in between; adding, subtracting and comparing with a small constant have instructions of their own.
-/

namespace Goblet.Compile

/-! ## Operations -/

def shortOp? (op : BinOp) (k : Int64) : Option Op :=
  match op with
  | .add => some (.addi k)
  | .sub => some (.subi k)
  | .lss => some (.loweri k)
  | _ => none

/-- Two constants that were loaded just before, one after the other. -/
def trailingPair? (l r : Option Known) : Compile (Option (Known × Known)) := do
  match l, r with
  | some a, some b =>
    if (← isTrailing b) && a.loadedAt + 1 = b.loadedAt then return some (a, b) else return none
  | _, _ => return none

/-- An instruction in place of one that loads the right operand, and where that is. -/
def trailingShort? (op : BinOp) (l r : Taken) : Compile (Option (Nat × Op)) := do
  match r.known with
  | some ⟨.int k, i⟩ =>
    if l.ty = .int ∧ r.ty = .int ∧ (← isTrailing ⟨.int k, i⟩) then return (shortOp? op k).map (i, ·) else return none
  | _ => return none

def binaryCode (op : BinOp) (l r : Taken) (p : Pos) : Compile Unit := do
  match ← trailingShort? op l r with
  | some (i, short) => replaceOp i short
  | none => emit (.binary op) p

def binary (operator : Operator) (p : Pos) : Compile Unit := do
  match BinOp.ofOperator? operator with
  | none => fail (.notBinary operator) p
  | some op =>
    let r ← popValue p
    let l ← popValue p
    match Ty.binaryResult op l.ty r.ty with
    | .error e => fail (.undefinedOn e) p
    | .ok t =>
      match ← trailingPair? l.known r.known with
      | some (a, b) =>
        match a.value.binary op b.value with
        | .error e => fail (.constant e) p
        | .ok v =>
          cutCode a.loadedAt
          constant v t p
      | none =>
        binaryCode op l r p
        pushValue t

def addressCode (v : Taken) (p : Pos) : Compile Unit := do
  let s ← get
  let size := s.program.code.size
  let cannot : Compile Unit := fail (.notAddressable v.ty) p
  match s.program.code.back?, v.known with
  | some ⟨.get (.local _), _⟩, none => fail .localAddress p
  | some ⟨.get slot, _⟩, none => if s.lastLabel = some size then cannot else replaceOp (size - 1) (.addr slot)
  | some ⟨.composite .., _⟩, _ => emit .box p
  | _, _ => cannot

/-- The address of a variable, or of a new cell with a composite value. -/
def addressOf (p : Pos) : Compile Unit := do
  let v ← popValue p
  addressCode v p
  pushValue (.ptr v.ty)

def pointee (t : Ty) (p : Pos) : Compile Ty :=
  match t with
  | .ptr e => return e
  | t => if t.isDynamic then return .unknown else fail (.indirect ("value of type " ++ t.text)) p

/-- What a pointer points to; before a type, the type of pointers to it. -/
def indirect (p : Pos) : Compile Unit := do
  match ← popOperand p with
  | .type t => pushOperand (.type (.ptr t))
  | .value t _ =>
    let elem ← pointee (← complete t) p
    emit .deref p
    pushValue (← complete elem)
  | o => fail (.indirect o.describe) p

/-- The operation of a unary operator on a type; none if the operator leaves the value as it is. -/
def unaryOp (op : Operator) (t : Ty) (p : Pos) : Compile (Option UnOp) :=
  match op with
  | .add => if t.isNumeric || t.isDynamic then return none else fail (.unaryOn op t) p
  | .sub => if t.isNumeric || t.isDynamic then return some .neg else fail (.unaryOn op t) p
  | .not => if t = .bool ∨ t.isDynamic then return some .not else fail (.unaryOn op t) p
  | .xor => if t = .int ∨ t.isDynamic then return some .bitNot else fail (.unaryOn op t) p
  | op => fail (.unaryOn op t) p

def trailing? (known : Option Known) : Compile (Option Known) := do
  match known with
  | some k => if ← isTrailing k then return some k else return none
  | none => return none

def unary (operator : Operator) (p : Pos) : Compile Unit := do
  match operator with
  | .and => addressOf p
  | .mul => indirect p
  | operator =>
    let v ← popValue p
    match ← unaryOp operator v.ty p with
    | none => pushOperand (.value v.ty v.known)
    | some op =>
      match ← trailing? v.known with
      | some k =>
        match k.value.unary op with
        | .error e => fail (.constant e) p
        | .ok w =>
          cutCode k.loadedAt
          constant w v.ty p
      | none =>
        emit (.unary op) p
        pushValue v.ty

/-! ## Elements, slices and fields -/

def checkIndex (t : Ty) (p : Pos) : Compile Unit :=
  if t = .int ∨ t.isDynamic then return () else fail (.indexType t) p

def index (p : Pos) : Compile Unit := do
  let i ← popValue p
  let c ← popValue p
  match ← complete c.ty with
  | .slice elem =>
    checkIndex i.ty p
    emit .index p
    pushValue (← complete elem)
  | .string =>
    checkIndex i.ty p
    emit .index p
    pushValue .int
  | .map k v =>
    coerce i k 0 "map index" p
    let slot ← typeSlot v
    emit (.mapIndex slot) p
    pushValue (← complete v)
  | t =>
    if t.isDynamic then
      emit .index p
      pushValue .unknown
    else fail (.notIndexable t) p

def popBounds (p : Pos) : Nat → Compile Unit
  | 0 => return ()
  | n + 1 => do
    checkIndex (← popValue p).ty p
    popBounds p n

def isSliceable : Ty → Bool
  | .slice _ | .string => true
  | t => t.isDynamic

def slice (low high : Bool) (p : Pos) : Compile Unit := do
  popBounds p (low.toNat + high.toNat)
  let v ← popValue p
  if isSliceable v.ty then
    emit (.slice low high) p
    pushValue v.ty
  else fail (.notSliceable v.ty) p

def addMember (r : Registry) (path name : String) (p : Pos) : Compile Unit := do
  let key := path ++ "." ++ name
  if (← lookup key).isNone then
    match r.lookup? (some path) name with
    | some b => addSymbol key ⟨.value, .unresolved, b.ty, some b.value⟩
    | none => fail (.undefined key) p

def packageMember (r : Registry) (path name : String) (p : Pos) : Compile Unit := do
  addMember r path name p
  let key := path ++ "." ++ name
  let t := ((← lookup key).map (·.ty)).getD .unknown
  let slot ← materialize key p
  emit (.get (.global slot)) p
  pushValue t

def field (r : Registry) (name : String) (p : Pos) : Compile Unit := do
  match ← popOperand p with
  | .package path => packageMember r path name p
  | .value t _ =>
    let t ← complete t
    match t.field? name with
    | some (i, f) =>
      emit (.field i) p
      pushValue (← complete f)
    | none => fail (.noField t name) p
  | o => fail (.noFields o.describe name) p

/-! ## Composite literals -/

/-- Checks the elements of a literal. What is not a float yet becomes one when the literal is made. -/
def checkElements (p : Pos) : List Ty → List Taken → Compile Unit
  | want :: wants, v :: vs => do
    if want.accepts v.ty then checkElements p wants vs
    else fail (.cannotUse ("value of type " ++ v.ty.text) want "composite literal") p
  | _, _ => return ()

/-- The indices and types of fields named in a literal; `seen` are the indices before. -/
def literalFields (ty : Ty) (fields : List (String × Ty)) (p : Pos) :
    (seen : List Nat) → List String → Compile (List (Nat × Ty))
  | _, [] => return []
  | seen, n :: ns =>
    match Ty.findField n fields with
    | none => fail (.unknownField n ty) p
    | some (i, t) =>
      if seen.contains i then fail (.repeatedField n) p
      else do return (i, t) :: (← literalFields ty fields p (i :: seen) ns)

def literalLayout (ty : Ty) (len : Nat) (keys : Keys) (p : Pos) : Compile Layout := do
  match ty, keys with
  | .slice elem, .positional =>
    let vs ← popValues len p
    checkElements p (vs.map fun _ => elem) vs
    return .positional
  | .slice _, _ => fail .keyedSlice p
  | .map k v, .pairs =>
    let vs ← popValues (2 * len) p
    checkElements p ((List.replicate len [k, v]).flatten) vs
    return .pairs
  | .map _ _, .positional => if len = 0 then return .pairs else fail (.literalType ty) p
  | .struct _ fields, .positional =>
    if len ≠ 0 ∧ len ≠ fields.length then fail (.structCount (len < fields.length) ty) p
    else
      let vs ← popValues len p
      checkElements p (fields.map (·.2)) vs
      return .positional
  | .struct _ fields, .fields names =>
    let fs ← literalFields ty fields p [] names
    let vs ← popValues len p
    checkElements p (fs.map (·.2)) vs
    return .fields (fs.map (·.1))
  | .struct _ _, .pairs => fail .fieldKey p
  | ty, _ => fail (.literalType ty) p

def composite (e : TypeExpr) (len : Nat) (keys : Keys) (p : Pos) : Compile Unit := do
  let ty ← complete (← resolveType e p)
  let layout ← literalLayout ty len keys p
  let slot ← typeSlot ty
  emit (.composite slot len layout) p
  pushValue ty

/-! ## Stores into parts -/

/-- The base of a store into a field: the address of a struct variable, or the pointer that a variable holds. -/
def place (name : String) (p : Pos) : Compile Unit := do
  let (key, sym) ← resolve name p
  if sym.kind ≠ .var then fail (.assignFields name) p
  else
    let slot ← varSlot key sym name p
    match ← complete sym.ty with
    | .ptr (.struct n fs) =>
      emit (.get slot) p
      pushOperand (.place (.struct n fs))
    | .struct n fs =>
      emit (.addr slot) p
      pushOperand (.place (.struct n fs))
    | t => fail (.assignNoFields name t) p

def fieldPath (p : Pos) : Ty → List String → Compile (List Nat × Ty)
  | t, [] => return ([], t)
  | t, n :: ns =>
    match t.field? n with
    | none => fail (.noField t n) p
    | some (i, f) => do
      let (is, t) ← fieldPath p (← complete f) ns
      return (i :: is, t)

def fieldAssign (path : List String) (p : Pos) : Compile Unit := do
  let v ← popValue p
  let s ← get
  match s.stack.pop? with
  | some (.place t, stack) =>
    set { s with stack := stack }
    let (is, t) ← fieldPath p t path
    coerce v t 0 "assignment" p
    emit (.fieldSet is) p
  | _ => fail .noBase p

def indexAssign (p : Pos) : Compile Unit := do
  let v ← popValue p
  let i ← popValue p
  let c ← popValue p
  match ← complete c.ty with
  | .slice elem =>
    checkIndex i.ty p
    coerce v elem 0 "assignment" p
    emit .indexSet p
  | .map k w =>
    coerce i k 1 "map index" p
    coerce v w 0 "assignment" p
    emit .mapSet p
  | .string => fail .assignString p
  | t => if t.isDynamic then emit .indexSet p else fail (.notIndexable t) p

def coerceTarget (v : Taken) (t : Ty) (p : Pos) : Compile Unit :=
  match t with
  | .ptr elem => coerce v elem 0 "assignment" p
  | t => if t.isDynamic then return () else fail (.indirect ("value of type " ++ t.text)) p

def derefAssign (p : Pos) : Compile Unit := do
  let v ← popValue p
  let q ← popValue p
  coerceTarget v (← complete q.ty) p
  emit .derefSet p

end Goblet.Compile
