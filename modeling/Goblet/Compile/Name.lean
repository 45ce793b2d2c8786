import Goblet.Compile.State

/-!
# Types and names in code

Written types are looked up and become types; variables get a place in memory, and functions and host values a data
slot when they are first loaded.
-/

namespace Goblet.Compile

/-! ## Types -/

/-- The type with what its name means, where only the name was there when it was declared. -/
def completeIn (symbols : SymbolTable) (scope : String) : Ty → Ty
  | .struct name [] =>
    if name.isEmpty then .struct name []
    else
      match symbols.resolve? name scope with
      | some (_, ⟨.type, _, t, _⟩) => t
      | _ => .struct name []
  | .ptr t => .ptr (completeIn symbols scope t)
  | t => t

def complete (t : Ty) : Compile Ty := do return completeIn (← get).symbols (← scope) t

def isKeyType : Ty → Bool
  | .bool | .int | .string => true
  | _ => false

def sliceLast (variadic : Bool) : List Ty → List Ty
  | [] => []
  | [t] => [if variadic then .slice t else t]
  | t :: ts => t :: sliceLast variadic ts

mutual

def resolveTypeIn (symbols : SymbolTable) (scope : String) (p : Pos) : TypeExpr → Except CompileError Ty
  | .name n =>
    match symbols.resolve? n scope with
    | some (_, ⟨.type, _, t, _⟩) => .ok t
    | some _ => .error ⟨.notType n, p⟩
    | none => .error ⟨.undefined n, p⟩
  | .slice e => do return .slice (← resolveTypeIn symbols scope p e)
  | .map k v => do
    let key ← resolveTypeIn symbols scope p k
    if isKeyType key then return .map key (← resolveTypeIn symbols scope p v) else .error ⟨.mapKeyType key, p⟩
  | .ptr e => do return .ptr (← resolveTypeIn symbols scope p e)
  | .func params results variadic => do
    let ps ← resolveParamsIn symbols scope p params
    let rs ← resolveParamsIn symbols scope p results
    return .func (sliceLast variadic ps) rs variadic
  | .struct fields => do return .struct "" (← resolveFieldsIn symbols scope p [] fields)

def resolveParamsIn (symbols : SymbolTable) (scope : String) (p : Pos) :
    List (Option String × TypeExpr) → Except CompileError (List Ty)
  | [] => .ok []
  | (_, e) :: es => do
    let t ← resolveTypeIn symbols scope p e
    return t :: (← resolveParamsIn symbols scope p es)

/-- The fields of a struct; `seen` are the names before. -/
def resolveFieldsIn (symbols : SymbolTable) (scope : String) (p : Pos) :
    (seen : List String) → List (String × TypeExpr) → Except CompileError (List (String × Ty))
  | _, [] => .ok []
  | seen, (n, e) :: es =>
    if seen.contains n then .error ⟨.duplicateField n, p⟩
    else do
      let t ← resolveTypeIn symbols scope p e
      return (n, t) :: (← resolveFieldsIn symbols scope p (n :: seen) es)

end

def resolveType (e : TypeExpr) (p : Pos) : Compile Ty := do
  match resolveTypeIn (← get).symbols (← scope) p e with
  | .ok t => return t
  | .error e => throw e

def resolveSig (sig : Signature) (p : Pos) : Compile FuncType := do
  match ← resolveType (.func sig.params sig.results sig.variadic) p with
  | .func params results variadic => return ⟨params, results, variadic⟩
  | _ => return ⟨[], [], false⟩

/-! ## Storage -/

/-- The place of a variable. The local variables of a function around the current one cannot be reached. -/
def varSlot (key : String) (sym : Symbol) (name : String) (p : Pos) : Compile Slot := do
  match sym.addr with
  | .global i => return .global i
  | .local k =>
    match (← get).funcs with
    | f :: _ => if (f.key ++ "/").toList.isPrefixOf key.toList then return .local k else fail (.capture name) p
    | [] => fail (.capture name) p
  | _ => fail (.noStorage name) p

/-- The data slot of a function or host value, a new one when it is first loaded. -/
def materialize (key : String) (p : Pos) : Compile Nat := do
  let s ← get
  match s.symbols.lookup? key with
  | none => fail (.undefined (shortName key)) p
  | some sym =>
    match sym.addr with
    | .global i => return i
    | .unresolved =>
      let (i, program) := s.program.alloc (sym.value.getD .nil)
      set { s with
        program := program
        symbols := s.symbols.modify key ({ · with addr := .global i }) }
      return i
    | _ => fail (.notLoadable key) p

/-- Storage for a new variable: in the frame of a function, or else a data slot with the zero value. -/
def allocVar (t : Ty) : Compile Address := do
  let s ← get
  match s.funcs with
  | f :: fs =>
    set { s with funcs := { f with locals := f.locals + 1 } :: fs }
    return .local f.locals
  | [] =>
    let (i, program) := s.program.alloc t.zero
    set { s with program := program }
    return .global i

def slotOf (addr : Address) (name : String) (p : Pos) : Compile Slot :=
  match addr.slot? with
  | some slot => return slot
  | none => fail (.noStorage name) p

def retype (key : String) (t : Ty) : Compile Unit :=
  modify fun s => { s with symbols := s.symbols.modify key ({ · with ty := t }) }

/-- The place of a variable declared in the current scope. One that is already there keeps its place, and its type
unless that is dynamic. -/
def declareVar (name : String) (t : Ty) (p : Pos) : Compile Slot := do
  let key := SymbolTable.qualify (← scope) name
  match ← lookup key with
  | some existing =>
    if existing.kind ≠ .var then fail (.redeclared name) p
    else
      let slot ← slotOf existing.addr name p
      if !existing.ty.identical t then fail (.redeclaredType name existing.ty) p
      else
        if existing.ty.isDynamic then retype key t
        return slot
  | none =>
    let addr ← allocVar t
    addSymbol key ⟨.var, addr, t, none⟩
    slotOf addr name p

/-! ## Identifiers -/

/-- An identifier as an operand. `called` says that a call follows, so that a function need not be loaded. -/
def identifier (name : String) (called : Bool) (p : Pos) : Compile Unit := do
  let (key, sym) ← resolve name p
  match sym.kind with
  | .var =>
    let slot ← varSlot key sym name p
    emit (.get slot) p
    pushValue sym.ty
  | .const => constant (sym.value.getD .nil) sym.ty p
  | .type => pushOperand (.type sym.ty)
  | .pkg =>
    match sym.value with
    | some (.str path) => pushOperand (.package path)
    | _ => fail (.noPath name) p
  | .builtin b => pushOperand (.builtin b)
  | .label => fail (.undefined name) p
  | .func =>
    if called then
      match sym.ty with
      | .func params results variadic => pushOperand (.func key ⟨params, results, variadic⟩)
      | _ => fail (.noSignature name) p
    else loadValue key sym
  | .value => loadValue key sym
where
  loadValue (key : String) (sym : Symbol) : Compile Unit := do
    let slot ← materialize key p
    emit (.get (.global slot)) p
    pushValue sym.ty

/-! ## Stores -/

/-- `name := value` -/
def define (name : String) (p : Pos) : Compile Unit := do
  let v ← popValue p
  if name = "_" then emit (.pop 1) p
  else if v.ty = .nil then fail (.untypedNil "assignment") p
  else
    let slot ← declareVar name v.ty p
    emit (.set slot) p

/-- `name = value` -/
def assign (name : String) (p : Pos) : Compile Unit := do
  let v ← popValue p
  if name = "_" then emit (.pop 1) p
  else
    let (key, sym) ← resolve name p
    match sym.kind with
    | .var =>
      coerce v sym.ty 0 "assignment" p
      let slot ← varSlot key sym name p
      emit (.set slot) p
    | .const => fail (.assignConst name) p
    | _ => fail (.assignTo name) p

def declaredType (declared : Option Ty) (init : Bool) (p : Pos) : Compile Ty := do
  if init then
    let v ← popValue p
    match declared with
    | some t =>
      coerce v t 0 "variable declaration" p
      return t
    | none => if v.ty = .nil then fail (.untypedNil "variable declaration") p else return v.ty
  else
    match declared with
    | some t => return t
    | none => fail .emptyDeclaration p

def resolveType? (ty : Option TypeExpr) (p : Pos) : Compile (Option Ty) :=
  match ty with
  | some e => some <$> resolveType e p
  | none => return none

def loadZero (t : Ty) (p : Pos) : Compile Unit := do
  let i ← typeSlot t
  emit (.new i) p

/-- `var name T` or `var name T = value`. Each time it is carried out a variable without a value gets the zero value. -/
def declare (name : String) (ty : Option TypeExpr) (init : Bool) (p : Pos) : Compile Unit := do
  let t ← declaredType (← resolveType? ty p) init p
  if name = "_" then
    if init then emit (.pop 1) p
  else
    let slot ← declareVar name t p
    if !init then loadZero t p
    emit (.set slot) p

end Goblet.Compile
