import Goblet.Compile.Call

/-!
# Code for declarations, functions and loops

Constants are evaluated while compiling. The body of a function stands where it is declared, with a jump over it unless
it stands at the entry of the program, which then moves behind it.
-/

namespace Goblet.Compile

/-! ## Imports and types -/

def imports (r : Registry) (name path : String) (p : Pos) : Compile Unit := do
  if r.hasPackage path then
    addSymbol (SymbolTable.qualify Place.mainScope name) ⟨.pkg, .unresolved, .unknown, some (.str path)⟩
  else fail (.unknownPackage path) p

/-- A struct without a name takes the name it is declared by. -/
def named (name : String) : Ty → Ty
  | .struct n fs => if n.isEmpty then .struct name fs else .struct n fs
  | t => t

/-- Declares a type. While it is read its name already means a struct, so that it can point to itself. -/
def typeDef (name : String) (e : TypeExpr) (p : Pos) : Compile Unit := do
  let key := SymbolTable.qualify (← scope) name
  addSymbol key ⟨.type, .unresolved, .struct name [], none⟩
  let t ← resolveType e p
  addSymbol key ⟨.type, .unresolved, named name t, none⟩

/-! ## Constants -/

/-- What a constant expression has on its stack. -/
inductive ConstItem where
  | value (v : Value) (t : Ty)
  | type (t : Ty)

/-- The operation of a unary operator on constants; none if it is not one. -/
def constUnary? (op : Operator) (v : Value) : Option (Except ValueError Value) :=
  match op with
  | .add => some (.ok v)
  | .sub => some (v.unary .neg)
  | .not => some (v.unary .not)
  | .xor => some (v.unary .bitNot)
  | _ => none

def constBinary (op : Operator) (stack : List ConstItem) (p q : Pos) : Compile (List ConstItem) := do
  match stack with
  | .value b tb :: .value a ta :: stack =>
    match BinOp.ofOperator? op with
    | none => fail (.notConstant op.text) p
    | some bop =>
      match Ty.binaryResult bop ta tb with
      | .error e => fail (.undefinedOn e) q
      | .ok t =>
        match a.binary bop b with
        | .error e => fail (.constant e) q
        | .ok v => return .value v t :: stack
  | _ => fail (.notConstant "expression") p

def constIdent (name : String) (iota : Int64) (p q : Pos) : Compile ConstItem := do
  if name = "iota" then return .value (.int iota) .int
  else
    match ← seek name with
    | some (_, ⟨.const, _, t, v⟩) => return .value (v.getD .nil) t
    | some (_, ⟨.type, _, t, _⟩) => return .type t
    | some _ => fail (.notConstant name) p
    | none => fail (.undefined name) q

def constUnary (op : Operator) (stack : List ConstItem) (p q : Pos) : Compile (List ConstItem) := do
  match stack with
  | .value v t :: stack =>
    match constUnary? op v with
    | none => fail (.notConstant op.text) p
    | some (.error e) => fail (.constant e) q
    | some (.ok v) => return .value v t :: stack
  | _ => fail (.notConstant "expression") p

def constConvert (stack : List ConstItem) (p q : Pos) : Compile (List ConstItem) := do
  match stack with
  | .type t :: .value v _ :: stack => return .value (← convertConstant v t q) t :: stack
  | _ => fail (.notConstant "call") p

def constStep (iota : Int64) (p : Pos) (stack : List ConstItem) (s : Step) : Compile (List ConstItem) := do
  match s.val with
  | .atom (.int n) => return .value (.int n) .int :: stack
  | .atom (.float x) => return .value (.float x) .float :: stack
  | .atom (.str t) => return .value (.str t) .string :: stack
  | .atom (.ident name) => return (← constIdent name iota p s.pos) :: stack
  | .typeRef e => return .type (← resolveType e s.pos) :: stack
  | .binary op => constBinary op stack p s.pos
  | .unary op => constUnary op stack p s.pos
  | .call 1 false => constConvert stack p s.pos
  | act => fail (.notConstant act.text) p

/-- Evaluates the steps of a constant expression. Errors about the whole of it are placed at `p`. -/
def evalConst (iota : Int64) (p : Pos) : (stack : List ConstItem) → List Step → Compile (Value × Ty)
  | [.value v t], [] => return (v, t)
  | _, [] => fail .constantExpr p
  | stack, s :: steps => do evalConst iota p (← constStep iota p stack s) steps

def constValue (ty : Option TypeExpr) (expr : List Step) (iota : Int64) (p : Pos) : Compile (Value × Ty) := do
  let (v, vt) ← evalConst iota p [] expr
  match ty with
  | none => return (v, vt)
  | some e =>
    let t ← resolveType e p
    if t.accepts vt then return (← convertConstant v t p, t)
    else fail (.cannotUse ("constant of type " ++ vt.text) t "constant declaration") p

def allowsConst : Option Symbol → Bool
  | some ⟨.var, _, _, _⟩ | some ⟨.func, _, _, _⟩ | some ⟨.type, _, _, _⟩ => false
  | _ => true

def constDecl (name : String) (ty : Option TypeExpr) (expr : List Step) (iota : Int64) (p : Pos) :
    Compile Unit := do
  let (v, t) ← constValue ty expr iota p
  if name = "_" then return ()
  else
    let key := SymbolTable.qualify (← scope) name
    if allowsConst (← lookup key) then addSymbol key ⟨.const, .unresolved, t, some v⟩
    else fail (.redeclared name) p

/-! ## Functions -/

def funcHeader (key : String) (sig : Signature) (p : Pos) : Compile Unit := do
  let f ← resolveSig sig p
  match ← lookup key with
  | some ⟨.func, _, _, none⟩ | none => addSymbol key ⟨.func, .unresolved, f.ty, none⟩
  | some _ => fail (.redeclaredFunc (shortName key)) p

/-- The data slot for a function that begins at an instruction: the one it was loaded from before, or a new one. -/
def funcSlot (key : String) (entry : Nat) : Compile Nat := do
  let s ← get
  match s.symbols.lookup? key with
  | some ⟨_, .global i, _, _⟩ =>
    set { s with program.data := s.program.data.setIfInBounds i (.func entry) }
    return i
  | _ =>
    let (i, program) := s.program.alloc (.func entry)
    set { s with program := program }
    return i

/-- Makes the parameters known, the last one first. They lie below the return address and the saved frame pointer, so
the last one has offset -3. -/
def addParams (key : String) : (offset : Int) → List (Option String × Ty) → Compile Unit
  | _, [] => return ()
  | offset, (name, t) :: rest => do
    addParams key (offset - 1) rest
    match name with
    | some n => if n ≠ "_" then addSymbol (SymbolTable.qualify key n) ⟨.var, .local offset, t, none⟩
    | none => pure ()

def zeroSlot (addr : Address) (t : Ty) (p : Pos) : Compile Unit := do
  match addr.slot? with
  | some slot =>
    loadZero t p
    emit (.set slot) p
  | none => return ()

/-- Makes named results known; they start at their zero values. -/
def addResults (key : String) (p : Pos) : List (Option String × Ty) → Compile Unit
  | [] => return ()
  | (none, _) :: rest => addResults key p rest
  | (some n, t) :: rest => do
    let addr ← allocVar t
    if n ≠ "_" then addSymbol (SymbolTable.qualify key n) ⟨.var, addr, t, none⟩
    zeroSlot addr t p
    addResults key p rest

/-- The jump over the body of a function, unless it stands at the entry. -/
def skipBody (atEntry : Bool) (p : Pos) : Compile (Option Nat) := do
  if atEntry then return none else return some (← emitSite (.jump 0) p)

def funcBegin (key : String) (sig : Signature) (p : Pos) : Compile Unit := do
  let f ← resolveSig sig p
  let existing ← lookup key
  if (existing.bind (·.value)).isSome then fail (.redeclared (shortName key)) p
  else
    let s ← get
    let skip ← skipBody (s.funcs.isEmpty && s.program.code.size = s.program.entry) p
    let entry ← codeSize
    let slot ← funcSlot key entry
    addSymbol key ⟨.func, .global slot, f.ty, some (.func entry)⟩
    addParams key (-3) ((sig.params.map (·.1)).zip f.params).reverse
    let grow ← emitSite (.grow 0) p
    modify fun s => { s with
      funcs := ⟨key, f, 0, grow, skip, s.stack.size, s.marks.length⟩ :: s.funcs
      scopes := key :: s.scopes }
    addResults key p ((sig.results.map (·.1)).zip f.results)

/-- Lets the code around a body go on behind it: the jump over the body leads there, or else the entry is there. -/
def skipTo (skip : Option Nat) (target : Nat) : Compile Unit :=
  match skip with
  | some site => patch site target
  | none => modify fun s => { s with program.entry := target }

def funcEnd (p : Pos) : Compile Unit := do
  let s ← get
  match s.funcs with
  | [] => fail .endOutside p
  | f :: fs =>
    emit (if f.sig.results.isEmpty then .ret 0 f.sig.params.length else .missingReturn) p
    replaceOp f.growSite (.grow f.locals)
    let size ← codeSize
    skipTo f.skipSite size
    modify fun s => { s with
      funcs := fs
      stack := (s.stack.truncate f.stackBase).forget
      marks := s.marks.drop (s.marks.length - f.marksBase)
      scopes := s.scopes.drop 1
      lastLabel := some size }

/-- Checks the values of a `return`. -/
def coerceResults (p : Pos) : List Ty → List Taken → Compile Unit
  | t :: ts, v :: vs => do
    coerce v t vs.length "return statement" p
    coerceResults p ts vs
  | _, _ => return ()

/-- `return` -/
def ret (n : Nat) (p : Pos) : Compile Unit := do
  match (← get).funcs with
  | [] => fail .returnOutside p
  | f :: _ =>
    if n ≠ f.sig.results.length then fail (.returnCount n f.sig.results.length) p
    else
      let vs ← popValues n p
      coerceResults p f.sig.results vs
      emit (.ret n f.sig.params.length) p

/-! ## Labels and loops -/

def closes (label : String) : List OpenFunc → Bool
  | f :: _ => label == f.key ++ "_end"
  | [] => false

def label (name : String) (p : Pos) : Compile Unit := do
  let s ← get
  if closes name s.funcs then funcEnd p
  else if s.labels.contains name then fail (.labelTwice (shortName name)) p
  else
    let i := s.program.code.size
    set { s with
      labels := name :: s.labels
      symbols := s.symbols.addLabel name i
      lastLabel := some i
      stack := s.stack.forget }

def rangeTypes? : Ty → Option (Ty × Ty)
  | .slice e => some (.int, e)
  | .map k v => some (k, v)
  | .string => some (.int, .int)
  | .int => some (.int, .nil)
  | t => if t.isDynamic then some (.unknown, .unknown) else none

def range (p : Pos) : Compile Unit := do
  let t ← complete (← popValue p).ty
  match rangeTypes? t with
  | some (k, v) =>
    emit .range p
    pushOperand (.iter k v)
  | none => fail (.rangeOver t) p

def rangeVar (name : String) (t : Ty) (define : Bool) (p : Pos) : Compile Slot := do
  if define then declareVar name t p
  else
    let (key, sym) ← resolve name p
    if sym.kind ≠ .var then fail (.assignTo name) p
    else if !sym.ty.accepts t || sym.ty.needsFloat t then
      fail (.cannotUse ("value of type " ++ t.text) sym.ty "range") p
    else varSlot key sym name p

def rangeVar? (name : Option String) (t : Ty) (define : Bool) (p : Pos) : Compile (Option Slot) :=
  match name with
  | some n => some <$> rangeVar n t define p
  | none => pure none

def next (label : String) (key value : Option String) (define : Bool) (p : Pos) : Compile Unit := do
  match (← get).stack.top? with
  | some (.iter kt vt) =>
    if value.isSome ∧ vt = .nil then fail .rangeCount p
    else
      let k ← rangeVar? key kt define p
      let v ← rangeVar? value vt define p
      jump (.next k v 0) label p
  | _ => fail .nextNoRange p

def dropRange (p : Pos) : Compile Unit := do
  let s ← get
  match s.stack.pop? with
  | some (.iter _ _, stack) =>
    set { s with stack := stack }
    emit (.pop 1) p
  | _ => fail .dropNoRange p

def discard (p : Pos) : Compile Unit := do
  let s ← get
  match s.marks with
  | [] => fail .noMark p
  | height :: marks =>
    let slots := s.stack.slotsAbove height
    set { s with marks := marks, stack := s.stack.truncate height }
    if 0 < slots then emit (.pop slots) p

end Goblet.Compile
