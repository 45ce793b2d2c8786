import Goblet.Machine.Aggregate

/-!
# Steps

What each instruction does (`Machine.step`), and runs of instructions up to `exit` (`Machine.execute`).
-/

namespace Goblet.Machine

/-! ## Calls -/

def enter (limits : Limits) : Exec Unit := do
  let m ← get
  if limits.callDepth ≤ m.depth then throw (.depthLimit limits.callDepth)
  modify fun m =>
    let mem := (m.mem.push (.int (Int64.ofNat (m.ip + 1)))).push (.int (Int64.ofNat m.fp))
    { m with mem := mem, fp := mem.size, depth := m.depth + 1 }

def spreadLast (args : List Value) : Exec (List Value) := do
  match args.getLast? with
  | some (.slice w) => return args.dropLast ++ (← looking (.slice w) fun h => h.items w)
  | some .nil | none => return args.dropLast
  | some v => throw (.typeError "slice" v.typeName)

def callHost (f : HostFn) (argc results : Nat) (spread : Bool) : Exec Unit := do
  let out := f.sig.results.length
  if out ≠ results then throw (.hostResults f.name out results)
  let args ← popN argc "CALLX"
  let args ← if spread then spreadLast args else pure args
  let arity := f.sig.params.length
  let fits := if f.sig.variadic then arity ≤ args.length + 1 else args.length = arity
  if !fits then throw (.hostArguments f.name args.length arity)
  match ← lookingAround fun h => f.call h args with
  | .error (.message e) => throw (.hostFailed f.name e)
  | .error (.crash c) => throw (.crash c)
  | .ok reply =>
    modify fun m => { m with store := reply.store, printed := m.printed ++ reply.printed }
    if reply.results.length ≠ results then throw (.hostReturned f.name reply.results.length results)
    pushAll reply.results

/-- Calls a function value. Gives the entry of a compiled function. -/
def callValue (s : Setting) (callee : Value) (argc results : Nat) (variadic : Option Nat) (spread : Bool) :
    Exec (Option Nat) := do
  match callee with
  | .func entry =>
    match variadic, spread with
    | some fixed, false =>
      let rest ← popN (argc - fixed) "CALLX"
      push (.slice (← storing fun h => h.newSlice rest.toArray))
    | _, _ => pure ()
    enter s.limits
    return some entry
  | .host name =>
    match s.registry.find? name with
    | some f =>
      callHost f argc results spread
      return none
    | none => throw .nilPointer
  | .nil => throw .nilPointer
  | v => throw (.typeError "func" v.typeName)

def addressOf (n : Int64) : Nat := n.toUInt64.toNat

/-- Ends a call frame and gives the return address. -/
def ret (results params : Nat) : Exec Nat := do
  let values ← popN results "RETURN"
  let m ← get
  if m.fp < m.base + 2 ∨ m.mem.size < m.fp then throw .outsideFunction
  modify fun m => { m with mem := m.mem.shrink m.fp }
  let saved ← popInt "RETURN"
  let back ← popInt "RETURN"
  let _ ← popN params "RETURN"
  pushAll values
  modify fun m => { m with fp := addressOf saved, depth := m.depth - 1 }
  return addressOf back

/-! ## Instructions -/

def immediate (op : BinOp) (name : String) (k : Int64) : Exec Unit := do
  let v ← pop name
  push (← value (v.binary op (.int k)))

/-- The items that `append` adds. -/
def appended (count : Nat) (spread : Bool) : Exec (List Value) := do
  if spread then
    match ← pop "APPEND" with
    | .slice w => looking (.slice w) fun h => h.items w
    | .str s => return (Text.bytes s).map fun b => .int (Int64.ofNat b.toNat)
    | .nil => return []
    | v => throw (.typeError "slice" v.typeName)
  else popN count "APPEND"

def nextItem : Exec (Option (Value × Value)) := do
  let m ← get
  match m.mem.back? with
  | some (.items rest) =>
    match Value.next? (.items rest) with
    | some (item, r) =>
      write (← less m.mem.size 1) r
      return some item
    | none => return none
  | some (.count i n) =>
    match Value.next? (.count i n) with
    | some (item, r) =>
      write (← less m.mem.size 1) r
      return some item
    | none => return none
  | _ => throw .noRange

def setSlot (s : Option Slot) (v : Value) : Exec Unit :=
  match s with
  | some s => do write (← address s) v
  | none => pure ()

/-- Converts the value that lies `depth` below the top. -/
def convertAt (dst : Ty) (depth : Nat) : Exec Unit := do
  let m ← get
  if m.mem.size < m.base + depth + 1 then throw (.underflow "CONVERT")
  let a ← less m.mem.size (depth + 1)
  let v ← cell a
  let (w, h) ← value (← looking v fun h => h.convert v dst)
  modify fun m => { m with store := h }
  write a w

def length (h : Store) : Value → Except Fault Nat
  | .slice w => .ok w.len
  | .str s => .ok (Text.byteLength s)
  | .map m => .ok (h.entries m).length
  | .nil => .ok 0
  | v => .error (.typeError "slice, map or string" v.typeName)

def mapElement (p : Program) (ty : Nat) (m k : Value) : Exec Value := do
  let key ← value k.key
  let found ← match m with
    | .map i => looking m fun h => Entries.get? key (h.entries i)
    | .nil => pure none
    | v => throw (.typeError "map" v.typeName)
  match found with
  | some v => return v
  | none => return (← typeAt p ty).zero

def fieldOf (i : Nat) (v : Value) : Exec Value := do
  let v ← match v with
    | .ref _ | .heap _ | .nil => load v
    | v => pure v
  match v with
  | .struct fs =>
    match fs[i]? with
    | some f => return f
    | none => throw (.typeError "struct" "struct")
  | v => throw (.typeError "struct" v.typeName)

/-- Carries out an instruction. Gives where to go on, if not at the next instruction. -/
def perform (s : Setting) (op : Op) : Exec (Option Nat) := do
  match op with
  | .exit => return none
  | .push v => push v; return none
  | .pop n => let _ ← popN n "POP"; return none
  | .grow n =>
    room ((← get).mem.size + n)
    modify fun m => { m with mem := m.mem ++ Array.replicate n .nil }
    return none
  | .get slot =>
    push (← cell (← address slot))
    return none
  | .set slot =>
    let v ← pop "SET"
    write (← address slot) v
    return none
  | .addr slot => push (.ref (← address slot)); return none
  | .deref => push (← load (← pop "DEREF")); return none
  | .derefSet =>
    let v ← pop "DEREF_SET"
    let p ← pop "DEREF_SET"
    storeAt p v
    return none
  | .new ty => push (← typeAt s.program ty).zero; return none
  | .box =>
    let v ← pop "BOX"
    push (.heap (← storing fun h => h.newCell v))
    return none
  | .binary op =>
    let b ← pop "BINARY"
    let a ← pop "BINARY"
    push (← value (a.binary op b))
    return none
  | .unary op => push (← value ((← pop "UNARY").unary op)); return none
  | .addi k => immediate .add "ADDI" k; return none
  | .subi k => immediate .sub "SUBI" k; return none
  | .loweri k => immediate .lss "LOWERI" k; return none
  | .convert ty depth => convertAt (← typeAt s.program ty) depth; return none
  | .jump rel => return some (← target rel)
  | .jumpTrue rel => if ← popBool "JUMP_TRUE" then return some (← target rel) else return none
  | .jumpFalse rel => if ← popBool "JUMP_FALSE" then return none else return some (← target rel)
  | .jumpSetTrue rel =>
    if ← peekBool "JSET_TRUE" then return some (← target rel)
    else let _ ← pop "JSET_TRUE"; return none
  | .jumpSetFalse rel =>
    if ← peekBool "JSET_FALSE" then let _ ← pop "JSET_FALSE"; return none
    else return some (← target rel)
  | .call rel =>
    let entry ← target rel
    enter s.limits
    return some entry
  | .callX argc results variadic spread => callValue s (← pop "CALLX") argc results variadic spread
  | .ret results params => return some (← ret results params)
  | .missingReturn => throw .noReturn
  | .index =>
    let i ← pop "INDEX"
    let c ← pop "INDEX"
    push (← given (← looking c fun h => element h c i))
    return none
  | .mapIndex ty =>
    let k ← pop "MAP_INDEX"
    let m ← pop "MAP_INDEX"
    push (← mapElement s.program ty m k)
    return none
  | .indexSet | .mapSet =>
    let v ← pop "INDEX_SET"
    let i ← pop "INDEX_SET"
    let c ← pop "INDEX_SET"
    setElement (op matches .mapSet) c i v
    return none
  | .slice low high =>
    let hi ← if high then some <$> popInt "SLICE" else pure none
    let lo ← if low then popInt "SLICE" else pure 0
    let c ← pop "SLICE"
    push (← given (← looking c fun h => slice h c lo hi))
    return none
  | .field i => push (← fieldOf i (← pop "FIELD")); return none
  | .fieldSet path =>
    let v ← pop "FIELD_SET"
    let p ← pop "FIELD_SET"
    storePath v path.length p path
    return none
  | .composite ty len layout => push (← composite (← typeAt s.program ty) len layout); return none
  | .len =>
    let v ← pop "LEN"
    push (.int (Int64.ofNat (← given (← looking v fun h => length h v))))
    return none
  | .cap =>
    match ← pop "CAP" with
    | .slice w => push (.int (Int64.ofNat (← looking (.slice w) fun h => h.cap w)))
    | .nil => push (.int 0)
    | v => throw (.typeError "slice" v.typeName)
    return none
  | .append count spread =>
    let vs ← appended count spread
    match ← pop "APPEND" with
    | .slice w => push (.slice (← lending (.slice w) (storing fun h => h.append w vs)))
    | .nil => push (.slice (← storing fun h => h.newSlice vs.toArray))
    | v => throw (.typeError "slice" v.typeName)
    return none
  | .make ty argc =>
    let sizes ← popN argc "MAKE"
    push (← make (← typeAt s.program ty) sizes)
    return none
  | .delete =>
    let k ← pop "DELETE"
    match ← pop "DELETE" with
    | .map m =>
      lending (.map m) do
        let k ← value k.key
        modify fun s => { s with store := s.store.eraseEntry m k }
    | .nil => pure ()
    | v => throw (.typeError "map" v.typeName)
    return none
  | .panic =>
    let v ← pop "PANIC"
    match ← lookingAround fun h => h.text v with
    | .ok s => throw (.panic s)
    | .error c => throw (.crash c)
  | .range =>
    let v ← pop "RANGE"
    push (← value (← looking v fun h => h.range v))
    return none
  | .next key val rel =>
    match ← nextItem with
    | none => return some (← target rel)
    | some (k, v) =>
      setSlot key k
      setSlot val v
      return none

/-! ## Runs -/

def checkLimits (limits : Limits) : Exec Unit := do
  modify fun m => { m with steps := m.steps + 1 }
  let m ← get
  match limits.steps with
  | some max => if max < m.steps then throw (.stepLimit max)
  | none => pure ()
  let used ← less m.mem.size m.base
  if limits.stack < used then throw (.stackLimit limits.stack)

/-- Carries out the instruction the machine is at. Gives whether the run goes on. -/
def step (s : Setting) : Exec Bool := do
  checkLimits s.limits
  let ip := (← get).ip
  match s.program.code[ip]? with
  | none => throw (.codeRange ip)
  | some ⟨.exit, _⟩ => return false
  | some ⟨op, _⟩ =>
    let next ← perform s op
    modify fun m => { m with ip := next.getD (ip + 1) }
    return true

/-- Carries out instructions up to `exit`, at most as many as the fuel says. Gives whether `exit` was reached. -/
def execute (s : Setting) : (fuel : Nat) → Exec Bool
  | 0 => return false
  | n + 1 => do if ← step s then execute s n else return true

end Goblet.Machine
