import Goblet.Compile.Declaration

/-!
# Code for a chunk

The steps of a chunk are compiled in order, after the declarations at its head: first imports, then types, then
constants, then functions. In the end every open jump gets its distance.
-/

namespace Goblet.Compile

/-- One step, except for a store into a name. `called` says that a call follows. -/
def step (r : Registry) (called : Bool) (s : Step) : Compile Unit := do
  let p := s.pos
  match s.val with
  | .atom (.int n) => constant (.int n) .int p
  | .atom (.float x) => constant (.float x) .float p
  | .atom (.str t) => constant (.str t) .string p
  | .atom (.ident name) => identifier name called p
  | .binary op => binary op p
  | .unary op => unary op p
  | .call argc spread => call argc spread p
  | .index => index p
  | .slice low high => slice low high p
  | .field name => field r name p
  | .composite ty len keys => composite ty len keys p
  | .typeRef e => do pushOperand (.type (← resolveType e p))
  | .declare name ty init => declare name ty init p
  | .place name => place name p
  | .indexAssign => indexAssign p
  | .fieldAssign path => fieldAssign path p
  | .derefAssign => derefAssign p
  | .constant name ty expr iota => constDecl name ty expr iota p
  | .typeDef name e => typeDef name e p
  | .imports name path => imports r name path p
  | .header name sig => funcHeader name sig p
  | .body name sig => funcBegin name sig p
  | .ret n => ret n p
  | .label name => label name p
  | .goto name => jump (.jump 0) name p
  | .jumpFalse name => do popCondition p; jump (.jumpFalse 0) name p
  | .jumpTrue name => do popCondition p; jump (.jumpTrue 0) name p
  | .jumpSetFalse name => do popCondition p; jump (.jumpSetFalse 0) name p
  | .jumpSetTrue name => do popCondition p; jump (.jumpSetTrue 0) name p
  | .range => range p
  | .next name key value define => next name key value define p
  | .enter scope => modify fun s => { s with scopes := scope :: s.scopes }
  | .leave => modify fun s => { s with scopes := s.scopes.drop 1 }
  | .mark => modify fun s => { s with marks := s.stack.size :: s.marks }
  | .discard => discard p
  | .drop => dropRange p
  | .define | .assign => fail .storeNoTarget p
  | act => fail (.strayStep act.text) p

def beginsWithCall : List Step → Bool
  | ⟨.call _ _, _⟩ :: _ => true
  | _ => false

/-- Steps in order. A name before a store is the target of the store. -/
def steps (r : Registry) : List Step → Compile Unit
  | [] => return ()
  | ⟨.atom (.ident name), p⟩ :: ⟨.define, _⟩ :: rest => do
    define name p
    steps r rest
  | ⟨.atom (.ident name), p⟩ :: ⟨.assign, _⟩ :: rest => do
    assign name p
    steps r rest
  | s :: rest => do
    step r (beginsWithCall rest) s
    steps r rest

/-! ## Declarations at the head -/

/-- In which turn a declaration at the head is compiled; none for any other step. -/
def turn? : Act → Option Nat
  | .imports .. => some 0
  | .typeDef .. => some 1
  | .constant .. => some 2
  | .header .. => some 3
  | _ => none

def ordered (decls : List Step) : List Step :=
  [0, 1, 2, 3].flatMap fun n => decls.filter fun s => turn? s.val == some n

/-! ## The end -/

def destination (j : OpenJump) : Compile Nat := do
  match j.target with
  | .label name =>
    match ← labelAt? name with
    | some i => return i
    | none => fail (.unresolvedLabel (shortName name)) j.pos
  | .func key =>
    match ← entryOf? key with
    | some i => return i
    | none => fail (.missingBody (shortName key)) j.pos

def closeJumps : List OpenJump → Compile Unit
  | [] => return ()
  | j :: js => do
    patch j.site (← destination j)
    closeJumps js

def finish : Compile Unit := do
  let s ← get
  match s.funcs with
  | f :: _ => fail (.unterminated f.key) .none
  | [] =>
    set { s with jumps := [] }
    closeJumps s.jumps

def chunk (r : Registry) (stream : List Step) : Compile Unit := do
  let decls := stream.takeWhile fun s => (turn? s.val).isSome
  steps r (ordered decls)
  steps r (stream.drop decls.length)
  finish

end Goblet.Compile

namespace Goblet

/-- What compiling adds to. -/
structure Compiled where
  symbols : SymbolTable
  program : Program
  store : Store

namespace Compiled

/-- Compiles a stream onto what there is. What was added before an error is there too. -/
def attempt (r : Registry) (c : Compiled) (stream : List Step) : Except CompileError Unit × Compiled :=
  match Compile.chunk r stream (Compile.start c.symbols c.program c.store) with
  | .ok () s => (.ok (), ⟨s.symbols, s.program, s.store⟩)
  | .error e s => (.error e, ⟨s.symbols, s.program, s.store⟩)

def add (r : Registry) (c : Compiled) (stream : List Step) : Except CompileError Compiled :=
  match c.attempt r stream with
  | (.ok (), d) => .ok d
  | (.error e, _) => .error e

end Compiled

end Goblet
