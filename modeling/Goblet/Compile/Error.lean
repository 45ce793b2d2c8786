import Goblet.Symbol

/-!
# Errors of meaning

What can be wrong with a stream: names without a meaning, types that do not fit, jumps to nowhere. A defect is a
sequence of steps that no source text leads to.
-/

namespace Goblet

/-- What a compile error is about. -/
inductive CompileKind where
  | undefined
  | unresolvedLabel
  | invalid
  /-- A sequence of steps that no source text leads to. -/
  | defect
deriving DecidableEq

/-- Why compiling stops. -/
inductive CompileCause where
  | undefined (name : String)
  | unresolvedLabel (label : String)
  -- defects
  | unterminated (key : String)
  | noMark
  | dropNoRange
  | nextNoRange
  | storeNoTarget
  | strayStep (text : String)
  | underflow
  | noStorage (name : String)
  | notLoadable (key : String)
  | noPath (package : String)
  | noSignature (name : String)
  | emptyDeclaration
  | notBinary (op : Operator)
  | makeNothing
  | noBase
  | endOutside
  -- names and declarations
  | notType (name : String)
  | mapKeyType (ty : Ty)
  | duplicateField (name : String)
  | blankValue
  | capture (name : String)
  | redeclared (name : String)
  | redeclaredType (name : String) (ty : Ty)
  | redeclaredFunc (name : String)
  | missingBody (name : String)
  | unknownPackage (path : String)
  | notConstant (what : String)
  | constantExpr
  | constant (e : ValueError)
  | labelTwice (name : String)
  -- assignments
  | cannotUse (what : String) (want : Ty) (context : String)
  | untypedNil (context : String)
  | assignConst (name : String)
  | assignTo (name : String)
  | assignFields (name : String)
  | assignNoFields (name : String) (ty : Ty)
  | assignString
  -- expressions
  | condition (ty : Ty)
  | undefinedOn (e : Ty.Undefined)
  | unaryOn (op : Operator) (ty : Ty)
  | localAddress
  | notAddressable (ty : Ty)
  | indirect (what : String)
  | notExpression (what : String)
  | conversionCount (ty : Ty)
  | conversion (e : ValueError)
  | indexType (ty : Ty)
  | notIndexable (ty : Ty)
  | notSliceable (ty : Ty)
  | noField (ty : Ty) (name : String)
  | noFields (what name : String)
  -- literals
  | keyedSlice
  | structCount (few : Bool) (ty : Ty)
  | unknownField (name : String) (ty : Ty)
  | repeatedField (name : String)
  | fieldKey
  | literalType (ty : Ty)
  -- calls
  | notCallable (what : String)
  | spreadFixed
  | arity (given want : Nat)
  | builtinArity (few : Bool) (b : Builtin) (given : Nat)
  | builtinSpread (b : Builtin)
  | builtinOperand (ty : Ty) (b : Builtin)
  | appendBase (ty : Ty)
  | appendSpread
  | notMakeable (what : String)
  | makeCount (ty : Ty)
  | makeSize (ty : Ty)
  | operandNotType (what : String)
  | notMap (ty : Ty)
  -- control
  | returnOutside
  | returnCount (given want : Nat)
  | rangeOver (ty : Ty)
  | rangeCount

namespace CompileCause

def kind : CompileCause → CompileKind
  | .undefined _ => .undefined
  | .unresolvedLabel _ => .unresolvedLabel
  | .unterminated _ | .noMark | .dropNoRange | .nextNoRange | .storeNoTarget | .strayStep _ | .underflow
  | .noStorage _ | .notLoadable _ | .noPath _ | .noSignature _ | .emptyDeclaration | .notBinary _ | .makeNothing
  | .noBase | .endOutside => .defect
  | _ => .invalid

def countWord (given want : Nat) : String := if given < want then "not enough" else "too many"

def words : CompileCause → String
  | .undefined name => "undefined: " ++ name
  | .unresolvedLabel label => "label " ++ label ++ " not defined"
  | .unterminated key => "function " ++ key ++ " is not terminated"
  | .noMark => "discard without mark"
  | .dropNoRange => "drop without range iterator"
  | .nextNoRange => "next without range iterator"
  | .storeNoTarget => "store without a target name"
  | .strayStep text => "unexpected token '" ++ text ++ "'"
  | .underflow => "operand stack underflow"
  | .noStorage name => "variable " ++ name ++ " has no storage"
  | .notLoadable key => key ++ " cannot be loaded"
  | .noPath package => "package " ++ package ++ " has no path"
  | .noSignature name => "function " ++ name ++ " has no signature"
  | .emptyDeclaration => "declaration without type or value"
  | .notBinary op => op.text ++ " is not a binary operator"
  | .makeNothing => "make without arguments"
  | .noBase => "field assignment without base"
  | .endOutside => "function end outside function"
  | .notType name => name ++ " is not a type"
  | .mapKeyType ty => "invalid map key type " ++ ty.text
  | .duplicateField name => "duplicate field " ++ name
  | .blankValue => "cannot use _ as value"
  | .capture name => "cannot capture local variable " ++ name ++ " of an enclosing function"
  | .redeclared name => name ++ " redeclared in this block"
  | .redeclaredType name _ => name ++ " redeclared in this block"
  | .redeclaredFunc name => name ++ " redeclared in this block"
  | .missingBody name => "missing function body for " ++ name
  | .unknownPackage path => "package " ++ path ++ " is not in std"
  | .notConstant what => what ++ " is not constant"
  | .constantExpr => "invalid constant expression"
  | .constant .divisionByZero => "invalid operation: division by zero"
  | .constant e => "constant " ++ e.message
  | .labelTwice name => "label " ++ name ++ " already defined"
  | .cannotUse what want context => "cannot use " ++ what ++ " as " ++ want.text ++ " value in " ++ context
  | .untypedNil context => "use of untyped nil in " ++ context
  | .assignConst name => "cannot assign to " ++ name ++ " (neither addressable nor a map index expression)"
  | .assignTo name => "cannot assign to " ++ name
  | .assignFields name => "cannot assign to fields of " ++ name
  | .assignNoFields name ty => name ++ ".x undefined (type " ++ ty.text ++ " has no fields)"
  | .assignString => "cannot assign to string index (strings are immutable)"
  | .condition ty => "non-boolean condition (type " ++ ty.text ++ ")"
  | .undefinedOn e => e.message
  | .unaryOn op ty => "invalid operation: operator " ++ op.text ++ " not defined on value of type " ++ ty.text
  | .localAddress => "cannot take the address of a function-local variable"
  | .notAddressable ty => "cannot take address of value of type " ++ ty.text
  | .indirect what => "invalid operation: cannot indirect " ++ what
  | .notExpression what => what ++ " is not an expression"
  | .conversionCount ty => "conversion to " ++ ty.text ++ " takes exactly one argument"
  | .conversion e => e.message
  | .indexType ty => "invalid argument: index of type " ++ ty.text ++ " must be integer"
  | .notIndexable ty => "invalid operation: cannot index value of type " ++ ty.text
  | .notSliceable ty => "cannot slice value of type " ++ ty.text
  | .noField ty name => "value of type " ++ ty.text ++ " has no field or method " ++ name
  | .noFields what name => what ++ "." ++ name ++ " undefined (" ++ what ++ " has no fields)"
  | .keyedSlice => "keyed slice literals are not supported"
  | .structCount few ty =>
    "too " ++ (if few then "few" else "many") ++ " values in struct literal of type " ++ ty.text
  | .unknownField name ty => "unknown field " ++ name ++ " in struct literal of type " ++ ty.text
  | .repeatedField name => "duplicate field name " ++ name ++ " in struct literal"
  | .fieldKey => "invalid field name in struct literal"
  | .literalType ty => "invalid composite literal type " ++ ty.text
  | .notCallable what => "invalid operation: cannot call non-function " ++ what
  | .spreadFixed => "cannot use ... in call to non-variadic function"
  | .arity given want =>
    countWord given want ++ " arguments in call: have " ++ toString given ++ ", want " ++ toString want
  | .builtinArity few b given =>
    (if few then "not enough" else "too many") ++ " arguments for " ++ b.name ++ " (have " ++ toString given ++ ")"
  | .builtinSpread b => "invalid use of ... with builtin " ++ b.name
  | .builtinOperand ty b => "invalid argument: value of type " ++ ty.text ++ " for built-in " ++ b.name
  | .appendBase ty =>
    "invalid argument: first argument to append must be a slice; have value of type " ++ ty.text
  | .appendSpread => "can only use ... with final argument in append"
  | .notMakeable what => "invalid argument: cannot make " ++ what
  | .makeCount ty => "invalid operation: make(" ++ ty.text ++ ") expects 2 or 3 arguments; found 1"
  | .makeSize ty => "cannot use value of type " ++ ty.text ++ " as size in make"
  | .operandNotType what => what ++ " is not a type"
  | .notMap ty => "invalid argument: value of type " ++ ty.text ++ " is not a map"
  | .returnOutside => "return outside function"
  | .returnCount given want =>
    countWord given want ++ " return values: have " ++ toString given ++ ", want " ++ toString want
  | .rangeOver ty => "cannot range over value of type " ++ ty.text
  | .rangeCount => "range over int permits only one iteration variable"

def hint? : CompileCause → Option String
  | .capture _ => some "function literals may only refer to globals and their own locals"
  | .redeclaredType name ty => some (name ++ " already has type " ++ ty.text)
  | .redeclaredFunc _ => some "functions cannot be redefined once compiled"
  | .missingBody _ => some "declare the function with a body in the same input"
  | .unknownPackage _ => some "only host-registered packages can be imported"
  | .localAddress => some "allocate it on the heap with new(T) or &T\x7b...\x7d"
  | .notAddressable _ => some "only variables and composite literals are addressable here"
  | .keyedSlice => some "list the elements in order"
  | _ => none

end CompileCause

/-- A cause with its place. -/
structure CompileError where
  cause : CompileCause
  pos : Pos

def CompileError.message (e : CompileError) : String :=
  let place := e.pos.text ++ ": "
  match e.cause.kind with
  | .defect => place ++ "internal compiler error: " ++ e.cause.words
  | _ =>
    place ++ e.cause.words ++ (match e.cause.hint? with
      | some h => "\n  hint: " ++ h
      | none => "")

end Goblet
