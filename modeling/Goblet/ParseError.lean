import Goblet.Token

/-!
# Errors of form

What can be wrong with a sequence of tokens: a type, an expression or a statement that is not one.
-/

namespace Goblet

/-- Why a sequence of tokens is refused. -/
inductive ParseCause where
  -- types
  | typeExpected
  | typeFound (found : String)
  | afterType
  | fixedArray
  | mapBracket
  | funcParen
  | structBrace
  | embeddedField
  | variadicResult
  | spreadParam
  | paramType
  | mixedParams
  -- expressions
  | exprExpected
  | operandExpected
  | strayOperator (op : Operator)
  | strayInExpr (found : String)
  | statementOperator (op : Operator)
  | fieldName
  | spreadArg
  | mixedElements
  | elementType
  | elementMissing
  -- statements
  | labeledJump
  | notInLoop (k : Keyword)
  | gotoLabel
  | strayKeyword (k : Keyword)
  | bodyExpected
  | malformedHeader (k : Keyword)
  | missingCondition
  | afterElse
  | declareInPost
  | beforeRange
  | rangeNames
  | rangeCount
  | defaults
  | caseColon
  | caseMissing
  | defaultColon
  | outsideCase
  | returnOutside
  | afterStep
  | assignOperands
  | defineNonName
  | multipleTargets
  | compoundOperands (op : Operator)
  | targetMissing
  | notAssignable
  | countMismatch (names values : Nat)
  -- declarations
  | method
  | funcName
  | nestedFunc
  | funcParams
  | funcBody (name : String)
  | varEmpty
  | declName
  | constType
  | constInit
  | constCount (names values : Nat)
  | typeName
  | nestedImport
  | malformedImport
  /-- An `if` header with nothing before its semicolon. There is no answer to it: whoever asked is stopped. -/
  | emptyInit
  /-- More groups inside each other than were counted. -/
  | tooDeep
deriving DecidableEq

namespace ParseCause

def message : ParseCause → String
  | .typeExpected => "expected type"
  | .typeFound found => "expected type, found '" ++ found ++ "'"
  | .afterType => "unexpected token after type"
  | .fixedArray => "fixed-length arrays are not supported"
  | .mapBracket => "expected '[' after map"
  | .funcParen => "expected '(' after func"
  | .structBrace => "expected '\x7b' after struct"
  | .embeddedField => "embedded fields are not supported"
  | .variadicResult => "results cannot be variadic"
  | .spreadParam => "can only use ... with final parameter"
  | .paramType => "missing parameter type"
  | .mixedParams => "mixed named and unnamed parameters"
  | .exprExpected => "expected expression"
  | .operandExpected => "expected operand at end of expression"
  | .strayOperator op => "unexpected operator '" ++ op.text ++ "'"
  | .strayInExpr found => "unexpected '" ++ found ++ "' in expression"
  | .statementOperator op => "operator '" ++ op.text ++ "' is not allowed in an expression"
  | .fieldName => "expected field name after '.'"
  | .spreadArg => "can only use ... with final argument"
  | .mixedElements => "mixture of field:value and value elements in composite literal"
  | .elementType => "missing type in composite literal"
  | .elementMissing => "missing element in composite literal"
  | .labeledJump => "labeled break/continue is not supported"
  | .notInLoop k => k.text ++ " is not in a loop"
  | .gotoLabel => "expected label name after goto"
  | .strayKeyword k => "unexpected keyword '" ++ k.text ++ "' at start of statement"
  | .bodyExpected => "expected '\x7b' to open the body"
  | .malformedHeader k => "malformed " ++ k.text ++ " header"
  | .missingCondition => "missing condition in if statement"
  | .afterElse => "expected 'if' or '\x7b' after else"
  | .declareInPost => "cannot declare in post statement of for loop"
  | .beforeRange => "expected := or = before range"
  | .rangeNames => "range variables must be identifiers"
  | .rangeCount => "range permits at most two iteration variables"
  | .defaults => "multiple defaults in switch"
  | .caseColon => "expected ':' after case"
  | .caseMissing => "missing case expression"
  | .defaultColon => "expected ':' after default"
  | .outsideCase => "statement outside of case clause"
  | .returnOutside => "return outside function"
  | .afterStep => "unexpected token after ++/--"
  | .assignOperands => "expected operands around assignment"
  | .defineNonName => "non-name on left side of :="
  | .multipleTargets => "multiple assignment is only supported for plain variables"
  | .compoundOperands op => op.text ++ " takes exactly one operand on each side"
  | .targetMissing => "missing assignment target"
  | .notAssignable => "cannot assign to this expression"
  | .countMismatch names values =>
    "assignment mismatch: " ++ toString names ++ " variables but " ++ toString values ++ " values"
  | .method => "methods are not supported"
  | .funcName => "expected function name"
  | .nestedFunc => "function declarations are only allowed at top level"
  | .funcParams => "expected '(' after function name"
  | .funcBody name => "missing body for function '" ++ name ++ "'"
  | .varEmpty => "missing type or initializer in var declaration"
  | .declName => "expected identifier in declaration"
  | .constType => "const declaration with type needs a value"
  | .constInit => "missing init expr for const declaration"
  | .constCount names values => toString names ++ " constants but " ++ toString values ++ " values"
  | .typeName => "expected type name"
  | .nestedImport => "imports must be at top level"
  | .malformedImport => "malformed import"
  | .emptyInit => "nothing before the semicolon of an if header"
  | .tooDeep => "groups are nested too deeply"

end ParseCause

/-- A cause with its place. -/
structure ParseError where
  cause : ParseCause
  pos : Pos
deriving DecidableEq

def ParseError.message (e : ParseError) : String := e.pos.text ++ ": " ++ e.cause.message

def Token.posOr (fallback : Pos) : List Token → Pos
  | t :: _ => t.pos
  | [] => fallback

end Goblet
