import Goblet.Token
import Goblet.Decimal.Reading

/-!
# Reading tokens

A source text is read one character at a time: `Scanner.feed` takes a scanner over a character and `Scanner.finish`
closes it at the end of the text, so `Token.scan` is a fold over the characters. The scanner holds the lexeme it is
in the middle of (`Mode`), the tokens of the innermost open group and the groups around it.

An error that is found while feeding stands whatever follows; an error of `finish` that is flagged incomplete only
says that the text ended too early.
-/

namespace Goblet

/-! ## Errors -/

/-- What is wrong with a source text as a sequence of tokens. -/
inductive LexCause where
  | commentOpen
  | unknownEscape (c : Char)
  | escapeOpen
  | lineInString
  | stringOpen
  | rawStringOpen
  | runeEmpty
  | runeLong
  | hexEmpty
  | hexRange (digits : String)
  | floatForm (digits : String)
  | intRange (digits : String)
  | groupOpen (d : Delim)
  | strayClosing (c : Char)
  | strayChar (c : Char)
deriving DecidableEq

namespace LexCause

def message : LexCause → String
  | .commentOpen => "comment not terminated"
  | .unknownEscape c => "unknown escape sequence: \\" ++ c.toString
  | .escapeOpen => "unexpected EOF in escape sequence"
  | .lineInString => "unterminated string (newline before closing quote)"
  | .stringOpen => "unterminated string literal"
  | .rawStringOpen => "unterminated raw string literal"
  | .runeEmpty => "empty or unterminated rune literal"
  | .runeLong => "rune literal must hold one character"
  | .hexEmpty => "expected hex digits after 0x"
  | .hexRange digits => "invalid hex number: 0x" ++ digits
  | .floatForm digits => "invalid float: " ++ digits
  | .intRange digits => "invalid integer: " ++ digits
  | .groupOpen d => "block not terminated: missing '" ++ d.closing.toString ++ "'"
  | .strayClosing c => "unexpected '" ++ c.toString ++ "'"
  | .strayChar c => "unexpected character: '" ++ c.toString ++ "'"

def incomplete : LexCause → Bool
  | .commentOpen | .escapeOpen | .stringOpen | .rawStringOpen | .groupOpen _ => true
  | _ => false

end LexCause

/-- An error with its place. -/
structure LexError where
  cause : LexCause
  pos : Pos
deriving DecidableEq

namespace LexError

def message (e : LexError) : String := e.pos.text ++ ": " ++ e.cause.message

/-- The text ended inside a group, a comment or a string. -/
def incomplete (e : LexError) : Bool := e.cause.incomplete

end LexError

/-! ## The scanner -/

/-- The lexeme a scanner is in the middle of; collected characters stand last first. -/
inductive Mode where
  | idle
  | word (cs : List Char)
  /-- A zero that may still begin a hexadecimal number. -/
  | zero
  /-- A decimal number. After an exponent mark a sign may follow. -/
  | number (cs : List Char) (isFloat afterMark : Bool)
  | hex (cs : List Char)
  | str (cs : List Char)
  | strEscape (cs : List Char)
  | raw (cs : List Char)
  | rune
  | runeEscape
  | runeClose (c : Char)
  /-- A character that may be an operator by itself or begin a longer one. -/
  | op (c : Char)
  | dot
  | dots
  | lineComment
  /-- A block comment: whether it spans a line end, and whether the last character was a star. -/
  | blockComment (newline star : Bool)
deriving DecidableEq

/-- A group that is still open, with the tokens before it in the group around it, last first. -/
structure OpenGroup where
  delim : Delim
  pos : Pos
  before : List Token

/-- A scanner in the middle of a text. -/
structure Scanner where
  /-- The place of the next character. -/
  pos : Pos
  mode : Mode
  /-- The place where the current lexeme began. -/
  start : Pos
  /-- The tokens of the innermost open group, last first. -/
  tokens : List Token
  /-- The open groups, innermost first. -/
  groups : List OpenGroup

namespace Scanner

def initial : Scanner := ⟨.first, .idle, .first, [], []⟩

/-- Adds a token that began at `p`. -/
def emit (s : Scanner) (a : Atom) (p : Pos) : Scanner := { s with tokens := .atom a p :: s.tokens }

def close (s : Scanner) (a : Atom) : Scanner := { s.emit a s.start with mode := .idle }

def begin (s : Scanner) (m : Mode) : Scanner := { s with mode := m, start := s.pos }

/-- A semicolon at `p` if the last token ends a statement. -/
def semicolon (s : Scanner) (p : Pos) : Scanner :=
  match s.tokens with
  | t :: _ => if t.endsStatement then s.emit .semicolon p else s
  | [] => s

def openGroup (s : Scanner) (d : Delim) : Scanner :=
  { s with tokens := [], groups := ⟨d, s.pos, s.tokens⟩ :: s.groups }

/-- Closes the innermost group at a closing bracket. A brace also ends a statement. -/
def closeGroup (s : Scanner) (c : Char) : Except LexError Scanner :=
  match s.groups with
  | g :: gs =>
    if g.delim.closing = c then
      let s := if g.delim = .brace then s.semicolon s.pos else s
      .ok { s with tokens := .group g.delim s.tokens.reverse g.pos :: g.before, groups := gs }
    else .error ⟨.strayClosing c, s.pos⟩
  | [] => .error ⟨.strayClosing c, s.pos⟩

def unescape? : Char → Option Char
  | 'n' => some '\n'
  | 't' => some '\t'
  | 'r' => some '\r'
  | '\\' => some '\\'
  | '"' => some '"'
  | '\'' => some '\''
  | '0' => some '\x00'
  | _ => none

def single? : Char → Option Atom
  | '+' => some (.op .add)
  | '-' => some (.op .sub)
  | '*' => some (.op .mul)
  | '/' => some (.op .quo)
  | '%' => some (.op .rem)
  | '&' => some (.op .and)
  | '|' => some (.op .or)
  | '^' => some (.op .xor)
  | '!' => some (.op .not)
  | '=' => some (.op .assign)
  | '<' => some (.op .lss)
  | '>' => some (.op .gtr)
  | ':' => some .colon
  | ',' => some .comma
  | ';' => some .semicolon
  | _ => none

def double? : Char → Char → Option Operator
  | '&', '&' => some .land
  | '|', '|' => some .lor
  | '<', '<' => some .shl
  | '>', '>' => some .shr
  | '=', '=' => some .eql
  | '!', '=' => some .neq
  | '<', '=' => some .leq
  | '>', '=' => some .geq
  | ':', '=' => some .define
  | '+', '=' => some .addAssign
  | '-', '=' => some .subAssign
  | '*', '=' => some .mulAssign
  | '/', '=' => some .quoAssign
  | '%', '=' => some .remAssign
  | '+', '+' => some .inc
  | '-', '-' => some .dec
  | _, _ => none

def wordAtom (cs : List Char) : Atom :=
  let name := String.ofList cs.reverse
  match Keyword.ofText? name with
  | some k => .keyword k
  | none => .ident name

def numberAtom (cs : List Char) (isFloat : Bool) : Except LexCause Atom :=
  let digits := cs.reverse
  if isFloat then
    match Decimal.floatOfLiteral? digits with
    | some x => .ok (.float (.ofFloat x))
    | none => .error (.floatForm (String.ofList digits))
  else
    match Decimal.int64OfDigits? 10 digits with
    | some n => .ok (.int n)
    | none => .error (.intRange (String.ofList digits))

def hexAtom (cs : List Char) : Except LexCause Atom :=
  match cs with
  | [] => .error .hexEmpty
  | cs =>
    match Decimal.int64OfDigits? 16 cs.reverse with
    | some n => .ok (.int n)
    | none => .error (.hexRange (String.ofList cs.reverse))

def closeWith (s : Scanner) : Except LexCause Atom → Except LexError Scanner
  | .ok a => .ok (s.close a)
  | .error cause => .error ⟨cause, s.start⟩

/-- Ends a lexeme that the next character, or the end of the text, does not continue. -/
def settle (s : Scanner) : Except LexError Scanner :=
  match s.mode with
  | .word cs => .ok (s.close (wordAtom cs))
  | .zero => s.closeWith (numberAtom ['0'] false)
  | .number cs isFloat _ => s.closeWith (numberAtom cs isFloat)
  | .hex cs => s.closeWith (hexAtom cs)
  | .op c =>
    match single? c with
    | some a => .ok (s.close a)
    | none => .error ⟨.strayChar c, s.start⟩
  | .dot => .ok (s.close .dot)
  | .dots => .ok { (s.emit .dot s.start).emit .dot ⟨s.start.line, s.start.col + 1⟩ with mode := .idle }
  | _ => .ok { s with mode := .idle }

def fresh (s : Scanner) (c : Char) : Except LexError Scanner :=
  match c with
  | ' ' | '\t' | '\r' => .ok s
  | '\n' => .ok (s.semicolon s.pos)
  | '(' => .ok (s.openGroup .paren)
  | '[' => .ok (s.openGroup .bracket)
  | '\x7b' => .ok (s.openGroup .brace)
  | ')' | ']' | '\x7d' => s.closeGroup c
  | '"' => .ok (s.begin (.str []))
  | '\x60' => .ok (s.begin (.raw []))
  | '\'' => .ok (s.begin .rune)
  | '0' => .ok (s.begin .zero)
  | '.' => .ok (s.begin .dot)
  | '^' => .ok (s.emit (.op .xor) s.pos)
  | ',' => .ok (s.emit .comma s.pos)
  | ';' => .ok (s.emit .semicolon s.pos)
  | c =>
    if c.isDigit then .ok (s.begin (.number [c] false false))
    else if CharClass.isLetter c || c == '_' then .ok (s.begin (.word [c]))
    else if (single? c).isSome then .ok (s.begin (.op c))
    else .error ⟨.strayChar c, s.pos⟩

/-- A character after a lexeme that it does not continue. -/
def reread (s : Scanner) (c : Char) : Except LexError Scanner :=
  s.settle >>= fun s => s.fresh c

def inNumber (s : Scanner) (cs : List Char) (isFloat afterMark : Bool) (c : Char) : Except LexError Scanner :=
  if afterMark && (c == '+' || c == '-') then .ok { s with mode := .number (c :: cs) isFloat false }
  else if c.isDigit then .ok { s with mode := .number (c :: cs) isFloat false }
  else if c == '_' then .ok { s with mode := .number cs isFloat false }
  else if c == '.' && !isFloat then .ok { s with mode := .number ('.' :: cs) true false }
  else if c == 'e' || c == 'E' then .ok { s with mode := .number ('e' :: cs) true true }
  else s.reread c

def take (s : Scanner) (c : Char) : Except LexError Scanner :=
  match s.mode with
  | .idle => s.fresh c
  | .word cs =>
    if CharClass.isLetterOrNumeral c || c == '_' then .ok { s with mode := .word (c :: cs) } else s.reread c
  | .zero =>
    if c == 'x' || c == 'X' then .ok { s with mode := .hex [] } else s.inNumber ['0'] false false c
  | .number cs isFloat afterMark => s.inNumber cs isFloat afterMark c
  | .hex cs =>
    if (Decimal.digitValue? c).isSome then .ok { s with mode := .hex (c :: cs) }
    else if c == '_' then .ok s
    else s.reread c
  | .str cs =>
    match c with
    | '"' => .ok (s.close (.str (String.ofList cs.reverse)))
    | '\\' => .ok { s with mode := .strEscape cs }
    | '\n' => .error ⟨.lineInString, s.start⟩
    | c => .ok { s with mode := .str (c :: cs) }
  | .strEscape cs =>
    match unescape? c with
    | some e => .ok { s with mode := .str (e :: cs) }
    | none => .error ⟨.unknownEscape c, s.pos⟩
  | .raw cs =>
    match c with
    | '\x60' => .ok (s.close (.str (String.ofList cs.reverse)))
    | '\r' => .ok s
    | c => .ok { s with mode := .raw (c :: cs) }
  | .rune =>
    match c with
    | '\\' => .ok { s with mode := .runeEscape }
    | '\'' | '\n' => .error ⟨.runeEmpty, s.start⟩
    | c => .ok { s with mode := .runeClose c }
  | .runeEscape =>
    match unescape? c with
    | some e => .ok { s with mode := .runeClose e }
    | none => .error ⟨.unknownEscape c, s.pos⟩
  | .runeClose r => if c == '\'' then .ok (s.close (.int (Int64.ofNat r.toNat))) else .error ⟨.runeLong, s.start⟩
  | .op o =>
    if o == '/' && c == '/' then .ok { s with mode := .lineComment }
    else if o == '/' && c == '*' then .ok { s with mode := .blockComment false false }
    else
      match double? o c with
      | some op => .ok (s.close (.op op))
      | none => s.reread c
  | .dot =>
    if c == '.' then .ok { s with mode := .dots }
    else if c.isDigit then .ok { s with mode := .number [c, '.'] true false }
    else s.reread c
  | .dots =>
    if c == '.' then .ok (s.close .ellipsis)
    else if c.isDigit then
      .ok { s.emit .dot s.start with mode := .number [c, '.'] true false, start := ⟨s.start.line, s.start.col + 1⟩ }
    else s.reread c
  | .lineComment => if c == '\n' then { s with mode := .idle }.fresh c else .ok s
  | .blockComment newline star =>
    if star && c == '/' then
      .ok (if newline then { s with mode := .idle }.semicolon s.start else { s with mode := .idle })
    else .ok { s with mode := .blockComment (newline || c == '\n') (c == '*') }

def feed (s : Scanner) (c : Char) : Except LexError Scanner :=
  (s.take c).map fun s => { s with pos := s.pos.next c }

def finish (s : Scanner) : Except LexError (List Token) := do
  match s.mode with
  | .str _ => throw ⟨.stringOpen, s.start⟩
  | .strEscape _ | .runeEscape => throw ⟨.escapeOpen, s.pos⟩
  | .raw _ => throw ⟨.rawStringOpen, s.start⟩
  | .rune => throw ⟨.runeEmpty, s.start⟩
  | .runeClose _ => throw ⟨.runeLong, s.start⟩
  | .blockComment .. => throw ⟨.commentOpen, s.start⟩
  | _ => pure ()
  let s ← s.settle
  match s.groups with
  | g :: _ => throw ⟨.groupOpen g.delim, g.pos⟩
  | [] => return (s.semicolon s.pos).tokens.reverse

end Scanner

def Token.scan (source : String) : Except LexError (List Token) :=
  source.toList.foldlM Scanner.feed Scanner.initial >>= Scanner.finish

end Goblet
