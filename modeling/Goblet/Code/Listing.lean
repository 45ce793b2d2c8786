import Goblet.Code

/-!
# Listings of code

A program as lines: the code, with the targets of jumps marked, and then the data segment.
-/

namespace Goblet

def Slot.text : Slot → String
  | .global i => "g" ++ toString i
  | .local k => "l" ++ toString k

def indexList (is : List Nat) : String := "[" ++ Text.joined ", " (is.map toString) ++ "]"

namespace Op

def slotText (s : Option Slot) : String := (s.map Slot.text).getD "_"

def flag (b : Bool) : String := if b then "true" else "false"

/-- The name of an instruction with its operands, but for the value that it pushes. -/
def head : Op → String
  | .push _ => "PUSH        "
  | .pop n => "POP         " ++ toString n
  | .grow n => "GROW        " ++ toString n
  | .get s => "GET         " ++ s.text
  | .set s => "SET         " ++ s.text
  | .addr s => "ADDR        " ++ s.text
  | .deref => "DEREF"
  | .derefSet => "DEREF_SET"
  | .new ty => "NEW         t" ++ toString ty
  | .box => "BOX"
  | .binary op => "BINARY      " ++ op.text
  | .unary op => "UNARY       " ++ op.text
  | .addi k => "ADDI        " ++ toString k.toInt
  | .subi k => "SUBI        " ++ toString k.toInt
  | .loweri k => "LOWERI      " ++ toString k.toInt
  | .convert ty depth => "CONVERT     t" ++ toString ty ++ " @" ++ toString depth
  | .jump o => "JUMP        " ++ Text.signed o
  | .jumpTrue o => "JUMP_TRUE   " ++ Text.signed o
  | .jumpFalse o => "JUMP_FALSE  " ++ Text.signed o
  | .jumpSetTrue o => "JSET_TRUE   " ++ Text.signed o
  | .jumpSetFalse o => "JSET_FALSE  " ++ Text.signed o
  | .call o => "CALL        " ++ Text.signed o
  | .callX argc results variadic spread =>
    "CALLX       " ++ toString argc ++ " -> " ++ toString results
      ++ (match variadic with
        | some n => " variadic(" ++ toString n ++ ")"
        | none => "")
      ++ (if spread then " ..." else "")
  | .ret results params => "RETURN      " ++ toString results ++ " (" ++ toString params ++ " params)"
  | .missingReturn => "MISSING_RETURN"
  | .exit => "EXIT"
  | .index => "INDEX"
  | .mapIndex ty => "MAP_INDEX   t" ++ toString ty
  | .indexSet => "INDEX_SET"
  | .mapSet => "MAP_SET"
  | .slice low high => "SLICE       " ++ flag low ++ " " ++ flag high
  | .field i => "FIELD       " ++ toString i
  | .fieldSet path => "FIELD_SET   " ++ indexList path
  | .composite ty n layout =>
    "COMPOSITE   t" ++ toString ty ++ " len=" ++ toString n
      ++ (match layout with
        | .positional => ""
        | .fields order => " fields=" ++ indexList order
        | .pairs => " pairs")
  | .len => "LEN"
  | .cap => "CAP"
  | .append count spread => "APPEND      " ++ toString count ++ (if spread then " ..." else "")
  | .make ty argc => "MAKE        t" ++ toString ty ++ " " ++ toString argc
  | .delete => "DELETE"
  | .panic => "PANIC"
  | .range => "RANGE"
  | .next key value o => "NEXT        " ++ slotText key ++ " " ++ slotText value ++ " " ++ Text.signed o

def text (h : Store) (op : Op) : Except Crash String :=
  match op with
  | .push (.str s) => return op.head ++ Text.quoted s
  | .push v => return op.head ++ (← h.text v)
  | op => return op.head

def target? (i : Nat) (op : Op) : Option Nat :=
  match op.offset? with
  | some rel => if 0 ≤ (i : Int) + rel then some ((i : Int) + rel).toNat else none
  | none => none

end Op

namespace Program

def ruler : String := Text.repeated 40 "═"

/-- Instructions with their index, counted from `i`. -/
def numbered (i : Nat) : List Instr → List (Nat × Instr)
  | [] => []
  | x :: xs => (i, x) :: numbered (i + 1) xs

def instrLines (h : Store) (entry : Nat) (targets : List Nat) (i : Nat) (x : Instr) :
    Except Crash (List String) := do
  let isTarget := targets.contains i
  let marker := if i = entry then "» " else if isTarget then "► " else "  "
  let jump := match x.op.target? i with
    | some t => "  ; -> " ++ Text.zeroPad 4 t
    | none => ""
  let line := Text.padRight 48 (Text.zeroPad 4 i ++ " " ++ marker ++ (← x.op.text h) ++ jump) ++ x.pos.text
  return if isTarget then ["      ┌" ++ Text.repeated 34 "─", line] else [line]

def slotText (h : Store) : Value → Except Crash String
  | .str s => return Text.quoted s
  | .type t => return "type " ++ t.text
  | .host name => return "host " ++ name
  | v => h.text v

/-- Data slots as lines, counted from `i`. -/
def dataLines (h : Store) (i : Nat) : List Value → Except Crash (List String)
  | [] => return []
  | v :: vs => return ("g" ++ Text.padRight 4 (toString i) ++ " " ++ (← slotText h v)) :: (← dataLines h (i + 1) vs)

def listing (h : Store) (p : Program) : Except Crash (List String) := do
  let code := numbered 0 p.code.toList
  let targets := code.filterMap fun (i, x) => x.op.target? i
  let title := " code: " ++ toString p.code.size ++ " instructions, entry " ++ Text.zeroPad 4 p.entry
  let lines ← code.mapM fun (i, x) => instrLines h p.entry targets i x
  let slots ← dataLines h 0 p.data.toList
  return [ruler, title, ruler] ++ lines.flatten
    ++ if p.data.isEmpty then [] else ["", " data: " ++ toString p.data.size ++ " slots"] ++ slots

end Program

end Goblet
