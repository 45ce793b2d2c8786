import Goblet.Text.Class

/-!
# Quoted text

A text between double quotes, on one line: the quote and the backslash are escaped, the line and tabulator controls
and NUL have letters of their own, and every other invisible character is written by its code point.
-/

namespace Goblet.Text

def escape (c : Char) : List Char :=
  match c with
  | '"' => ['\\', '"']
  | '\\' => ['\\', '\\']
  | '\n' => ['\\', 'n']
  | '\r' => ['\\', 'r']
  | '\t' => ['\\', 't']
  | '\x00' => ['\\', '0']
  | c => if CharClass.isInvisible c then ['\\', 'u', '\x7b'] ++ Nat.toDigits 16 c.toNat ++ ['\x7d'] else [c]

def quoted (s : String) : String := String.ofList ('"' :: s.toList.flatMap escape ++ ['"'])

end Goblet.Text
