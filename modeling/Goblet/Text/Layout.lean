/-!
# Laying out text

Padding, joining and repeating; widths count characters.
-/

namespace Goblet.Text

def hex (n : Nat) : String := String.ofList (Nat.toDigits 16 n)

def padRight (width : Nat) (s : String) : String := s ++ String.ofList (List.replicate (width - s.length) ' ')

def zeroPad (width n : Nat) : String :=
  let digits := Nat.toDigits 10 n
  String.ofList (List.replicate (width - digits.length) '0' ++ digits)

def zeroPadHex (width n : Nat) : String :=
  let digits := Nat.toDigits 16 n
  String.ofList (List.replicate (width - digits.length) '0' ++ digits)

def signed (n : Int) : String := if n < 0 then "-" ++ toString n.natAbs else "+" ++ toString n.natAbs

def joined (sep : String) (parts : List String) : String := sep.intercalate parts

def repeated (n : Nat) (s : String) : String := String.join (List.replicate n s)

end Goblet.Text
