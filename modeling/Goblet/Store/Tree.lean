import Goblet.Store

/-!
# Values with all they mean

A tree is a value together with the elements of its slices and maps and the contents of its heap cells, as far down as
asked. It is what text is made from, and from a tree a value can be built again in fresh storage.
-/

namespace Goblet

inductive Tree where
  /-- A value that means nothing in the store. -/
  | leaf (v : Value)
  | slice (items : List Tree) (cap : Nat)
  | map (id : Nat) (entries : List (Key × Tree))
  | struct (fields : List Tree)
  | heap (cell : Nat) (content : Tree)
  /-- Further down than was asked. -/
  | deep

instance : Inhabited Tree := ⟨.deep⟩

namespace Store

mutual

/-- A value as a tree; `content` gives the trees of what it means in the store. -/
def treeWith (h : Store) (content : Value → Tree) : Value → Tree
  | .slice w => .slice ((h.items w).map content) (h.cap w)
  | .map m => .map m ((h.entries m).map fun (k, v) => (k, content v))
  | .struct fs => .struct (treesWith h content fs)
  | .heap c => .heap c (content ((h.cell? c).getD .nil))
  | v => .leaf v

def treesWith (h : Store) (content : Value → Tree) : List Value → List Tree
  | [] => []
  | v :: vs => treeWith h content v :: treesWith h content vs

end

/-- A value as a tree that leads less than so many times from one thing of the store into another. -/
def tree (h : Store) : (levels : Nat) → Value → Tree
  | 0 => fun _ => .deep
  | n + 1 => treeWith h (tree h n)

end Store

namespace Tree

mutual

def isCut : Tree → Bool
  | .leaf _ => false
  | .slice ts _ => anyCut ts
  | .map _ es => anyEntryCut es
  | .struct ts => anyCut ts
  | .heap _ t => t.isCut
  | .deep => true

def anyCut : List Tree → Bool
  | [] => false
  | t :: ts => t.isCut || anyCut ts

def anyEntryCut : List (Key × Tree) → Bool
  | [] => false
  | (_, t) :: es => t.isCut || anyEntryCut es

end

/-! ## Text -/

def leafText : Value → String
  | .nil => "<nil>"
  | .bool b => if b then "true" else "false"
  | .int n => toString n.toInt
  | .float x => Decimal.text .value x.toFloat
  | .str s => s
  | .ref addr => "0x" ++ Text.zeroPadHex 8 addr
  | .func entry => "func@" ++ toString entry
  | .host name => "func:" ++ name
  | .items _ | .count .. => "<iterator>"
  | .type t => t.text
  | _ => ""

mutual

/-- The text of a tree that is not cut. -/
def text? : Tree → Option String
  | .leaf v => some (leafText v)
  | .slice ts _ => return "[" ++ Text.joined " " (← texts? ts) ++ "]"
  | .map _ es => return "map[" ++ Text.joined " " (← entryTexts? es) ++ "]"
  | .struct ts => return "\x7b" ++ Text.joined " " (← texts? ts) ++ "\x7d"
  | .heap _ t => return "&" ++ (← t.text?)
  | .deep => none

def texts? : List Tree → Option (List String)
  | [] => some []
  | t :: ts => return (← t.text?) :: (← texts? ts)

def entryTexts? : List (Key × Tree) → Option (List String)
  | [] => some []
  | (k, t) :: es => return (k.text ++ ":" ++ (← t.text?)) :: (← entryTexts? es)

end

/-! ## Sameness -/

/-- Sameness of values that mean nothing in the store. No range is the same as another. -/
def sameLeaf : Value → Value → Bool
  | .nil, .nil => true
  | .bool a, .bool b => a == b
  | .int a, .int b => a == b
  | .float a, .float b => a.eqv b
  | .str a, .str b => a == b
  | .ref a, .ref b => a == b
  | .func a, .func b => a == b
  | .host a, .host b => a == b
  | .type a, .type b => a == b
  | _, _ => false

mutual

/-- Whether two values hold the same: slices by their elements, maps by their entries, pointers by where they lead. -/
def same : Tree → Tree → Bool
  | .leaf a, .leaf b => sameLeaf a b
  | .slice as _, .slice bs _ => sameAll as bs
  | .map m as, .map n bs => m == n || sameEntries as bs
  | .struct as, .struct bs => sameAll as bs
  | .heap a _, .heap b _ => a == b
  | _, _ => false

def sameAll : List Tree → List Tree → Bool
  | [], [] => true
  | a :: as, b :: bs => same a b && sameAll as bs
  | _, _ => false

def sameEntries : List (Key × Tree) → List (Key × Tree) → Bool
  | [], [] => true
  | (k, a) :: as, (l, b) :: bs => k == l && same a b && sameEntries as bs
  | _, _ => false

end

/-! ## Building values -/

mutual

def build (h : Store) : Tree → Value × Store
  | .leaf v => (v, h)
  | .slice ts _ =>
    let (vs, h) := buildAll h ts
    let (w, h) := h.newSlice vs.toArray
    (.slice w, h)
  | .map _ es =>
    let (es, h) := buildEntries h es
    let (m, h) := h.newMap es
    (.map m, h)
  | .struct ts =>
    let (vs, h) := buildAll h ts
    (.struct vs, h)
  | .heap _ t =>
    let (v, h) := build h t
    let (c, h) := h.newCell v
    (.heap c, h)
  | .deep => (.nil, h)

def buildAll (h : Store) : List Tree → List Value × Store
  | [] => ([], h)
  | t :: ts =>
    let (v, h) := build h t
    let (vs, h) := buildAll h ts
    (v :: vs, h)

def buildEntries (h : Store) : List (Key × Tree) → List (Key × Value) × Store
  | [] => ([], h)
  | (k, t) :: es =>
    let (v, h) := build h t
    let (es, h) := buildEntries h es
    ((k, v) :: es, h)

end

end Tree

/-! ## Texts of values -/

/-- What ends the process, and not only the run of a program. -/
inductive Crash where
  /-- So many bytes in a row, which are too many. -/
  | capacity (bytes : Nat)
  /-- The text of a value that contains itself. -/
  | endless (v : Value)

/-- Bytes in a row are fewer than this. -/
def Crash.limit : Nat := Nat.pow 2 63

namespace Store

/-- The number of cells, elements and entries. -/
def extent (h : Store) : Nat :=
  h.maps.foldl (fun n m => n + m.length) (h.arrays.foldl (fun n a => n + a.size) h.cells.size)

/-- The text of a value. Nothing is met twice on the way down, so a value that leads further down than there are things
in the store contains itself. -/
def text (h : Store) (v : Value) : Except Crash String :=
  match (h.tree (h.extent + 2) v).text? with
  | some s => .ok s
  | none => .error (.endless v)

end Store

end Goblet
