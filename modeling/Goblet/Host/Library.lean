import Goblet.Host
import Goblet.Host.Format
import Goblet.Text.Case

/-!
# The standard host functions

`print` and `println`, and the packages `fmt`, `strings`, `math` and `strconv`.
-/

namespace Goblet.Library

/-! ## Arguments -/

def wrongKind (i : Nat) (wanted : String) (v : Value) : String :=
  "argument " ++ toString (i + 1) ++ " must be " ++ wanted ++ ", got " ++ v.typeName

def stringArg (args : List Value) (i : Nat) : Except HostError String :=
  match args[i]? with
  | some (.str s) => .ok s
  | some v => .error (wrongKind i "string" v)
  | none => .error ("missing argument " ++ toString (i + 1))

def intArg (args : List Value) (i : Nat) : Except HostError Int64 :=
  match args[i]? with
  | some (.int n) => .ok n
  | some v => .error (wrongKind i "int" v)
  | none => .error ("missing argument " ++ toString (i + 1))

def floatArg (args : List Value) (i : Nat) : Except HostError Double :=
  match args[i]?.bind Value.number? with
  | some x => .ok x
  | none => .error ("argument " ++ toString (i + 1) ++ " must be float64")

/-! ## Kinds of functions -/

def printer (name : String) (params : List Ty) (text : Store → List Value → Except HostError String) : HostFn :=
  ⟨name, ⟨params, [], true⟩, fun h args => do return ⟨[], h, ← text h args⟩⟩

def pureFn (name : String) (params : List Ty) (result : Ty) (variadic : Bool)
    (f : Store → List Value → Except HostError Value) : HostFn :=
  ⟨name, ⟨params, [result], variadic⟩, fun h args => do return ⟨[← f h args], h, ""⟩⟩

def onText (name : String) (f : String → String) : HostFn :=
  pureFn name [.string] .string false fun _ args => do return .str (f (← stringArg args 0))

def onTexts (name : String) (result : Ty) (f : String → String → Value) : HostFn :=
  pureFn name [.string, .string] result false fun _ args => do
    let a ← stringArg args 0
    let b ← stringArg args 1
    return f a b

def onFloat (name : String) (f : Double → Double) : HostFn :=
  pureFn name [.float] .float false fun _ args => do return .float (f (← floatArg args 0))

/-- Text that may have no end. -/
def shown (text : Except Crash α) : Except HostError α := text.mapError .crash

def formatted (h : Store) (args : List Value) : Except HostError String := do
  shown (Format.printf h (← stringArg args 0) (args.drop 1))

/-! ## Texts -/

def beginsWith (s t : String) : Bool := t.toList.isPrefixOf s.toList

def endsWith (s t : String) : Bool := t.toList.isSuffixOf s.toList

def index (s t : String) : Int64 :=
  match Text.indexOf? s t with
  | some i => Int64.ofNat i
  | none => -1

def split (h : Store) (args : List Value) : Except HostError HostReply := do
  let s ← stringArg args 0
  let t ← stringArg args 1
  let (w, h) := h.newSlice ((Text.split s t).map Value.str).toArray
  return ⟨[.slice w], h, ""⟩

/-- The elements of a slice as texts, joined. What is no slice has no elements. -/
def join (h : Store) (args : List Value) : Except HostError Value := do
  let parts := match args[0]? with
    | some (.slice w) => h.items w
    | _ => []
  let sep ← stringArg args 1
  return .str (Text.joined sep (← shown (parts.mapM h.text)))

def repeatText (args : List Value) : Except HostError Value := do
  let n ← intArg args 1
  if n < 0 then throw (.message "strings: negative Repeat count")
  let s ← stringArg args 0
  let bytes := Text.byteLength s * n.toInt.toNat
  if Crash.limit ≤ bytes then throw (.crash (.capacity bytes))
  return .str (Text.repeated n.toInt.toNat s)

/-! ## The registry -/

def anything : List Ty := [.slice .any]

def format : List Ty := [.string, .slice .any]

def everywhere : List HostFn :=
  [printer "print" anything fun h args => shown (Format.print h args),
    printer "println" anything fun h args => shown (Format.printLine h args)]

def packages : List (String × List HostFn) :=
  [("fmt",
    [printer "fmt.Print" anything fun h args => shown (Format.print h args),
      printer "fmt.Println" anything fun h args => shown (Format.printLine h args),
      printer "fmt.Printf" format formatted,
      pureFn "fmt.Sprint" anything .string true fun h args => return .str (← shown (Format.print h args)),
      pureFn "fmt.Sprintf" format .string true fun h args => return .str (← formatted h args)]),
    ("strings",
      [onText "strings.ToUpper" Text.upper,
        onText "strings.ToLower" Text.lower,
        onText "strings.TrimSpace" Text.trimmed,
        onTexts "strings.Contains" .bool fun s t => .bool (Text.indexOf? s t).isSome,
        onTexts "strings.HasPrefix" .bool fun s t => .bool (beginsWith s t),
        onTexts "strings.HasSuffix" .bool fun s t => .bool (endsWith s t),
        onTexts "strings.Index" .int fun s t => .int (index s t),
        ⟨"strings.Split", ⟨[.string, .string], [.slice .string], false⟩, split⟩,
        pureFn "strings.Join" [.slice .string, .string] .string false join,
        pureFn "strings.Repeat" [.string, .int] .string false fun _ args => repeatText args]),
    ("math",
      [onFloat "math.Sqrt" (.map Float.sqrt),
        onFloat "math.Abs" .abs,
        onFloat "math.Floor" (.map Float.floor),
        onFloat "math.Ceil" (.map Float.ceil),
        pureFn "math.Pow" [.float, .float] .float false fun _ args => do
          let x ← floatArg args 0
          let y ← floatArg args 1
          return .float (x.map₂ Float.pow y)]),
    ("strconv",
      [pureFn "strconv.Itoa" [.int] .string false fun _ args => do
        return .str (toString (← intArg args 0).toInt)])]

end Goblet.Library

namespace Goblet

def Registry.standard : Registry :=
  Library.packages.foldl (fun r p => p.2.foldl (·.defineIn p.1) r)
    (Library.everywhere.foldl Registry.define Registry.empty)

end Goblet
