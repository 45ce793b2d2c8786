import Goblet.Store.Tree

/-!
# Host functions

Functions that a program can call and that are not written in the language. A host function sees its arguments and the
store; it gives results, may make new storage, and may print. A registry says which host functions there are: some
are known everywhere, the others belong to packages.
-/

namespace Goblet

/-- What a host function gives. -/
structure HostReply where
  results : List Value
  store : Store
  printed : String

/-- Why a host function gives nothing. -/
inductive HostError where
  | message (text : String)
  | crash (c : Crash)

instance : Coe String HostError := ⟨.message⟩

/-- A host function. -/
structure HostFn where
  /-- The full name, with the package in front if there is one. -/
  name : String
  sig : FuncType
  call : Store → List Value → Except HostError HostReply

/-- A host function under the name it is known by. -/
structure Binding where
  /-- The package; none if it is known everywhere. -/
  package : Option String
  name : String
  fn : HostFn

namespace Binding

def ty (b : Binding) : Ty := b.fn.sig.ty

def value (b : Binding) : Value := .host b.fn.name

end Binding

/-- The host functions there are. -/
structure Registry where
  bindings : List Binding

namespace Registry

def empty : Registry := ⟨[]⟩

def shortName (name : String) : String := String.ofList (name.toList.reverse.takeWhile (· != '.')).reverse

def define (r : Registry) (f : HostFn) : Registry := ⟨⟨none, f.name, f⟩ :: r.bindings⟩

def defineIn (r : Registry) (package : String) (f : HostFn) : Registry :=
  ⟨⟨some package, shortName f.name, f⟩ :: r.bindings⟩

def hasPackage (r : Registry) (package : String) : Bool := r.bindings.any (·.package == some package)

def lookup? (r : Registry) (package : Option String) (name : String) : Option Binding :=
  r.bindings.find? fun b => b.package == package && b.name == name

def everywhere (r : Registry) : List Binding := r.bindings.filter (·.package.isNone)

def find? (r : Registry) (name : String) : Option HostFn := (r.bindings.find? (·.fn.name == name)).map (·.fn)

end Registry

end Goblet
