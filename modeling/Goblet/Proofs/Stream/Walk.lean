import Goblet.Proofs.Symbol

/-!
# Streams that are nested

A stream is flat, but its blocks and function bodies nest. `Walk heads frames steps` says that `steps` close the
frames that are open, the innermost first, and all that they open themselves, that they declare only names that source
can have, that a name they use is one part of a path, and that a body belongs to a function literal or to a function in
`heads`. A label that is a word belongs to the innermost function, where it stands and where control goes to it
(`Frame.Owns`), and types and constants are declared inside of blocks only: those at the top level are at the head of
the chunk.
-/

namespace Goblet

/-- Every name of a parameter or result is a word. -/
def Signature.Named (sig : Signature) : Prop := ∀ n t, (some n, t) ∈ sig.params ++ sig.results → IsWord n

/-- A block or a function body that steps stand in. -/
inductive Frame where
  | block (scope : String)
  | func (key : String)

namespace Frame

def scope : Frame → String
  | .block s => s
  | .func k => k

/-- The innermost scope. -/
def scopeOf : List Frame → String
  | [] => Place.mainScope
  | f :: _ => f.scope

/-- The innermost function. -/
def funcOf : List Frame → Option String
  | [] => none
  | .func k :: _ => some k
  | .block _ :: fs => funcOf fs

/-- The path of a block is that of what it stands in and a fresh name. -/
def Nests : List Frame → Prop
  | [] => True
  | .block s :: fs => (∃ n, Fresh "b" n ∧ s = scopeOf fs ++ "/" ++ n) ∧ Nests fs
  | .func _ :: fs => Nests fs

/-- What the labels written in the innermost function begin with. -/
def owner (frames : List Frame) : String := (funcOf frames).getD Place.mainScope

/-- A label that ends in a word belongs to the innermost function. -/
def Owns (frames : List Frame) (label : String) : Prop :=
  ∀ scope w, IsWord w → label = scope ++ "/" ++ w → scope = owner frames

variable {frames : List Frame}

theorem owns_word {w : String} (hw : IsWord w) : Owns frames (owner frames ++ "/" ++ w) :=
  fun _ _ hv he => (last_part_inj he (hw.notMem (by decide)) (hv.notMem (by decide))).1.symm

theorem owns_fresh {scope tag n : String} (hn : Fresh tag n) (ht : '/' ∉ tag.toList) :
    Owns frames (scope ++ "/" ++ n) := by
  intro scope' w hw he
  have hslash : '/' ∉ n.toList := hn.notMem (by decide) (by decide) ht
  exact absurd (last_part_inj he hslash (hw.notMem (by decide))).2.symm (hw.ne_fresh hn)

end Frame

open Goblet.Frame (scopeOf funcOf Owns)

/-- What a step may be that opens and closes nothing and is no part of a store. -/
def Act.Plain (frames : List Frame) : Act → Prop
  | .atom (.ident n) | .place n => IsPart n
  | .declare n _ _ => VarName n
  | .typeDef n _ => VarName n ∧ frames ≠ []
  | .constant n .. => VarName n ∧ frames ≠ []
  | .next _ key value _ => (∀ n, key = some n → VarName n) ∧ ∀ n, value = some n → VarName n
  | .field n => IsWord n
  | .goto l => Owns frames l
  | .define | .assign | .header .. | .imports .. | .body .. | .label _ | .enter _ | .leave => False
  | _ => True

/-- The steps close what is open and what they open; bodies are those of `heads` and of function literals. -/
inductive Walk (heads : String → Prop) : List Frame → List Step → Prop
  | done : Walk heads [] []
  | plain {frames rest act p} : act.Plain frames → Walk heads frames rest → Walk heads frames (⟨act, p⟩ :: rest)
  | define {frames rest n p q} : VarName n → Walk heads frames rest →
      Walk heads frames (⟨.ident n, p⟩ :: ⟨.define, q⟩ :: rest)
  | assign {frames rest n p q} : IsPart n → Walk heads frames rest →
      Walk heads frames (⟨.ident n, p⟩ :: ⟨.assign, q⟩ :: rest)
  | enter {frames rest n p} : Fresh "b" n → Walk heads (.block (scopeOf frames ++ "/" ++ n) :: frames) rest →
      Walk heads frames (⟨.enter (scopeOf frames ++ "/" ++ n), p⟩ :: rest)
  | leave {frames rest s p} : Walk heads frames rest → Walk heads (.block s :: frames) (⟨.leave, p⟩ :: rest)
  | body {frames rest key sig p} : LitKey key ∨ heads key → sig.Named → Walk heads (.func key :: frames) rest →
      Walk heads frames (⟨.body key sig, p⟩ :: rest)
  | close {frames rest key p} : Walk heads frames rest →
      Walk heads (.func key :: frames) (⟨.label (key ++ "_end"), p⟩ :: rest)
  | label {frames rest n p} : (∀ key, funcOf frames = some key → n ≠ key ++ "_end") → Owns frames n →
      Walk heads frames rest → Walk heads frames (⟨.label n, p⟩ :: rest)

end Goblet
