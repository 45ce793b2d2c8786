import Goblet.Compile.Chunk
import Goblet.Proofs.Effect

/-!
# Checks

Much of the compiler only looks: it finds a type, compares it and fails where it does not fit. Whatever holds of the
state holds afterwards, however that ends (`Keeps`). Constants are folded in the same way, but the values made of them
may be in the store.
-/

namespace Goblet.Compile

open List

variable {I : CompileState → Prop} {α β : Type} {s t : CompileState} {p q : Pos} {cause : CompileCause}
  {ty : Ty} {e : Option TypeExpr} {op : Operator} {stack : List ConstItem} {iota : Int64} {steps : List Step}
  {name : String} {a : α}

/-- What holds of the state is kept, however `x` ends. -/
def Keeps (I : CompileState → Prop) (x : Compile α) : Prop := Triple I x (fun _ => I) fun _ => I

namespace Keeps

variable {x : Compile α}

theorem ret : Keeps I (pure a) := Triple.ret fun _ h => h

theorem fail : Keeps I (Compile.fail cause p : Compile α) := Triple.raise fun _ h => h

/-- Checks in a row keep the state. -/
theorem seq {f : α → Compile β} (hx : Keeps I x) (hf : ∀ a, Keeps I (f a)) : Keeps I (x >>= f) := Triple.seq hx hf

theorem read {f : CompileState → Compile α} (h : ∀ s, Keeps I (f s)) : Keeps I (get >>= f) := fun s hs => h s s hs

theorem ite {c : Prop} [Decidable c] {y : Compile α} (hx : Keeps I x) (hy : Keeps I y) : Keeps I (if c then x else y) :=
  Triple.ite (fun _ => hx) fun _ => hy

theorem ok (hx : Keeps I x) (hs : I s) (h : x s = .ok a t) : I t := by
  have := hx s hs
  rwa [h] at this

/-- A check that succeeds changes nothing. -/
theorem same (hx : Keeps (s = ·) x) (h : x s = .ok a t) : s = t := hx.ok rfl h

end Keeps

theorem scope_keeps : Keeps I scope := fun _ hs => hs

theorem seek_keeps : Keeps I (seek name) := fun _ hs => hs

theorem complete_keeps : Keeps I (complete ty) := fun _ hs => hs

theorem resolveType_keeps {e : TypeExpr} : Keeps I (resolveType e p) := by
  refine Keeps.read fun s => scope_keeps.seq fun _ => ?_
  split
  · exact .ret
  · exact Triple.raise fun _ h => h

theorem resolveType?_keeps : Keeps I (resolveType? e p) := by
  unfold resolveType?
  split
  · exact Triple.map resolveType_keeps
  · exact .ret

theorem pointee_keeps : Keeps I (pointee ty p) := by
  unfold pointee
  split
  · exact .ret
  · exact .ite .ret .fail

theorem unaryOp_keeps : Keeps I (unaryOp op ty p) := by
  unfold unaryOp
  split
  all_goals first | exact .fail | exact .ite .ret .fail

theorem checkIndex_keeps : Keeps I (checkIndex ty p) := .ite .ret .fail

theorem appendElem_keeps : Keeps I (appendElem ty p) := by
  unfold appendElem
  split
  · exact .ret
  · exact .ite .ret .fail

theorem checkElements_keeps : ∀ {wants : List Ty} {vs : List Taken}, Keeps I (checkElements p wants vs)
  | _ :: _, _ :: _ => .ite checkElements_keeps .fail
  | [], _ => .ret
  | _ :: _, [] => .ret

theorem literalFields_keeps {fields : List (String × Ty)} : ∀ {names : List String} {seen : List Nat},
    Keeps I (literalFields ty fields p seen names)
  | [], _ => .ret
  | _ :: _, _ => by
    unfold literalFields
    split
    · exact .fail
    · exact .ite .fail (literalFields_keeps.seq fun _ => .ret)

theorem fieldPath_keeps : ∀ {path : List String} {ty : Ty}, Keeps I (fieldPath p ty path)
  | [], _ => .ret
  | _ :: _, _ => by
    unfold fieldPath
    split
    · exact .fail
    · exact complete_keeps.seq fun _ => fieldPath_keeps.seq fun _ => .ret

/-! ## Constants -/

theorem constBinary_keeps : Keeps I (constBinary op stack p q) := by
  unfold constBinary
  repeat' split
  all_goals first | exact .fail | exact .ret

theorem constUnary_keeps : Keeps I (constUnary op stack p q) := by
  unfold constUnary
  repeat' split
  all_goals first | exact .fail | exact .ret

theorem constIdent_keeps : Keeps I (constIdent name iota p q) := by
  refine .ite .ret (seek_keeps.seq fun o => ?_)
  split
  all_goals first | exact .fail | exact .ret

section

variable (hI : ∀ s h, I s → I { s with store := h })
include hI

theorem convertConstant_keeps {v : Value} : Keeps I (convertConstant v ty p) := by
  refine Triple.read fun s hs => ?_
  split
  · exact Triple.seq (Q := fun _ => I) (Triple.write fun _ _ => hI s _ hs) fun _ => Keeps.ret
  · exact Triple.raise fun u hu => hu ▸ hs

theorem constStep_keeps {step : Step} : Keeps I (constStep iota p stack step) := by
  unfold constStep
  split
  · exact .ret
  · exact .ret
  · exact .ret
  · exact constIdent_keeps.seq fun _ => .ret
  · exact resolveType_keeps.seq fun _ => .ret
  · exact constBinary_keeps
  · exact constUnary_keeps
  · unfold constConvert
    split
    · exact (convertConstant_keeps hI).seq fun _ => .ret
    · exact .fail
  · exact .fail

/-- A constant expression is computed without code. -/
theorem constValue_keeps : Keeps I (constValue e steps iota p) := by
  have heval (stack : List ConstItem) : Keeps I (evalConst iota p stack steps) := by
    fun_induction evalConst iota p stack steps with
    | case1 => exact .ret
    | case2 => exact .fail
    | case3 _ _ _ ih => exact (constStep_keeps hI).seq ih
  refine (heval []).seq fun ⟨v, vt⟩ => ?_
  dsimp only
  split
  · exact .ret
  · exact resolveType_keeps.seq fun t => .ite ((convertConstant_keeps hI).seq fun _ => .ret) .fail

end

end Goblet.Compile
