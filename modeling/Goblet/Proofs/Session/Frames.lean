import Goblet.Proofs.Compile.Frames
import Goblet.Proofs.Session.Linking

/-!
# Frames of sessions

The variables of functions that earlier chunks declared are still among the symbols of a session. They belong to
functions that there are (`Reachable.owned`), so none of them is taken for a variable of a function in a later chunk,
and the code of every chunk that is accepted lies in the frames of its functions (`load_framed`).
-/

namespace Goblet.Session

open Compile (Framed Owned)

theorem new_owned (r : Registry) (l : Limits) : Owned (new r l).symbols := by
  rintro key k ⟨sym, hs, hkind, -⟩
  exact absurd (.inl hkind) ((SymbolTable.predeclared_placeless r).2 key sym hs).1

theorem Reachable.owned {s : Session} (h : s.Reachable) : Owned s.symbols :=
  (h.keeps (P := fun program symbols => Compile.Entered program symbols ∧ Owned symbols)
    (fun r l => ⟨new_hasEntries r l, new_owned r l⟩) fun hshaped hat hp hc =>
      have ho : Compile.Opening _ _ _ _ _ _ _ := ⟨hshaped, ⟨_, hat⟩, hp.1⟩
      ⟨(ho.linked hc).1, (ho.framed hp.2 hc).1⟩).2

/-- **In every chunk that is accepted, code stays in the frame of its function.** The chunk has a region of code for
each function and function literal in it. A region begins with the instruction that makes room for the variables of its
function. All that an instruction names in a frame are parameters and variables of the innermost function around it, and
a return takes the parameters and gives the results of this function. Outside of functions nothing is named in a frame
and nothing returns. -/
theorem load_framed {s : Session} (hs : s.Reachable) {source : String} {stream : List Step} {n : Nat} {t : CompileState}
    (hshape : shape s.labels source = (.ok stream, n))
    (hchunk : Compile.chunk s.registry stream (Compile.start s.symbols (withoutExit s.program) s.store) = .ok () t) :
    ∃ regions : List Region, (regions.map Region.header).Perm (bodiesOf stream) ∧ Framed regions s.nextStart t := by
  obtain ⟨head, rest, rfl, hshaped⟩ := shape_shaped hshape
  exact (Compile.Opening.framed ⟨hshaped, ⟨_, hs.inOrder.start⟩, hs.hasEntries⟩ hs.owned hchunk).2

/-- A function with a literal that has a variable of the same name, and code outside of both. -/
def nestedSource : String :=
  "func f(a int, b int) (r int) { x := a; g := func(y int) int { x := y; return x }; r = g(x) + b; return }
  z := f(1, 2)"

theorem load_framed_nested : ∃ stream n t regions,
    shape 0 nestedSource = (.ok stream, n) ∧
    Compile.chunk .empty stream (Compile.start (.predeclared .empty) .empty .empty) = .ok () t ∧
    (regions.map Region.header).Perm [("main/f", 2, 1), ("main/f/#lit0", 1, 1)] ∧ Framed regions 0 t := by
  have hok : (match shape 0 nestedSource with
      | (.ok stream, _) =>
        match Compile.chunk .empty stream (Compile.start (.predeclared .empty) .empty .empty) with
        | .ok _ _ => decide (bodiesOf stream = [("main/f", 2, 1), ("main/f/#lit0", 1, 1)])
        | .error _ _ => false
      | (.error _, _) => false) = true := by decide +kernel
  split at hok
  · rename_i stream n hshape
    split at hok
    · rename_i t ht
      obtain ⟨regions, hperm, hframed⟩ := load_framed (s := new .empty .standard) ⟨_, _, .now⟩ hshape ht
      rw [of_decide_eq_true hok] at hperm
      exact ⟨stream, n, t, regions, hshape, ht, hperm, hframed⟩
    · cases hok
  · cases hok

end Goblet.Session
