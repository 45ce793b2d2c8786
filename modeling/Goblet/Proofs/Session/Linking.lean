import Goblet.Proofs.Compile.Linked
import Goblet.Proofs.Session

/-!
# Jumps of sessions

The functions of a session begin with the instruction that makes room for their variables (`Reachable.hasEntries`),
whatever chunks came before. So every chunk that is accepted is linked, also where it calls functions of earlier chunks,
and one that jumps to a label which is not in the same function is rejected (`load_linked`).
-/

namespace Goblet.Session

open Compile

open Compile (Entered Linked Passes)

/-- The functions of a session begin with the instruction that makes room. -/
def HasEntries (s : Session) : Prop := Entered (withoutExit s.program) s.symbols

theorem new_hasEntries (r : Registry) (l : Limits) : (new r l).HasEntries := by
  intro key sym i hs hkind _
  exact absurd (.inr hkind) ((SymbolTable.predeclared_placeless r).2 key sym hs).1

theorem Reachable.hasEntries {s : Session} (h : s.Reachable) : s.HasEntries :=
  h.keeps new_hasEntries fun hshaped hat he hc => (Compile.Opening.linked ⟨hshaped, ⟨_, hat⟩, he⟩ hc).1

/-- **Every chunk that is accepted is linked**, onto whatever was compiled before. A chunk that jumps to a label which
is not in the same function, and in which all else compiles, fails for want of a label. -/
theorem load_linked {s : Session} (hs : s.Reachable) {source : String} {stream : List Step} {n : Nat}
    (hshape : shape s.labels source = (.ok stream, n)) :
    let begun := start s.symbols (withoutExit s.program) s.store
    ∃ head rest, stream = head ++ rest ∧ (∀ x ∈ head, x.val.Decl) ∧
      (∀ t, chunk s.registry stream begun = .ok () t →
        ∃ u, steps s.registry (ordered head) begun = .ok () u ∧ Linked s.registry (rest, u) s.nextStart t) ∧
      ∀ u w scope word p post x y, steps s.registry (ordered head) begun = .ok () u →
        steps s.registry rest u = .ok () w → IsWord word →
        Passes s.registry (rest, u) (.goto (scope ++ "/" ++ word)) p post x y →
        (∀ q post' x' y', Passes s.registry (rest, u) (.label (scope ++ "/" ++ word)) q post' x' y' →
        x'.within? ≠ x.within?) →
        ∃ e t name, chunk s.registry stream begun = .error e t ∧ e.cause = .unresolvedLabel name := by
  obtain ⟨head, rest, rfl, hshaped⟩ := shape_shaped hshape
  have ho : Compile.Opening _ _ _ _ _ head rest := ⟨hshaped, ⟨_, hs.inOrder.start⟩, hs.hasEntries⟩
  refine ⟨head, rest, rfl, hshaped.decl, fun t ht => (ho.linked ht).2, ?_⟩
  intro u w scope word p post x y hhead hrest hword hpass hno
  exact ho.unresolved hhead hrest hword hpass fun h => hno _ _ _ _ h

/-- A call, a jump forward and a jump over the body of a function. -/
theorem load_linked_skip : ∃ stream n t,
    shape 0 "func f() int { return 1 }\nx := f()\ngoto L\ny := func() int { return 2 }\nL:\nx" = (.ok stream, n) ∧
    chunk .empty stream (start (.predeclared .empty) .empty .empty) = .ok () t ∧
    ∃ head rest u, stream = head ++ rest ∧ Linked .empty (rest, u) 0 t := by
  have hok : (match shape 0 "func f() int { return 1 }\nx := f()\ngoto L\ny := func() int { return 2 }\nL:\nx" with
      | (.ok stream, _) =>
        match chunk .empty stream (start (.predeclared .empty) .empty .empty) with
        | .ok _ _ => true
        | .error _ _ => false
      | (.error _, _) => false) = true := by decide +kernel
  split at hok
  · rename_i stream n hshape
    split at hok
    · rename_i t ht
      obtain ⟨head, rest, hstream, -, hlinked, -⟩ := load_linked (s := new .empty .standard) ⟨_, _, .now⟩ hshape
      obtain ⟨u, -, hu⟩ := hlinked t ht
      exact ⟨stream, n, t, hshape, ht, head, rest, u, hstream, hu⟩
    · cases hok
  · cases hok

end Goblet.Session
