import Goblet.Proofs.Compile.Name

/-!
# Expressions are compiled above the ground

Folding takes back and rewrites code, and `&` rewrites the last instruction. What is taken back or rewritten has left
the operands that are taken, so it is code of the chunk (`binary_gives`, `unary_gives`, `addressCode_gives`). All the
other instructions are only added.
-/

namespace Goblet.Compile

variable {g : Ground} {m : Stage} {p : Pos} {name key : String} {t : Ty} {r : Registry} {len : Nat} {v : Taken}
  {op : BinOp} {keys : Keys} {path : String} {operator : Operator}

/-! ## Operations -/

theorem trailingPair?_gives {l r : Option Known} (hl : g.Above l) :
    Gives g m m (trailingPair? l r) fun o => ∀ a b, o = some (a, b) → g.Later a.loadedAt := by
  unfold trailingPair?
  split
  · refine isTrailing_gives.next (.ite (fun _ => .ret ?_) fun _ => .ret nofun)
    rintro a b h
    cases h
    exact hl _ rfl
  · exact .ret nofun

theorem trailingShort?_gives {l r : Taken} (hr : g.Above r.known) :
    Gives g m m (trailingShort? op l r) fun o => ∀ i short, o = some (i, short) → g.program.code.size ≤ i := by
  unfold trailingShort?
  split
  · rename_i k i hk
    have found : ∀ j short, (shortOp? op k).map (i, ·) = some (j, short) → g.program.code.size ≤ j := by
      rintro j short h
      obtain ⟨_, -, h⟩ := Option.map_eq_some_iff.mp h
      cases h
      exact (hr _ hk).1
    refine isTrailing_gives.next (.ite (fun _ => .ret found) fun _ => .ret nofun)
  · exact .ret nofun

theorem binaryCode_gives {l r : Taken} (hr : g.Above r.known) :
    Gives g .begun .begun (binaryCode op l r p) := by
  refine (trailingShort?_gives hr).seq fun o ho => ?_
  split
  · exact replaceOp_gives (ho _ _ rfl)
  · exact emit_gives

/-- A binary operator rewrites only its own operands. -/
theorem binary_gives : Gives g .kept .kept (binary operator p) := by
  unfold binary
  split
  · exact fail_gives
  · refine .done (popValue_gives.seq fun r hr => popValue_gives.start.seq fun l hl => ?_)
    split
    · exact fail_gives
    · refine (trailingPair?_gives hl).seq fun o ho => ?_
      split
      · split
        · exact fail_gives
        · exact recompute_gives (ho _ _ rfl)
      · exact (binaryCode_gives hr).next pushValue_gives

theorem addressCode_gives : Gives g .begun .begun (addressCode v p) := by
  refine .read fun s hs => ?_
  have hsize := hs.2
  split
  · exact fail_gives
  · exact .unless fun _ => replaceOp_gives (by omega)
  · exact emit_gives
  · exact fail_gives

theorem addressOf_gives : Gives g .kept .kept (addressOf p) :=
  .done (popValue_gives.next (addressCode_gives.next pushValue_gives))

theorem popAny_gives : Gives g .kept .kept (popOperand p) fun o => g.Above o.known? :=
  Triple.weaken popOperand_gives (fun _ hs => hs) (fun _ _ hs => ⟨hs.1, hs.2.1⟩) fun _ _ hs => hs

theorem indirect_gives : Gives g .kept .kept (indirect p) := by
  refine popAny_gives.seq fun o _ => ?_
  split
  · exact pushOperand_gives rfl
  · refine .done (complete_gives.next (pointee_keeps.gives.next (emit_gives.seq fun _ _ => ?_)))
    exact complete_gives.next pushValue_gives
  · exact fail_gives

theorem unary_gives : Gives g .kept .kept (unary operator p) := by
  unfold unary
  split
  · exact addressOf_gives
  · exact indirect_gives
  · refine .done (popValue_gives.seq fun v hv => unaryOp_keeps.gives.seq fun o _ => ?_)
    split
    · exact pushValue_known_gives hv
    · refine (trailing?_gives hv).seq fun o ho => ?_
      split
      · split
        · exact fail_gives
        · exact recompute_gives (ho _ rfl)
      · exact emit_gives.next pushValue_gives

/-! ## Elements, slices and fields -/

theorem index_gives : Gives g .kept .kept (index p) := by
  refine .done (popValue_gives.seq fun i hi => popValue_gives.start.seq fun c _ => complete_gives.seq fun _ _ => ?_)
  split
  · exact checkIndex_keeps.gives.next (emit_gives.next (complete_gives.next pushValue_gives))
  · exact checkIndex_keeps.gives.next (emit_gives.next pushValue_gives)
  · refine (coerce_gives hi).next (typeSlot_gives.next (emit_gives.seq fun _ _ => ?_))
    exact complete_gives.next pushValue_gives
  · exact .ite (fun _ => emit_gives.next pushValue_gives) fun _ => fail_gives

theorem popBounds_gives : ∀ {n : Nat}, Gives g .kept .kept (popBounds p n)
  | 0 => .ret trivial
  | _ + 1 => popValue_gives.done.next (checkIndex_keeps.gives.next popBounds_gives)

theorem slice_gives {low high : Bool} : Gives g .kept .kept (slice low high p) := by
  refine .done (popBounds_gives.next (popValue_gives.seq fun v _ => .ite (fun _ => ?_) fun _ => fail_gives))
  exact emit_gives.next pushValue_gives

theorem addMember_gives : Gives g m m (addMember r path name p) := by
  refine lookup_gives.seq fun o _ => .ite (fun _ => ?_) fun _ => .ret trivial
  split
  · exact addSymbol_gives (Symbol.not_stored nofun nofun) rfl fun _ => rfl
  · exact fail_gives

theorem packageMember_gives : Gives g .kept .kept (packageMember r path name p) := by
  refine .done (addMember_gives.next (lookup_gives.next (materialize_gives.seq fun _ _ => ?_)))
  exact emit_gives.next pushValue_gives

/-- A field of a struct or a member of a package. -/
theorem field_gives : Gives g .kept .kept (field r name p) := by
  refine popAny_gives.seq fun o _ => ?_
  split
  · exact packageMember_gives
  · refine complete_gives.seq fun t _ => ?_
    split
    · exact .done (emit_gives.next (complete_gives.next pushValue_gives))
    · exact fail_gives
  · exact fail_gives

/-! ## Composite literals -/

theorem literalLayout_gives {ty : Ty} :
    Gives g .kept .kept (literalLayout ty len keys p) := by
  have elements {n : Nat} {f : List Taken → List Ty} {layout : Layout} : Gives g .kept .kept
      (do let vs ← popValues n p; checkElements p (f vs) vs; return layout) :=
    popValues_gives.next (checkElements_keeps.gives.next (.ret trivial))
  unfold literalLayout
  split
  · exact elements
  · exact fail_gives
  · exact elements
  · exact .check
  · exact .unless fun _ => elements
  · exact literalFields_keeps.gives.next elements
  · exact fail_gives
  · exact fail_gives

/-- A literal of any type. -/
theorem composite_gives {e : TypeExpr} : Gives g .kept .kept (composite e len keys p) := by
  refine .done (resolveType_keeps.gives.next (complete_gives.next (literalLayout_gives.seq fun _ _ => ?_)))
  exact typeSlot_gives.next (emit_gives.next pushValue_gives)

/-! ## Stores into parts -/

theorem place_gives : Gives g .kept .kept (place name p) := by
  refine resolve_gives.seq fun ⟨key, sym⟩ _ => .unless fun _ => varSlot_gives.seq fun _ _ => ?_
  refine complete_gives.seq fun _ _ => ?_
  split
  · exact .done (emit_gives.next (pushOperand_gives rfl))
  · exact .done (emit_gives.next (pushOperand_gives rfl))
  · exact fail_gives

theorem fieldAssign_gives {path : List String} : Gives g .kept .kept (fieldAssign path p) := by
  refine .done (popValue_gives.seq fun v hv => ?_)
  refine Triple.read fun s hs => ?_
  split
  · rename_i t stack hpop
    refine Triple.seq (Q := fun _ => At g .begun)
      (Triple.write fun _ _ => hs.fewer (OperandStack.mem_of_pop? hpop)) fun _ => ?_
    exact fieldPath_keeps.gives.next ((coerce_gives hv).next emit_gives)
  · exact Triple.raise fun t ht => ht ▸ hs.sound

theorem indexAssign_gives : Gives g .kept .kept (indexAssign p) := by
  refine .done (popValue_gives.seq fun v hv => popValue_gives.start.seq fun i hi => ?_)
  refine popValue_gives.start.seq fun c _ => complete_gives.seq fun _ _ => ?_
  split
  · exact checkIndex_keeps.gives.next ((coerce_gives hv).next emit_gives)
  · exact (coerce_gives hi).next ((coerce_gives hv).next emit_gives)
  · exact fail_gives
  · exact .ite (fun _ => emit_gives) fun _ => fail_gives

theorem coerceTarget_gives (hv : g.Above v.known) : Gives g m m (coerceTarget v t p) := by
  unfold coerceTarget
  split
  · exact coerce_gives hv
  · exact .check

theorem derefAssign_gives : Gives g .kept .kept (derefAssign p) := by
  refine .done (popValue_gives.seq fun v hv => popValue_gives.start.seq fun q _ => complete_gives.seq fun _ _ => ?_)
  exact (coerceTarget_gives hv).next emit_gives

end Goblet.Compile
