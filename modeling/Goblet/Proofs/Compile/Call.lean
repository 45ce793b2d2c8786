import Goblet.Proofs.Compile.Expression

/-!
# Calls are compiled above the ground

Calls, conversions and built-in functions keep the invariant of the compiler. A call of a function that has no body yet
is an open jump of the chunk (`callTo_gives`); a constant that is converted, or a text whose length is taken, was loaded
by code of the chunk (`conversion_gives`, `extent_gives`).
-/

namespace Goblet.Compile

variable {g : Ground} {m : Stage} {p : Pos} {t : Ty} {sig : FuncType} {argc : Nat} {spread : Bool} {key : String}
  {b : Builtin}

/-! ## Functions -/

theorem coerceArgs_gives {fixed : Nat} {rest : Ty} {above : Nat} : ∀ {vs : List Taken} {k : Nat},
    (∀ v ∈ vs, g.Above v.known) → Gives g m m (coerceArgs sig fixed rest above p k vs)
  | [], _, _ => .ret trivial
  | v :: _, _, h => (coerce_gives (h v (.head _))).seq fun _ _ =>
      coerceArgs_gives fun w hw => h w (.tail _ hw)

theorem callArgs_gives {args : List Taken} {above : Nat} (h : ∀ v ∈ args, g.Above v.known) :
    Gives g m m (callArgs sig args spread above p) :=
  .unless fun _ => .unless fun _ => coerceArgs_gives h

theorem pushResults_gives {ts : List Ty} : Gives g .begun .begun (pushResults ts) := by
  induction ts with
  | nil => exact .ret trivial
  | cons t ts ih => exact complete_gives.next (pushValue_gives.next ih)

theorem entryOf?_gives : Gives g m m (entryOf? key) := by
  refine lookup_gives.seq fun o _ => ?_
  split
  · exact .ret trivial
  · exact .ret trivial

theorem collectArgs_gives : Gives g m m (collectArgs sig argc spread p) :=
  .ite (fun _ => typeSlot_gives.next emit_gives.done) fun _ => .ret trivial

/-- A call to a function not yet compiled stays open. -/
theorem callTo_gives {site : Nat} (hs : g.program.code.size ≤ site) : Gives g m m (callTo site key p) := by
  refine entryOf?_gives.seq fun o _ => ?_
  split
  · exact patch_gives hs
  · exact addJump_gives hs

theorem callNamed_gives : Gives g .kept .kept (callNamed key sig argc spread p) := by
  refine .done (popValues_gives.seq fun args hargs => (callArgs_gives hargs).seq fun _ _ => ?_)
  refine collectArgs_gives.next (emitSite_gives.seq fun site hsite => (callTo_gives hsite.1).seq fun _ _ => ?_)
  exact pushResults_gives

theorem callValue_gives : Gives g .kept .kept (callValue sig argc spread p) :=
  .done (popValues_gives.seq fun _ hargs => (callArgs_gives hargs).next
    (emit_gives.next pushResults_gives))

/-! ## Conversions -/

theorem At.withStore {s : CompileState} (h : At g m s) (store : Store) : At g m { s with store := store } :=
  have hs := h.sound
  h.change ⟨hs.program, hs.entry, hs.inside, hs.known, hs.jumps, hs.funcs, hs.tidy, hs.since, hs.scopes, hs.keys,
    hs.formed⟩
    (Nat.le_refl _) id

theorem convertConstant_gives {v : Value} : Gives g m m (convertConstant v t p) :=
  (convertConstant_keeps fun _ h hs => hs.withStore h).gives

theorem convertible?_gives {v : Taken} (hv : g.Above v.known) : Gives g m m (convertible? t v) g.Above :=
  .ite (fun _ => trailing?_gives hv) fun _ => .ret nofun

/-- A conversion folds only its own constant. -/
theorem conversion_gives : Gives g .kept .kept (conversion t argc spread p) := by
  refine .unless fun _ => .done (popValue_gives.seq fun v hv => ?_)
  refine (convertible?_gives hv).seq fun o ho => ?_
  split
  · exact convertConstant_gives.next (recompute_gives (ho _ rfl))
  · exact typeSlot_gives.next (emit_gives.next pushValue_gives)

/-! ## Built-in functions -/

theorem checkArity_gives {least : Nat} {most : Option Nat} : Gives g m m (checkArity b argc least most p) := by
  refine .unless fun _ => ?_
  split
  · exact .unless fun _ => .ret trivial
  · exact .ret trivial

theorem extent_gives : Gives g .kept .kept (extent b argc p) := by
  refine .done (checkArity_gives.next (popValue_gives.seq fun v hv => .unless fun _ => ?_))
  refine (trailing?_gives hv).seq fun o ho => ?_
  split
  · exact recompute_gives (ho _ rfl)
  · exact emit_gives.next pushValue_gives

theorem coerceElements_gives {elem : Ty} : ∀ {vs : List Taken}, (∀ v ∈ vs, g.Above v.known) →
    Gives g m m (coerceElements elem p vs)
  | [], _ => .ret trivial
  | v :: _, h => (coerce_gives (h v (.head _))).seq fun _ _ =>
      coerceElements_gives fun w hw => h w (.tail _ hw)

theorem checkAppended_gives {base elem : Ty} {more : List Taken} (h : ∀ v ∈ more, g.Above v.known) :
    Gives g m m (checkAppended base elem more spread p) := by
  refine .ite (fun _ => ?_) fun _ => coerceElements_gives h
  split
  · exact .unless fun _ => .ret trivial
  · exact fail_gives

theorem append_gives : Gives g .kept .kept (append argc spread p) := by
  refine .done (checkArity_gives.next (popValues_gives.seq fun vs hvs => ?_))
  split
  · exact fail_gives
  · refine complete_gives.next (appendElem_keeps.gives.seq fun _ _ => ?_)
    refine (checkAppended_gives fun v hv => hvs v (.tail _ hv)).seq fun _ _ => ?_
    exact emit_gives.next pushValue_gives

theorem checkSizes_gives : ∀ {os : List Operand}, (∀ o ∈ os, g.Above o.known?) →
    Gives g m m (checkSizes p os)
  | [], _ => .ret trivial
  | o :: _, h => (expectValue_gives (h o (.head _))).seq fun _ _ =>
      .ite (fun _ => checkSizes_gives fun w hw => h w (.tail _ hw)) fun _ => fail_gives

theorem makeOf_gives {sizes : List Operand} (h : ∀ o ∈ sizes, g.Above o.known?) : Gives g m .begun (makeOf t sizes p) :=
  (checkSizes_gives h).next (typeSlot_gives.next (emit_gives.next pushValue_gives))

theorem make_gives : Gives g .kept .kept (make argc p) := by
  refine .done (checkArity_gives.next (popOperands_gives.seq fun os hos => ?_))
  split
  · exact .unless fun _ => makeOf_gives fun o ho => hos o (.tail _ ho)
  · exact makeOf_gives fun o ho => hos o (.tail _ ho)
  · exact fail_gives
  · exact fail_gives

theorem new_gives : Gives g .kept .kept (new argc p) := by
  refine checkArity_gives.next (popAny_gives.seq fun o _ => ?_)
  split
  · refine .done (typeSlot_gives.next (emit_gives.next (emit_gives.seq fun _ _ => ?_)))
    exact pushValue_gives
  · exact fail_gives

theorem coerceKey_gives {k : Taken} (hk : g.Above k.known) : Gives g m m (coerceKey t k p) := by
  unfold coerceKey
  split
  · exact coerce_gives hk
  · exact .check

theorem delete_gives : Gives g .kept .kept (delete argc p) := by
  refine .done (checkArity_gives.next (popValues_gives.seq fun vs hvs => ?_))
  split
  · refine complete_gives.next ((coerceKey_gives (hvs _ ?_)).next emit_gives)
    exact .tail _ (.head _)
  · exact fail_gives

/-- Every builtin stays above the ground. -/
theorem callBuiltin_gives : Gives g .kept .kept (callBuiltin b argc spread p) := by
  refine .unless fun _ => ?_
  split
  · exact extent_gives
  · exact extent_gives
  · exact append_gives
  · exact make_gives
  · exact new_gives
  · exact delete_gives
  · exact .done (checkArity_gives.next (popValue_gives.next emit_gives))

/-- So does every kind of call. -/
theorem call_gives : Gives g .kept .kept (call argc spread p) := by
  refine popAny_gives.seq fun o _ => ?_
  split
  · exact callNamed_gives
  · exact callValue_gives
  · exact conversion_gives
  · exact callBuiltin_gives
  · exact fail_gives

end Goblet.Compile
