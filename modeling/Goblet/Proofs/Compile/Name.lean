import Goblet.Proofs.Compile.Ground

/-!
# Names keep their slots

Storage is only ever given to keys that had none (`allocVar_gives`, `materialize_gives`), and a variable that is
declared again keeps the place it has (`declareVar_gives`). So loads, stores and declarations of names keep the
invariant of the compiler.
-/

namespace Goblet

theorem Ty.zero_ne_type (t u : Ty) : t.zero ≠ .type u := by
  intro h
  cases t <;> cases h

theorem Frame.varScope : ∀ {frames : List Frame}, (∀ f ∈ frames, f.Formed) → Frame.funcs frames = [] →
    VarScope (Frame.scopeOf frames)
  | [], _, _ => .inl rfl
  | .block _ :: _, h, _ => .inr (h _ (.head _))

namespace Compile

variable {g : Ground} {m : Stage} {p : Pos} {name key : String} {t : Ty} {init : Bool} {addr : Address}

/-! ## Storage -/

/-- An address that no symbol has, fit for a variable. -/
structure Unclaimed (g : Ground) (s : CompileState) (addr : Address) : Prop where
  resolved : addr ≠ .unresolved
  slot : ∀ i, addr = .global i → Frame.funcs g.frames = [] ∧ g.program.data.size ≤ i ∧ i < s.program.data.size ∧
    i ∉ s.program.constants ∧ (∀ k u, s.symbols.lookup? k = some u → u.addr ≠ .global i) ∧
    ∀ ty, s.program.data[i]? ≠ some (.type ty)

theorem allocVar_gives :
    Triple (At g m) (allocVar t) (fun addr s => Unclaimed g s addr ∧ At g m s) fun _ => Sound g := by
  refine Triple.read fun s hs => ?_
  split
  · rename_i f fs hf
    refine Triple.seq (Triple.write fun _ _ => ?_) fun _ => Triple.ret fun t ht => ⟨?_, ht⟩
    · have h := hs.sound
      refine hs.change ⟨h.program, h.entry, h.inside, h.known, h.jumps, fun f' hf' => ?_, h.tidy, h.since, h.scopes,
        ?_, h.formed⟩ (Nat.le_refl _) id
      · rcases List.mem_cons.mp hf' with rfl | hf'
        · exact h.funcs f (hf ▸ (.head _))
        · exact h.funcs f' (hf ▸ .tail _ hf')
      · rw [← h.keys, hf]
        rfl
    · exact ⟨nofun, nofun⟩
  · rename_i hf
    have hkeys : Frame.funcs g.frames = [] := by rw [← hs.sound.keys, hf]; rfl
    refine Triple.seq (Q := fun _ u => u = { s with program := (s.program.alloc t.zero).2 })
      (Triple.write fun _ _ => rfl) fun _ => Triple.ret fun u hu => ?_
    subst hu
    have htidy := hs.sound.tidy
    refine ⟨⟨nofun, fun i hi => ?_⟩, hs.change (hs.sound.withProgram (hs.sound.program.alloc _)
      hs.sound.entry hs.sound.inside (htidy.alloc _)) (Nat.le_refl _) id⟩
    cases hi
    refine ⟨hkeys, hs.sound.program.dataSize, ?_, htidy.fresh_text, fun k u hu => htidy.fresh_slot hu, fun ty => ?_⟩
    · simp [Program.alloc]
    · simp [Program.alloc, Ty.zero_ne_type]

theorem addVar_gives (hlit : ¬LitKey key)
    (hglobal : ∀ i, addr = .global i → Frame.funcs g.frames = [] → GlobalKey key)
    (hold : GlobalKey key ∨ FuncKey key → g.symbols.lookup? key = none) :
    Triple (fun s => Unclaimed g s addr ∧ At g m s) (addSymbol key ⟨.var, addr, t, none⟩)
      (fun _ s => True ∧ At g m s) (fun _ => Sound g) := by
  refine Triple.update fun s hs => ⟨trivial, ?_⟩
  obtain ⟨hu, hs⟩ := hs
  refine hs.change (hs.sound.withSymbols ?_ ?_) (Nat.le_refl _) id
  · refine hs.sound.tidy.add ⟨fun i hi => ?_, fun hl => absurd hl hlit, fun _ => ⟨hu.resolved, fun i hi => ?_⟩,
      nofun⟩
    · obtain ⟨-, -, hlt, htext, hfree, hty⟩ := hu.slot i hi
      exact ⟨hlt, htext, fun l u _ => hfree l u, fun _ => hty⟩
    · exact hglobal i hi (hu.slot i hi).1
  · refine hs.sound.since.replace (SymbolTable.lookup?_add _ _ _) (fun s0 h0 => ⟨nofun, fun hk => ?_⟩)
      fun _ i hi => (hu.slot i hi).2.1
    rw [hold hk] at h0
    cases h0

theorem slotOf_gives : Gives g m m (slotOf addr name p) := by
  unfold slotOf
  split
  · exact .ret trivial
  · exact fail_gives

theorem declareVar_gives (hn : VarName name) : Gives g m m (declareVar name t p) := by
  refine scope_gives.seq fun sc ⟨hsc, hformed⟩ => ?_
  rw [hsc, SymbolTable.qualify_eq (Frame.scopeOf_ne hformed) name]
  refine lookup_gives.seq fun existing hfound => ?_
  split
  · refine .unless fun _ => slotOf_gives.seq fun slot _ => .unless fun _ => ?_
    exact .ite (fun _ => retype_gives.next (.ret trivial)) fun _ => .ret trivial
  · refine allocVar_gives.seq fun addr => ?_
    refine (addVar_gives (LitKey.ne_var hn) (fun _ _ hf => ?_) fun _ => hfound.absent).seq fun _ s hs =>
      slotOf_gives s hs.2
    exact ⟨_, _, Frame.varScope hformed hf, hn, rfl⟩

theorem varSlot_gives {sym : Symbol} : Gives g m m (varSlot key sym name p) := by
  unfold varSlot
  split
  · exact .ret trivial
  · refine .read fun s _ => ?_
    split
    · exact .check
    · exact fail_gives
  · exact fail_gives

/-- A function or host value that is put into a data slot had none before. -/
theorem materialize_gives : Gives g m m (materialize key p) := by
  refine Triple.read fun s hs => ?_
  have htidy := hs.sound.tidy
  cases hk : s.symbols.lookup? key with
  | none => exact Triple.raise fun t ht => ht ▸ hs.sound
  | some sym =>
    dsimp only
    split
    · exact Triple.ret fun t ht => ht ▸ ⟨trivial, hs⟩
    · rename_i ha
      -- a variable has a place, and so has a function of an earlier chunk
      have hvar : sym.kind ≠ .var := fun hv => (htidy.var key sym hk hv).1 ha
      have hfunc : sym.kind = .func → sym.value = none ∧ g.owed key := fun hf =>
        (htidy.func key sym hk hf).2.resolve_right fun ⟨_, _, _, h⟩ => (nomatch ha.symm.trans h)
      refine Triple.seq (Triple.write fun _ _ => ?_) fun _ => Triple.ret fun t ht => ⟨trivial, ht⟩
      have halloc := hs.sound.withProgram (hs.sound.program.alloc (sym.value.getD .nil)) hs.sound.entry
        hs.sound.inside (htidy.alloc _)
      refine hs.change (halloc.withSymbols (halloc.tidy.modify hk ?_) ?_) (Nat.le_refl _) id
      · refine ⟨fun i hi => ?_, fun hl => htidy.lit key sym hk hl, fun hv => absurd hv hvar, fun hf =>
          ⟨(htidy.func key sym hk hf).1, .inl (hfunc hf)⟩⟩
        cases hi
        refine ⟨by simp [Program.alloc], htidy.fresh_text, fun l u _ hu => htidy.fresh_slot hu, fun hst ty => ?_⟩
        have hval := (hfunc (hst.resolve_left hvar)).1
        simp [Program.alloc, hval]
      · refine hs.sound.since.replace (SymbolTable.lookup?_modify_of hk) (fun s0 h0 => ?_) fun _ i hi => ?_
        · obtain ⟨sym', hk', hval, -⟩ := hs.sound.since.old key s0 h0
          cases hk.symm.trans hk'
          have hnf : sym.kind ≠ .func := fun hf => by
            have := hval hf
            rw [(hfunc hf).1] at this
            cases this
          exact ⟨fun hf => absurd hf hnf, fun _ hst => absurd hst (not_or.mpr ⟨hvar, hnf⟩)⟩
        · cases hi
          exact hs.sound.program.dataSize
    · exact Triple.raise fun t ht => ht ▸ hs.sound

/-! ## Loads and stores -/

theorem identifier_gives {called : Bool} : Gives g .kept .kept (identifier name called p) := by
  have load {key : String} {sym : Symbol} : Gives g .kept .kept (identifier.loadValue p key sym) :=
    .done (materialize_gives.next (emit_gives.next pushValue_gives))
  refine resolve_gives.seq fun ⟨key, sym⟩ _ => ?_
  dsimp only
  split
  · exact .done (varSlot_gives.next (emit_gives.next pushValue_gives))
  · exact constant_gives.done
  · exact pushOperand_gives rfl
  · split
    · exact pushOperand_gives rfl
    · exact fail_gives
  · exact pushOperand_gives rfl
  · exact fail_gives
  · split
    · split
      · exact pushOperand_gives rfl
      · exact fail_gives
    · exact load
  · exact load

theorem define_gives (hn : VarName name) : Gives g .kept .kept (define name p) := by
  refine .done (popValue_gives.seq fun v _ => .ite (fun _ => emit_gives) fun _ => .unless fun _ => ?_)
  exact (declareVar_gives hn).next emit_gives

theorem assign_gives : Gives g .kept .kept (assign name p) := by
  refine .done (popValue_gives.seq fun v hv => .ite (fun _ => emit_gives) fun _ => ?_)
  refine resolve_gives.seq fun ⟨key, sym⟩ _ => ?_
  dsimp only
  split
  · exact (coerce_gives hv).next (varSlot_gives.next emit_gives)
  · exact fail_gives
  · exact fail_gives

theorem declaredType_gives {declared : Option Ty} :
    Gives g .kept .kept (declaredType declared init p) := by
  refine .ite (fun _ => .done (popValue_gives.seq fun v hv => ?_)) fun _ => ?_
  · split
    · exact (coerce_gives hv).next (.ret trivial)
    · exact .unless fun _ => .ret trivial
  · split
    · exact .ret trivial
    · exact fail_gives

theorem loadZero_gives : Gives g m .begun (loadZero t p) :=
  typeSlot_gives.next emit_gives

theorem declare_gives {ty : Option TypeExpr} (hn : VarName name) :
    Gives g .kept .kept (declare name ty init p) := by
  refine resolveType?_keeps.gives.seq fun declared _ => declaredType_gives.seq fun t _ => .ite (fun _ => ?_) fun _ => ?_
  · exact .ite (fun _ => emit_gives.done) fun _ => .ret trivial
  · refine (declareVar_gives hn).seq fun slot _ => ?_
    exact .ite (fun _ => loadZero_gives.next emit_gives.done) fun _ => emit_gives.done

end Compile

end Goblet
