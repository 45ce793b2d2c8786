import Goblet.Proofs.Compile.Call

/-!
# Declarations, functions and loops are compiled above the ground

A function that is declared has no meaning where the chunk began (`funcHeader_gives`), so the data slot that its body
overwrites is one of the chunk (`funcSlot_gives`). The body moves the ground: into the frame of the function
(`funcBegin_gives`), and out of it again with a new entry (`funcEnd_gives`).
-/

namespace Goblet.Compile

open List SymbolTable Triple

variable {g : Ground} {m : Stage} {p : Pos} {name key : String} {t : Ty} {sig : Signature} {stack : OperandStack}
variable {q : Pos} {iota : Int64} {define : Bool} {ty : Option TypeExpr} {owed : String → Prop}
  {frames : List Frame}

/-! ## Imports, types and constants -/

theorem imports_gives {r : Registry} {path : String} : Gives g m m (imports r name path p) :=
  .ite (fun _ => addSymbol_gives (Symbol.not_stored nofun nofun) rfl fun _ => rfl)
    fun _ => fail_gives

theorem typeDef_gives {e : TypeExpr} (hn : VarName name) : Gives g m m (typeDef name e p) := by
  refine scope_gives.seq fun sc ⟨hsc, hformed⟩ => ?_
  rw [hsc, qualify_eq (Frame.scopeOf_ne hformed) name]
  have add {t : Ty} : Gives g m m (addSymbol (Frame.scopeOf g.frames ++ "/" ++ name) ⟨.type, .unresolved, t, none⟩) :=
    addSymbol_gives (Symbol.not_stored nofun nofun) rfl fun h => absurd h (LitKey.ne_var hn)
  exact add.next (resolveType_keeps.gives.next add)

theorem constDecl_gives {expr : List Step} : Gives g m m (constDecl name ty expr iota p) := by
  refine (constValue_keeps fun _ h hs => hs.withStore h).gives.seq fun ⟨v, t⟩ _ => .ite (fun _ => .ret trivial) fun _ =>
    scope_gives.seq fun _ _ => ?_
  refine lookup_gives.next (.ite (fun _ => ?_) fun _ => fail_gives)
  exact addSymbol_gives (Symbol.not_stored nofun nofun) rfl fun _ => rfl

/-! ## Functions -/

theorem funcHeader_gives (hkey : ∃ n, IsWord n ∧ key = Place.mainScope ++ "/" ++ n)
    (howed : g.owed key) : Gives g m m (funcHeader key sig p) fun _ => g.symbols.lookup? key = none := by
  obtain ⟨n, hn, rfl⟩ := hkey
  have add {t : Ty} (hnew : g.symbols.lookup? (Place.mainScope ++ "/" ++ n) = none) : Gives g m m
      (addSymbol (Place.mainScope ++ "/" ++ n) ⟨.func, .unresolved, t, none⟩)
      fun _ => g.symbols.lookup? (Place.mainScope ++ "/" ++ n) = none := by
    refine update fun s hs => ⟨hnew, hs.change (hs.sound.withSymbols ?_ ?_) (Nat.le_refl _) id⟩
    · exact hs.sound.tidy.add ⟨nofun, fun hl => absurd hl (LitKey.ne_var (.inl hn)),
        nofun, fun _ => ⟨.inr ⟨n, hn, rfl⟩, .inl ⟨rfl, howed⟩⟩⟩
    · exact hs.sound.since.replace (lookup?_add _ _ _) (fun _ h0 => nomatch hnew.symm.trans h0)
        nofun
  refine resolveSig_gives.seq fun f _ => lookup_gives.seq fun r hr => ?_
  split
  · refine add ?_
    cases h0 : g.symbols.lookup? (Place.mainScope ++ "/" ++ n) with
    | none => rfl
    | some s0 =>
      obtain ⟨s, hs, hv⟩ := hr.old s0 h0
      cases hs
      cases hv rfl
  · exact add hr.absent
  · exact fail_gives

/-- A data slot that belongs to a key, or to none yet. -/
structure Owns (g : Ground) (key : String) (s : CompileState) (i : Nat) : Prop where
  new : g.program.data.size ≤ i
  inside : i < s.program.data.size
  text : i ∉ s.program.constants
  apart : ∀ l u, l ≠ key → s.symbols.lookup? l = some u → u.addr ≠ .global i
  value : ∀ ty, s.program.data[i]? ≠ some (.type ty)

/-- A function's value is kept in one slot. -/
theorem funcSlot_gives {entry : Nat} (hnew : g.symbols.lookup? key = none) :
    Triple (At g m) (funcSlot key entry) (fun i s => Owns g key s i ∧ At g m s) fun _ => Sound g := by
  refine Triple.read fun s hs => ?_
  have htidy := hs.sound.tidy
  split
  · rename_i kind i ty v hk
    have hi := hs.sound.since.new key _ i hnew hk rfl
    have hslot := htidy.slot key _ i hk rfl
    refine Triple.seq (Q := fun _ u => u = { s with program.data := s.program.data.setIfInBounds i (.func entry) })
      (Triple.write fun _ _ => rfl) fun _ => Triple.ret fun u hu => ?_
    subst hu
    refine ⟨⟨hi, by simpa using hslot.1, hslot.2, fun l u hl hu hj => hl (htidy.apart l key u _ i hu hk hj rfl),
      ?_⟩, ?_⟩
    · simp [hslot.1]
    · exact hs.change (hs.sound.withProgram (hs.sound.program.store hi _) hs.sound.entry hs.sound.inside
        (htidy.store i nofun)) (Nat.le_refl _) id
  · refine Triple.seq (Q := fun _ u => u = { s with program := (s.program.alloc (.func entry)).2 })
      (Triple.write fun _ _ => rfl) fun _ => Triple.ret fun u hu => ?_
    subst hu
    refine ⟨⟨hs.sound.program.dataSize, ?_, htidy.fresh_text, fun l u _ hu => htidy.fresh_slot hu, ?_⟩, ?_⟩
    · simp [Program.alloc]
    · simp [Program.alloc]
    · exact hs.change (hs.sound.withProgram (hs.sound.program.alloc _) hs.sound.entry hs.sound.inside
        (htidy.alloc _)) (Nat.le_refl _) id

theorem addFunc_gives {i entry : Nat} (hkey : FuncKey key)
    (hnew : g.symbols.lookup? key = none) (howed : ∀ k, k ≠ key → g.owed k → owed k) :
    Triple (fun s => Owns g key s i ∧ At g m s) (addSymbol key ⟨.func, .global i, t, some (.func entry)⟩)
      (fun _ s => At { g with owed := owed } m s) (fun _ => Sound g) := by
  refine update fun s ⟨ho, hs⟩ => ?_
  have hlook := lookup?_add s.symbols key ⟨.func, .global i, t, some (.func entry)⟩
  have htidy : Tidy g.owed (s.symbols.add key ⟨.func, .global i, t, some (.func entry)⟩) s.program.data
      s.program.constants := by
    refine hs.sound.tidy.add ⟨fun j hj => ?_, fun _ => rfl, nofun, fun _ => ⟨hkey, .inr ⟨_, _, rfl, rfl⟩⟩⟩
    cases hj
    exact ⟨ho.inside, ho.text, ho.apart, fun _ => ho.value⟩
  have hsince := hs.sound.since.replace hlook (fun _ h0 => nomatch hnew.symm.trans h0)
    fun _ j hj => by cases hj; exact ho.new
  have h := hs.sound.withSymbols htidy hsince
  refine hs.move ⟨h.program, h.entry, h.inside, h.known, h.jumps, h.funcs, ?_, h.since, h.scopes, h.keys,
    h.formed⟩ rfl (Nat.le_refl _) id
  refine htidy.weaken fun k sym hk _ hv ho => ?_
  refine howed k (fun he => ?_) ho
  rw [hlook, if_pos he] at hk
  cases hk
  cases hv

theorem addParams_gives (hkey : FuncKey key) : ∀ {params : List (Option String × Ty)} {offset : Int},
    (∀ n t, (some n, t) ∈ params → IsWord n) → Gives g m m (addParams key offset params) fun _ => True
  | [], _, _ => .ret trivial
  | (name, t) :: params, offset, h => by
    refine (addParams_gives hkey fun n t hn => h n t (.tail _ hn)).seq fun _ _ => ?_
    split
    · rename_i n
      have hn : VarName n := .inl (h n t (.head _))
      refine .ite (fun _ => ?_) fun _ => .ret trivial
      rw [qualify_eq hkey.ne_empty]
      refine weaken (addVar_gives (LitKey.ne_var hn) (fun _ h _ => (nomatch h)) fun hk => ?_)
        (fun s hs => ⟨⟨nofun, nofun⟩, hs⟩) (fun _ _ hs => hs) fun _ _ hs => hs
      exact (hk.elim (hkey.param hn).1 (hkey.param hn).2).elim
    · exact .ret trivial

theorem zeroSlot_gives {addr : Address} : Gives g .begun .begun (zeroSlot addr t p) := by
  unfold zeroSlot
  split
  · exact loadZero_gives.next emit_gives
  · exact .ret trivial

/-- Named results are locals set to zero. -/
theorem addResults_gives (hf : g.frames = .func key :: frames) (hkey : FuncKey key) :
    ∀ {results : List (Option String × Ty)}, (∀ n t, (some n, t) ∈ results → IsWord n) →
      Gives g .begun .begun (addResults key p results)
  | [], _ => .ret trivial
  | (none, _) :: results, h =>
    show Gives g .begun .begun (addResults key p results) _ from
      addResults_gives hf hkey fun n t hn => h n t (.tail _ hn)
  | (some n, t) :: results, h => by
    have hn : VarName n := .inl (h n t (.head _))
    have rest {addr : Address} : Gives g .begun .begun (do zeroSlot addr t p; addResults key p results) :=
      zeroSlot_gives.next (addResults_gives hf hkey fun n t hn => h n t (.tail _ hn))
    refine allocVar_gives.seq fun addr => ?_
    refine ite (fun _ => ?_) fun _ => fun s hs => rest s hs.2
    rw [qualify_eq hkey.ne_empty]
    refine (addVar_gives (LitKey.ne_var hn) (fun _ _ he => ?_) fun hk => ?_).seq fun _ s hs => rest s hs.2
    · rw [hf] at he
      cases he
    · exact (hk.elim (hkey.param hn).1 (hkey.param hn).2).elim

theorem skipBody_gives {atEntry : Bool} :
    Gives g m m (skipBody atEntry p) fun o => ∀ i, o = some i → g.program.code.size ≤ i :=
  .ite (fun _ => .ret nofun) fun _ => .done (emitSite_gives.seq fun i hi =>
    .ret fun _ h => by cases h; exact hi.1)

theorem isWord_of_zip {params : List (Option String × TypeExpr)} {ts : List Ty} {n : String}
    (h : ∀ n t, (some n, t) ∈ params → IsWord n) (hm : (some n, t) ∈ (params.map (·.1)).zip ts) : IsWord n := by
  obtain ⟨⟨_, e⟩, he, rfl⟩ := mem_map.mp (of_mem_zip hm).1
  exact h n e he

/-- **The body of a function is entered**, with a data slot above the ground. -/
theorem funcBegin_gives
    (hkey : LitKey key ∨ FuncKey key ∧ g.symbols.lookup? key = none) (hsig : sig.Named)
    (howed : ∀ k, k ≠ key → g.owed k → owed k) :
    Triple (At g .kept) (funcBegin key sig p)
      (fun _ s => At { g with frames := .func key :: g.frames, owed := owed } .kept s)
      fun _ s => g.program.Extends s.program := by
  have hfunc : FuncKey key := hkey.elim .inl (·.1)
  refine resolveSig_gives.leads fun f _ => lookup_gives.leads fun existing hfound => ?_
  refine ite (fun _ => raise fun _ hs => hs.sound.program) fun hnone => ?_
  have hnew : g.symbols.lookup? key = none := by
    refine hkey.elim (fun hl => ?_) (·.2)
    cases existing with
    | none => exact hfound.absent
    | some sym => exact absurd (hfound.lit hl sym rfl) hnone
  refine read fun s hs => fixed ?_ hs
  refine skipBody_gives.leads fun skip hskip => codeSize_gives.leads fun entry _ => ?_
  refine seq (weaken (funcSlot_gives hnew) (fun _ hs => hs) (fun _ _ hs => hs) fun _ _ hs => hs.program)
    fun slot => ?_
  refine seq (weaken (addFunc_gives hfunc hnew howed) (fun _ hs => hs) (fun _ _ hs => hs)
    fun _ _ hs => hs.program) fun _ => ?_
  refine (addParams_gives hfunc fun n t hn => ?_).leads fun _ _ => emitSite_gives.leads fun grow hgrow => ?_
  · exact isWord_of_zip (fun n t hn => hsig n t (mem_append_left _ hn)) (mem_reverse.mp hn)
  refine seq (Q := fun _ => At { g with frames := .func key :: g.frames, owed := owed } .begun)
    (update fun s hs => ?_) fun _ => ?_
  · have h := hs.sound
    refine hs.move ⟨h.program, h.entry, h.inside, h.known, h.jumps, fun f' hf' => ?_, h.tidy, h.since, ?_, ?_,
      fun f' hf' => ?_⟩ rfl (Nat.le_refl _) id
    · rcases mem_cons.mp hf' with rfl | hf'
      · exact ⟨hgrow.1, hskip⟩
      · exact h.funcs f' hf'
    · rw [h.scopes]
      rfl
    · rw [map_cons, h.keys]
      rfl
    · rcases mem_cons.mp hf' with rfl | hf'
      · exact hfunc
      · exact h.formed f' hf'
  · refine weaken (addResults_gives rfl hfunc fun n t hn => ?_) (fun _ hs => hs) (fun _ _ hs => hs.2.weaken)
      fun _ _ hs => hs.program
    exact isWord_of_zip (fun n t hn => hsig n t (mem_append_right _ hn)) hn

theorem known_forget {o : Operand} (ho : o ∈ stack.forget.items) : g.Above o.known? := by
  obtain ⟨o', -, rfl⟩ := mem_map.mp ho
  have : o'.forget.known? = none := by cases o' <;> rfl
  rw [this]
  exact nofun

theorem isValue_forget {stack stack' : OperandStack} (h : ∀ o ∈ stack'.items, o ∈ stack.items) :
    (∃ o ∈ stack'.forget.items, o.isValue) → ∃ o ∈ stack.items, o.isValue := by
  rintro ⟨o, ho, hv⟩
  obtain ⟨o', ho', rfl⟩ := mem_map.mp ho
  exact ⟨o', h o' ho', by cases o' <;> first | rfl | cases hv⟩

/-- Closing a body leaves what was there before it. -/
theorem Sound.close {s : CompileState} (h : Sound g s) (hf : g.frames = .func key :: frames)
    {e : Nat} (he : e ≤ s.program.code.size) {fs : List OpenFunc} (hkeys : fs.map (·.key) = Frame.funcs frames)
    (hfs : ∀ f ∈ fs, g.program.code.size ≤ f.growSite ∧ ∀ i, f.skipSite = some i → g.program.code.size ≤ i)
    {marks : List Nat} {last : Option Nat} :
    Sound { g with frames := frames, entry := e } { s with
      program.entry := e, funcs := fs, stack := stack.forget, marks := marks, scopes := s.scopes.drop 1,
      lastLabel := last } := by
  refine ⟨h.program.withEntry e, rfl, he, fun o ho => known_forget ho, h.jumps, hfs, h.tidy, h.since, ?_, hkeys,
    fun f hm => h.formed f (hf ▸ .tail _ hm)⟩
  rw [h.scopes, hf]
  rfl

/-- **The body of a function is left.** -/
theorem funcEnd_gives (hf : g.frames = .func key :: frames) :
    Triple (At g .kept) (funcEnd p) (fun _ s => ∃ e, At { g with frames := frames, entry := e } .kept s)
      fun _ s => g.program.Extends s.program := by
  refine read fun s hs => ?_
  split
  · exact raise fun t ht => ht ▸ hs.sound.program
  · rename_i f fs hfuncs
    have hkeys := hs.sound.keys
    rw [hfuncs, hf] at hkeys
    have hkeys : fs.map (·.key) = Frame.funcs frames := (List.cons.inj hkeys).2
    have hown := hs.sound.funcs f (hfuncs ▸ (.head _))
    have hfs := fun f' hf' => hs.sound.funcs f' (hfuncs ▸ mem_cons_of_mem f hf')
    refine fixed ?_ hs
    refine emit_gives.leads fun _ _ => (replaceOp_gives hown.1).leads fun _ _ => read fun u hu => ?_
    have hcut : ∀ (v : CompileState), ∀ o ∈ (v.stack.truncate f.stackBase).items, o ∈ v.stack.items :=
      fun v o ho => mem_of_mem_drop ho
    unfold skipTo
    split
    · rename_i site hsite
      refine fixed ?_ hu
      refine (patch_gives (hown.2 site hsite)).leads fun _ _ => update fun v hv => ⟨v.program.entry, ?_⟩
      exact (hv.move (hv.sound.close hf (hv.sound.entry ▸ hv.sound.inside) hkeys hfs) rfl (Nat.le_refl _)
        (isValue_forget (hcut v))).weaken
    · refine seq (Q := fun _ v => v = { u with program.entry := u.program.code.size })
        (update fun v hv => by rw [hv]) fun _ => update fun v hv => ⟨u.program.code.size, ?_⟩
      subst hv
      exact (hu.move (hu.sound.close hf (Nat.le_refl _) hkeys hfs) rfl (Nat.le_refl _)
        (isValue_forget (hcut u))).weaken

theorem coerceResults_gives : ∀ {ts : List Ty} {vs : List Taken}, (∀ v ∈ vs, g.Above v.known) →
    Gives g m m (coerceResults p ts vs)
  | _ :: _, v :: _, h => (coerce_gives (h v (.head _))).seq fun _ _ =>
      coerceResults_gives fun w hw => h w (.tail _ hw)
  | [], _, _ | _ :: _, [], _ => .ret trivial

theorem ret_gives {n : Nat} : Gives g .kept .kept (ret n p) := by
  refine .read fun s _ => ?_
  split
  · exact fail_gives
  · refine .unless fun _ => .done (popValues_gives.seq fun vs hvs => ?_)
    exact (coerceResults_gives hvs).next emit_gives

/-! ## Labels and loops -/

theorem Frame.head?_funcs : ∀ frames : List Frame, (Frame.funcs frames).head? = Frame.funcOf frames
  | [] => rfl
  | .func _ :: _ => rfl
  | .block _ :: fs => Frame.head?_funcs fs

/-- A label that ends no function only names a place. -/
theorem label_gives (hn : ∀ key, Frame.funcOf g.frames = some key → name ≠ key ++ "_end") :
    Gives g .kept .kept (label name p) := by
  refine read fun s hs => ?_
  have hopen : closes name s.funcs = false := by
    cases hf : s.funcs with
    | nil => rfl
    | cons f fs =>
      have hk := hs.sound.keys
      rw [hf] at hk
      exact beq_eq_false_iff_ne.mpr (hn f.key (by rw [← Frame.head?_funcs, ← hk]; rfl))
  rw [if_neg (by rw [hopen]; decide)]
  refine ite (fun _ => raise fun t ht => ht ▸ hs.sound) fun _ => write fun _ _ => ⟨trivial, ?_⟩
  have h := hs.sound
  refine hs.change ⟨h.program, h.entry, h.inside, fun o ho => known_forget ho, h.jumps, h.funcs, ?_, ?_, h.scopes,
    h.keys, h.formed⟩ (Nat.le_refl _) (isValue_forget fun _ ho => ho)
  · exact h.tidy.add ⟨nofun, fun hl => absurd hl LitKey.ne_label, nofun,
      nofun⟩
  · exact h.since.replace (lookup?_add _ _ _)
      (fun _ _ => ⟨nofun, fun _ h => absurd h (Symbol.not_stored nofun nofun)⟩)
      nofun

theorem range_gives : Gives g .kept .kept (range p) := by
  refine .done (popValue_gives.seq fun v _ => complete_gives.seq fun t _ => ?_)
  split
  · exact emit_gives.next (pushOperand_gives rfl)
  · exact fail_gives

theorem rangeVar_gives (hn : VarName name) : Gives g m m (rangeVar name t define p) := by
  refine .ite (fun _ => declareVar_gives hn) fun _ => resolve_gives.seq fun ⟨key, sym⟩ _ => ?_
  exact .unless fun _ => .unless fun _ => varSlot_gives

theorem rangeVar?_gives {name : Option String} (hn : ∀ n, name = some n → VarName n) :
    Gives g m m (rangeVar? name t define p) := by
  unfold rangeVar?
  split
  · exact .map (rangeVar_gives (hn _ rfl))
  · exact .ret trivial

theorem next_gives {label : String} {key value : Option String}
    (hk : ∀ n, key = some n → VarName n) (hv : ∀ n, value = some n → VarName n) :
    Gives g .kept .kept (next label key value define p) := by
  refine .read fun s _ => ?_
  split
  · refine .unless fun _ => .done ((rangeVar?_gives hk).seq fun _ _ => ?_)
    exact (rangeVar?_gives hv).next jump_gives
  · exact fail_gives

theorem dropRange_gives : Gives g .kept .kept (dropRange p) := by
  refine read fun s hs => ?_
  split
  · rename_i k v stack hpop
    refine seq (write fun _ _ => hs.fewer ?_) fun _ => emit_gives.done
    exact OperandStack.mem_of_pop? hpop
  · exact raise fun t ht => ht ▸ hs.sound

theorem discard_gives : Gives g .kept .kept (discard p) := by
  refine read fun s hs => ?_
  split
  · exact raise fun t ht => ht ▸ hs.sound
  · rename_i height marks _
    refine seq (write fun _ _ => ?_) fun _ =>
      Gives.ite (fun _ => emit_gives.done) fun _ => .ret trivial
    exact (hs.fewer fun o ho => mem_of_mem_drop ho).change
      ⟨hs.sound.program, hs.sound.entry, hs.sound.inside, fun o ho => hs.sound.known o (mem_of_mem_drop ho),
        hs.sound.jumps, hs.sound.funcs, hs.sound.tidy, hs.sound.since, hs.sound.scopes, hs.sound.keys, hs.sound.formed⟩
      (Nat.le_refl _) id

end Goblet.Compile
