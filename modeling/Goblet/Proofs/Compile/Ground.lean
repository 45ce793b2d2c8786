import Goblet.Proofs.Code
import Goblet.Proofs.Compile.Check
import Goblet.Proofs.Compile.Tidy
import Goblet.Proofs.Stream.Walk

/-!
# What compiling never touches

`At g m s` is the invariant of the compiler while it works on a chunk. The ground `g` says where the chunk began: the
program and the symbols there were, the frames around the next step, the functions whose bodies are still to come, and
the entry. Known operands, open jumps and open functions all refer to code of this chunk, so nothing below the ground is
written. `Gives g m m' x P` says that `x` keeps this and that its result satisfies `P`.
-/

namespace Goblet

open List Triple

/-- The path of a frame is that of a block, or the key of a function. -/
def Frame.Formed : Frame → Prop
  | .block s => ∃ outer n, Fresh "b" n ∧ s = outer ++ "/" ++ n
  | .func k => FuncKey k

/-- The functions among frames. -/
def Frame.funcs : List Frame → List String
  | [] => []
  | .block _ :: fs => funcs fs
  | .func k :: fs => k :: funcs fs

theorem FuncKey.ne_empty {key : String} (h : FuncKey key) : key ≠ "" := by
  rcases h with ⟨outer, n, -, hk⟩ | ⟨n, -, hk⟩ <;>
    exact fun he => by simpa using congrArg String.length (hk.symm.trans he)

theorem Frame.scopeOf_ne : ∀ {frames : List Frame}, (∀ f ∈ frames, f.Formed) → Frame.scopeOf frames ≠ ""
  | [], _ => by decide
  | .block _ :: _, h => by
    obtain ⟨outer, n, -, hs⟩ := h _ (.head _)
    exact fun he => by simpa using congrArg String.length (hs.symm.trans he)
  | .func _ :: _, h => FuncKey.ne_empty (h _ (.head _))

/-- Where a chunk began, and where in it the compiler is. -/
structure Ground where
  program : Program
  symbols : SymbolTable
  frames : List Frame
  /-- The functions whose bodies are still to come. -/
  owed : String → Prop
  entry : Nat

namespace Ground

/-- An instruction of this chunk, behind the entry. -/
def Later (g : Ground) (i : Nat) : Prop := g.program.code.size ≤ i ∧ g.entry ≤ i

/-- What is known is loaded by such an instruction. -/
def Above (g : Ground) (known : Option Known) : Prop := ∀ k, known = some k → g.Later k.loadedAt

/-- What is known of the meaning of a key. -/
structure Found (g : Ground) (key : String) (r : Option Symbol) : Prop where
  /-- What had a meaning where the chunk began has one, and is no function whose body is still to come. -/
  old : ∀ s0, g.symbols.lookup? key = some s0 → ∃ s, r = some s ∧ (s.kind = .func → s.value.isSome)
  lit : LitKey key → ∀ s, r = some s → s.value.isSome

theorem Found.absent {g : Ground} {key : String} (h : g.Found key none) : g.symbols.lookup? key = none := by
  cases h0 : g.symbols.lookup? key with
  | none => rfl
  | some s0 =>
    obtain ⟨s, hs, -⟩ := h.old s0 h0
    cases hs

end Ground

/-- Whether an operand is a value. -/
def Operand.isValue : Operand → Bool
  | .value .. => true
  | _ => false

theorem Operand.known?_of_not_isValue {o : Operand} (h : o.isValue = false) : o.known? = none := by
  cases o with
  | value => cases h
  | _ => rfl

theorem OperandStack.mem_of_pop? {s t : OperandStack} {o : Operand} (h : s.pop? = some (o, t)) :
    ∀ o' ∈ t.items, o' ∈ s.items := by
  unfold pop? at h
  split at h
  · rename_i os hs
    cases h
    exact fun o' ho => hs ▸ .tail _ ho
  · cases h

namespace Compile

/-- The state refers to nothing below the ground, which is as it was. -/
structure Sound (g : Ground) (s : CompileState) : Prop where
  program : g.program.Extends s.program
  entry : s.program.entry = g.entry
  inside : g.entry ≤ s.program.code.size
  known : ∀ o ∈ s.stack.items, g.Above o.known?
  jumps : ∀ j ∈ s.jumps, g.program.code.size ≤ j.site
  funcs : ∀ f ∈ s.funcs, g.program.code.size ≤ f.growSite ∧ ∀ i, f.skipSite = some i → g.program.code.size ≤ i
  tidy : Tidy g.owed s.symbols s.program.data s.program.constants
  since : Since g.symbols g.program.data.size s.symbols
  scopes : s.scopes = g.frames.map Frame.scope ++ [Place.mainScope]
  keys : s.funcs.map (·.key) = Frame.funcs g.frames
  formed : ∀ f ∈ g.frames, f.Formed

/-- How much of the code of the chunk is there for certain. -/
inductive Stage where
  /-- There may be none, even for values on the stack. -/
  | raw
  /-- There is some, if there are values on the stack. -/
  | kept
  | begun

/-- The invariant of the compiler. -/
def At (g : Ground) : Stage → CompileState → Prop
  | .raw, s => Sound g s
  | .kept, s => Sound g s ∧ ((∃ o ∈ s.stack.items, o.isValue) → g.program.code.size < s.program.code.size)
  | .begun, s => Sound g s ∧ g.program.code.size < s.program.code.size

variable {α β : Type} {g : Ground} {m m' m'' : Stage} {P : α → Prop} {Q : β → Prop} {o : Operand} {label : String}
  {c : Prop} {x : Compile α} {cause : CompileCause}
variable {s : CompileState} {p : Pos} {op : Op} {t : Ty} {name key : String} {v : Value} {i : Nat}
  {stack : OperandStack} {known : Option Known}

theorem At.sound (h : At g m s) : Sound g s := by
  cases m with
  | raw => exact h
  | kept => exact h.1
  | begun => exact h.1

theorem At.weaken (h : At g .begun s) : At g m s := by
  cases m with
  | raw => exact h.1
  | kept => exact ⟨h.1, fun _ => h.2⟩
  | begun => exact h

/-- The invariant for another state, which has as much code and no new values on the stack, above the same program. -/
theorem At.move {g' : Ground} {t : CompileState} (h : At g m s) (ht : Sound g' t) (hp : g'.program = g.program)
    (hsize : s.program.code.size ≤ t.program.code.size)
    (hstack : (∃ o ∈ t.stack.items, o.isValue) → ∃ o ∈ s.stack.items, o.isValue) : At g' m t := by
  cases m with
  | raw => exact ht
  | kept => exact ⟨ht, fun hv => hp ▸ Nat.lt_of_lt_of_le (h.2 (hstack hv)) hsize⟩
  | begun => exact ⟨ht, hp ▸ Nat.lt_of_lt_of_le h.2 hsize⟩

theorem At.change {t : CompileState} (h : At g m s) (ht : Sound g t) (hsize : s.program.code.size ≤ t.program.code.size)
    (hstack : (∃ o ∈ t.stack.items, o.isValue) → ∃ o ∈ s.stack.items, o.isValue) : At g m t :=
  h.move ht rfl hsize hstack

/-- What `x` gives satisfies `P`, and it keeps the invariant. -/
def Gives (g : Ground) (m m' : Stage) (x : Compile α) (P : α → Prop := fun _ => True) : Prop :=
  Triple (At g m) x (fun a s => P a ∧ At g m' s) fun _ => Sound g

namespace Gives

variable {x : Compile α} {f : α → Compile β}

theorem ret {a : α} (h : P a) : Gives g m m (pure a) P := Triple.ret fun _ hs => ⟨h, hs⟩

theorem raise {e : CompileError} : Gives g m m' (throw e : Compile α) P := Triple.raise fun _ hs => hs.sound

/-- A step's result feeds the next step. -/
theorem seq (hx : Gives g m m' x P) (hf : ∀ a, P a → Gives g m' m'' (f a) Q) : Gives g m m'' (x >>= f) Q :=
  Triple.seq hx fun a s hs => hf a hs.1 s hs.2

theorem next (hx : Gives g m m' x P) (hf : ∀ {a}, Gives g m' m'' (f a) Q) : Gives g m m'' (x >>= f) Q :=
  hx.seq fun _ _ => hf

theorem read {f : CompileState → Compile α} (h : ∀ s, At g m s → Gives g m m' (f s) P) : Gives g m m' (get >>= f) P :=
  Triple.read fun s hs => Triple.fixed (h s hs) hs

theorem ite [Decidable c] {y : Compile α} (hx : c → Gives g m m' x P) (hy : ¬c → Gives g m m' y P) :
    Gives g m m' (if c then x else y) P := by
  split
  · exact hx ‹_›
  · exact hy ‹_›

theorem weaken {P' : α → Prop} (hx : Gives g m m' x P') (h : ∀ a, P' a → P a) : Gives g m m' x P :=
  Triple.weaken hx (fun _ hs => hs) (fun _ _ hs => ⟨h _ hs.1, hs.2⟩) fun _ _ hs => hs

theorem done (hx : Gives g m .begun x P) : Gives g m m' x P :=
  Triple.weaken hx (fun _ hs => hs) (fun _ _ hs => ⟨hs.1, hs.2.weaken⟩) fun _ _ hs => hs

theorem start (hx : Gives g m m' x P) : Gives g .begun m' x P :=
  Triple.weaken hx (fun _ hs => hs.weaken) (fun _ _ hs => hs) fun _ _ hs => hs

theorem map {f : α → β} (hx : Gives g m m' x fun a => Q (f a)) : Gives g m m' (f <$> x) Q :=
  Triple.map hx

/-- The ground may change behind `x`. Whatever fails then, what there was still stands. -/
theorem leads {R : β → CompileState → Prop} (hx : Gives g m m' x P)
    (hf : ∀ a, P a → Triple (At g m') (f a) R fun _ s => g.program.Extends s.program) :
    Triple (At g m) (x >>= f) R fun _ s => g.program.Extends s.program :=
  Triple.seq (Triple.weaken hx (fun _ hs => hs) (fun _ _ hs => hs) fun _ _ hs => hs.program) fun a s hs =>
    hf a hs.1 s hs.2

end Gives

theorem fail_gives : Gives g m m' (fail cause p : Compile α) P := .raise

theorem Gives.unless [Decidable c] (hx : ¬c → Gives g m m' x P) :
    Gives g m m' (if c then fail cause p else x) P :=
  .ite (fun _ => fail_gives) hx

theorem Gives.check [Decidable c] {a : α} :
    Gives g m m (if c then pure a else fail cause p) :=
  .ite (fun _ => .ret trivial) fun _ => fail_gives

theorem Keeps.gives (hx : Keeps (At g m) x) : Gives g m m x :=
  Triple.weaken hx (fun _ hs => hs) (fun _ _ hs => ⟨trivial, hs⟩) fun _ _ hs => hs.sound

theorem complete_gives : Gives g m m (complete t) := complete_keeps.gives

/-! ## Code -/

theorem Sound.withProgram (h : Sound g s) {p : Program} (hp : g.program.Extends p)
    (he : p.entry = g.entry) (hi : g.entry ≤ p.code.size) (ht : Tidy g.owed s.symbols p.data p.constants) :
    Sound g { s with program := p } :=
  ⟨hp, he, hi, h.known, h.jumps, h.funcs, ht, h.since, h.scopes, h.keys, h.formed⟩

theorem codeSize_gives : Gives g m m codeSize g.Later :=
  .read fun _ hs => .ret ⟨hs.sound.program.codeSize, hs.sound.inside⟩

/-- An instruction is placed after those of the ground. -/
theorem emitSite_gives : Gives g m .begun (emitSite op p) g.Later := by
  refine codeSize_gives.seq fun i hi => Triple.seq (Triple.update fun s hs => ?_)
    fun _ => Triple.ret fun _ hs => ⟨hi, hs⟩
  have hs := hs.sound
  have hsize : (s.program.emit op p).code.size = s.program.code.size + 1 := Array.size_push ..
  refine ⟨hs.withProgram (hs.program.emit op p) hs.entry ?_ hs.tidy, ?_⟩
  · rw [hsize]
    exact Nat.le_succ_of_le hs.inside
  · rw [hsize]
    exact Nat.lt_succ_of_le hs.program.codeSize

theorem emit_gives : Gives g m .begun (emit op p) :=
  emitSite_gives.next (.ret trivial)

theorem replaceOp_gives (hi : g.program.code.size ≤ i) : Gives g m m (replaceOp i op) := by
  refine update fun s hs => ⟨trivial, hs.change ?_ ?_ id⟩
  · refine hs.sound.withProgram (hs.sound.program.replace hi _) hs.sound.entry ?_ hs.sound.tidy
    rw [Array.size_modify]
    exact hs.sound.inside
  · exact Nat.le_of_eq Array.size_modify.symm

/-- A cut never reaches below the ground. -/
theorem cutCode_gives (hi : g.Later i) : Gives g m .raw (cutCode i) := by
  refine update fun s hs => ⟨trivial, ?_⟩
  refine hs.sound.withProgram (hs.sound.program.cut hi.1) hs.sound.entry ?_ hs.sound.tidy
  have := hs.sound.inside
  have := hi.2
  rw [Array.take_eq_extract, Array.size_extract]
  omega

theorem typeSlot_gives : Gives g m m (typeSlot t) := by
  refine Triple.read fun s hs => Triple.seq (Triple.write fun _ _ => ?_)
    fun _ => Triple.ret fun _ hs => ⟨trivial, hs⟩
  change At g m { s with program := (s.program.typeSlot t).2 }
  unfold Program.typeSlot
  split
  · exact hs
  · exact hs.change (hs.sound.withProgram (hs.sound.program.alloc _) hs.sound.entry hs.sound.inside
      (hs.sound.tidy.alloc _)) (Nat.le_refl _) id

theorem textSlot_gives {text : String} : Gives g m m (textSlot text) := by
  refine Triple.read fun s hs => Triple.seq (Triple.write fun _ _ => ?_)
    fun _ => Triple.ret fun _ hs => ⟨trivial, hs⟩
  have hext := hs.sound.program.textSlot text
  change At g m { s with program := (s.program.textSlot text).2 }
  unfold Program.textSlot at hext ⊢
  split
  · exact hs
  · rename_i hnone
    rw [hnone] at hext
    exact hs.change (hs.sound.withProgram hext hs.sound.entry hs.sound.inside (hs.sound.tidy.allocText _))
      (Nat.le_refl _) id

/-- Only instructions after the ground are patched. -/
theorem patch_gives {site target : Nat} (hi : g.program.code.size ≤ site) : Gives g m m (patch site target) := by
  refine update fun s hs => ⟨trivial, ?_⟩
  split
  · rename_i q hq
    have hext := hs.sound.program.setOffset? hi hq
    obtain ⟨instr, op, -, -, rfl⟩ := Program.setOffset?_eq hq
    refine hs.change (hs.sound.withProgram hext hs.sound.entry ?_ hs.sound.tidy) ?_ id
    · rw [Array.size_setIfInBounds]
      exact hs.sound.inside
    · exact Nat.le_of_eq Array.size_setIfInBounds.symm
  · exact hs

/-! ## Operands -/

theorem Sound.withStack (h : Sound g s)
    (hs : ∀ o ∈ stack.items, g.Above o.known?) : Sound g { s with stack := stack } :=
  ⟨h.program, h.entry, h.inside, hs, h.jumps, h.funcs, h.tidy, h.since, h.scopes, h.keys, h.formed⟩

theorem At.fewer (h : At g m s) (hs : ∀ o ∈ stack.items, o ∈ s.stack.items) : At g m { s with stack := stack } :=
  h.change (h.sound.withStack fun o ho => h.sound.known o (hs o ho)) (Nat.le_refl _)
    fun ⟨o, ho, hv⟩ => ⟨o, hs o ho, hv⟩

theorem pushValue_known_gives (hk : g.Above known) : Gives g .begun .begun (pushOperand (.value t known)) := by
  refine update fun s hs => ⟨trivial, hs.sound.withStack fun o ho => ?_, hs.2⟩
  rcases mem_cons.mp ho with rfl | ho
  · exact hk
  · exact hs.sound.known o ho

theorem pushValue_gives : Gives g .begun .begun (pushValue t) :=
  pushValue_known_gives nofun

theorem pushOperand_gives (ho : o.isValue = false) : Gives g m m (pushOperand o) := by
  refine update fun s hs => ⟨trivial, hs.change (hs.sound.withStack fun o' ho' => ?_) (Nat.le_refl _) ?_⟩
  · rcases mem_cons.mp ho' with rfl | ho'
    · rw [Operand.known?_of_not_isValue ho]
      exact nofun
    · exact hs.sound.known o' ho'
  · rintro ⟨o', ho', hv⟩
    rcases mem_cons.mp ho' with rfl | ho'
    · rw [ho] at hv
      cases hv
    · exact ⟨o', ho', hv⟩

/-- What is popped was loaded after the ground. -/
theorem popOperand_gives :
    Triple (At g .kept) (popOperand p) (fun o s => g.Above o.known? ∧ At g .kept s ∧ (o.isValue → At g .begun s))
      (fun _ => Sound g) := by
  refine Triple.read fun s hs => ?_
  unfold OperandStack.pop?
  split
  · rename_i o stack ho
    split at ho
    · rename_i o' os hos
      cases ho
      have hmem : ∀ o' ∈ os, o' ∈ s.stack.items := fun o' ho' => hos ▸ .tail _ ho'
      have ho : o ∈ s.stack.items := hos ▸ (.head _)
      have hs' : At g .kept { s with stack := ⟨os⟩ } := hs.fewer hmem
      exact Triple.seq (Q := fun _ t => t = { s with stack := ⟨os⟩ }) (Triple.write fun _ _ => rfl)
        fun _ => Triple.ret fun t ht => ht ▸ ⟨hs.sound.known o ho, hs', fun hv => ⟨hs'.sound, hs.2 ⟨o, ho, hv⟩⟩⟩
    · cases ho
  · exact Triple.raise fun t ht => ht ▸ hs.sound

theorem popValue_gives : Gives g .kept .begun (popValue p) fun v => g.Above v.known := by
  refine popOperand_gives.seq fun o => ?_
  unfold expectValue
  split
  · exact Triple.ret fun s hs => ⟨hs.1, hs.2.2 rfl⟩
  · exact Triple.raise fun s hs => hs.2.1.sound

theorem popOperands_gives {n : Nat} : Gives g m m (popOperands n p) fun os => ∀ o ∈ os, g.Above o.known? := by
  refine Triple.read fun s hs => ?_
  unfold OperandStack.popN?
  split
  · rename_i os stack hos
    split at hos
    · cases hos
      refine Triple.seq (Triple.write fun _ _ => ?_) fun _ => Triple.ret fun t ht => ⟨?_, ht⟩
      · exact hs.fewer fun o ho => mem_of_mem_drop ho
      · exact fun o ho => hs.sound.known o (mem_of_mem_take (mem_reverse.mp ho))
    · cases hos
  · exact Triple.raise fun t ht => ht ▸ hs.sound

theorem expectValue_gives (ho : g.Above o.known?) :
    Gives g m m (expectValue o p) fun v => g.Above v.known := by
  unfold expectValue
  split
  · exact .ret ho
  · exact fail_gives

theorem expectValues_gives : ∀ {os : List Operand}, (∀ o ∈ os, g.Above o.known?) →
    Gives g m m (expectValues p os) fun vs => ∀ v ∈ vs, g.Above v.known
  | [], _ => .ret nofun
  | o :: _, h => (expectValue_gives (h o (.head _))).seq fun _ hv =>
      (expectValues_gives fun o' ho' => h o' (.tail _ ho')).seq fun _ hvs =>
        .ret fun w hw => (mem_cons.mp hw).elim (fun h => h ▸ hv) (hvs w)

theorem popValues_gives {n : Nat} : Gives g m m (popValues n p) fun vs => ∀ v ∈ vs, g.Above v.known :=
  popOperands_gives.seq fun _ h => expectValues_gives h

theorem popCondition_gives : Gives g .kept .begun (popCondition p) :=
  popValue_gives.next .check

/-! ## Names -/

theorem scope_gives : Gives g m m scope fun sc => sc = Frame.scopeOf g.frames ∧ ∀ f ∈ g.frames, f.Formed := by
  refine .read fun s hs => .ret ⟨?_, hs.sound.formed⟩
  rw [hs.sound.scopes]
  cases g.frames <;> rfl

theorem resolve_gives : Gives g m m (resolve name p) := by
  refine .unless fun _ => seek_keeps.gives.seq fun r _ => ?_
  split
  · exact .ret trivial
  · exact fail_gives

theorem Sound.found (h : Sound g s) (key : String) : g.Found key (s.symbols.lookup? key) where
  old s0 h0 := by
    obtain ⟨sym, hk, hv, -⟩ := h.since.old key s0 h0
    exact ⟨sym, hk, hv⟩
  lit hl sym hk := h.tidy.lit key sym hk hl

/-- A lookup agrees with the ground's table. -/
theorem lookup_gives : Gives g m m (lookup key) (g.Found key) :=
  .read fun _ hs => .ret (hs.sound.found key)

theorem Sound.withSymbols (h : Sound g s) {t : SymbolTable}
    (ht : Tidy g.owed t s.program.data s.program.constants) (hsince : Since g.symbols g.program.data.size t) :
    Sound g { s with symbols := t } :=
  ⟨h.program, h.entry, h.inside, h.known, h.jumps, h.funcs, ht, hsince, h.scopes, h.keys, h.formed⟩

/-- A name for something that is neither variable nor function and has no place yet. -/
theorem addSymbol_gives {sym : Symbol} (hk : ¬sym.Stored) (ha : sym.addr = .unresolved)
    (hl : LitKey key → sym.value.isSome) : Gives g m m (addSymbol key sym) := by
  refine update fun s hs => ⟨trivial, hs.change (hs.sound.withSymbols ?_ ?_) (Nat.le_refl _) id⟩
  · exact hs.sound.tidy.add ⟨fun i hi => (nomatch ha.symm.trans hi), hl, fun h => absurd (.inl h) hk,
      fun h => absurd (.inr h) hk⟩
  · exact hs.sound.since.replace (SymbolTable.lookup?_add _ _ _)
      (fun _ _ => ⟨fun h => absurd (.inr h) hk, fun _ h => absurd h hk⟩) fun _ i hi => (nomatch ha.symm.trans hi)

theorem retype_gives : Gives g m m (retype key t) :=
  update fun _ hs => ⟨trivial, hs.change (hs.sound.withSymbols (hs.sound.tidy.retype t)
    (hs.sound.since.retype t)) (Nat.le_refl _) id⟩

/-! ## Jumps and constants -/

theorem Sound.withJumps (h : Sound g s) {jumps : List OpenJump}
    (hj : ∀ j ∈ jumps, g.program.code.size ≤ j.site) : Sound g { s with jumps := jumps } :=
  ⟨h.program, h.entry, h.inside, h.known, hj, h.funcs, h.tidy, h.since, h.scopes, h.keys, h.formed⟩

theorem addJump_gives {j : OpenJump} (hj : g.program.code.size ≤ j.site) :
    Gives g m m (modify fun s => { s with jumps := s.jumps ++ [j] }) := by
  refine update fun s hs => ⟨trivial, hs.change (hs.sound.withJumps fun j' hj' => ?_) (Nat.le_refl _) id⟩
  rcases mem_append.mp hj' with hj' | hj'
  · exact hs.sound.jumps j' hj'
  · rw [mem_singleton.mp hj']
    exact hj

theorem labelAt?_gives : Gives g m m (labelAt? name) :=
  .read fun _ _ => .ret trivial

/-- A jump to a label is patched now or left open. -/
theorem jumpTo_gives {site : Nat} (hs : g.program.code.size ≤ site) :
    Gives g m m (jumpTo site label p) := by
  refine labelAt?_gives.seq fun r _ => ?_
  split
  · exact patch_gives hs
  · exact addJump_gives hs

theorem jump_gives : Gives g m .begun (jump op label p) :=
  emitSite_gives.seq fun _ hi => jumpTo_gives hi.1

theorem isTrailing_gives {k : Known} : Gives g m m (isTrailing k) := .read fun _ _ => .ret trivial

theorem loading_gives : Gives g m m (loading v) := by
  unfold loading
  split
  · exact textSlot_gives.next (.ret trivial)
  · exact .ret trivial

theorem constant_gives : Gives g m .begun (constant v t p) :=
  loading_gives.next (emitSite_gives.seq fun _ hi => pushValue_known_gives fun _ hk => by cases hk; exact hi)

theorem recompute_gives (hi : g.Later i) : Gives g m .begun (do cutCode i; constant v t p) :=
  (cutCode_gives hi).next constant_gives

/-- A coercion only rewrites the constant just loaded. -/
theorem coerce_gives {v : Taken} {dst : Ty} {depth : Nat} {context : String} (hv : g.Above v.known) :
    Gives g m m (coerce v dst depth context p) := by
  refine .unless fun _ => .ite (fun _ => .ret trivial) fun _ => .read fun s _ => ?_
  dsimp only
  split
  · rename_i i n hk
    obtain ⟨k, hknown, hi⟩ := Option.bind_eq_some_iff.mp hk
    obtain ⟨n, -, hi⟩ := Option.map_eq_some_iff.mp hi
    cases hi
    exact replaceOp_gives (hv k hknown).1
  · exact typeSlot_gives.next emit_gives.done

theorem resolveSig_gives {sig : Signature} : Gives g m m (resolveSig sig p) := by
  refine resolveType_keeps.gives.seq fun t _ => ?_
  split
  · exact .ret trivial
  · exact .ret trivial

theorem trailing?_gives (hk : g.Above known) : Gives g m m (trailing? known) g.Above := by
  unfold trailing?
  split
  · refine isTrailing_gives.seq fun b _ => .ite (fun _ => .ret ?_) fun _ => .ret nofun
    exact hk
  · exact .ret nofun

end Compile

end Goblet
