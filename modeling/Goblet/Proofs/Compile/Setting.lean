import Mathlib.Logic.Relation
import Goblet.Compile.Chunk
import Goblet.Proofs.Symbol

/-!
# What compiling does to a state

The state of the compiler is cut into its code, its operands and the rest, the `Setting`. A computation that succeeds
does three things, each described by itself:

- it takes operands and leaves others, said by what the stack is before and after;
- it changes names (`Naming`): it gives a slot to a value, declares a variable, and so on, one after the other
  (`Names`);
- it adds instructions, and may make floats of integers that were loaded as constants (`Codes`).

Each helper of the compiler has one lemma that says what its success means (`popValue_ok`, `coerce_ok`, ...).
-/

namespace Goblet

open List

namespace Compile

/-- The state but for code and operands. -/
structure Setting where
  symbols : SymbolTable
  data : Array Value
  constants : List Nat
  store : Store
  scopes : List String
  funcs : List OpenFunc
  marks : List Nat
  jumps : List OpenJump
  labels : List String
  lastLabel : Option Nat
  entry : Nat

/-- The innermost scope. -/
def Setting.scope (σ : Setting) : String := σ.scopes.headD Place.mainScope

/-- The key of a name in the innermost scope. -/
def Setting.key (σ : Setting) (name : String) : String := SymbolTable.qualify σ.scope name

end Compile

/-- The state but for code and operands. -/
def CompileState.setting (s : CompileState) : Compile.Setting :=
  ⟨s.symbols, s.program.data, s.program.constants, s.store, s.scopes, s.funcs, s.marks, s.jumps, s.labels, s.lastLabel,
    s.program.entry⟩

/-- The instructions so far. -/
def CompileState.ops (s : CompileState) : List Op := s.program.code.toList.map (·.op)

namespace Compile

@[simp] theorem length_ops (s : CompileState) : s.ops.length = s.program.code.size := by
  simp only [CompileState.ops, length_map, Array.length_toList]

/-! ## Names -/

/-- One change of names, data or store. -/
inductive Naming : Setting → Setting → Prop
  /-- A data slot. -/
  | data {σ : Setting} {v : Value} : Naming σ { σ with data := σ.data.push v }
  /-- A data slot for a text. -/
  | text {σ : Setting} {v : Value} :
      Naming σ { σ with data := σ.data.push v, constants := σ.constants ++ [σ.data.size] }
  | store {σ : Setting} {h : Store} : Naming σ { σ with store := h }
  /-- A data slot for what a name means. -/
  | load {σ : Setting} {key : String} {sym : Symbol} : σ.symbols.lookup? key = some sym → sym.addr = .unresolved →
      Naming σ { σ with
        data := σ.data.push (sym.value.getD .nil)
        symbols := σ.symbols.modify key ({ · with addr := .global σ.data.size }) }
  /-- A value of a package. -/
  | member {σ : Setting} {path name : String} {sym : Symbol} : IsWord name →
      σ.symbols.lookup? (path ++ "." ++ name) = none → sym.kind = .value → sym.addr = .unresolved →
      Naming σ { σ with symbols := σ.symbols.add (path ++ "." ++ name) sym }
  /-- Another type of a variable. -/
  | retype {σ : Setting} {key : String} {sym : Symbol} {ty : Ty} : σ.symbols.lookup? key = some sym → sym.kind = .var →
      Naming σ { σ with symbols := σ.symbols.modify key ({ · with ty := ty }) }
  /-- A variable outside of functions. -/
  | global {σ : Setting} {name : String} {ty : Ty} : σ.funcs = [] → VarName name →
      σ.symbols.lookup? (σ.key name) = none →
      Naming σ { σ with
        data := σ.data.push ty.zero
        symbols := σ.symbols.add (σ.key name) ⟨.var, .global σ.data.size, ty, none⟩ }
  /-- A variable of a function. -/
  | local {σ : Setting} {f : OpenFunc} {fs : List OpenFunc} {name : String} {ty : Ty} : σ.funcs = f :: fs →
      VarName name → σ.symbols.lookup? (σ.key name) = none →
      Naming σ { σ with
        funcs := { f with locals := f.locals + 1 } :: fs
        symbols := σ.symbols.add (σ.key name) ⟨.var, .local f.locals, ty, none⟩ }
  /-- A result of a function that has a name. -/
  | result {σ : Setting} {f : OpenFunc} {fs : List OpenFunc} {name : String} {ty : Ty} : σ.funcs = f :: fs →
      IsWord name → σ.scope = f.key →
      Naming σ { σ with
        funcs := { f with locals := f.locals + 1 } :: fs
        symbols := σ.symbols.add (σ.key name) ⟨.var, .local f.locals, ty, none⟩ }
  /-- A result of a function that is named `_`. -/
  | blank {σ : Setting} {f : OpenFunc} {fs : List OpenFunc} : σ.funcs = f :: fs →
      Naming σ { σ with funcs := { f with locals := f.locals + 1 } :: fs }
  /-- A type or constant. -/
  | meaning {σ : Setting} {name : String} {sym : Symbol} : VarName name → 1 < σ.scopes.length →
      sym.kind = .type ∨ sym.kind = .const → sym.addr = .unresolved →
      Naming σ { σ with symbols := σ.symbols.add (σ.key name) sym }

/-- Changes of names, one after the other. -/
abbrev Names : Setting → Setting → Prop := Relation.ReflTransGen Naming

theorem Names.rest {σ τ : Setting} (h : Names σ τ) : τ = { σ with
    symbols := τ.symbols, data := τ.data, constants := τ.constants, store := τ.store, funcs := τ.funcs } := by
  induction h with
  | refl => rfl
  | tail _ hn ih =>
    cases hn <;> (rw [ih])

/-! ## Code -/

/-- Some integers that are loaded as constants become floats. -/
structure Floats (ks : List Known) (l l' : List Op) : Prop where
  length : l'.length = l.length
  each : ∀ i, l'[i]? = l[i]? ∨
    (∃ k ∈ ks, k.loadedAt = i) ∧ (∃ n, l[i]? = some (.push (.int n))) ∧ ∃ x, l'[i]? = some (.push (.float x))

namespace Floats

variable {ks ks' : List Known} {l l' l'' a : List Op}

theorem refl : Floats ks l l := ⟨rfl, fun _ => .inl rfl⟩

theorem eq_of_nil (h : Floats [] l l') : l' = l := by
  refine ext_getElem? fun i => ?_
  rcases h.each i with h | ⟨⟨_, h, _⟩, _⟩
  · exact h
  · cases h

theorem weaken (h : Floats ks l l') (hk : ∀ k ∈ ks, k ∈ ks') : Floats ks' l l' :=
  ⟨h.length, fun i => (h.each i).imp_right fun ⟨⟨k, hm, he⟩, hr⟩ => ⟨⟨k, hk k hm, he⟩, hr⟩⟩

theorem stays (h : Floats ks l l') {i : Nat} {op : Op} (ho : l[i]? = some op) (hop : ∀ n, op ≠ .push (.int n)) :
    l'[i]? = some op := by
  rcases h.each i with h | ⟨_, ⟨n, hn⟩, _⟩
  · rw [h, ho]
  · rw [ho] at hn
    exact absurd (Option.some.inj hn) (hop n)

/-- Behind instructions that load nothing, integers before them become floats. -/
theorem split (ha : ∀ op ∈ a, ∀ v, op ≠ .push v) (h : Floats ks (l ++ a) l') :
    ∃ base, l' = base ++ a ∧ Floats ks l base := by
  have hlen := h.length
  rw [length_append] at hlen
  refine ⟨l'.take l.length, ?_, ?_, fun i => ?_⟩
  · refine (take_append_drop l.length l').symm.trans
      (congrArg (List.take l.length l' ++ ·) (ext_getElem? fun i => ?_))
    rw [getElem?_drop]
    by_cases hi : i < a.length
    · have ho : (l ++ a)[l.length + i]? = some a[i] := by
        rw [getElem?_append_right (by omega), Nat.add_sub_cancel_left, getElem?_eq_getElem hi]
      rw [h.stays ho fun n => ha _ (getElem_mem hi) _, getElem?_eq_getElem hi]
    · rw [getElem?_eq_none (by omega), getElem?_eq_none (by omega)]
  · rw [length_take]
    omega
  · rw [getElem?_take]
    split
    · rename_i hi
      have := h.each i
      rwa [getElem?_append_left hi] at this
    · rw [getElem?_eq_none (by omega)]
      exact .inl rfl

/-- Rewrites compose. -/
theorem trans (h : Floats ks l l') (h' : Floats ks' l' l'') : Floats (ks ++ ks') l l'' := by
  refine ⟨h'.length.trans h.length, fun i => ?_⟩
  rcases h.each i with he | ⟨⟨k, hk, hki⟩, hn, x, hx⟩
  · rcases h'.each i with he' | ⟨⟨k, hk, hki⟩, hn, hx⟩
    · exact .inl (he'.trans he)
    · exact .inr ⟨⟨k, mem_append_right _ hk, hki⟩, he ▸ hn, hx⟩
  · refine .inr ⟨⟨k, mem_append_left _ hk, hki⟩, hn, x, ?_⟩
    exact h'.stays hx nofun

end Floats

/-- Names are changed, integers become floats, and instructions are added that load no constants. -/
structure Codes (ks : List Known) (s t : CompileState) (ops : List Op) : Prop where
  stack : t.stack = s.stack
  names : Names s.setting t.setting
  code : ∃ base, Floats ks s.ops base ∧ t.ops = base ++ ops
  solid : ∀ op ∈ ops, ∀ v, op ≠ .push v

namespace Codes

variable {ks ks' : List Known} {s t u : CompileState} {a b : List Op}

theorem refl : Codes [] s s [] := ⟨rfl, .refl, ⟨_, .refl, (append_nil _).symm⟩, nofun⟩

theorem trans (h : Codes ks s t a) (h' : Codes ks' t u b) : Codes (ks ++ ks') s u (a ++ b) := by
  obtain ⟨base, hf, ht⟩ := h.code
  obtain ⟨base', hf', hu⟩ := h'.code
  rw [ht] at hf'
  obtain ⟨base'', rfl, hf''⟩ := hf'.split h.solid
  refine ⟨h'.stack.trans h.stack, h.names.trans h'.names, ⟨base'', hf.trans hf'', ?_⟩, fun op hop => ?_⟩
  · rw [hu, append_assoc]
  · exact (mem_append.mp hop).elim (h.solid op) (h'.solid op)

theorem weaken (h : Codes ks s t a) (hk : ∀ k ∈ ks, k ∈ ks') : Codes ks' s t a := by
  obtain ⟨base, hf, ht⟩ := h.code
  exact ⟨h.stack, h.names, ⟨base, hf.weaken hk, ht⟩, h.solid⟩

theorem of_names (hs : t.stack = s.stack) (hn : Names s.setting t.setting) (hc : t.ops = s.ops) : Codes ks s t [] :=
  ⟨hs, hn, ⟨_, .refl, by rw [hc, append_nil]⟩, nofun⟩

end Codes

/-! ## What success means -/

variable {α : Type} {s t : CompileState} {p : Pos}
variable {i : Nat} {op : Op} {o : Operand} {os : List Operand} {vs : List Taken}

theorem read_ok {f : CompileState → Compile α} {a : α} (h : (get >>= f) s = .ok a t) : Ran (f s) s a t := h

theorem codeSize_ok (h : codeSize s = .ok i t) : i = s.ops.length ∧ s = t := by
  cases h
  exact ⟨(length_ops s).symm, rfl⟩

theorem emitSite_ok (h : emitSite op p s = .ok i t) :
    i = s.ops.length ∧ t = { s with program := s.program.emit op p } := by
  cases h
  exact ⟨(length_ops s).symm, rfl⟩

@[simp] theorem ops_emit (s : CompileState) (op : Op) (p : Pos) :
    CompileState.ops { s with program := s.program.emit op p } = s.ops ++ [op] := by
  simp only [CompileState.ops, Program.emit, Array.toList_push, map_append, map_cons, map_nil]

theorem emit_run (h : emit op p s = .ok () t) : t = { s with program := s.program.emit op p } := by
  obtain ⟨i, u, hi, h⟩ := seq_ok.mp h
  cases h
  exact (emitSite_ok hi).2

theorem emit_ok (h : emit op p s = .ok () t) (hop : ∀ v, op ≠ .push v) : Codes [] s t [op] := by
  obtain rfl := emit_run h
  refine ⟨rfl, .refl, ⟨_, .refl, ops_emit s op p⟩, fun o ho => ?_⟩
  rw [mem_singleton.mp ho]
  exact hop

theorem emit_setting (h : emit op p s = .ok () t) : t.setting = s.setting := by
  rw [emit_run h]
  rfl

theorem replaceOp_ok (h : replaceOp i op s = .ok () t) :
    t.stack = s.stack ∧ t.setting = s.setting ∧ t.ops = s.ops.set i op := by
  cases h
  refine ⟨rfl, rfl, ?_⟩
  refine ext_getElem? fun j => ?_
  simp only [CompileState.ops, getElem?_map, Array.getElem?_toList, Array.getElem?_modify, getElem?_set,
    length_map, Array.length_toList]
  by_cases hj : i = j
  · subst hj
    by_cases hi : i < s.program.code.size
    · simp [hi]
    · simp [hi]
  · simp [hj]

theorem cutCode_ok (h : cutCode i s = .ok () t) : t.stack = s.stack ∧ t.setting = s.setting ∧ t.ops = s.ops.take i := by
  cases h
  refine ⟨rfl, rfl, ?_⟩
  simp only [CompileState.ops, Array.take_eq_extract, Array.toList_extract, extract_eq_take_drop, drop_zero,
    Nat.sub_zero, map_take]

theorem typeSlot_ok {ty : Ty} (h : typeSlot ty s = .ok i t) : Codes [] s t [] := by
  cases h
  split
  · exact .refl
  · exact .of_names rfl (.single .data) rfl

theorem textSlot_ok {text : String} (h : textSlot text s = .ok i t) : Codes [] s t [] ∧ i < t.program.data.size := by
  cases h
  split
  · rename_i i hi
    refine ⟨.refl, ?_⟩
    have hholds := find?_some hi
    unfold Program.holdsText at hholds
    split at hholds
    · rename_i text' hd
      exact (Array.getElem?_eq_some_iff.mp hd).1
    · cases hholds
  · exact ⟨.of_names rfl (.single .text) rfl, by simp only [Program.alloc, Array.size_push]; exact Nat.lt_succ_self _⟩

/-! ## Operands -/

theorem pushOperand_ok (h : pushOperand o s = .ok () t) : t = { s with stack := ⟨o :: s.stack.items⟩ } := by
  cases h
  rfl

/-- A pop takes the top operand and no more. -/
theorem popOperand_ok (h : popOperand p s = .ok o t) :
    s.stack.items = o :: t.stack.items ∧ t = { s with stack := t.stack } := by
  replace h := read_ok h
  cases hi : s.stack.items with
  | nil =>
    simp only [OperandStack.pop?, hi] at h
    cases h
  | cons o' os =>
    simp only [OperandStack.pop?, hi] at h
    cases h
    exact ⟨rfl, rfl⟩

/-- The operand that a value was taken from. -/
def Taken.operand (v : Taken) : Operand := .value v.ty v.known

theorem expectValue_ok {v : Taken} (h : expectValue o p s = .ok v t) : o = v.operand ∧ s = t := by
  unfold expectValue at h
  split at h
  · cases h
    exact ⟨rfl, rfl⟩
  · cases h

theorem popValue_ok {v : Taken} (h : popValue p s = .ok v t) :
    s.stack.items = v.operand :: t.stack.items ∧ t = { s with stack := t.stack } := by
  obtain ⟨o, u, ho, h⟩ := seq_ok.mp h
  obtain ⟨rfl, rfl⟩ := expectValue_ok h
  exact popOperand_ok ho

theorem popOperands_ok {n : Nat} (h : popOperands n p s = .ok os t) :
    s.stack.items = os.reverse ++ t.stack.items ∧ os.length = n ∧ t = { s with stack := t.stack } := by
  replace h := read_ok h
  by_cases hn : n ≤ s.stack.items.length
  · simp only [OperandStack.popN?, if_pos hn] at h
    cases h
    refine ⟨?_, ?_, rfl⟩
    · rw [reverse_reverse, take_append_drop]
    · rw [length_reverse, length_take, Nat.min_eq_left hn]
  · simp only [OperandStack.popN?, if_neg hn] at h
    cases h

theorem expectValues_ok (h : expectValues p os s = .ok vs t) : os = vs.map Taken.operand ∧ s = t := by
  induction os generalizing vs s t with
  | nil =>
    cases h
    exact ⟨rfl, rfl⟩
  | cons o os ih =>
    obtain ⟨v, u, ⟨rfl, rfl⟩, h⟩ := seq_by expectValue_ok h
    obtain ⟨ws, u', ⟨rfl, rfl⟩, h⟩ := seq_by ih h
    cases h
    exact ⟨rfl, rfl⟩

/-- Values are popped in the order they were pushed. -/
theorem popValues_ok {n : Nat} (h : popValues n p s = .ok vs t) :
    s.stack.items = (vs.map Taken.operand).reverse ++ t.stack.items ∧ vs.length = n ∧
      t = { s with stack := t.stack } := by
  obtain ⟨os, u, ⟨hs, hn, ht⟩, h⟩ := seq_by popOperands_ok h
  obtain ⟨rfl, rfl⟩ := expectValues_ok h
  exact ⟨hs, by rwa [length_map] at hn, ht⟩

theorem popCondition_ok (h : popCondition p s = .ok () t) :
    ∃ v : Taken, s.stack.items = v.operand :: t.stack.items ∧ t = { s with stack := t.stack } := by
  obtain ⟨v, u, hv, h⟩ := seq_ok.mp h
  split at h
  · cases h
    exact ⟨v, popValue_ok hv⟩
  · cases h

end Compile

end Goblet
