import Goblet.Proofs.Compile.Turn

/-!
# Wiring

Later steps may take back code and put other code in its place, so an index into the code is not safe by itself. What
makes jumps right in the end:

- An operand whose value is known was loaded by an instruction that nothing else was added behind, or its place is lower
  than that of everything known above it (`Loaded`). So only loads are taken back or replaced (`Stays`), none of
  them below a label.
- The sites of open jumps and of functions whose bodies are open hold jumps (`Wired`).
- What a label or a function name leads to does not change (`Setting.Knows`).

Each turn keeps this (`Turn.wired`) and keeps what it is about (`Kept`), and so does a run of the compiler.
-/

namespace Goblet

open List SymbolTable

namespace Compile

variable {j : JumpTarget} {σ τ : Setting} {key : String} {sym : Symbol} {i : Nat} {k : Int}

/-! ## Names -/

/-- Where a label stands, or a function begins. -/
def Setting.Knows (σ : Setting) : JumpTarget → Nat → Prop
  | .label l, i => l ∈ σ.labels ∧ σ.symbols.lookup? (labelKey l) = some ⟨.label, .code i, .unknown, none⟩
  | .func key, i => ∃ sym, σ.symbols.lookup? key = some sym ∧ sym.kind = .func ∧ sym.value = some (.func i)

theorem Setting.Knows.target? (h : σ.Knows j i) : σ.target? j = some i := by
  cases j with
  | label l =>
    simp only [Setting.target?, contains_iff_mem.mpr h.1, if_true, label?, h.2]
  | func key =>
    obtain ⟨sym, hs, -, hv⟩ := h
    simp only [Setting.target?, entry?, hs, Option.bind_some, hv]

/-- Scopes and keys are such that no declaration hides a function. -/
structure Placed (σ : Setting) : Prop where
  scope : 1 < σ.scopes.length → σ.scope ≠ Place.mainScope
  funcs : ∀ f ∈ σ.funcs, FuncKey f.key
  keys : ∀ key sym, σ.symbols.lookup? key = some sym → sym.kind = .func → FuncKey key

theorem qualify_ne_labelKey {sc name l : String} (hn : VarName name) :
    qualify sc name ≠ labelKey l := by
  intro he
  have hcolon : ':' ∉ name.toList := by
    rcases hn with h | h
    · exact h.notMem (by decide)
    · exact h.notMem (by decide) (by decide) (by decide)
  have hlast : (qualify sc name).toList.getLast? = some ':' := by
    rw [he, labelKey, String.toList_append, getLast?_append]
    rfl
  unfold qualify at hlast
  split at hlast
  · exact hcolon (mem_of_getLast? hlast)
  · rw [String.toList_append, getLast?_append] at hlast
    cases hname : name.toList.getLast? with
    | some c =>
      rw [hname] at hlast
      cases hlast
      exact hcolon (mem_of_getLast? hname)
    | none =>
      rw [hname, String.toList_append, getLast?_append] at hlast
      cases hlast

theorem not_funcKey_of_varName {n : String} (h : VarName n) : ¬FuncKey n := by
  rintro (⟨sc, m, -, he⟩ | ⟨m, -, he⟩)
  · exact h.noSlash (by rw [he]; simp [String.toList_append])
  · exact h.noSlash (by rw [he]; simp [String.toList_append])

theorem Placed.not_funcKey {name : String} (h : Placed σ) (hn : VarName name)
    (hs : 1 < σ.scopes.length ∨ ∃ f ∈ σ.funcs, σ.scope = f.key) : ¬FuncKey (σ.key name) := by
  unfold Setting.key qualify
  split
  · exact not_funcKey_of_varName hn
  · rcases hs with hs | ⟨f, hf, hs⟩
    · rintro (hl | ⟨w, hw, he⟩)
      · exact LitKey.ne_var hn hl
      · exact h.scope hs (last_part_inj he hn.noSlash (hw.notMem (by decide))).1
    · rw [hs]
      exact (FuncKey.param (h.funcs f hf) hn).2

theorem Naming.lookup? (h : Naming σ τ) (k : String) : τ.symbols.lookup? k = σ.symbols.lookup? k ∨
    (∃ sym i, σ.symbols.lookup? k = some sym ∧ sym.addr = .unresolved ∧
      τ.symbols.lookup? k = some { sym with addr := .global i }) ∨
    (∃ sym ty, σ.symbols.lookup? k = some sym ∧ sym.kind = .var ∧ τ.symbols.lookup? k = some { sym with ty := ty }) ∨
    ∃ sym, τ.symbols.lookup? k = some sym ∧ sym.kind ≠ .func ∧ (σ.symbols.lookup? k = none ∨
      ∃ name, VarName name ∧ k = σ.key name ∧ (1 < σ.scopes.length ∨ ∃ f ∈ σ.funcs, σ.scope = f.key)) := by
  have add {key : String} {sym : Symbol} (hk : sym.kind ≠ .func) (hkey : σ.symbols.lookup? key = none ∨
      ∃ name, VarName name ∧ key = σ.key name ∧ (1 < σ.scopes.length ∨ ∃ f ∈ σ.funcs, σ.scope = f.key)) :
      (σ.symbols.add key sym).lookup? k = σ.symbols.lookup? k ∨
      ∃ sym', (σ.symbols.add key sym).lookup? k = some sym' ∧ sym'.kind ≠ .func ∧ (σ.symbols.lookup? k = none ∨
        ∃ name, VarName name ∧ k = σ.key name ∧ (1 < σ.scopes.length ∨ ∃ f ∈ σ.funcs, σ.scope = f.key)) := by
    rw [lookup?_add]
    split
    · rename_i he
      subst he
      exact .inr ⟨sym, rfl, hk, hkey⟩
    · exact .inl rfl
  cases h with
  | data | text | store => exact .inl rfl
  | @load key sym hs ha =>
    rw [lookup?_modify_of hs]
    split
    · rename_i he
      subst he
      exact .inr (.inl ⟨sym, _, hs, ha, rfl⟩)
    · exact .inl rfl
  | member _ hs hk _ => exact (add (by rw [hk]; nofun) (.inl hs)).imp_right (.inr ∘ .inr)
  | @retype key sym ty hs hk =>
    dsimp only
    rw [lookup?_modify_of hs]
    split
    · rename_i he
      subst he
      exact .inr (.inr (.inl ⟨sym, ty, hs, hk, rfl⟩))
    · exact .inl rfl
  | global _ _ hs | «local» _ _ hs => exact (add (by nofun) (.inl hs)).imp_right (.inr ∘ .inr)
  | @result f fs name ty hf hn hs =>
    exact (add (by nofun) (.inr ⟨name, .inl hn, rfl, .inr ⟨f, hf ▸ (.head _), hs⟩⟩)).imp_right (.inr ∘ .inr)
  | blank => exact .inl rfl
  | @meaning name sym hn hs hk _ =>
    refine (add ?_ (.inr ⟨name, hn, rfl, .inl hs⟩)).imp_right (.inr ∘ .inr)
    rcases hk with hk | hk <;> (rw [hk]; nofun)

theorem Naming.funcs (h : Naming σ τ) :
    τ.funcs.map ({ · with locals := 0 }) = σ.funcs.map ({ · with locals := 0 } : OpenFunc → OpenFunc) := by
  cases h with
  | «local» hf _ _ | result hf _ _ | blank hf => rw [hf]; rfl
  | _ => rfl

/-- A key means a variable that is a cell of a frame. -/
def IsLocal (symbols : SymbolTable) (key : String) (k : Int) : Prop :=
  ∃ sym, symbols.lookup? key = some sym ∧ sym.kind = .var ∧ sym.addr = .local k

theorem IsLocal.of_add {symbols : SymbolTable} {key' : String} (h : IsLocal (symbols.add key' sym) key k) :
    IsLocal symbols key k ∨ key = key' ∧ sym.kind = .var ∧ sym.addr = .local k := by
  obtain ⟨sym', hs, hkind, haddr⟩ := h
  rw [lookup?_add] at hs
  split at hs
  · cases hs
    exact .inr ⟨‹_›, hkind, haddr⟩
  · exact .inl ⟨sym', hs, hkind, haddr⟩

/-- A variable that is a cell was one, or is declared in the innermost function. -/
theorem Naming.isLocal (h : Naming σ τ) (hl : IsLocal τ.symbols key k) :
    IsLocal σ.symbols key k ∨ ∃ f fs name, σ.funcs = f :: fs ∧ VarName name ∧ key = σ.key name ∧ k = f.locals ∧
      τ.funcs = { f with locals := f.locals + 1 } :: fs := by
  cases h with
  | data | text | store | blank => exact .inl hl
  | @load key' sym hsym _ =>
    obtain ⟨sym', hs', hkind, haddr⟩ := hl
    rw [lookup?_modify_of hsym] at hs'
    split at hs'
    · cases hs'
      cases haddr
    · exact .inl ⟨sym', hs', hkind, haddr⟩
  | @retype key' sym ty hsym hk =>
    obtain ⟨sym', hs', hkind, haddr⟩ := hl
    dsimp only at hs'
    rw [lookup?_modify_of hsym] at hs'
    split at hs'
    · rename_i he
      subst he
      cases hs'
      exact .inl ⟨sym, hsym, hk, haddr⟩
    · exact .inl ⟨sym', hs', hkind, haddr⟩
  | member _ _ hk _ => exact .inl (hl.of_add.resolve_right fun ⟨_, hv, _⟩ => nomatch hk.symm.trans hv)
  | global => exact .inl (hl.of_add.resolve_right fun ⟨_, _, ha⟩ => nomatch ha)
  | «local» hf hv _ =>
    refine hl.of_add.imp_right fun ⟨hkey, _, ha⟩ => ⟨_, _, _, hf, hv, hkey, ?_, rfl⟩
    cases ha
    rfl
  | result hf hw _ =>
    refine hl.of_add.imp_right fun ⟨hkey, _, ha⟩ => ⟨_, _, _, hf, .inl hw, hkey, ?_, rfl⟩
    cases ha
    rfl
  | meaning _ _ hk _ =>
    refine .inl (hl.of_add.resolve_right fun ⟨_, hv, _⟩ => ?_)
    rcases hk with hk | hk <;> exact nomatch hk.symm.trans hv

/-- A function's address never changes. -/
theorem Naming.func (h : Naming σ τ) (hp : Placed σ) (hs : σ.symbols.lookup? key = some sym) (hk : sym.kind = .func) :
    ∃ addr, τ.symbols.lookup? key = some { sym with addr := addr } := by
  rcases h.lookup? key with he | ⟨sym', i, hs', -, ht⟩ | ⟨sym', ty, hs', hk', -⟩ |
    ⟨sym', -, -, hnone | ⟨name, hn, rfl, hsc⟩⟩
  · exact ⟨sym.addr, by rw [he, hs]⟩
  · cases hs.symm.trans hs'
    exact ⟨_, ht⟩
  · cases hs.symm.trans hs'
    exact absurd (hk.symm.trans hk') nofun
  · rw [hs] at hnone
    cases hnone
  · exact absurd (hp.keys _ sym hs hk) (hp.not_funcKey hn hsc)

theorem Naming.labelAt (h : Naming σ τ) {l : String}
    (hs : σ.symbols.lookup? (labelKey l) = some ⟨.label, .code i, .unknown, none⟩) :
    τ.symbols.lookup? (labelKey l) = some ⟨.label, .code i, .unknown, none⟩ := by
  rcases h.lookup? (labelKey l) with
    he | ⟨sym', i, hs', ha, -⟩ | ⟨sym', ty, hs', hk', -⟩ | ⟨sym', -, -, hnone | ⟨name, hn, he, -⟩⟩
  · rw [he, hs]
  · cases hs.symm.trans hs'
    cases ha
  · cases hs.symm.trans hs'
    cases hk'
  · rw [hs] at hnone
    cases hnone
  · exact absurd he.symm (qualify_ne_labelKey hn)

/-- Declaring keeps every symbol in its place. -/
theorem Naming.placed (h : Naming σ τ) (hp : Placed σ) : Placed τ := by
  have hrest := Names.rest (.single h)
  refine ⟨fun hs => ?_, fun f hf => ?_, fun key sym hs hk => ?_⟩
  · rw [hrest] at hs ⊢
    exact hp.scope hs
  · have hm : ({ f with locals := 0 } : OpenFunc) ∈ σ.funcs.map ({ · with locals := 0 }) :=
      h.funcs ▸ mem_map_of_mem hf
    obtain ⟨g, hg, he⟩ := mem_map.mp hm
    have hkey : g.key = f.key := (OpenFunc.mk.inj he).1
    exact hkey ▸ hp.funcs g hg
  · rcases h.lookup? key with he | ⟨sym', i, hs', -, ht⟩ | ⟨sym', ty, hs', hk', ht⟩ | ⟨sym', ht, hk', -⟩
    · exact hp.keys key sym (he ▸ hs) hk
    · cases hs.symm.trans ht
      exact hp.keys key sym' hs' hk
    · cases hs.symm.trans ht
      exact hp.keys key sym' hs' hk
    · cases hs.symm.trans ht
      exact absurd hk hk'

/-- So do several declarations. -/
theorem Names.placed (h : Names σ τ) (hp : Placed σ) : Placed τ := by
  induction h with
  | refl => exact hp
  | tail _ h ih => exact h.placed ih

theorem Names.funcs (h : Names σ τ) :
    τ.funcs.map ({ · with locals := 0 }) = σ.funcs.map ({ · with locals := 0 } : OpenFunc → OpenFunc) := by
  induction h with
  | refl => rfl
  | tail _ h ih => rw [h.funcs, ih]

/-- **Names lead where they led.** -/
theorem Names.knows (h : Names σ τ) (hp : Placed σ) (hk : σ.Knows j i) : τ.Knows j i := by
  induction h with
  | refl => exact hk
  | @tail υ τ h h' ih =>
    cases j with
    | label l =>
      refine ⟨?_, h'.labelAt ih.2⟩
      rw [Names.rest (.single h')]
      exact ih.1
    | func key =>
      obtain ⟨sym, hs, hkind, hv⟩ := ih
      obtain ⟨addr, ht⟩ := h'.func (Names.placed h hp) hs hkind
      exact ⟨_, ht, hkind, hv⟩

theorem Names.isLocal (h : Names σ τ) (hf : σ.funcs = []) (hl : IsLocal τ.symbols key k) : IsLocal σ.symbols key k := by
  induction h with
  | refl => exact hl
  | @tail υ τ h h' ih =>
    have hυ : υ.funcs = [] := by
      have hfuncs := Names.funcs h
      rw [hf] at hfuncs
      exact map_eq_nil_iff.mp hfuncs
    refine ih ((h'.isLocal hl).resolve_right fun ⟨f, fs, _, hcons, _⟩ => ?_)
    rw [hυ] at hcons
    cases hcons

/-- Nor does it along several declarations. -/
theorem Names.func (h : Names σ τ) (hp : Placed σ) (hs : σ.symbols.lookup? key = some sym) (hk : sym.kind = .func) :
    ∃ addr, τ.symbols.lookup? key = some { sym with addr := addr } := by
  induction h with
  | refl => exact ⟨sym.addr, hs⟩
  | @tail υ τ h h' ih =>
    obtain ⟨addr, hs⟩ := ih
    obtain ⟨addr', ht⟩ := h'.func (Names.placed h hp) hs hk
    exact ⟨addr', ht⟩

theorem Names.knows_func (h : Names σ τ) (hk : τ.Knows (.func key) i) : σ.Knows (.func key) i := by
  induction h with
  | refl => exact hk
  | @tail υ τ _ h' ih =>
    obtain ⟨sym, hs, hkind, hv⟩ := hk
    refine ih ?_
    rcases h'.lookup? key with he | ⟨sym', i, hs', -, ht⟩ | ⟨sym', ty, hs', hk', ht⟩ | ⟨sym', ht, hk', -⟩
    · exact ⟨sym, he ▸ hs, hkind, hv⟩
    · cases hs.symm.trans ht
      exact ⟨sym', hs', hkind, hv⟩
    · cases hs.symm.trans ht
      exact absurd (hk'.symm.trans hkind) nofun
    · cases hs.symm.trans ht
      exact absurd hkind hk'

/-- A target has one address. -/
theorem Setting.Knows.unique {i' : Nat} (h : σ.Knows j i) (h' : σ.Knows j i') : i = i' :=
  Option.some.inj (h.target?.symm.trans h'.target?)

/-- The functions whose bodies are open, the innermost first, whatever variables they have. -/
def Setting.bodies (σ : Setting) : List OpenFunc := σ.funcs.map ({ · with locals := 0 })

theorem Names.bodies (h : Names σ τ) : τ.bodies = σ.bodies := h.funcs

end Compile

/-! ## Code that stays -/

/-- Whether an instruction may be taken back or replaced by another: it loads a value. -/
def Op.isSoft : Op → Bool
  | .push _ | .get _ | .addr _ => true
  | _ => false

/-- The instruction but for what is filled in later. -/
def Op.unlinked : Op → Op
  | .jump _ => .jump 0
  | .jumpTrue _ => .jumpTrue 0
  | .jumpFalse _ => .jumpFalse 0
  | .jumpSetTrue _ => .jumpSetTrue 0
  | .jumpSetFalse _ => .jumpSetFalse 0
  | .call _ => .call 0
  | .next k v _ => .next k v 0
  | .grow _ => .grow 0
  | op => op

theorem Op.unlinked_withOffset? {op op' : Op} {rel : Int} (h : op.withOffset? rel = some op') :
    op'.unlinked = op.unlinked := by
  cases op <;> cases h <;> rfl

theorem Op.isSoft_withOffset? {op op' : Op} {rel : Int} (h : op.withOffset? rel = some op') : op.isSoft = false := by
  cases op <;> first | rfl | cases h

namespace Compile

variable {s t u : CompileState} {p : Pos} {n m i : Nat} {op : Op} {ops ops' : List Op} {ks ks' : List Known}
  {last : Option Nat}

/-- The instruction at an index stays: it loads nothing, or a label stands behind it. -/
def Stays (s : CompileState) (i : Nat) (op : Op) : Prop :=
  s.ops[i]? = some op ∧ (op.isSoft = false ∨ ∃ j, s.lastLabel = some j ∧ i < j)

/-- Code in which every instruction is that stays. -/
def Recodes (s : CompileState) (ops : List Op) : Prop := ∀ i op, Stays s i op → ops[i]? = some op

/-- Known operands, the top one first, were loaded one after the other, behind all labels. -/
structure Loaded (ops : List Op) (last : Option Nat) (ks : List Known) : Prop where
  order : ks.Pairwise fun a b => b.loadedAt < a.loadedAt
  soft : ∀ k ∈ ks, ∃ op, ops[k.loadedAt]? = some op ∧ op.isSoft
  above : ∀ k ∈ ks, ∀ j, last = some j → j ≤ k.loadedAt

namespace Loaded

theorem nil : Loaded ops last [] := ⟨.nil, nofun, nofun⟩

variable (h : Loaded ops last ks)
include h

theorem lt {k : Known} (hk : k ∈ ks) : k.loadedAt < ops.length := by
  obtain ⟨op, hop, -⟩ := h.soft k hk
  exact (List.getElem?_eq_some_iff.mp hop).1

theorem sublist (hs : ks'.Sublist ks) : Loaded ops last ks' :=
  ⟨h.order.sublist hs, fun k hk => h.soft k (hs.subset hk), fun k hk => h.above k (hs.subset hk)⟩

theorem append (more : List Op) : Loaded (ops ++ more) last ks := by
  refine ⟨h.order, fun k hk => ?_, h.above⟩
  rw [getElem?_append_left (h.lt hk)]
  exact h.soft k hk

/-- Rewriting loaded integers keeps them loaded. -/
theorem floats (hf : Floats ks' ops ops') : Loaded ops' last ks := by
  refine ⟨h.order, fun k hk => ?_, h.above⟩
  rcases hf.each k.loadedAt with he | ⟨-, -, x, hx⟩
  · rw [he]
    exact h.soft k hk
  · exact ⟨_, hx, rfl⟩

theorem take (hi : ∀ k ∈ ks, k.loadedAt < i) : Loaded (ops.take i) last ks := by
  refine ⟨h.order, fun k hk => ?_, h.above⟩
  rw [getElem?_take_of_lt (hi k hk)]
  exact h.soft k hk

theorem cons (hlast : ∀ j, last = some j → j ≤ ops.length) (hop : op.isSoft) (v : Value) :
    Loaded (ops ++ [op]) last (⟨v, ops.length⟩ :: ks) := by
  refine ⟨pairwise_cons.mpr ⟨fun k hk => h.lt hk, h.order⟩, fun k hk => ?_, fun k hk => ?_⟩
  · rcases mem_cons.mp hk with rfl | hk
    · exact ⟨op, getElem?_concat_length, hop⟩
    · exact (h.append [op]).soft k hk
  · rcases mem_cons.mp hk with rfl | hk
    · exact hlast
    · exact h.above k hk

end Loaded

/-! ## What moves keep -/

theorem Recodes.refl : Recodes s s.ops := fun _ _ h => h.1

theorem Recodes.append (h : Recodes s ops) (more : List Op) : Recodes s (ops ++ more) := fun i op hi => by
  have ho := h i op hi
  rw [getElem?_append_left (List.getElem?_eq_some_iff.mp ho).1, ho]

/-- Rewriting loaded integers recodes nothing else. -/
theorem Recodes.floats (hl : Loaded s.ops s.lastLabel ks) (hf : Floats ks s.ops ops) : Recodes s ops := by
  intro i op ⟨ho, hstays⟩
  rcases hf.each i with he | ⟨⟨k, hk, rfl⟩, ⟨n, hn⟩, -⟩
  · rw [he, ho]
  · rw [ho] at hn
    cases hn
    rcases hstays with hsoft | ⟨j, hj, hlt⟩
    · cases hsoft
    · exact absurd (hl.above k hk j hj) (Nat.not_le.mpr hlt)

theorem Recodes.take (h : ∀ k, i ≤ k → k < s.ops.length →
    (∃ op, s.ops[k]? = some op ∧ op.isSoft) ∧ ∀ j, s.lastLabel = some j → j ≤ k) : Recodes s (s.ops.take i) := by
  intro k op ⟨ho, hstays⟩
  by_cases hk : k < i
  · rw [getElem?_take_of_lt hk, ho]
  · obtain ⟨⟨op', ho', hsoft⟩, hlast⟩ := h k (Nat.not_lt.mp hk) (List.getElem?_eq_some_iff.mp ho).1
    cases ho.symm.trans ho'
    rcases hstays with hfirm | ⟨j, hj, hlt⟩
    · rw [hsoft] at hfirm
      cases hfirm
    · exact absurd (hlast j hj) (Nat.not_le.mpr hlt)

theorem Recodes.le_length (h : Recodes s ops) (hin : ∀ j, s.lastLabel = some j → j ≤ s.ops.length) {j : Nat}
    (hj : s.lastLabel = some j) : j ≤ ops.length := by
  cases j with
  | zero => exact Nat.zero_le _
  | succ k =>
    have hk : k < s.ops.length := hin _ hj
    have := h k s.ops[k] ⟨getElem?_eq_getElem hk, .inr ⟨_, hj, Nat.lt_succ_self k⟩⟩
    exact (List.getElem?_eq_some_iff.mp this).1

theorem Trailing.known {os : List Operand} (h : Trailing i os s) {k : Nat} (hik : i ≤ k) (hk : k < s.ops.length) :
    ∃ x ∈ knowns os, x.loadedAt = k := by
  have hm : some k ∈ os.map (·.known?.map Known.loadedAt) := by
    rw [h.sites]
    refine mem_map_of_mem (mem_reverse.mpr (mem_range'_1.mpr ⟨hik, ?_⟩))
    rw [h.size]
    exact hk
  obtain ⟨o, ho, he⟩ := mem_map.mp hm
  obtain ⟨x, hx, rfl⟩ := Option.map_eq_some_iff.mp he
  exact ⟨x, mem_filterMap.mpr ⟨o, ho, hx⟩, rfl⟩

theorem isSoft_of_loads {σ : Setting} {v : Value} (h : Loads σ v op) : op.isSoft := by
  cases h <;> rfl

theorem Move.names_func (h : Move n m s t) {key : String} {sig : FuncType} (hm : .func key sig ∈ t.stack.items) :
    .func key sig ∈ s.stack.items ∨ ∃ sym, s.symbols.lookup? key = some sym ∧ sym.kind = .func := by
  have quiet {rs : List Operand} (hq : rs.all isQuiet) : .func key sig ∉ rs := fun hr =>
    nomatch (all_eq_true.mp hq _ hr : isQuiet (.func key sig) = true)
  induction h with
  | emits hs ht _ _ _ _ hq _ =>
    rw [ht] at hm
    rw [hs]
    exact .inl ((mem_append.mp hm).elim (fun hr => absurd hr (quiet hq)) (mem_append_right _))
  | names hsym hk _ ht =>
    subst ht
    rcases mem_cons.mp hm with he | hm
    · cases he
      exact .inr ⟨_, hsym, hk⟩
    · exact .inl hm
  | keeps => exact .inl hm
  | loads ht =>
    rw [ht] at hm
    exact .inl ((mem_cons.mp hm).resolve_left nofun)
  | folds hs _ ht =>
    rw [ht] at hm
    rw [hs]
    exact .inl (mem_append_right _ ((mem_cons.mp hm).resolve_left nofun))
  | shortens hs _ _ ht =>
    rw [ht] at hm
    rw [hs]
    exact .inl (.tail _ (.tail _ ((mem_cons.mp hm).resolve_left nofun)))
  | addresses hs _ _ ht =>
    rw [ht] at hm
    rw [hs]
    exact .inl (.tail _ ((mem_cons.mp hm).resolve_left nofun))
  | @beneath _ _ s _ u _ _ hs hu _ ih =>
    rw [hs]
    have hsymbols : u.symbols = s.symbols := by rw [hu]
    exact (ih hm).imp (mem_cons_of_mem _) (hsymbols ▸ id)

/-- **What a move keeps.** -/
theorem Move.recodes (h : Move n m s t) (hl : Loaded s.ops s.lastLabel (knowns s.stack.items))
    (hin : ∀ j, s.lastLabel = some j → j ≤ s.ops.length) :
    Names s.setting t.setting ∧ Recodes s t.ops ∧ Loaded t.ops s.lastLabel (knowns t.stack.items) := by
  induction h with
  | @emits s t os rs rest ops hs ht hn hc _ _ hq _ =>
    obtain ⟨base, hf, hops⟩ := hc
    rw [hs, knowns_append] at hl
    rw [hops, ht, knowns_append, knowns_of_quiet hq]
    refine ⟨hn, (Recodes.floats (hl.sublist (sublist_append_left _ _)) hf).append ops, ?_⟩
    exact ((hl.sublist (sublist_append_right _ _)).floats hf).append ops
  | names _ _ _ ht =>
    subst ht
    exact ⟨.refl, .refl, hl⟩
  | keeps => exact ⟨.refl, .refl, hl⟩
  | loads ht hn hops hload _ =>
    rw [hops, ht]
    exact ⟨hn, Recodes.refl.append _, hl.cons hin (isSoft_of_loads hload) _⟩
  | @folds s t os rest i v ty op hs htr ht hn hops hload _ =>
    rw [hs, knowns_append] at hl
    have hcut : Recodes s (s.ops.take i) := by
      refine Recodes.take fun k hik hk => ?_
      obtain ⟨x, hx, rfl⟩ := htr.known hik hk
      have hx := mem_append_left (knowns rest) hx
      exact ⟨hl.soft x hx, hl.above x hx⟩
    have hlen : (s.ops.take i).length = i := by
      rw [length_take]
      have := htr.size
      omega
    have hbelow : ∀ k ∈ knowns rest, k.loadedAt < i := by
      intro k hk
      have hlt := hl.lt (mem_append_right _ hk)
      by_cases hi : i ≤ k.loadedAt
      · obtain ⟨x, hx, he⟩ := htr.known hi hlt
        have := (pairwise_append.mp hl.order).2.2 x hx k hk
        omega
      · omega
    have hrest := (hl.sublist (sublist_append_right _ _)).take hbelow
    have hlast : ∀ j, s.lastLabel = some j → j ≤ (s.ops.take i).length := fun j hj => hcut.le_length hin hj
    rw [hops, ht]
    refine ⟨hn, hcut.append _, ?_⟩
    have := hrest.cons hlast (isSoft_of_loads hload) v
    rwa [hlen] at this
  | @shortens s t left rest i k ty op hs hi _ ht hset hops _ =>
    rw [hs] at hl
    have hlast : (⟨.int k, i⟩ : Known) ∈ knowns (.value .int (some ⟨.int k, i⟩) :: .value .int left :: rest) :=
      (.head _)
    have hcut : Recodes s (s.ops.take i) := by
      refine Recodes.take fun j hij hj => ?_
      obtain rfl : j = i := by omega
      exact ⟨hl.soft _ hlast, hl.above _ hlast⟩
    rw [hops, ht, hset]
    have hrest : (knowns rest).Sublist (knowns (.value .int left :: rest)) := (sublist_cons_self _ _).filterMap _
    refine ⟨.refl, hcut.append _, ((hl.sublist (hrest.trans (sublist_cons_self _ _))).take fun x hx => ?_).append _⟩
    exact (pairwise_cons.mp hl.order).1 x (hrest.subset hx)
  | @addresses s t rest ty ops i hs hops hlab ht hset hops' =>
    rw [hset, ht, hops']
    rw [hs] at hl
    refine ⟨.refl, fun k op ⟨ho, hstays⟩ => ?_, hl.order, fun k hk => ?_, hl.above⟩
    · rw [hops] at ho hlab
      rw [hops] at hin
      rw [length_append, length_singleton] at hin hlab
      by_cases hk : k < ops.length
      · rw [getElem?_append_left hk] at ho ⊢
        exact ho
      · obtain rfl : k = ops.length := by
          have := (List.getElem?_eq_some_iff.mp ho).1
          rw [length_append, length_singleton] at this
          omega
        rw [getElem?_concat_length] at ho
        cases ho
        rcases hstays with hfirm | ⟨j, hj, hlt⟩
        · cases hfirm
        · have := hin j hj
          obtain rfl : j = ops.length + 1 := by omega
          exact absurd hj hlab
    · have hsoft := hl.soft k hk
      have hlt := hl.lt hk
      rw [hops] at hsoft hlt
      by_cases hk : k.loadedAt < ops.length
      · rw [getElem?_append_left hk] at hsoft ⊢
        exact hsoft
      · obtain hk : k.loadedAt = ops.length := by
          rw [length_append, length_singleton] at hlt
          omega
        rw [hk, getElem?_concat_length]
        exact ⟨_, rfl, rfl⟩
  | @beneath n m s t u o ho hs hu _ ih =>
    have hnone : o.known? = none := by
      cases o with
      | value => cases ho
      | _ => rfl
    have hset : u.setting = s.setting := by rw [hu]; rfl
    have hops : u.ops = s.ops := by rw [hu]; rfl
    have hlast : u.lastLabel = s.lastLabel := congrArg Setting.lastLabel hset
    have hknown : knowns s.stack.items = knowns u.stack.items := by
      rw [hs, knowns, filterMap_cons_none hnone]
      rfl
    rw [hknown, ← hops, ← hlast] at hl
    rw [← hlast, ← hops] at hin
    obtain ⟨hn, hr, hl'⟩ := ih hl hin
    refine ⟨hset ▸ hn, fun k op ⟨ho, hstays⟩ => hr k op ⟨hops ▸ ho, hlast ▸ hstays⟩, hlast ▸ hl'⟩

end Compile

end Goblet
