import Goblet.Proofs.Compile.Locals

/-!
# Frames

The code of a function is a region (`Region`): it begins with the instruction that makes room for the variables of the
function and ends behind the last one of the body. Regions nest, and an instruction is in the innermost one around it
(`Region.home`). In the code of a chunk that compiles, the cells that an instruction names are those of the frame of its
function, which are neither the return address nor the frame of the caller, and what it returns is what this function
takes and returns; outside of functions there is neither (`Framed`).

`Homed` is what holds on the way, with the regions that have ended in the order of their ends. A function that is open
lies around all that was added since it began. A step adds instructions of the innermost function (`Turn.adds`) or ends
it (`Homed.closes`).
-/

namespace Goblet

open List OpenFunc Option

/-! ## Cells -/

/-- The cell of a frame that a place in memory is. -/
def Slot.cell? : Slot → Option Int
  | .local k => some k
  | .global _ => none

namespace Op

/-- The cells of the frame that an instruction names. -/
def cells : Op → List Int
  | .get slot | .set slot | .addr slot => slot.cell?.toList
  | .next key value _ => (key.bind Slot.cell?).toList ++ (value.bind Slot.cell?).toList
  | _ => []

/-- How many results and parameters an instruction returns with. -/
def returns? : Op → Option (Nat × Nat)
  | .ret results params => some (results, params)
  | _ => none

/-- The instruction can stand in the code of a function with this frame, or outside of functions. -/
def Fits (op : Op) : Option FrameSize → Prop
  | some f => (∀ k ∈ op.cells, f.Has k) ∧ ∀ r, op.returns? = some r → r = (f.results, f.params)
  | none => op.cells = [] ∧ op.returns? = none

theorem Fits.anywhere {op : Op} (h : op.Fits none) (home : Option FrameSize) : op.Fits home := by
  cases home with
  | none => exact h
  | some f =>
    refine ⟨fun k hk => ?_, fun r hr => ?_⟩
    · rw [h.1] at hk
      cases hk
    · rw [h.2] at hr
      cases hr

theorem Fits.of_unlinked {op op' : Op} {home : Option FrameSize} (h : op.Fits home) (he : op'.unlinked = op.unlinked) :
    op'.Fits home := by
  have hcells : ∀ op : Op, op.unlinked.cells = op.cells := by
    intro op
    cases op <;> rfl
  have hreturns : ∀ op : Op, op.unlinked.returns? = op.returns? := by
    intro op
    cases op <;> rfl
  unfold Fits at h ⊢
  rwa [← hcells op', he, hcells, ← hreturns op', he, hreturns]

end Op

/-! ## Regions -/

/-- The code of a function. -/
structure Region where
  key : String
  size : FrameSize
  /-- The instruction that makes room. -/
  entry : Nat
  /-- The instruction behind the last one. -/
  stop : Nat
deriving DecidableEq

namespace Region

def covers (g : Region) (i : Nat) : Bool := g.entry ≤ i && i < g.stop

theorem covers_iff {g : Region} {i : Nat} : g.covers i = true ↔ g.entry ≤ i ∧ i < g.stop := by
  rw [covers, Bool.and_eq_true, decide_eq_true_iff, decide_eq_true_iff]

/-- The region an instruction is in, where inner regions come first. -/
def home (regions : List Region) (i : Nat) : Option Region := regions.find? (·.covers i)

theorem home_eq_none {regions : List Region} {i : Nat} (h : ∀ g ∈ regions, g.stop ≤ i) : home regions i = none := by
  refine find?_eq_none.mpr fun g hg hc => ?_
  have := h g hg
  have := (covers_iff.mp hc).2
  omega

/-- The name of the function, and how many values it takes and returns. -/
def header (g : Region) : String × Nat × Nat := (g.key, g.size.params, g.size.results)

/-- The first region ended before the second began, or it lies inside of it. -/
def Before (g h : Region) : Prop := g.stop ≤ h.entry ∨ h.entry < g.entry ∧ g.stop < h.stop

/-- What a body ends with. -/
def lastOp (g : Region) : Op := if g.size.results = 0 then .ret 0 g.size.params else .missingReturn

end Region

/-- The function whose body begins, and how many values it takes and returns. -/
def Act.body? : Act → Option (String × Nat × Nat)
  | .body key sig => some (key, sig.params.length, sig.results.length)
  | _ => none

/-- The functions whose bodies are in a stream. -/
def bodiesOf (steps : List Step) : List (String × Nat × Nat) := steps.filterMap (·.val.body?)

def OpenFunc.header (f : OpenFunc) : String × Nat × Nat := (f.key, f.sig.params.length, f.sig.results.length)

namespace Compile

/-- The code of a chunk that compiles, from `first` on, with the regions of its functions. -/
structure Framed (regions : List Region) (first : Nat) (t : CompileState) : Prop where
  code : ∀ i op, first ≤ i → t.ops[i]? = some op → op.Fits ((Region.home regions i).map Region.size)
  bounds : ∀ g ∈ regions, first ≤ g.entry ∧ g.entry < g.stop ∧ g.stop ≤ t.ops.length
  begins : ∀ g ∈ regions, t.ops[g.entry]? = some (.grow g.size.locals) ∧ t.setting.Knows (.func g.key) g.entry
  ends : ∀ g ∈ regions, t.ops[g.stop - 1]? = some g.lastOp
  nested : regions.Pairwise Region.Before

variable {r : Registry} {heads : String → Prop} {program : Program} {symbols old : SymbolTable} {s t u w : CompileState}
  {σ : Setting} {p : Pos} {act : Act} {op : Op} {i n m first : Nat} {fs gs : List OpenFunc} {f : OpenFunc}
  {closed : List Region} {whole : List (String × Nat × Nat)} {l l' rest : List Step} {c d : List Step × CompileState}
  {target : JumpTarget} {rel : Int} {site : Nat} {store : Store} {a b : List Op} {head : List Step}

/-! ## Instructions that are added -/

/-- The frame of the innermost function. -/
def frame? (fs : List OpenFunc) : Option FrameSize := fs.head?.map size

theorem fits_of_cells (hcells : ∀ k ∈ op.cells, ∃ f fs', fs = f :: fs' ∧ f.size.Has k)
    (hreturns : ∀ r, op.returns? = some r → ∃ f fs', fs = f :: fs' ∧ r = (f.sig.results.length, f.sig.params.length)) :
    op.Fits (frame? fs) := by
  cases fs with
  | nil =>
    refine ⟨eq_nil_iff_forall_not_mem.mpr fun k hk => ?_, eq_none_iff_forall_ne_some.mpr fun r hr => ?_⟩
    · obtain ⟨_, _, hf, -⟩ := hcells k hk
      cases hf
    · obtain ⟨_, _, hf, -⟩ := hreturns r hr
      cases hf
  | cons f fs =>
    refine ⟨fun k hk => ?_, fun r hr => ?_⟩
    · obtain ⟨_, _, hf, hk⟩ := hcells k hk
      cases hf
      exact hk
    · obtain ⟨_, _, hf, hr⟩ := hreturns r hr
      cases hf
      exact hr

theorem Housed.cell {o : Option Slot} {k : Int} (hh : Housed old σ) (hp : Placed σ) (hs : σ.Scoped)
    (hr : ∀ slot, o = some slot → σ.Reach slot) (hk : k ∈ (o.bind Slot.cell?).toList) :
    ∃ f fs, σ.funcs = f :: fs ∧ f.size.Has k := by
  rcases o with _ | _ | k'
  · cases hk
  · cases hk
  · obtain rfl : k = k' := mem_singleton.mp hk
    exact hh.reach hp hs (hr _ rfl)

/-- What is within scope fits the frame around it. -/
theorem within_fits (h : op.Within σ) (hh : Housed old σ) (hp : Placed σ) (hs : σ.Scoped) :
    op.Fits (frame? σ.funcs) := by
  have slot {slot : Slot} (hr : σ.Reach slot) {k : Int} (hk : k ∈ slot.cell?.toList) :=
    hh.cell hp hs (fun _ he => Option.some.inj he ▸ hr) hk
  refine fits_of_cells (fun k hk => ?_) fun r hr => ?_
  · cases op with
    | get s | set s | addr s => exact slot h hk
    | next key value rel => exact (mem_append.mp hk).elim (hh.cell hp hs h.1) (hh.cell hp hs h.2)
    | _ => cases hk
  · cases op with
    | ret results params =>
      cases hr
      obtain ⟨f, fs, hf, rfl, rfl⟩ := h
      exact ⟨f, fs, hf, rfl⟩
    | _ => cases hr

/-- An instruction of two pieces of code is in the first, or it is one of the second. -/
theorem instr_of_append (ho : (a ++ b)[i]? = some op) : a[i]? = some op ∨ a.length ≤ i ∧ op ∈ b := by
  by_cases hi : i < a.length
  · exact .inl (getElem?_append_left hi ▸ ho)
  · rw [getElem?_append_right (Nat.not_lt.mp hi)] at ho
    exact .inr ⟨Nat.not_lt.mp hi, mem_of_getElem? ho⟩

theorem Floats.instr {ks : List Known} (h : Floats ks a b) (ho : b[i]? = some op) :
    a[i]? = some op ∨ op.Fits none := by
  rcases h.each i with he | ⟨-, -, x, hx⟩
  · exact .inl (he ▸ ho)
  · cases ho.symm.trans hx
    exact .inr ⟨rfl, rfl⟩

theorem Loads.fits {v : Value} (h : Loads σ v op) : op.Fits none := by
  cases h <;> exact ⟨rfl, rfl⟩

theorem instr_of_take {new : Op} (hops : t.ops = s.ops.take n ++ [new]) (hnew : new.Fits none)
    (ho : t.ops[i]? = some op) : s.ops[i]? = some op ∨ op.Fits none := by
  rw [hops] at ho
  rcases instr_of_append ho with ho | ⟨-, hm⟩
  · rw [getElem?_take] at ho
    split at ho
    · exact .inl ho
    · cases ho
  · exact .inr (mem_singleton.mp hm ▸ hnew)

/-- An instruction behind a move was there, stands anywhere, or is a new one. -/
theorem Move.instr (h : Move n m s t) (ho : t.ops[i]? = some op) :
    s.ops[i]? = some op ∨ op.Fits none ∨ s.ops.length ≤ i ∧ op.Within t.setting := by
  induction h with
  | @emits s t os rs rest ops _ _ _ hc _ hw _ _ =>
    obtain ⟨base, hf, hops⟩ := hc
    rw [hops] at ho
    rcases instr_of_append ho with ho | ⟨hi, hm⟩
    · exact (hf.instr ho).imp_right .inl
    · exact .inr (.inr ⟨hf.length ▸ hi, hw op hm⟩)
  | names _ _ _ ht =>
    subst ht
    exact .inl ho
  | keeps => exact .inl ho
  | @loads s t v ty new _ _ hops hload _ =>
    refine (instr_of_take (n := s.ops.length) ?_ hload.fits ho).imp_right .inl
    rw [take_length]
    exact hops
  | folds _ _ _ _ hops hload _ => exact (instr_of_take hops hload.fits ho).imp_right .inl
  | shortens _ _ _ _ _ hops hop =>
    refine (instr_of_take hops ?_ ho).imp_right .inl
    rcases hop with rfl | rfl | rfl <;> exact ⟨rfl, rfl⟩
  | addresses _ hops _ _ _ hops' =>
    rw [hops'] at ho
    rw [hops]
    rcases instr_of_append ho with ho | ⟨-, hm⟩
    · exact .inl (getElem?_append_left (List.getElem?_eq_some_iff.mp ho).1 ▸ ho)
    · rw [mem_singleton.mp hm]
      exact .inr (.inl ⟨rfl, rfl⟩)
  | @beneath n m s t u o _ _ hu _ ih =>
    have hops : u.ops = s.ops := by rw [hu]; rfl
    rw [← hops]
    exact ih ho

/-- What a step adds that ends no function: instructions of the innermost one, which may be one that it opens. -/
structure Adds (act : Act) (extra : List OpenFunc) (s t : CompileState) : Prop where
  code : ∀ i op, t.ops[i]? = some op → s.ops[i]? = some op ∨ op.Fits none ∨
    s.ops.length ≤ i ∧ (∀ f ∈ extra, f.growSite ≤ i) ∧ op.Fits (frame? t.funcs)
  funcs : ∃ gs, t.funcs = extra ++ gs ∧ Grown s.funcs gs
  headers : extra.map header = act.body?.toList
  sites : ∀ f ∈ extra, s.ops.length ≤ f.growSite ∧ t.setting.Knows (.func f.key) f.growSite
  last : ∀ j, s.lastLabel = some j → ∃ j', t.lastLabel = some j' ∧ j ≤ j'

theorem Adds.of_names (hn : Names s.setting σ) {scopes : List String} {marks : List Nat} {jumps : List OpenJump}
    (hset : t.setting = { σ with scopes := scopes, marks := marks, jumps := jumps }) (hact : act.body? = none)
    (hcode : ∀ i op, t.ops[i]? = some op → s.ops[i]? = some op ∨ op.Fits none ∨
      s.ops.length ≤ i ∧ op.Fits (frame? t.funcs)) : Adds act [] s t where
  code i op ho := (hcode i op ho).imp_right (.imp_right fun ⟨hi, hf⟩ => ⟨hi, nofun, hf⟩)
  funcs := ⟨t.funcs, rfl, by rw [show t.funcs = σ.funcs from congrArg Setting.funcs hset]; exact hn.grown⟩
  headers := by rw [hact]; rfl
  sites := nofun
  last j hj := by
    have hlast : t.lastLabel = s.lastLabel := (congrArg Setting.lastLabel hset).trans
      (congrArg Setting.lastLabel hn.rest)
    exact ⟨j, hlast.trans hj, Nat.le_refl j⟩

theorem instr_of_concat {new : Op} (hops : t.ops = s.ops ++ [new]) (hnew : new.Fits none) (ho : t.ops[i]? = some op) :
    s.ops[i]? = some op ∨ op.Fits none :=
  instr_of_take (by rw [take_length]; exact hops) hnew ho

/-- A move adds instructions that fit its frame. -/
theorem Move.adds (h : Move n m s t) (hact : act.body? = none) (hw : Wired s) (hp : Placed s.setting)
    (hs : s.setting.Scoped) (hh : Housed old s.setting) : Adds act [] s t := by
  have hn := (h.recodes hw.loaded hw.inside).1
  refine .of_names hn rfl hact fun i op ho => (h.instr ho).imp_right (.imp_right fun ⟨hi, hwithin⟩ => ⟨hi, ?_⟩)
  exact within_fits hwithin (hn.housed hp hs hh) (hn.placed hp) (hn.scoped hs)

theorem Leads.funcs (h : Leads site target p σ t.setting rel) : t.funcs = σ.funcs := by
  cases h with
  | now _ hset | late _ hset => exact congrArg Setting.funcs hset

theorem Leads.adds (h : Leads site target p σ t.setting rel)
    (hn : Names s.setting σ) (hact : act.body? = none) (hcode : ∀ i op, t.ops[i]? = some op → s.ops[i]? = some op ∨
      op.Fits none ∨ s.ops.length ≤ i ∧ op.Fits (frame? t.funcs)) : Adds act [] s t := by
  cases h with
  | now _ hset | late _ hset => exact .of_names hn hset hact hcode

theorem resolveParamsIn_length {sc : String} {ps : List (Option String × TypeExpr)} {ts : List Ty}
    (h : resolveParamsIn symbols sc p ps = .ok ts) : ts.length = ps.length := by
  induction ps generalizing ts with
  | nil =>
    cases h
    rfl
  | cons param ps ih =>
    obtain ⟨name, e⟩ := param
    unfold resolveParamsIn at h
    obtain ⟨ty, -, h⟩ := bind_ok.mp h
    obtain ⟨rest, hrest, h⟩ := bind_ok.mp h
    cases h
    rw [length_cons, length_cons, ih hrest]

theorem length_sliceLast (variadic : Bool) : ∀ ts : List Ty, (sliceLast variadic ts).length = ts.length
  | [] => rfl
  | [_] => rfl
  | _ :: t :: ts => congrArg (· + 1) (length_sliceLast variadic (t :: ts))

/-- A function has the parameters and results that are written. -/
theorem Opens.counts {key : String} {sig : Signature} {f : FuncType} {skip : Option Nat}
    (h : Opens key sig p s u f skip) :
    f.params.length = sig.params.length ∧ f.results.length = sig.results.length := by
  obtain ⟨ps, rs, hps, hrs, rfl⟩ := h.typed
  exact ⟨(length_sliceLast _ _).trans (resolveParamsIn_length hps), resolveParamsIn_length hrs⟩

/-- **What a step adds.** -/
theorem Turn.adds (h : Turn act p s t) (hw : Wired s) (hp : Placed s.setting) (hs : s.setting.Scoped)
    (hkey : ∀ key sig, act = .body key sig → FuncKey key) (hh : Housed old s.setting) :
    (∃ extra, Adds act extra s t) ∨ ∃ f fs, act.body? = none ∧ Ends s t f fs := by
  cases h with
  | move hm h =>
    refine .inl ⟨[], h.adds ?_ hw hp hs hh⟩
    cases act <;> first | rfl | cases hm
  | call hc =>
    rcases hc with hc | ⟨h, -⟩
    · obtain @⟨s, t, σ, key, sig, os, rs, rest, base, ops, rel, -, -, -, -, -, -, hn, hf, hops, -, hwithin, -,
        hleads⟩ := hc
      refine .inl ⟨[], hleads.adds hn rfl fun i op ho => ?_⟩
      rw [hops, append_assoc] at ho
      rcases instr_of_append ho with ho | ⟨hi, hm⟩
      · exact (hf.instr ho).imp_right .inl
      · refine .inr ((mem_append.mp hm).elim (fun hm => ?_) fun hm => .inl ?_)
        · refine .inr ⟨hf.length ▸ hi, ?_⟩
          rw [hleads.funcs]
          exact within_fits (hwithin op hm σ) (hn.housed hp hs hh) (hn.placed hp) (hn.scoped hs)
        · rw [mem_singleton.mp hm]
          exact ⟨rfl, rfl⟩
    · exact .inl ⟨[], h.adds rfl hw hp hs hh⟩
  | goto _ hops hleads =>
    exact .inl ⟨[], hleads.adds .refl rfl fun i op ho => (instr_of_concat hops ⟨rfl, rfl⟩ ho).imp_right .inl⟩
  | test ht _ hops hleads =>
    refine .inl ⟨[], hleads.adds .refl ?_ fun i op ho => (instr_of_concat hops ?_ ho).imp_right .inl⟩
    · cases ht <;> rfl
    · cases ht <;> exact ⟨rfl, rfl⟩
  | @next l key value define p kt vt rest σ τ k v rel s t _ _ hn hn' hk hv hops hleads =>
    have hp' := hn.placed hp
    have hs' := hn.scoped hs
    have hh' := hn.housed hp hs hh
    refine .inl ⟨[], hleads.adds (hn.trans hn') rfl fun i op ho => ?_⟩
    rw [hops] at ho
    rcases instr_of_append ho with ho | ⟨hi, hm⟩
    · exact .inl ho
    · obtain rfl := mem_singleton.mp hm
      refine .inr (.inr ⟨hi, ?_⟩)
      rw [hleads.funcs]
      refine fits_of_cells (fun j hj => ?_) nofun
      rcases mem_append.mp hj with hj | hj
      · -- the key is named before the value, whose declaration may widen the frame
        obtain ⟨f, fs, hf, hhas⟩ := hh'.cell hp' hs' hk hj
        have hgrown := hn'.grown
        rw [hf] at hgrown
        generalize τ.funcs = gs at hgrown
        cases hgrown with
        | cons hwide _ => exact ⟨_, _, rfl, hwide.has hhas⟩
      · exact (hn'.housed hp' hs' hh').cell (hn'.placed hp') (hn'.scoped hs') hv hj
  | @label l p s t _ _ _ hops hset =>
    refine .inl ⟨[], fun i op ho => .inl (hops ▸ ho), ⟨t.funcs, rfl, ?_⟩, rfl, nofun, fun j hj => ?_⟩
    · rw [show t.funcs = s.funcs from congrArg Setting.funcs hset]
      exact .refl _
    · exact ⟨s.ops.length, congrArg Setting.lastLabel hset, hw.inside j hj⟩
  | enter | leave | mark => exact .inl ⟨[], .of_names .refl rfl rfl fun i op ho => .inl ho⟩
  | discard _ _ _ hset hops =>
    refine .inl ⟨[], .of_names .refl hset rfl fun i op ho => ?_⟩
    split at hops
    · rw [hops, append_nil] at ho
      exact .inl ho
    · exact (instr_of_concat hops ⟨rfl, rfl⟩ ho).imp_right .inl
  | @body key sig p f skip ops n s u t hnamed ho hc _ hfuncs hops =>
    obtain ⟨hparams, hresults⟩ := ho.counts
    obtain ⟨data, slot, -, hset⟩ := ho.setting
    have hkey := hkey key sig rfl
    refine .inl ⟨[⟨key, f, n, s.ops.length + skip.toList.length, skip, s.stack.size, s.marks.length⟩], ?_,
      ⟨s.funcs, hfuncs, .refl _⟩, ?_, ?_, fun j hj => ?_⟩
    · intro i op hop
      obtain ⟨base, hf, hbase⟩ := hc.code
      rw [hf.eq_of_nil, ho.ops] at hbase
      rw [hbase, append_assoc _ [_]] at hop
      have hskip : (skip.map fun _ => Op.jump 0).toList.length = skip.toList.length := by cases skip <;> rfl
      rcases instr_of_append hop with hop | ⟨hi, hm⟩
      · -- the jump over the body stands before what makes room
        rcases instr_of_append hop with hop | ⟨-, hm⟩
        · exact .inl hop
        · cases skip with
          | none => cases hm
          | some j =>
            rw [mem_singleton.mp hm]
            exact .inr (.inl ⟨rfl, rfl⟩)
      · rw [length_append, hskip] at hi
        refine .inr ((mem_append.mp hm).elim (fun hm => .inl ?_) fun hm => ?_)
        · rw [mem_singleton.mp hm]
          exact ⟨rfl, rfl⟩
        · rcases hops op hm with ⟨j, rfl⟩ | ⟨k, hk, rfl⟩
          · exact .inl ⟨rfl, rfl⟩
          · refine .inr ⟨by omega, fun g hg => ?_, ?_⟩
            · rw [mem_singleton.mp hg]
              exact hi
            · rw [hfuncs]
              refine ⟨fun j hj => ?_, nofun⟩
              cases mem_singleton.mp hj
              exact .inr ⟨Int.natCast_nonneg k, Int.ofNat_lt.mpr hk⟩
    · show [(key, f.params.length, f.results.length)] = _
      rw [hparams, hresults]
      rfl
    · intro g hg
      rw [mem_singleton.mp hg]
      exact ⟨Nat.le_add_right _ _, hc.names.knows (ho.placed hnamed hkey hp) (ho.knows hnamed hkey)⟩
    · have hlast : t.lastLabel = s.lastLabel :=
        (congrArg Setting.lastLabel hc.names.rest).trans (congrArg Setting.lastLabel hset)
      exact ⟨j, hlast.trans hj, Nat.le_refl j⟩
  | close _ he => exact .inr ⟨_, _, rfl, he⟩

/-! ## Code on the way -/

/-- The instruction is there for good: nothing takes it back or fills it in. -/
def Firm (s : CompileState) (i : Nat) (op : Op) : Prop := Stays s i op ∧ Unhooked s i ∧ ∀ j ∈ s.jumps, j.site ≠ i

theorem Firm.kept (h : Firm s i op) (hk : Kept s t) : Firm t i op := by
  obtain ⟨hstays, hfree, hjumps⟩ := h
  obtain ⟨hstays', hfree'⟩ := hk.stays i op hstays hfree
  exact ⟨hstays', hfree', hk.fresh i op hstays hjumps⟩

theorem Firm.finish (h : Firm w i op) (hw : Wired w) (hfin : Compile.finish w = .ok () t) : t.ops[i]? = some op := by
  obtain ⟨-, -, helse, -⟩ := finish_patches hw.apart hfin
  rw [helse i fun j hj he => h.2.2 j hj he.symm]
  exact h.1.1

/-- The frame of the function that an instruction is in: of one that has ended, or else of the innermost open one that
began before. -/
def homeAt (closed : List Region) (fs : List OpenFunc) (i : Nat) : Option FrameSize :=
  ((Region.home closed i).map Region.size).or ((fs.find? (·.growSite ≤ i)).map size)

theorem Widens.fits {g : OpenFunc} (h : Widens f g) (ho : op.Fits (some f.size)) : op.Fits (some g.size) := by
  refine ⟨fun k hk => h.has (ho.1 k hk), fun r hr => ?_⟩
  have hsize : g.size.results = f.size.results ∧ g.size.params = f.size.params := by
    unfold size
    rw [h.sig]
    exact ⟨rfl, rfl⟩
  rw [hsize.1, hsize.2]
  exact ho.2 r hr

/-- A frame that grew still fits what it fitted. -/
theorem Grown.fits (h : Grown fs gs) (ho : op.Fits (homeAt closed fs i)) : op.Fits (homeAt closed gs i) := by
  unfold homeAt at ho ⊢
  cases hc : Region.home closed i with
  | some g =>
    rw [hc] at ho
    exact ho
  | none =>
    rw [hc] at ho
    induction h with
    | nil => exact ho
    | @cons f g fs gs hw _ ih =>
      rw [find?_cons] at ho ⊢
      rw [hw.growSite]
      split
      · rename_i hle
        rw [hle] at ho
        exact hw.fits ho
      · rename_i hle
        rw [hle] at ho
        exact ih ho

/-- Behind all regions that have ended an instruction is in the innermost function that is open. -/
theorem homeAt_of_behind (hclosed : ∀ g ∈ closed, g.stop ≤ i) (hopen : ∀ f ∈ fs, f.growSite ≤ i) :
    homeAt closed fs i = frame? fs := by
  unfold homeAt frame?
  rw [Region.home_eq_none hclosed, map_none, none_or]
  cases fs with
  | nil => rfl
  | cons f fs => rw [find?_cons, decide_eq_true (hopen f mem_cons_self), head?_cons]

/-- The code that there is lies in the regions of functions that have ended, and in those of open functions, of which it
is the rest. -/
structure Homed (first : Nat) (whole : List (String × Nat × Nat)) (closed : List Region) (l : List Step)
    (s : CompileState) :
    Prop where
  code : ∀ i op, first ≤ i → s.ops[i]? = some op → op.Fits (homeAt closed s.funcs i)
  bounds : ∀ g ∈ closed, first ≤ g.entry ∧ g.entry < g.stop ∧ ∃ j, s.lastLabel = some j ∧ g.stop ≤ j
  begins : ∀ g ∈ closed, Firm s g.entry (.grow g.size.locals) ∧ s.setting.Knows (.func g.key) g.entry
  ends : ∀ g ∈ closed, Firm s (g.stop - 1) g.lastOp
  nested : closed.Pairwise Region.Before
  apart : ∀ f ∈ s.funcs, ∀ g ∈ closed, g.stop ≤ f.growSite ∨ f.growSite < g.entry
  order : s.funcs.Pairwise fun f g => g.growSite < f.growSite
  sites : ∀ f ∈ s.funcs, first ≤ f.growSite ∧ s.setting.Knows (.func f.key) f.growSite
  bodies : (closed.map Region.header ++ s.funcs.map header ++ bodiesOf l).Perm whole

theorem Homed.stop_le (h : Homed first whole closed l s) (hw : Wired s) {g : Region} (hg : g ∈ closed) :
    g.stop ≤ s.ops.length := by
  obtain ⟨-, -, j, hj, hle⟩ := h.bounds g hg
  exact Nat.le_trans hle (hw.inside j hj)

theorem Wired.growSite_lt (hw : Wired s) (hf : f ∈ s.funcs) : f.growSite < s.ops.length :=
  (hw.hook_lt (mem_map_of_mem hf)).1

theorem Grown.headers (h : Grown fs gs) : gs.map header = fs.map header := by
  induction h with
  | nil => rfl
  | cons hw _ ih =>
    rw [map_cons, map_cons, ih, header, hw.key, hw.sig]
    rfl

theorem Grown.order (h : Grown fs gs) (ho : fs.Pairwise fun f g => g.growSite < f.growSite) :
    gs.Pairwise fun f g => g.growSite < f.growSite := by
  induction h with
  | nil => exact .nil
  | cons hw hrest ih =>
    rw [pairwise_cons] at ho ⊢
    refine ⟨fun g hg => ?_, ih ho.2⟩
    obtain ⟨f', hf', hw'⟩ := Grown.mem hrest hg
    rw [hw.growSite, hw'.growSite]
    exact ho.1 f' hf'

/-- **A step that adds instructions.** -/
theorem Homed.adds {extra : List OpenFunc} (h : Homed first whole closed l s) (ha : Adds act extra s t) (hw : Wired s)
    (hk : Kept s t) (hfirst : first ≤ s.ops.length) (hl : bodiesOf l = act.body?.toList ++ bodiesOf l') :
    Homed first whole closed l' t := by
  obtain ⟨gs, hfuncs, hgrown⟩ := ha.funcs
  have hold : ∀ g ∈ gs, ∃ f ∈ s.funcs, Widens f g ∧ f.growSite < s.ops.length := fun g hg => by
    obtain ⟨f, hf, hfg⟩ := hgrown.mem hg
    exact ⟨f, hf, hfg, hw.growSite_lt hf⟩
  refine ⟨fun i op hi ho => ?_, fun g hg => ?_, fun g hg => ?_, fun g hg => (h.ends g hg).kept hk, h.nested,
    fun f hf g hg => ?_,
    ?_, fun f hf => ?_, ?_⟩
  · rcases ha.code i op ho with ho | ho | ⟨hlen, hextra, ho⟩
    · -- a function that is opened does not lie around it
      have hlt := (List.getElem?_eq_some_iff.mp ho).1
      have hfits := hgrown.fits (h.code i op hi ho)
      unfold homeAt at hfits ⊢
      rw [hfuncs, find?_append]
      have hnone : extra.find? (·.growSite ≤ i) = none := by
        refine find?_eq_none.mpr fun f hf hle => ?_
        have := (ha.sites f hf).1
        have := of_decide_eq_true hle
        omega
      rwa [hnone, none_or]
    · exact ho.anywhere _
    · rw [homeAt_of_behind (fun g hg => Nat.le_trans (h.stop_le hw hg) hlen) fun f hf => ?_]
      · exact ho
      · rw [hfuncs] at hf
        rcases mem_append.mp hf with hf | hf
        · exact hextra f hf
        · obtain ⟨f', -, hw', hlt⟩ := hold f hf
          rw [hw'.growSite]
          omega
  · obtain ⟨hentry, hstop, j, hj, hle⟩ := h.bounds g hg
    obtain ⟨j', hj', hle'⟩ := ha.last j hj
    exact ⟨hentry, hstop, j', hj', Nat.le_trans hle hle'⟩
  · exact ⟨(h.begins g hg).1.kept hk, hk.knows _ _ (h.begins g hg).2⟩
  · rw [hfuncs] at hf
    rcases mem_append.mp hf with hf | hf
    · exact .inl (Nat.le_trans (h.stop_le hw hg) (ha.sites f hf).1)
    · obtain ⟨f', hf', hw', -⟩ := hold f hf
      rw [hw'.growSite]
      exact h.apart f' hf' g hg
  · rw [hfuncs]
    refine pairwise_append.mpr ⟨?_, hgrown.order h.order, fun f hf g hg => ?_⟩
    · -- one function is opened at most
      have hlen := congrArg List.length ha.headers
      cases extra with
      | nil => exact .nil
      | cons f fs =>
        cases fs with
        | nil => exact pairwise_singleton _ _
        | cons g fs => cases hb : act.body? <;> rw [hb] at hlen <;> simp at hlen
    · obtain ⟨f', -, hw', hlt⟩ := hold g hg
      rw [hw'.growSite]
      exact Nat.lt_of_lt_of_le hlt (ha.sites f hf).1
  · rw [hfuncs] at hf
    rcases mem_append.mp hf with hf | hf
    · exact ⟨Nat.le_trans hfirst (ha.sites f hf).1, (ha.sites f hf).2⟩
    · obtain ⟨f', hf', hw', -⟩ := hold f hf
      rw [hw'.growSite, hw'.key]
      exact ⟨(h.sites f' hf').1, hk.knows _ _ (h.sites f' hf').2⟩
  · refine List.Perm.trans ?_ h.bodies
    rw [hfuncs, hl, map_append, ha.headers, hgrown.headers]
    -- the function that is opened is the next in the stream
    rw [append_assoc, append_assoc, append_assoc]
    refine Perm.append_left _ ?_
    rw [← append_assoc, ← append_assoc]
    exact perm_append_comm.append_right _

theorem lastOp_fits (f : OpenFunc) : (Compile.lastOp f).Fits (some f.size) := by
  unfold Compile.lastOp
  split
  · rename_i he
    refine ⟨nofun, fun r hr => ?_⟩
    cases hr
    rw [List.isEmpty_iff] at he
    show _ = (f.sig.results.length, f.sig.params.length)
    rw [he]
    rfl
  · exact ⟨nofun, nofun⟩

/-- The region of a function that ends. -/
def regionOf (f : OpenFunc) (stop : Nat) : Region := ⟨f.key, f.size, f.growSite, stop⟩

theorem lastOp_regionOf (f : OpenFunc) (stop : Nat) : (regionOf f stop).lastOp = Compile.lastOp f := by
  unfold Region.lastOp Compile.lastOp regionOf size
  cases f.sig.results <;> rfl

/-- **A function ends.** -/
theorem Homed.closes (h : Homed first whole closed l s) (he : Ends s t f fs) (hw : Wired s)
    (hact : bodiesOf l = bodiesOf l') :
    Homed first whole (closed ++ [regionOf f (s.ops.length + 1)]) l' t := by
  obtain ⟨hwt, hk, hfilled⟩ := he.wired hw
  obtain ⟨hlen, hcode⟩ := he.code hw
  have hbodies := he.bodies
  have hsame : t.funcs = fs := congrArg Setting.funcs he.setting
  have hjumps : t.jumps = s.jumps := congrArg Setting.jumps he.setting
  have hlast : t.lastLabel = some (s.ops.length + 1) := congrArg Setting.lastLabel he.setting
  have hmem : f ∈ s.funcs := he.funcs ▸ (.head _)
  have hlt := hw.growSite_lt hmem
  have hnested := pairwise_cons.mp (hbodies ▸ hw.nested)
  obtain ⟨-, hskip⟩ := hw.hook_lt (f := { f with locals := 0 }) (hbodies ▸ (.head _))
  have horder := h.order
  rw [he.funcs, pairwise_cons] at horder
  -- what makes room for it and what it ends with
  have hbegins : Firm t f.growSite (.grow f.locals) := by
    refine ⟨⟨hfilled, .inl rfl⟩, fun g hg => ⟨fun hg' => (hnested.1 g hg).1 hg'.symm, fun hs => ?_⟩, fun j hj hs => ?_⟩
    · cases ((hwt.bodies g hg).2 _ hs).1.symm.trans hfilled
    · obtain ⟨op, hop, hoff⟩ := hwt.jumps j hj
      rw [hs, hfilled] at hop
      cases hop
      cases hoff
  have hends : Firm t s.ops.length (Compile.lastOp f) := by
    refine ⟨⟨?_, .inr ⟨_, hlast, Nat.lt_succ_self _⟩⟩, fun g hg => ?_, fun j hj => ?_⟩
    · rw [hcode, if_neg fun hs => Nat.lt_irrefl _ (hskip _ hs), if_neg (Nat.ne_of_lt hlt), getElem?_concat_length]
    · obtain ⟨hg', hs'⟩ := hw.hook_lt (hbodies ▸ mem_cons_of_mem _ hg)
      exact ⟨Nat.ne_of_lt hg', fun hs => Nat.lt_irrefl _ (hs' _ hs)⟩
    · exact Nat.ne_of_lt (hw.site_lt (hjumps ▸ hj))
  have hhome : ∀ i, i ≤ s.ops.length →
      homeAt (closed ++ [regionOf f (s.ops.length + 1)]) t.funcs i = homeAt closed (f :: fs) i := by
    intro i hi
    unfold homeAt Region.home
    rw [find?_append, hsame, find?_cons, find?_cons]
    cases closed.find? (·.covers i) with
    | some g => rfl
    | none =>
      by_cases hg : f.growSite ≤ i
      · have hc : (regionOf f (s.ops.length + 1)).covers i = true := Region.covers_iff.mpr ⟨hg, Nat.lt_succ_of_le hi⟩
        rw [hc, decide_eq_true hg]
        rfl
      · have hc : (regionOf f (s.ops.length + 1)).covers i = false :=
          Bool.eq_false_iff.mpr fun hc => hg (Region.covers_iff.mp hc).1
        rw [hc, decide_eq_false hg]
        rfl
  refine ⟨fun i op hi ho => ?_, fun g hg => ?_, fun g hg => ?_, fun g hg => ?_, ?_, fun g hg a ha => ?_, ?_,
    fun g hg => ?_, ?_⟩
  · have hle : i ≤ s.ops.length := by
      have := (List.getElem?_eq_some_iff.mp ho).1
      omega
    rw [hhome i hle]
    rw [hcode] at ho
    split at ho
    · cases ho
      exact Op.Fits.anywhere ⟨rfl, rfl⟩ _
    split at ho
    · cases ho
      exact Op.Fits.anywhere ⟨rfl, rfl⟩ _
    rcases instr_of_append ho with ho | ⟨hge, hm⟩
    · exact he.funcs ▸ h.code i op hi ho
    · obtain rfl := mem_singleton.mp hm
      rw [homeAt_of_behind (fun g hg => Nat.le_trans (h.stop_le hw hg) hge)
        fun g hg => Nat.le_trans (Nat.le_of_lt (hw.growSite_lt (he.funcs ▸ hg))) hge]
      exact lastOp_fits f
  · rcases mem_append.mp hg with hg | hg
    · obtain ⟨hentry, hstop, -⟩ := h.bounds g hg
      exact ⟨hentry, hstop, _, hlast, Nat.le_succ_of_le (h.stop_le hw hg)⟩
    · rw [mem_singleton.mp hg]
      exact ⟨(h.sites f hmem).1, Nat.lt_succ_of_lt hlt, _, hlast, Nat.le_refl _⟩
  · rcases mem_append.mp hg with hg | hg
    · exact ⟨(h.begins g hg).1.kept hk, hk.knows _ _ (h.begins g hg).2⟩
    · rw [mem_singleton.mp hg]
      exact ⟨hbegins, hk.knows _ _ (h.sites f hmem).2⟩
  · rcases mem_append.mp hg with hg | hg
    · exact (h.ends g hg).kept hk
    · rw [mem_singleton.mp hg, lastOp_regionOf]
      exact hends
  · refine pairwise_append.mpr ⟨h.nested, pairwise_singleton _ _, fun g hg a ha => ?_⟩
    rw [mem_singleton.mp ha]
    exact (h.apart f hmem g hg).imp_right fun hin => ⟨hin, Nat.lt_succ_of_le (h.stop_le hw hg)⟩
  · rw [hsame] at hg
    rcases mem_append.mp ha with ha | ha
    · exact h.apart g (he.funcs ▸ .tail _ hg) a ha
    · rw [mem_singleton.mp ha]
      exact .inr (horder.1 g hg)
  · rw [hsame]
    exact horder.2
  · rw [hsame] at hg
    obtain ⟨hentry, hknows⟩ := h.sites g (he.funcs ▸ .tail _ hg)
    exact ⟨hentry, hk.knows _ _ hknows⟩
  · have hperm := h.bodies
    rw [he.funcs] at hperm
    rw [hsame, ← hact, map_append, append_assoc (closed.map _)]
    exact hperm

/-! ## Runs -/

theorem bodiesOf_next {l : List Step} (h : Next act p l rest) : bodiesOf l = act.body?.toList ++ bodiesOf rest := by
  have hone : bodiesOf (⟨act, p⟩ :: rest) = act.body?.toList ++ bodiesOf rest := by
    unfold bodiesOf
    rw [filterMap_cons]
    cases act.body? <;> rfl
  rcases h with rfl | ⟨-, n, q, rfl⟩
  · exact hone
  · exact hone

/-- **One step keeps code in its frames.** -/
theorem Going.homed (hc : Going heads program symbols c) (hadv : Advances r c d) (hh : Housed symbols c.2.setting)
    (h : Homed program.code.size whole closed c.1 c.2) : ∃ closed, Homed program.code.size whole closed d.1 d.2 := by
  obtain ⟨⟨act, p, hnext, hturn, hkey⟩, -, hk⟩ := hc.next hadv
  obtain ⟨g, hat, -, rfl, -⟩ := hc.ground
  have hbodies : bodiesOf c.1 = act.body?.toList ++ bodiesOf d.1 := bodiesOf_next hnext
  rcases hturn.adds hc.wired hat.sound.placed hc.scoped hkey hh with ⟨extra, hadds⟩ | ⟨f, fs, hact, hends⟩
  · refine ⟨closed, h.adds hadds hc.wired hk ?_ hbodies⟩
    rw [length_ops]
    exact hat.sound.program.codeSize
  · rw [hact] at hbodies
    exact ⟨_, h.closes hends hc.wired hbodies⟩

/-- **A run keeps code in its frames.** -/
theorem Run.homed (h : Run r c d) (hc : Going heads program symbols c) (hh : Housed symbols c.2.setting)
    (hl : Homed program.code.size whole closed c.1 c.2) : ∃ closed, Homed program.code.size whole closed d.1 d.2 := by
  induction h with
  | refl => exact ⟨closed, hl⟩
  | tail hrun hadv ih =>
    obtain ⟨closed, hl⟩ := ih
    exact (Run.going hrun hc).1.homed hadv (Run.housed hrun hc hh) hl

theorem Homed.start (hfuncs : s.funcs = []) (hlen : s.ops.length = first) : Homed first (bodiesOf l) [] l s := by
  refine ⟨fun i op hi ho => ?_, nofun, nofun, nofun, .nil, ?_, ?_, ?_, ?_⟩
  · have := (List.getElem?_eq_some_iff.mp ho).1
    omega
  · rw [hfuncs]
    nofun
  · rw [hfuncs]
    exact .nil
  · rw [hfuncs]
    nofun
  · rw [hfuncs]
    exact .refl _

/-- At the end every body has its region. -/
theorem Homed.finish (h : Homed first whole closed [] w) (hw : Wired w) (hfin : Compile.finish w = .ok () t) :
    (closed.map Region.header).Perm whole ∧ Framed closed first t := by
  obtain ⟨hfuncs, hset, helse, hsites⟩ := finish_patches hw.apart hfin
  have hbodies := h.bodies
  rw [hfuncs] at hbodies
  refine ⟨by simpa [bodiesOf] using hbodies, fun i op hi ho => ?_, fun g hg => ?_, fun g hg => ?_, fun g hg => ?_,
    h.nested⟩
  · have hhome : (Region.home closed i).map Region.size = homeAt closed w.funcs i := by
      rw [homeAt, hfuncs, find?_nil, map_none, or_none]
    rw [hhome]
    cases hop : w.ops[i]? with
    | some op0 =>
      obtain ⟨op', ho', he⟩ := finish_alike hw hfin hop
      cases ho.symm.trans ho'
      exact (h.code i op0 hi hop).of_unlinked he
    | none =>
      rw [helse i fun j hj he => ?_, hop] at ho
      · cases ho
      · obtain ⟨op', hop', -⟩ := hw.jumps j hj
        rw [← he, hop] at hop'
        cases hop'
  · obtain ⟨hentry, hstop, -⟩ := h.bounds g hg
    refine ⟨hentry, hstop, ?_⟩
    have hlt := (List.getElem?_eq_some_iff.mp ((h.ends g hg).finish hw hfin)).1
    omega
  · refine ⟨(h.begins g hg).1.finish hw hfin, ?_⟩
    rw [hset]
    exact (h.begins g hg).2
  · exact (h.ends g hg).finish hw hfin

/-! ## Chunks -/

/-- Each variable that is a cell belongs to a function that there is. -/
def Owned (symbols : SymbolTable) : Prop :=
  ∀ key k, IsLocal symbols key k → ∃ f, FuncKey f ∧ LocalKey f key ∧ symbols.lookup? f ≠ none

/-- Behind the head of a chunk no function is open, and cells are those of functions that there were. -/
theorem Owned.housed (h : Owned symbols) (hs : Heading (start symbols program store) s) :
    Housed symbols s.setting := by
  have hnil : s.setting.funcs = [] := congrArg Setting.funcs hs.setting
  refine ⟨fun key k hl => ?_, ?_, ?_⟩
  · obtain ⟨f, hf, hkey, hne⟩ := h key k (hs.cells key k hl)
    refine ⟨f, hf, hkey, .inl hne, ?_⟩
    rw [hnil]
    nofun
  · rw [hnil]
    nofun
  · rw [hnil]
    exact .nil

theorem Housed.owned {g : Ground} (h : Housed g.symbols s.setting) (hs : Sound g s) : Owned s.symbols := by
  intro key k hl
  obtain ⟨f, hf, hkey, hfound, -⟩ := h.vars key k hl
  refine ⟨f, hf, hkey, ne_none_iff_exists'.mpr ?_⟩
  rcases hfound with hne | ⟨i, sym, hs, -⟩
  · obtain ⟨s0, hs0⟩ := ne_none_iff_exists'.mp hne
    obtain ⟨sym, hsym, -⟩ := hs.since.old f s0 hs0
    exact ⟨sym, hsym⟩
  · exact ⟨sym, hs⟩

theorem bodiesOf_append_head (h : ∀ x ∈ head, x.val.Decl) : bodiesOf (head ++ rest) = bodiesOf rest := by
  have hnone : head.filterMap (·.val.body?) = [] := by
    refine filterMap_eq_nil_iff.mpr fun x hx => ?_
    have hdecl := h x hx
    cases hact : x.val with
    | body key sig =>
      rw [hact] at hdecl
      exact hdecl.elim
    | _ => rfl
  rw [bodiesOf, filterMap_append, hnone]
  rfl

/-- **The code of a chunk that compiles lies in the frames of its functions.** -/
theorem Opening.framed {lo hi : Nat}
    (ho : Opening program symbols store lo hi head rest) (howned : Owned symbols)
    (h : chunk r (head ++ rest) (start symbols program store) = .ok () t) :
    Owned t.symbols ∧ ∃ regions, (regions.map Region.header).Perm (bodiesOf (head ++ rest)) ∧
      Framed regions program.code.size t := by
  obtain ⟨s, w, hhead, hrun, hfin⟩ := ho.runs h
  obtain ⟨hgoing, hops, -⟩ := ho.going hhead
  have hheading := (steps_declares (decl_ordered ho.shaped.decl) hhead).heading rfl
  have hhoused := howned.housed hheading
  have hend := (hrun.going hgoing).1
  have hhomed : Homed program.code.size (bodiesOf rest) [] rest s := by
    refine .start (congrArg Setting.funcs hheading.setting) ?_
    rw [hops, length_map, Array.length_toList]
  obtain ⟨regions, hhomed⟩ := hrun.homed hgoing hhoused hhomed
  obtain ⟨hperm, hframed⟩ := hhomed.finish hend.wired hfin
  refine ⟨?_, regions, ?_, hframed⟩
  · obtain ⟨-, hset, -, -⟩ := finish_patches hend.wired.apart hfin
    obtain ⟨g, hat', -, -, rfl⟩ := hend.ground
    rw [show t.symbols = w.symbols from congrArg Setting.symbols hset]
    exact (hrun.housed hgoing hhoused).owned hat'.sound
  · rw [bodiesOf_append_head ho.shaped.decl]
    exact hperm

end Compile

end Goblet
