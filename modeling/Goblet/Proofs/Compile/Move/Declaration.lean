import Goblet.Proofs.Compile.Move.Call
import Goblet.Proofs.Stream.Walk

/-!
# What declarations, functions and loops do

Declarations inside of blocks, `return` and loops over ranges are moves (`constDecl_move`, `ret_move`, ...). The body of
a function begins with a jump over it, unless it stands at the entry, and an instruction that makes room (`Opens`); its
results are declared behind that (`addResults_ok`). Where it ends, both get to know how far they reach (`Ends`).
-/

namespace Goblet.Compile

open List

variable {s t : CompileState} {p q : Pos} {name key : String} {ty : Ty} {f : OpenFunc} {sig : Signature}
variable {iota : Int64} {steps : List Step} {define : Bool} {r : Value × Ty}
  {e : Option TypeExpr} {fs : List OpenFunc}

theorem Move.of_names (h : Codes [] s t []) : Move 0 0 s t :=
  .of_codes [] [] rfl rfl h nofun rfl .done nofun rfl nofun

/-! ## Types and constants -/

theorem addSymbol_ok {sym : Symbol} (h : addSymbol key sym s = .ok () t) :
    t = { s with symbols := s.symbols.add key sym } := by
  cases h
  rfl

theorem typeDef_move {e : TypeExpr} (hn : VarName name) (hs : 1 < s.scopes.length) (h : typeDef name e p s = .ok () t) :
    Move 0 0 s t := by
  replace h := scope_seq h
  obtain ⟨_, u, hu, h⟩ := seq_by addSymbol_ok h
  obtain ⟨ty, v, ⟨-, rfl⟩, h⟩ := seq_by resolveType_ok h
  have ht := addSymbol_ok h
  subst hu ht
  exact .of_names (.of_names rfl (.tail (.single (.meaning hn hs (.inl rfl) rfl)) (.meaning hn hs (.inl rfl) rfl)) rfl)

theorem constValue_codes (h : constValue e steps iota p s = .ok r t) : Codes [] s t [] :=
  (constValue_keeps (I := (Codes [] s · [])) fun _ _ hu => hu.trans (.of_names rfl (.single .store) rfl)).ok .refl h

theorem constDecl_move (hn : VarName name)
    (hs : 1 < s.scopes.length) (h : constDecl name e steps iota p s = .ok () t) : Move 0 0 s t := by
  obtain ⟨⟨v, ty⟩, u, hc, h⟩ := seq_by constValue_codes h
  dsimp only at h
  split at h
  · cases h
    exact .of_names hc
  · replace h := scope_seq h
    replace h := lookup_seq h
    split at h
    · have hu : 1 < u.setting.scopes.length := by rwa [hc.names.rest]
      have ht := addSymbol_ok h
      subst ht
      refine .of_names (hc.trans ?_)
      exact .of_names rfl (.single (.meaning hn hu (.inr rfl) rfl)) rfl
    · cases h

/-! ## Functions -/

theorem resolveSig_ok {f : FuncType} (h : resolveSig sig p s = .ok f t) :
    s = t ∧ (∃ ps rs, resolveParamsIn s.symbols s.setting.scope p sig.params = .ok ps ∧
      resolveParamsIn s.symbols s.setting.scope p sig.results = .ok rs ∧
        f = ⟨sliceLast sig.variadic ps, rs, sig.variadic⟩) := by
  obtain ⟨ty, u, ⟨hres, rfl⟩, h⟩ := seq_by resolveType_ok h
  obtain ⟨ps, hps, hres⟩ := bind_ok.mp hres
  obtain ⟨rs, hrs, hres⟩ := bind_ok.mp hres
  cases hres
  cases h
  exact ⟨rfl, ps, rs, hps, hrs, rfl⟩

/-- The table with the parameters of a function, the last one first. -/
def withParams (key : String) : (offset : Int) → List (Option String × Ty) → SymbolTable → SymbolTable
  | _, [], symbols => symbols
  | offset, (name, t) :: rest, symbols =>
    match name with
    | some n =>
      if n ≠ "_" then
        (withParams key (offset - 1) rest symbols).add (SymbolTable.qualify key n) ⟨.var, .local offset, t, none⟩
      else withParams key (offset - 1) rest symbols
    | none => withParams key (offset - 1) rest symbols

theorem addParams_ok {offset : Int} {params : List (Option String × Ty)}
    (h : addParams key offset params s = .ok () t) :
    t = { s with symbols := withParams key offset params s.symbols } := by
  induction params generalizing s t offset with
  | nil =>
    cases h
    rfl
  | cons param params ih =>
    obtain ⟨name, ty⟩ := param
    obtain ⟨_, u, hu, h⟩ := seq_by ih h
    unfold withParams
    cases name with
    | none =>
      cases h
      exact hu
    | some n =>
      dsimp only at h ⊢
      split at h
      · rename_i hn
        rw [if_pos hn, addSymbol_ok h, hu]
      · rename_i hn
        cases h
        rw [if_neg hn]
        exact hu

theorem funcSlot_ok {entry slot : Nat} (h : funcSlot key entry s = .ok slot t) :
    ∃ data, t = { s with program.data := data } ∧ s.program.data.size ≤ data.size := by
  replace h := read_ok h
  split at h
  · cases h
    exact ⟨_, rfl, Nat.le_of_eq Array.size_setIfInBounds.symm⟩
  · cases h
    refine ⟨_, rfl, ?_⟩
    rw [Array.size_push]
    exact Nat.le_succ _

theorem addResult_ok {u : CompileState} {addr : Address} (hf : s.funcs = f :: fs)
    (hk : s.setting.scope = f.key) (hn : IsWord name) (halloc : allocVar ty s = .ok addr u)
    (h : (if name ≠ "_" then addSymbol (SymbolTable.qualify f.key name) ⟨.var, addr, ty, none⟩ else pure ()) u =
    .ok () t) :
    addr = .local f.locals ∧ Codes [] s t [] ∧ t.funcs = { f with locals := f.locals + 1 } :: fs := by
  obtain ⟨s', v, hg, halloc⟩ := seq_ok.mp halloc
  cases hg
  rw [hf] at halloc
  cases halloc
  split at h
  · have ht := addSymbol_ok h
    subst ht
    refine ⟨rfl, .of_names rfl (.single ?_) rfl, rfl⟩
    have hres : Naming s.setting { s.setting with
        funcs := { f with locals := f.locals + 1 } :: fs
        symbols := s.symbols.add (s.setting.key name) ⟨.var, .local f.locals, ty, none⟩ } := .result hf hn hk
    unfold Setting.key at hres
    rw [hk] at hres
    exact hres
  · cases h
    exact ⟨rfl, .of_names rfl (.single (.blank hf)) rfl, rfl⟩

theorem addResults_ok {results : List (Option String × Ty)}
    (hf : s.funcs = f :: fs) (hk : s.setting.scope = f.key) (hn : ∀ n ty, (some n, ty) ∈ results → IsWord n)
    (h : addResults f.key p results s = .ok () t) :
    ∃ ops n, Codes [] s t ops ∧ Flow ops [] [] ∧ t.funcs = { f with locals := n } :: fs ∧ f.locals ≤ n ∧
      ∀ op ∈ ops, (∃ i, op = .new i) ∨ ∃ k : Nat, k < n ∧ op = .set (.local k) := by
  induction results generalizing s f with
  | nil =>
    cases h
    exact ⟨[], f.locals, .refl, .done, hf, Nat.le_refl _, nofun⟩
  | cons result results ih =>
    obtain ⟨name, ty⟩ := result
    have hrest : ∀ n ty, (some n, ty) ∈ results → IsWord n := fun n ty hm => hn n ty (.tail _ hm)
    cases name with
    | none => exact ih hf hk hrest h
    | some name =>
      obtain ⟨addr, u, halloc, h⟩ := seq_ok.mp h
      have hadd : ∃ v, (if name ≠ "_" then addSymbol (SymbolTable.qualify f.key name)
        ⟨.var, addr, ty, none⟩ else pure ()) u
          = .ok () v ∧ (do zeroSlot addr ty p; addResults f.key p results) v = .ok () t := by
        by_cases hname : name ≠ "_"
        · rw [if_pos hname] at h ⊢
          obtain ⟨_, v, hadd, h⟩ := seq_ok.mp h
          exact ⟨v, hadd, h⟩
        · rw [if_neg hname] at h ⊢
          exact ⟨u, rfl, h⟩
      obtain ⟨v, hadd, h⟩ := hadd
      obtain ⟨rfl, hc, hvf⟩ := addResult_ok hf hk (hn name ty (.head _)) halloc hadd
      obtain ⟨_, w, ⟨_, x, hload, hset⟩, h⟩ := seq_by seq_ok.mp h
      obtain ⟨i, hc', hgrows⟩ := loadZero_ok hload
      have hall := (hc.trans hc').trans (emit_ok hset nofun)
      have hfuncs : w.funcs = { f with locals := f.locals + 1 } :: fs := by
        have hx : x.funcs = v.funcs := by
          rcases hgrows with he | ⟨_, he⟩ <;> exact congrArg Setting.funcs he
        have hw : w.funcs = x.funcs := congrArg Setting.funcs (emit_setting hset)
        rw [hw, hx, hvf]
      have hscope : w.setting.scope = f.key := by
        rw [Setting.scope, hall.names.rest]
        exact hk
      obtain ⟨ops, n, hc'', hflow, htf, hle, hops⟩ := ih hfuncs hscope hrest h
      refine ⟨_, n, hall.trans hc'', ?_, htf, Nat.le_of_succ_le hle, fun op hop => ?_⟩
      · exact (Flow.plain (show Op.arity? (.new i) = some (0, 1) from rfl) flow_set).trans hflow
      · rcases mem_append.mp hop with hop | hop
        · simp only [nil_append, cons_append, mem_cons, not_mem_nil, or_false] at hop
          rcases hop with rfl | rfl
          · exact .inl ⟨i, rfl⟩
          · exact .inr ⟨f.locals, hle, rfl⟩
        · exact hops op hop

theorem skipBody_ok {atEntry : Bool} {skip : Option Nat} (h : skipBody atEntry p s = .ok skip t) :
    skip = (if atEntry then none else some s.ops.length) ∧ t.stack = s.stack ∧ t.setting = s.setting ∧
      t.ops = s.ops ++ (skip.map fun _ => .jump 0).toList := by
  cases atEntry with
  | true =>
    cases h
    exact ⟨rfl, rfl, rfl, (append_nil _).symm⟩
  | false =>
    obtain ⟨i, u, ⟨rfl, rfl⟩, h⟩ := seq_by emitSite_ok h
    cases h
    exact ⟨rfl, rfl, rfl, ops_emit s _ p⟩

/-- The body of a function begins: there is a jump over it, unless it stands at the entry, and an instruction that makes
room for its variables. -/
structure Opens (key : String) (sig : Signature) (p : Pos) (s u : CompileState) (f : FuncType) (skip : Option Nat) :
    Prop where
  typed : ∃ ps rs, resolveParamsIn s.symbols s.setting.scope p sig.params = .ok ps ∧
    resolveParamsIn s.symbols s.setting.scope p sig.results = .ok rs ∧ f = ⟨sliceLast sig.variadic ps, rs, sig.variadic⟩
  fresh : (s.symbols.lookup? key).bind (·.value) = none
  skips : skip = if s.funcs = [] ∧ s.ops.length = s.program.entry then none else some s.ops.length
  stack : u.stack = s.stack
  ops : u.ops = s.ops ++ (skip.map fun _ => .jump 0).toList ++ [.grow 0]
  setting : ∃ data slot, s.program.data.size ≤ data.size ∧ u.setting = { s.setting with
    data := data
    symbols := withParams key (-3) ((sig.params.map (·.1)).zip f.params).reverse
      (s.symbols.add key ⟨.func, .global slot, f.ty, some (.func (s.ops.length + skip.toList.length))⟩)
    funcs := ⟨key, f, 0, s.ops.length + skip.toList.length, skip, s.stack.size, s.marks.length⟩ :: s.funcs
    scopes := key :: s.scopes }

/-- A body opens a frame and a scope. -/
theorem funcBegin_ok (h : funcBegin key sig p s = .ok () t) : ∃ u f skip, Opens key sig p s u f skip ∧
    addResults key p ((sig.results.map (·.1)).zip f.results) u = .ok () t := by
  obtain ⟨f, u, ⟨rfl, hf⟩, h⟩ := seq_by resolveSig_ok h
  replace h := lookup_seq h
  split at h
  · cases h
  rename_i hfresh
  replace h := read_ok h
  obtain ⟨skip, u, hskip, h⟩ := seq_ok.mp h
  obtain ⟨entry, v, ⟨rfl, rfl⟩, h⟩ := seq_by codeSize_ok h
  obtain ⟨slot, v, ⟨data, hv, hsize⟩, h⟩ := seq_by funcSlot_ok h
  obtain ⟨_, w, hw, h⟩ := seq_by addSymbol_ok h
  obtain ⟨_, x, hx, h⟩ := seq_by addParams_ok h
  obtain ⟨grow, y, ⟨rfl, hy⟩, h⟩ := seq_by emitSite_ok h
  obtain ⟨_, z, hopen, h⟩ := seq_ok.mp h
  obtain ⟨hskip, hustack, huset, huops⟩ := skipBody_ok hskip
  have hulen : u.ops.length = s.ops.length + skip.toList.length := by
    rw [huops, length_append]
    cases skip <;> rfl
  have hxset : x.setting = { s.setting with
      data := data
      symbols := withParams key (-3) ((sig.params.map (·.1)).zip f.params).reverse
        (s.symbols.add key ⟨.func, .global slot, f.ty, some (.func (s.ops.length + skip.toList.length))⟩) } := by
    have hsym : u.symbols = s.symbols := congrArg Setting.symbols huset
    rw [hx, hw, hv, ← hulen, ← huset, ← hsym]
    rfl
  refine ⟨z, f, skip, ⟨hf, ?_, ?_, ?_, ?_, data, slot, ?_, ?_⟩, h⟩
  · simpa using hfresh
  · rw [hskip]
    simp [length_ops]
  · cases hopen
    rw [hy, hx, hw, hv]
    exact hustack
  · cases hopen
    rw [← huops]
    show y.ops = _
    rw [hy, ops_emit, hx, hw, hv]
    rfl
  · rwa [show u.program.data = s.program.data from congrArg Setting.data huset] at hsize
  · have hyset : y.setting = x.setting := by
      rw [hy]
      rfl
    have hstack : y.stack.size = s.stack.size := by
      rw [hy, hx, hw, hv]
      exact congrArg OperandStack.size hustack
    have hlen : x.ops.length = u.ops.length := by
      rw [hx, hw, hv]
      rfl
    have hzset : z.setting = { y.setting with
        funcs := ⟨key, f, 0, x.ops.length, skip, y.stack.size, y.setting.marks.length⟩ :: y.setting.funcs
        scopes := key :: y.setting.scopes } := by
      cases hopen
      rfl
    rw [hzset, hyset, hxset, hlen, hstack, hulen]
    rfl

/-- The last instruction of a body. -/
def lastOp (f : OpenFunc) : Op := if f.sig.results.isEmpty then .ret 0 f.sig.params.length else .missingReturn

/-- The body of a function ends: there is room for its variables, and the jump over it leads behind it. -/
structure Ends (s t : CompileState) (f : OpenFunc) (fs : List OpenFunc) : Prop where
  funcs : s.funcs = f :: fs
  stack : t.stack = (s.stack.truncate f.stackBase).forget
  here : f.skipSite = none → t.ops = (s.ops ++ [lastOp f]).set f.growSite (.grow f.locals)
  skips : ∀ i, f.skipSite = some i → ∀ rel, ((s.ops ++ [lastOp f]).set f.growSite (.grow f.locals))[i]? =
    some (.jump rel) →
    t.ops = ((s.ops ++ [lastOp f]).set f.growSite (.grow f.locals)).set i (.jump (((s.ops.length + 1 : Nat) : Int) - i))
  setting : t.setting = { s.setting with
    funcs := fs
    marks := s.marks.drop (s.marks.length - f.marksBase)
    scopes := s.scopes.drop 1
    lastLabel := some (s.ops.length + 1)
    entry := if f.skipSite = none then s.ops.length + 1 else s.program.entry }

/-- Its end closes both. -/
theorem funcEnd_ok (h : funcEnd p s = .ok () t) : ∃ f fs, Ends s t f fs := by
  replace h := read_ok h
  split at h
  · cases h
  rename_i f fs hfuncs
  obtain ⟨_, u, hu, h⟩ := seq_by emit_run h
  obtain ⟨_, v, ⟨hvstack, hvset, hvops⟩, h⟩ := seq_by replaceOp_ok h
  obtain ⟨size, v', ⟨rfl, rfl⟩, h⟩ := seq_by codeSize_ok h
  obtain ⟨_, w, hskip, h⟩ := seq_ok.mp h
  have huops : u.ops = s.ops ++ [lastOp f] := by rw [hu]; exact ops_emit _ _ _
  have hlen : v.ops.length = s.ops.length + 1 := by
    rw [hvops, huops, length_set, length_append]
    rfl
  have huset : u.setting = s.setting := by rw [hu]; rfl
  have hw : w.stack = v.stack ∧ w.setting = { v.setting with
      entry := if f.skipSite = none then s.ops.length + 1 else s.program.entry } ∧
      (f.skipSite = none → w.ops = v.ops) ∧ ∀ i, f.skipSite = some i → ∀ rel, v.ops[i]? = some (.jump rel) →
        w.ops = v.ops.set i (.jump (((s.ops.length + 1 : Nat) : Int) - i)) := by
    rw [hlen] at hskip
    cases hsite : f.skipSite with
    | none =>
      rw [hsite] at hskip
      cases hskip
      exact ⟨rfl, rfl, fun _ => rfl, nofun⟩
    | some site =>
      rw [hsite] at hskip
      obtain ⟨hstack, hset, hpatch, -⟩ := patch_ok hskip
      refine ⟨hstack, ?_, nofun, fun i hi rel ho => ?_⟩
      · rw [hset, if_neg nofun]
        rw [show s.program.entry = v.setting.entry from (congrArg Setting.entry (hvset.trans huset)).symm]
      · cases hi
        exact hpatch _ _ ho rfl
  obtain ⟨hwstack, hwset, hwhere, hwskips⟩ := hw
  have hstack : w.stack = s.stack := by rw [hwstack, hvstack, hu]
  have ht : t.ops = w.ops := by
    cases h
    rfl
  refine ⟨f, fs, hfuncs, ?_, fun hnone => ?_, fun i hi rel ho => ?_, ?_⟩
  · rw [← hstack]
    cases h
    rfl
  · rw [ht, hwhere hnone, hvops, huops]
  · rw [ht, hwskips i hi rel (by rw [hvops, huops]; exact ho), hvops, huops]
  · have htset : t.setting = { w.setting with
        funcs := fs
        marks := w.setting.marks.drop (w.setting.marks.length - f.marksBase)
        scopes := w.setting.scopes.drop 1
        lastLabel := some v.ops.length } := by
      cases h
      rfl
    rw [htset, hwset, hvset, huset, hlen]
    rfl

/-! ## Returns -/

theorem coerceResults_ok {ts : List Ty} {vs : List Taken} (h : coerceResults p ts vs s = .ok () t) :
    ∃ ops, Codes (takenKnowns vs) s t ops ∧ Converts vs.length ops ∧ t.funcs = s.funcs := by
  induction ts generalizing s vs with
  | nil =>
    cases h
    exact ⟨[], Codes.refl.weaken nofun, .nil, rfl⟩
  | cons ty ts ih =>
    cases vs with
    | nil =>
      cases h
      exact ⟨[], .refl, .nil, rfl⟩
    | cons v vs =>
      obtain ⟨_, u, ⟨ops, hc, hconv, hgrows⟩, h⟩ := seq_by coerce_ok h
      obtain ⟨ops', hc', hconv', hfuncs⟩ := ih h
      refine ⟨ops ++ ops', hc.trans hc', hconv.append (hconv'.mono (Nat.le_succ _)), hfuncs.trans ?_⟩
      rcases hgrows with he | ⟨_, he⟩ <;> exact congrArg Setting.funcs he

theorem ret_move {n : Nat} (h : ret n p s = .ok () t) : Move n 0 s t := by
  replace h := read_ok h
  split at h
  · cases h
  rename_i f fs hfuncs
  split at h
  · cases h
  rename_i hn
  have hn : n = f.sig.results.length := Decidable.not_not.mp hn
  obtain ⟨vs, u, ⟨hs, hlen, hu⟩, h⟩ := seq_by popValues_ok h
  obtain ⟨_, v, ⟨ops, hc, hconv, hvf⟩, h⟩ := seq_by coerceResults_ok h
  have hcells : cellsOf (vs.map Taken.operand).reverse = List.replicate n true ++ [] := by
    rw [cellsOf_values_reverse, hlen, append_nil]
  have hflow : Flow [.ret n f.sig.params.length] (cellsOf (vs.map Taken.operand).reverse) [] := by
    rw [hcells, append_nil]
    exact .one (show Op.arity? (.ret n f.sig.params.length) = some (n, 0) from rfl)
  have hwithin : Op.Within v.setting (.ret n f.sig.params.length) := by
    refine ⟨f, fs, ?_, hn, rfl⟩
    show v.funcs = _
    rw [hvf, hu]
    exact hfuncs
  rw [hlen] at hconv
  have hmove := Move.apply _ [] h rfl hs hu hc (fun k hk => mem_knowns_of_taken hk) hcells hconv nofun hflow hwithin rfl
  rwa [length_reverse, length_map, hlen] at hmove

/-! ## Labels and loops -/

theorem range_move (h : range p s = .ok () t) : Move 1 1 s t := by
  obtain ⟨v, u, ⟨hs, hu⟩, h⟩ := seq_by popValue_ok h
  obtain ⟨ty, h⟩ := complete_seq h
  replace h := ran h
  split at h
  · obtain ⟨_, w, hemit, h⟩ := seq_ok.mp h
    exact .act [v.operand] [.iter _ _] hemit (pushOperand_ok h) hs hu nofun
      (.one (show Op.arity? .range = some (1, 1) from rfl)) trivial rfl
  · cases h

theorem dropRange_move (h : dropRange p s = .ok () t) : Move 1 0 s t := by
  replace h := read_ok h
  split at h
  · rename_i k v stack hpop
    obtain ⟨_, u, hset, h⟩ := seq_ok.mp h
    cases hset
    have hitems : s.stack.items = .iter k v :: stack.items := by
      unfold OperandStack.pop? at hpop
      split at hpop
      · rename_i hi
        cases hpop
        exact hi
      · cases hpop
    exact .act [.iter k v] [] h rfl hitems rfl nofun flow_pop trivial rfl
  · cases h

theorem rangeVar_ok {slot : Slot} (hn : VarName name) (h : rangeVar name ty define p s = .ok slot t) :
    Codes [] s t [] ∧ t.setting.Reach slot := by
  unfold rangeVar at h
  split at h
  · exact declareVar_ok hn h
  · obtain ⟨⟨key, sym⟩, u, ⟨hr, rfl⟩, h⟩ := seq_by resolve_ok h
    dsimp only at h
    split at h
    · cases h
    rename_i hk
    split at h
    · cases h
    obtain ⟨rfl, ha, hl⟩ := varSlot_ok h
    exact ⟨.refl, reach_of_resolve hn.isPart hr (Decidable.not_not.mp hk) ha hl⟩

theorem rangeVar?_ok {name : Option String} {slot : Option Slot} (hn : ∀ n, name = some n → VarName n)
    (h : rangeVar? name ty define p s = .ok slot t) :
    Codes [] s t [] ∧ ∀ sl, slot = some sl → t.setting.Reach sl := by
  cases name with
  | none =>
    cases h
    exact ⟨.refl, nofun⟩
  | some n =>
    cases hr : rangeVar n ty define p s with
    | ok sl u =>
      have h' : EStateM.map some (rangeVar n ty define p) s = .ok slot t := h
      rw [EStateM.map, hr] at h'
      cases h'
      obtain ⟨hc, hreach⟩ := rangeVar_ok (hn n rfl) hr
      exact ⟨hc, fun sl' he => by cases he; exact hreach⟩
    | error e u =>
      have h' : EStateM.map some (rangeVar n ty define p) s = .ok slot t := h
      rw [EStateM.map, hr] at h'
      cases h'

theorem next_ok {label : String} {key value : Option String} (hk : ∀ n, key = some n → VarName n)
    (hv : ∀ n, value = some n → VarName n) (h : next label key value define p s = .ok () t) :
    ∃ (kt vt : Ty) (rest : List Operand) (σ τ : Setting) (k v : Option Slot) (rel : Int),
      s.stack.items = .iter kt vt :: rest ∧ t.stack = s.stack ∧ Names s.setting σ ∧ Names σ τ ∧
      (∀ slot, k = some slot → σ.Reach slot) ∧ (∀ slot, v = some slot → τ.Reach slot) ∧
      t.ops = s.ops ++ [.next k v rel] ∧ Leads s.ops.length (.label label) p τ t.setting rel := by
  replace h := read_ok h
  split at h
  · rename_i kt vt htop
    split at h
    · cases h
    obtain ⟨k, u, ⟨hc, hreach⟩, h⟩ := seq_by (rangeVar?_ok hk) h
    obtain ⟨v, w, ⟨hc', hreach'⟩, h⟩ := seq_by (rangeVar?_ok hv) h
    have hjump : Op.withOffset? 0 (.next k v 0) = some (.next k v 0) := rfl
    obtain ⟨rel, op', hop', hstack, hops, hleads⟩ := jump_ok hjump h
    cases hop'
    obtain ⟨base, hf, hb⟩ := (hc.trans hc').code
    have hwops : w.ops = s.ops := by
      rw [hb, append_nil, append_nil]
      exact hf.eq_of_nil
    obtain ⟨rest, hrest⟩ : ∃ rest, s.stack.items = .iter kt vt :: rest := by
      exact head?_eq_some_iff.mp htop
    refine ⟨kt, vt, rest, u.setting, w.setting, k, v, rel, hrest, ?_, hc.names, hc'.names, hreach, hreach', ?_, ?_⟩
    · rw [hstack, hc'.stack, hc.stack]
    · rw [hops, hwops]
    · rw [← hwops]
      exact hleads
  · cases h

/-- A discard drops all above the last mark. -/
theorem discard_ok (h : discard p s = .ok () t) :
    ∃ (height : Nat) (marks : List Nat) (os : List Operand), s.marks = height :: marks ∧
      s.stack.items = os ++ t.stack.items ∧ os.length = s.stack.size - height ∧
      t.setting = { s.setting with marks := marks } ∧
      t.ops = s.ops ++ if cellsOf os = [] then [] else [.pop (cellsOf os).length] := by
  replace h := read_ok h
  split at h
  · cases h
  rename_i height marks hmarks
  obtain ⟨_, u, hset, h⟩ := seq_ok.mp h
  cases hset
  have hcells (os : List Operand) : os.foldr (fun o n => o.slots + n) 0 = (cellsOf os).length := by
    induction os with
    | nil => rfl
    | cons o os ih => rw [foldr_cons, ih, cellsOf_cons, length_append, Operand.length_cells]
  have hslots : s.stack.slotsAbove height = (cellsOf (s.stack.items.take (s.stack.size - height))).length := hcells _
  have hlen : (s.stack.items.take (s.stack.size - height)).length = s.stack.size - height := by
    rw [length_take]
    exact Nat.min_eq_left (Nat.sub_le _ _)
  have hsplit : s.stack.items = s.stack.items.take (s.stack.size - height) ++ (s.stack.truncate height).items :=
    (take_append_drop _ _).symm
  rw [hslots] at h
  split at h
  · rename_i hpos
    obtain rfl := emit_run h
    refine ⟨height, marks, _, hmarks, hsplit, hlen, rfl, ?_⟩
    rw [if_neg fun he => by rw [he] at hpos; exact absurd hpos (Nat.lt_irrefl _)]
    exact ops_emit _ _ _
  · rename_i hzero
    cases h
    refine ⟨height, marks, _, hmarks, hsplit, hlen, rfl, ?_⟩
    rw [if_pos (eq_nil_of_length_eq_zero (Nat.eq_zero_of_not_pos hzero)), append_nil]
    rfl

/-- A label closes a function or names a place. -/
theorem label_ok (h : label name p s = .ok () t) :
    (closes name s.funcs = true ∧ ∃ f fs, Ends s t f fs) ∨
    closes name s.funcs = false ∧ name ∉ s.labels ∧ t.stack = s.stack.forget ∧ t.ops = s.ops ∧
      t.setting = { s.setting with
        labels := name :: s.labels
        symbols := s.symbols.addLabel name s.ops.length
        lastLabel := some s.ops.length } := by
  replace h := read_ok h
  split at h
  · rename_i hcloses
    exact .inl ⟨hcloses, funcEnd_ok h⟩
  rename_i hcloses
  split at h
  · cases h
  rename_i hnew
  cases h
  refine .inr ⟨Bool.eq_false_iff.mpr hcloses, fun hm => hnew (contains_iff_mem.mpr hm), rfl, rfl, ?_⟩
  rw [length_ops]
  rfl

end Goblet.Compile
