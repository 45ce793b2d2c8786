import Goblet.Proofs.Compile.Move

/-!
# Moves of names

Loads of names, stores into names and declarations are moves (`identifier_move`, `define_move`, `assign_move`,
`declare_move`). What they use of the compiler reads the state, changes names, or converts a value (`coerce_ok`).
-/

namespace Goblet.Compile

open List SymbolTable

variable {α : Type} {s t : CompileState} {p : Pos} {name key : String} {ty : Ty} {a : α} {op : Op}
  {declared : Option Ty}
variable {sym : Symbol} {slot : Slot} {addr : Address} {i : Nat} {σ : Setting} {v : Value} {e : Option TypeExpr}
  {u : CompileState}

/-! ## Reading the state -/

theorem scope_seq {f : String → Compile α} (h : (scope >>= f) s = .ok a t) :
    Ran (f s.setting.scope) s a t := h

theorem lookup_seq {f : Option Symbol → Compile α} (h : (lookup key >>= f) s = .ok a t) :
    Ran (f (s.symbols.lookup? key)) s a t := h

theorem seek_ok {r : Option (String × Symbol)} (h : seek name s = .ok r t) :
    r = s.symbols.resolve? name s.setting.scope ∧ s = t := by
  cases h
  exact ⟨rfl, rfl⟩

theorem resolve_ok {r : String × Symbol} (h : resolve name p s = .ok r t) :
    s.symbols.resolve? name s.setting.scope = some r ∧ s = t := by
  unfold resolve at h
  split at h
  · cases h
  · obtain ⟨o, u, ⟨rfl, rfl⟩, h⟩ := seq_by seek_ok h
    split at h
    · rename_i r' hr
      cases h
      exact ⟨hr, rfl⟩
    · cases h

theorem resolve?_some {symbols : SymbolTable} {sc : String} (h : symbols.resolve? name sc = some (key, sym)) :
    ∃ outer ∈ enclosing sc, key = qualify outer name ∧ symbols.lookup? key = some sym := by
  obtain ⟨outer, hm, ho⟩ := exists_of_findSome?_eq_some h
  obtain ⟨sym', hs, he⟩ := Option.map_eq_some_iff.mp ho
  cases he
  exact ⟨outer, hm, rfl, hs⟩

theorem complete_seq {f : Ty → Compile α} (h : (complete ty >>= f) s = .ok a t) :
    ∃ ty', Ran (f ty') s a t := ⟨_, h⟩

theorem resolveType_ok {e : TypeExpr} (h : resolveType e p s = .ok ty t) :
    resolveTypeIn s.symbols s.setting.scope p e = .ok ty ∧ s = t := by
  replace h := read_ok h
  replace h := scope_seq h
  split at h
  · rename_i ty' hty
    cases h
    exact ⟨hty, rfl⟩
  · cases h

/-! ## Storage -/

/-- A local slot is one of the function being compiled. -/
theorem varSlot_ok (h : varSlot key sym name p s = .ok slot t) :
    s = t ∧ sym.addr.slot? = some slot ∧ ∀ k, slot = .local k → ∃ f fs, s.funcs = f :: fs ∧
      (f.key ++ "/").toList.isPrefixOf key.toList := by
  unfold varSlot at h
  replace h := ran h
  split at h
  · rename_i i hi
    cases h
    exact ⟨rfl, by rw [hi]; rfl, nofun⟩
  · rename_i k hk
    replace h := read_ok h
    split at h
    · rename_i f fs hf
      split at h
      · rename_i hpre
        cases h
        exact ⟨rfl, by rw [hk]; rfl, fun _ _ => ⟨f, fs, hf, hpre⟩⟩
      · cases h
    · cases h
  · cases h

theorem slot?_global (h : addr.slot? = some (.global i)) : addr = .global i := by
  cases addr <;> cases h
  rfl

theorem slot?_local {k : Int} (h : addr.slot? = some (.local k)) : addr = .local k := by
  cases addr <;> cases h
  rfl

theorem reach_of_resolve (hn : IsPart name)
    (hr : σ.symbols.resolve? name σ.scope = some (key, sym)) (hk : sym.kind = .var) (ha : sym.addr.slot? = some slot)
    (hl : ∀ k, slot = .local k → ∃ f fs, σ.funcs = f :: fs ∧ (f.key ++ "/").toList.isPrefixOf key.toList) :
    σ.Reach slot := by
  obtain ⟨outer, hm, rfl, hs⟩ := resolve?_some hr
  cases slot with
  | global i => exact .inr ⟨_, sym, hs, slot?_global ha⟩
  | «local» k => exact .inr ⟨outer, name, sym, hn, hs, hk, slot?_local ha, .inr ⟨hm, hl k rfl⟩⟩

theorem reach_of_lookup (hn : IsPart name) (hs : σ.symbols.lookup? (σ.key name) = some sym)
    (hk : sym.kind = .var) (ha : sym.addr.slot? = some slot) : σ.Reach slot := by
  cases slot with
  | global i => exact .inr ⟨_, sym, hs, slot?_global ha⟩
  | «local» k => exact .inr ⟨σ.scope, name, sym, hn, hs, hk, slot?_local ha, .inl rfl⟩

/-- The same but for one data slot more. -/
def Setting.Grows (σ τ : Setting) : Prop := τ = σ ∨ ∃ v, τ = { σ with data := σ.data.push v }

theorem Setting.Reach.grows {τ : Setting} (h : σ.Reach slot) (hg : σ.Grows τ) : τ.Reach slot := by
  rcases hg with rfl | ⟨v, rfl⟩
  · exact h
  cases slot with
  | global i =>
    refine Or.imp_left (fun hi => ?_) h
    rw [Array.size_push]
    exact Nat.lt_succ_of_lt hi
  | «local» k => exact h

theorem typeSlot_grows (h : typeSlot ty s = .ok i t) : s.setting.Grows t.setting := by
  cases h
  split
  · exact .inl rfl
  · exact .inr ⟨_, rfl⟩

theorem materialize_ok (h : materialize key p s = .ok i t) : Codes [] s t [] ∧ t.setting.Reach (.global i) := by
  replace h := read_ok h
  split at h
  · cases h
  · rename_i sym hs
    split at h
    · rename_i j hj
      cases h
      exact ⟨.refl, .inr ⟨key, sym, hs, hj⟩⟩
    · rename_i ha
      cases h
      refine ⟨.of_names rfl (.single (.load hs ha)) rfl, .inl ?_⟩
      simp only [CompileState.setting, Array.size_push]
      exact Nat.lt_succ_self _
    · cases h

theorem slotOf_ok (h : slotOf addr name p s = .ok slot t) : addr.slot? = some slot ∧ s = t := by
  unfold slotOf at h
  replace h := ran h
  split at h
  · rename_i slot' hs
    cases h
    exact ⟨hs, rfl⟩
  · cases h

theorem retype_ok (h : retype key ty s = .ok () t) :
    t = { s with symbols := s.symbols.modify key ({ · with ty := ty }) } := by
  cases h
  rfl

/-- A declaration takes a fresh slot. -/
theorem declareVar_ok (hn : VarName name) (h : declareVar name ty p s = .ok slot t) :
    Codes [] s t [] ∧ t.setting.Reach slot := by
  replace h := scope_seq h
  replace h := lookup_seq h
  split at h
  · rename_i existing hex
    split at h
    · cases h
    rename_i hkind
    have hkind : existing.kind = .var := Decidable.not_not.mp hkind
    obtain ⟨slot', w, ⟨haddr, rfl⟩, h⟩ := seq_by slotOf_ok h
    split at h
    · cases h
    split at h
    · obtain ⟨_, w, hret, h⟩ := seq_ok.mp h
      cases h
      rw [retype_ok hret]
      refine ⟨.of_names rfl (.single (.retype hex hkind)) rfl, ?_⟩
      have hex : s.symbols.lookup? (s.setting.key name) = some existing := hex
      have hsym : (s.symbols.modify (s.setting.key name) ({ · with ty := ty })).lookup? (s.setting.key name)
          = some { existing with ty := ty } := by
        rw [lookup?_modify_of hex]
        exact if_pos rfl
      exact reach_of_lookup hn.isPart hsym hkind haddr
    · cases h
      exact ⟨.refl, reach_of_lookup hn.isPart hex hkind haddr⟩
  · rename_i hnone
    obtain ⟨addr, w, halloc, h⟩ := seq_ok.mp h
    obtain ⟨_, w', hadd, h⟩ := seq_ok.mp h
    cases hadd
    obtain ⟨haddr, rfl⟩ := slotOf_ok h
    obtain ⟨s', w'', hg, halloc⟩ := seq_ok.mp halloc
    cases hg
    have reach {τ : Setting} (hl : τ.symbols.lookup? (τ.key name) = some ⟨.var, addr, ty, none⟩) : τ.Reach slot :=
      reach_of_lookup hn.isPart hl rfl haddr
    split at halloc
    · rename_i f fs hf
      cases halloc
      refine ⟨.of_names rfl (.single (.local hf hn hnone)) rfl, reach ?_⟩
      show (add _ _ _).lookup? _ = _
      rw [lookup?_add]
      exact if_pos rfl
    · rename_i hf
      cases halloc
      refine ⟨.of_names rfl (.single (.global hf hn hnone)) rfl, reach ?_⟩
      show (add _ _ _).lookup? _ = _
      rw [lookup?_add]
      exact if_pos rfl

/-! ## Conversions -/

theorem pushedInt?_some {n : Int64} (h : pushedInt? s.program i = some n) : s.ops[i]? = some (.push (.int n)) := by
  unfold pushedInt? at h
  split at h
  · rename_i m pos hm
    cases h
    simp only [CompileState.ops, getElem?_map, Array.getElem?_toList, hm]
    rfl
  · cases h

/-- A value is stored as it is, or becomes a float: where it is loaded, or by a conversion. -/
theorem coerce_ok {v : Taken} {dst : Ty} {depth : Nat} {context : String}
    (h : coerce v dst depth context p s = .ok () t) :
    ∃ ops, Codes v.known.toList s t ops ∧ Converts (depth + 1) ops ∧ s.setting.Grows t.setting := by
  unfold coerce at h
  split at h
  · cases h
  split at h
  · cases h
    exact ⟨[], Codes.refl.weaken nofun, .nil, .inl rfl⟩
  replace h := read_ok h
  dsimp only at h
  split at h
  · rename_i i n hknown
    obtain ⟨k, hk, hn⟩ := Option.bind_eq_some_iff.mp hknown
    obtain ⟨m, hm, he⟩ := Option.map_eq_some_iff.mp hn
    cases he
    obtain ⟨hstack, hset, hops⟩ := replaceOp_ok h
    have hsite := pushedInt?_some hm
    have hlt : k.loadedAt < s.ops.length := (List.getElem?_eq_some_iff.mp hsite).1
    refine ⟨[], ⟨hstack, hset ▸ .refl, ⟨_, ⟨?_, fun i => ?_⟩, by rw [hops, append_nil]⟩, nofun⟩, .nil, .inl hset⟩
    · exact length_set
    · by_cases hi : k.loadedAt = i
      · subst hi
        refine .inr ⟨⟨k, Option.mem_toList.mpr hk, rfl⟩, ⟨_, hsite⟩, .ofInt n, ?_⟩
        rw [getElem?_set_self hlt]
      · exact .inl (getElem?_set_ne hi)
  · obtain ⟨slot, u, hslot, h⟩ := seq_ok.mp h
    have hc := (typeSlot_ok hslot).trans (emit_ok h nofun)
    refine ⟨_, hc.weaken nofun, ?_, ?_⟩
    · intro op hop
      rw [nil_append, mem_singleton] at hop
      exact ⟨slot, depth, hop, Nat.lt_succ_self _⟩
    · rw [emit_setting h]
      exact typeSlot_grows hslot

/-! ## Constants -/

/-- A constant is loaded by one instruction. -/
theorem loading_ok (h : loading v s = .ok op t) :
    t.stack = s.stack ∧ Names s.setting t.setting ∧ t.ops = s.ops ∧ t.store = s.store ∧ Loads t.setting v op := by
  unfold loading at h
  split at h
  · obtain ⟨i, u, hi, h⟩ := seq_ok.mp h
    cases h
    obtain ⟨hc, hlt⟩ := textSlot_ok hi
    obtain ⟨base, hf, hops⟩ := hc.code
    refine ⟨hc.stack, hc.names, ?_, ?_, .get hlt⟩
    · rw [hops, append_nil, hf.eq_of_nil]
    · cases hi
      rfl
  · rename_i hv
    cases h
    exact ⟨rfl, .refl, rfl, rfl, .push hv⟩

theorem constant_ok (h : constant v ty p s = .ok () t) :
    ∃ op, t.stack.items = .value ty (some ⟨v, s.ops.length⟩) :: s.stack.items ∧ Names s.setting t.setting ∧
      t.ops = s.ops ++ [op] ∧ t.store = s.store ∧ Loads t.setting v op := by
  obtain ⟨op, u, ⟨hstack, hnames, hops, hstore, hloads⟩, h⟩ := seq_by loading_ok h
  obtain ⟨i, w, ⟨rfl, rfl⟩, h⟩ := seq_by emitSite_ok h
  rw [pushOperand_ok h]
  refine ⟨op, ?_, hnames, ?_, hstore, hloads⟩
  · rw [hops, ← hstack]
  · rw [← hops]
    exact ops_emit u op p

theorem constant_move (h : constant v ty p s = .ok () t) (hv : Origin s t [] v) : Move 0 1 s t := by
  obtain ⟨op, hstack, hnames, hops, -, hloads⟩ := constant_ok h
  exact .loads hstack hnames hops hloads hv

/-! ## Identifiers -/

theorem pushValue_ok (h : pushValue ty s = .ok () t) : t = { s with stack := ⟨.plain ty :: s.stack.items⟩ } :=
  pushOperand_ok h

theorem Move.load (h : (do emit op p; pushValue ty) u = .ok () t) (hu : Codes [] s u [])
    (hw : op.Within u.setting) (ha : op.arity? = some (0, 1)) (hop : ∀ v, op ≠ .push v) : Move 0 1 s t := by
  obtain ⟨_, w, he, h⟩ := seq_ok.mp h
  have hc := hu.trans (emit_ok he hop)
  refine Move.of_codes [] [.plain ty] rfl rfl hc nofun (pushValue_ok h) (.one ha) ?_ rfl nofun
  intro op' hop'
  rw [nil_append, mem_singleton] at hop'
  rw [hop', emit_setting he]
  exact hw

theorem pushOperand_move {o : Operand} (ho : o.cells = []) (hq : isQuiet o) (h : pushOperand o s = .ok () t) :
    Move 0 1 s t := by
  refine Move.of_codes [] [o] rfl rfl .refl nofun (pushOperand_ok h) ?_ nofun ?_ ?_
  · rw [cellsOf_cons, ho]
    exact .done
  · rw [all_cons, hq]
    rfl
  · rw [cellsOf_cons, ho]
    exact fun h => absurd rfl h

theorem loadValue_move (h : identifier.loadValue p key sym s = .ok () t) : Move 0 1 s t := by
  obtain ⟨i, u, ⟨hc, hreach⟩, h⟩ := seq_by materialize_ok h
  exact .load h hc hreach rfl nofun

/-- A name leaves one operand. -/
theorem identifier_move {called : Bool} (hn : IsPart name) (h : identifier name called p s = .ok () t) :
    Move 0 1 s t := by
  obtain ⟨⟨key, sym⟩, u, ⟨hr, rfl⟩, h⟩ := seq_by resolve_ok h
  obtain ⟨outer, -, -, hlookup⟩ := resolve?_some hr
  dsimp only at h
  split at h
  · rename_i hk
    obtain ⟨slot, u, ⟨rfl, ha, hl⟩, h⟩ := seq_by varSlot_ok h
    exact .load h .refl (reach_of_resolve hn hr hk ha hl) rfl nofun
  · rename_i hk
    exact constant_move h (.const hlookup hk)
  · exact pushOperand_move rfl rfl h
  · replace h := ran h
    split at h
    · exact pushOperand_move rfl rfl h
    · cases h
  · exact pushOperand_move rfl rfl h
  · cases h
  · rename_i hk
    split at h
    · replace h := ran h
      split at h
      · rename_i params results variadic hty
        have hty : sym.ty = FuncType.ty ⟨params, results, variadic⟩ := hty
        exact .names hlookup hk hty (pushOperand_ok h)
      · cases h
    · exact loadValue_move h
  · exact loadValue_move h

/-! ## Stores -/

theorem Move.take {v : Taken} {ks : List Known} {w : CompileState} {ops : List Op}
    (h : emit op p w = .ok () t) (hs : s.stack.items = v.operand :: u.stack.items)
    (hu : u = { s with stack := u.stack }) (hc : Codes ks u w ops) (hk : ∀ k ∈ ks, k ∈ v.known.toList)
    (hconv : Converts 1 ops) (hop : ∀ v, op ≠ .push v) (hf : Flow [op] [true] []) (hw : op.Within w.setting) :
    Move 1 0 s t := by
  refine Move.of_codes [v.operand] [] hs hu (hc.trans (emit_ok h hop)) ?_ rfl ?_ ?_ rfl nofun
  · intro k hm
    rw [append_nil] at hm
    have := Option.mem_toList.mp (hk k hm)
    simp only [knowns, Taken.operand, filterMap_cons, Operand.known?, Option.mem_def.mp this]
    exact mem_cons_self
  · exact (hconv.flow).trans hf
  · intro op' hop'
    rcases mem_append.mp hop' with hop' | hop'
    · obtain ⟨ty, d, rfl, -⟩ := hconv op' hop'
      trivial
    · rw [mem_singleton.mp hop', emit_setting h]
      exact hw

theorem flow_pop : Flow [.pop 1] [true] [] := .pop (length_singleton (a := true)) .done

theorem flow_set : Flow [.set slot] [true] [] :=
  .one (show Op.arity? (.set slot) = some (1, 0) from rfl)

/-- A definition takes one operand. -/
theorem define_move (hn : VarName name) (h : define name p s = .ok () t) : Move 1 0 s t := by
  obtain ⟨v, u, ⟨hs, hu⟩, h⟩ := seq_by popValue_ok h
  split at h
  · exact .take h hs hu .refl nofun .nil nofun flow_pop trivial
  split at h
  · cases h
  obtain ⟨slot, w, ⟨hc, hreach⟩, h⟩ := seq_by (declareVar_ok hn) h
  exact .take h hs hu hc nofun .nil nofun flow_set hreach

/-- An assignment takes one operand. -/
theorem assign_move (hn : IsPart name) (h : assign name p s = .ok () t) : Move 1 0 s t := by
  obtain ⟨v, u, ⟨hs, hu⟩, h⟩ := seq_by popValue_ok h
  split at h
  · exact .take h hs hu .refl nofun .nil nofun flow_pop trivial
  obtain ⟨⟨key, sym⟩, w, ⟨hr, rfl⟩, h⟩ := seq_by resolve_ok h
  dsimp only at h
  split at h
  · rename_i hk
    obtain ⟨_, w', ⟨ops, hc, hconv, hset⟩, h⟩ := seq_by coerce_ok h
    obtain ⟨slot, w'', ⟨rfl, ha, hl⟩, h⟩ := seq_by varSlot_ok h
    have hsym : w'.symbols = u.symbols ∧ w'.scopes = u.scopes := by
      rcases hset with h | ⟨_, h⟩
      · exact ⟨congrArg Setting.symbols h, congrArg Setting.scopes h⟩
      · exact ⟨congrArg Setting.symbols h, congrArg Setting.scopes h⟩
    have hr : w'.setting.symbols.resolve? name w'.setting.scope = some (key, sym) := by
      show w'.symbols.resolve? name (w'.scopes.headD _) = _
      rw [hsym.1, hsym.2]
      exact hr
    exact .take h hs hu hc (fun _ h => h) hconv nofun flow_set (reach_of_resolve hn hr hk ha hl)
  · cases h
  · cases h

theorem loadZero_ok (h : loadZero ty p s = .ok () t) :
    ∃ i, Codes [] s t [.new i] ∧ s.setting.Grows t.setting := by
  obtain ⟨i, u, hi, h⟩ := seq_ok.mp h
  refine ⟨i, (typeSlot_ok hi).trans (emit_ok h nofun), ?_⟩
  rw [emit_setting h]
  exact typeSlot_grows hi

theorem declaredType_ok (h : declaredType declared true p s = .ok ty t) :
    ∃ (v : Taken) (u : CompileState) (ops : List Op), s.stack.items = v.operand :: u.stack.items ∧
      u = { s with stack := u.stack } ∧ Codes v.known.toList u t ops ∧ Converts 1 ops := by
  unfold declaredType at h
  obtain ⟨v, u, ⟨hs, hu⟩, h⟩ := seq_by popValue_ok h
  split at h
  · obtain ⟨_, w, ⟨ops, hc, hconv, -⟩, h⟩ := seq_by coerce_ok h
    cases h
    exact ⟨v, u, ops, hs, hu, hc, hconv⟩
  · split at h
    · cases h
    · cases h
      exact ⟨v, t, [], hs, hu, Codes.refl.weaken nofun, .nil⟩

theorem declaredType_none (h : declaredType declared false p s = .ok ty t) : s = t := by
  unfold declaredType at h
  rw [if_neg (by decide)] at h
  split at h
  · cases h
    rfl
  · cases h

/-- A declaration takes its value when it has one. -/
theorem declare_move {init : Bool} (hn : VarName name)
    (h : declare name e init p s = .ok () t) : Move init.toNat 0 s t := by
  obtain ⟨declared, u, rfl, h⟩ := seq_by resolveType?_keeps.same h
  obtain ⟨ty, w, hty, h⟩ := seq_ok.mp h
  cases init with
  | true =>
    obtain ⟨v, u, ops, hs, hu, hc, hconv⟩ := declaredType_ok hty
    split at h
    · rw [if_pos rfl] at h
      exact .take h hs hu hc (fun _ h => h) hconv nofun flow_pop trivial
    · obtain ⟨slot, w', ⟨hc', hreach⟩, h⟩ := seq_by (declareVar_ok hn) h
      have hall := hc.trans hc'
      rw [append_nil, append_nil] at hall
      exact .take h hs hu hall (fun _ h => h) hconv nofun flow_set hreach
  | false =>
    obtain rfl := declaredType_none hty
    split at h
    · cases h
      exact .of_codes [] [] rfl rfl .refl nofun rfl .done nofun rfl nofun
    · obtain ⟨slot, w', ⟨hc, hreach⟩, h⟩ := seq_by (declareVar_ok hn) h
      obtain ⟨_, w'', ⟨i, hc', hgrows⟩, h⟩ := seq_by loadZero_ok h
      refine .of_codes [] [] rfl rfl ((hc.trans hc').trans (emit_ok h nofun)) nofun rfl
        (.plain (show Op.arity? (.new i) = some (0, 1) from rfl) flow_set) (fun op hop => ?_) rfl nofun
      simp only [nil_append, cons_append, mem_cons, not_mem_nil, or_false] at hop
      rcases hop with rfl | rfl
      · trivial
      · rw [emit_setting h]
        exact hreach.grows hgrows

end Goblet.Compile
