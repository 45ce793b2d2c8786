import Goblet.Proofs.Compile.Move.Expression
import Goblet.Proofs.Compile.Move.Jump

/-!
# Moves of calls

Conversions, built-in functions and calls of function values are moves (`conversion_move`, `callBuiltin_move`,
`callValue_move`). A call of a function by name takes its arguments, which lie on the stack as the function has
parameters, and is a jump to the function (`Calls`).
-/

namespace Goblet

open List

/-- The number of cells that the arguments of a call take. -/
def FuncType.frame (sig : FuncType) (spread : Bool) : Nat :=
  if sig.variadic && !spread then sig.params.length - 1 + 1 else sig.params.length

namespace Compile

variable {s t : CompileState} {p : Pos} {ty : Ty} {sig : FuncType} {argc : Nat} {spread : Bool} {k : Known}
  {o : Operand}
variable {vs : List Taken} {u : CompileState} {b : Builtin} {elem : Ty} {os : List Operand}

/-! ## Arguments -/

/-- What is known of some values. -/
def takenKnowns (vs : List Taken) : List Known := vs.flatMap (·.known.toList)

theorem mem_knowns_of_taken (h : k ∈ takenKnowns vs) : k ∈ knowns (vs.map Taken.operand).reverse := by
  obtain ⟨v, hv, hk⟩ := mem_flatMap.mp h
  exact mem_knowns (mem_reverse.mpr (mem_map_of_mem hv)) (Option.mem_toList.mp hk)

theorem mem_knowns_cons (h : k ∈ knowns os) : k ∈ knowns (o :: os) := by
  obtain ⟨v, hv, hk⟩ := mem_filterMap.mp h
  exact mem_knowns (.tail _ hv) hk

theorem coerceArgs_ok {fixed above k : Nat} {rest : Ty} (h : coerceArgs sig fixed rest above p k vs s = .ok () t) :
    ∃ ops, Codes (takenKnowns vs) s t ops ∧ Converts (vs.length + above) ops := by
  induction vs generalizing s k with
  | nil =>
    cases h
    exact ⟨[], .refl, .nil⟩
  | cons v vs ih =>
    obtain ⟨_, u, ⟨ops, hc, hconv, -⟩, h⟩ := seq_by coerce_ok h
    obtain ⟨ops', hc', hconv'⟩ := ih h
    refine ⟨ops ++ ops', hc.trans hc', (hconv.mono ?_).append (hconv'.mono ?_)⟩
    · rw [length_cons]
      omega
    · rw [length_cons]
      omega

theorem callArgs_ok {args : List Taken} {above : Nat} (h : callArgs sig args spread above p s = .ok () t) :
    (∃ ops, Codes (takenKnowns args) s t ops ∧ Converts (args.length + above) ops) ∧
      if sig.variadic && !spread then sig.params.length - 1 ≤ args.length else args.length = sig.params.length := by
  unfold callArgs at h
  by_cases hspread : (spread && !sig.variadic) = true
  · rw [if_pos hspread] at h
    cases h
  rw [if_neg hspread] at h
  cases hv : (sig.variadic && !spread) with
  | true =>
    simp only [hv, if_true, Bool.not_true, Bool.false_eq_true, false_and, or_false] at h ⊢
    split at h
    · cases h
    · rename_i hcount
      exact ⟨coerceArgs_ok h, Nat.le_of_not_lt hcount⟩
  | false =>
    simp only [hv, if_false, Bool.not_false, Bool.false_eq_true, true_and] at h ⊢
    split at h
    · cases h
    · rename_i hcount
      exact ⟨coerceArgs_ok h, Decidable.not_not.mp (not_or.mp hcount).2⟩

theorem collectArgs_ok (h : collectArgs sig argc spread p s = .ok () t) :
    ∃ ops, Codes [] s t ops ∧ (∀ op ∈ ops, ∀ σ, op.Within σ) ∧
      ((if sig.variadic && !spread then sig.params.length - 1 ≤ argc else argc = sig.params.length) →
        Flow ops (List.replicate argc true) (List.replicate (sig.frame spread) true)) := by
  unfold collectArgs at h
  unfold FuncType.frame
  split at h
  · rename_i hv
    obtain ⟨slot, u, hslot, h⟩ := seq_ok.mp h
    refine ⟨_, (typeSlot_ok hslot).trans (emit_ok h nofun), fun op hop σ => ?_, fun hn => ?_⟩
    · rw [nil_append, mem_singleton] at hop
      rw [hop]
      trivial
    · rw [if_pos hv] at hn ⊢
      have hsplit : List.replicate argc true
          = List.replicate (argc - (sig.params.length - 1)) true ++ List.replicate (sig.params.length - 1) true := by
        rw [replicate_append_replicate, Nat.sub_add_cancel hn]
      rw [hsplit, Nat.add_comm, ← replicate_append_replicate]
      exact .plain rfl .done
  · rename_i hv
    cases h
    refine ⟨[], .refl, nofun, fun hn => ?_⟩
    rw [if_neg hv] at hn ⊢
    rw [hn]
    exact .done

theorem pushResults_ok {ts : List Ty} (h : pushResults ts s = .ok () t) :
    ∃ rs, t = { s with stack := ⟨rs ++ s.stack.items⟩ } ∧ rs.length = ts.length ∧
      cellsOf rs = List.replicate ts.length true ∧ rs.all isQuiet := by
  induction ts generalizing s with
  | nil =>
    cases h
    exact ⟨[], rfl, rfl, rfl, rfl⟩
  | cons ty ts ih =>
    obtain ⟨ty', h⟩ := complete_seq h
    obtain ⟨_, u, hu, h⟩ := seq_by pushValue_ok h
    obtain ⟨rs, ht, hn, hc, hk⟩ := ih h
    refine ⟨rs ++ [.plain ty'], ?_, ?_, ?_, ?_⟩
    · rw [ht, hu]
      simp only [append_assoc, singleton_append]
    · rw [length_append, hn]
      rfl
    · rw [cellsOf_append, hc, length_cons, replicate_succ']
      rfl
    · rw [all_append, hk]
      rfl

/-! ## Functions -/

/-- A call of a function by name: arguments become what the function takes, and the call leads to the function. -/
inductive Calls (argc : Nat) (spread : Bool) (p : Pos) : Nat → CompileState → CompileState → Prop
  | mk {s t : CompileState} {σ : Setting} {key : String} {sig : FuncType} {os rs rest : List Operand}
      {base ops : List Op} {rel : Int} : s.stack.items = .func key sig :: os ++ rest → os.length = argc →
      t.stack.items = rs ++ rest →
      rs.length = sig.results.length → cellsOf rs = List.replicate sig.results.length true → rs.all isQuiet →
      Names s.setting σ → Floats (knowns os) s.ops base → t.ops = base ++ ops ++ [.call rel] →
      (∀ op ∈ ops, ∀ v, op ≠ .push v) → (∀ op ∈ ops, ∀ τ, op.Within τ) →
      Flow ops (cellsOf os) (List.replicate (sig.frame spread) true) →
      Leads (base ++ ops).length (.func key) p σ t.setting rel → Calls argc spread p sig.results.length s t

/-- A call by name takes the function's operand too. -/
theorem callNamed_ok {key : String} (hs : s.stack.items = .func key sig :: u.stack.items)
    (hu : u = { s with stack := u.stack }) (h : callNamed key sig argc spread p u = .ok () t) :
    Calls argc spread p sig.results.length s t := by
  obtain ⟨args, v, ⟨hitems, hlen, hv⟩, h⟩ := seq_by popValues_ok h
  obtain ⟨_, w, ⟨⟨ops, hc, hconv⟩, hcount⟩, h⟩ := seq_by callArgs_ok h
  obtain ⟨_, x, ⟨ops', hc', hw', hflow⟩, h⟩ := seq_by collectArgs_ok h
  rw [← hlen] at hflow
  have hall := hc.trans hc'
  obtain ⟨base, hfloats, hbase⟩ := hall.code
  obtain ⟨i, y, hi, h⟩ := seq_ok.mp h
  obtain ⟨_, z, hto, h⟩ := seq_ok.mp h
  obtain ⟨rel, hstack, hops, hleads⟩ := callTo_ok (seq_ok.mpr ⟨i, y, hi, hto⟩)
  obtain ⟨rs, ht, hn, hcells, hk⟩ := pushResults_ok h
  have hvops : v.ops = s.ops := by rw [hv, hu]; rfl
  have hvset : v.setting = s.setting := by rw [hv, hu]; rfl
  have hstart : s.stack.items = .func key sig :: (args.map Taken.operand).reverse ++ v.stack.items := by
    rw [hs, hitems]
    rfl
  have hend : t.stack.items = rs ++ v.stack.items := by rw [ht, hstack, hall.stack]
  have hcode : t.ops = base ++ (ops ++ ops') ++ [.call rel] := by
    rw [ht, ← hbase]
    exact hops
  have hleads : Leads (base ++ (ops ++ ops')).length (.func key) p x.setting t.setting rel := by
    rw [ht, ← hbase]
    exact hleads
  refine .mk hstart ?_ hend hn hcells hk (hvset ▸ hall.names)
    ((hvops ▸ hfloats).weaken fun k hk => ?_) hcode hall.solid ?_ ?_
    hleads
  · rw [length_reverse, length_map, hlen]
  · intro op hop τ
    rcases mem_append.mp hop with hop | hop
    · obtain ⟨ty, d, rfl, -⟩ := hconv op hop
      trivial
    · exact hw' op hop τ
  · rw [cellsOf_values_reverse]
    exact hconv.flow.trans (hflow hcount)
  · rw [append_nil] at hk
    exact mem_knowns_of_taken hk

/-- A call of a value takes arguments and function. -/
theorem callValue_move {known : Option Known}
    (hs : s.stack.items = .value ty known :: u.stack.items) (hu : u = { s with stack := u.stack })
    (h : callValue sig argc spread p u = .ok () t) : Move (argc + 1) sig.results.length s t := by
  obtain ⟨args, v, ⟨hitems, hlen, hv⟩, h⟩ := seq_by popValues_ok h
  obtain ⟨_, w, ⟨⟨ops, hc, hconv⟩, -⟩, h⟩ := seq_by callArgs_ok h
  obtain ⟨_, x, hemit, h⟩ := seq_ok.mp h
  obtain ⟨rs, ht, hn, hcells, hk⟩ := pushResults_ok h
  have hcells' : cellsOf (.value ty known :: (args.map Taken.operand).reverse) = List.replicate (argc + 1) true := by
    rw [cellsOf_cons, cellsOf_values_reverse, hlen]
    rfl
  have hflow : Flow [.callX argc sig.results.length (if sig.variadic then some (sig.params.length - 1) else none)
    spread]
      (cellsOf (.value ty known :: (args.map Taken.operand).reverse)) (cellsOf rs) := by
    rw [hcells', hcells]
    exact .one rfl
  rw [← append_nil (List.replicate (argc + 1) true)] at hcells'
  rw [hlen] at hconv
  have hmove := Move.apply (.value ty known :: (args.map Taken.operand).reverse) rs hemit ht (by rw [hs, hitems]; rfl)
    (by rw [hv, hu]) hc (fun k hk => ?_) hcells' hconv nofun hflow trivial hk
  · rwa [length_cons, length_reverse, length_map, hlen, hn] at hmove
  · exact mem_knowns_cons (mem_knowns_of_taken hk)

/-! ## Conversions -/

theorem convertConstant_ok {v w : Value} (h : convertConstant v ty p s = .ok w t) :
    s.store.convert v ty = .ok (w, t.store) ∧ t = { s with store := t.store } := by
  replace h := read_ok h
  split at h
  · rename_i w' store hc
    obtain ⟨_, u, hset, h⟩ := seq_ok.mp h
    cases hset
    cases h
    exact ⟨hc, rfl⟩
  · cases h

theorem convertible?_ok {v : Taken} {o : Option Known} (h : convertible? ty v s = .ok o t) :
    s = t ∧ ∀ k, o = some k → v.known = some k ∧ k.loadedAt + 1 = s.ops.length ∧ s.lastLabel ≠ some k.loadedAt := by
  unfold convertible? at h
  split at h
  · exact trailing?_ok h
  · cases h
    exact ⟨rfl, nofun⟩

/-- A conversion takes one and leaves one. -/
theorem conversion_move (h : conversion ty argc spread p s = .ok () t) : Move argc 1 s t := by
  unfold conversion at h
  split at h
  · cases h
  rename_i hargc
  obtain rfl : argc = 1 := Decidable.not_not.mp (not_or.mp hargc).1
  obtain ⟨v, u, ⟨hs, hu⟩, h⟩ := seq_by popValue_ok h
  have huops : u.ops = s.ops := by rw [hu]; rfl
  obtain ⟨o, w, ⟨rfl, hk⟩, h⟩ := seq_by convertible?_ok h
  cases o with
  | some k =>
    obtain ⟨hknown, hsize, hlabel⟩ := hk k rfl
    obtain ⟨x, w, hconv, h⟩ := seq_ok.mp h
    obtain ⟨hstore, hw⟩ := convertConstant_ok hconv
    refine fold_move [v.operand] h ?_ ?_ ?_ (.one hknown hu hsize hlabel) fun t' ht' => ?_
    · rw [hs, hw]
      rfl
    · rw [hw, hu]
      exact .single .store
    · rw [hw]
      exact huops
    · have hconv : s.store.convert k.value ty = .ok (x, t'.store) := by rw [ht', ← hstore, hu]
      exact .convert (mem_knowns (o := v.operand) (by simp) hknown) hconv
  | none =>
    obtain ⟨slot, w, hslot, h⟩ := seq_ok.mp h
    obtain ⟨_, w', hemit, h⟩ := seq_ok.mp h
    exact .apply [v.operand] [.plain ty] hemit (pushValue_ok h) hs hu (typeSlot_ok hslot) nofun (n := 0) rfl .nil nofun
      (.one (show Op.arity? (.convert slot 0) = some (1, 1) from rfl)) trivial rfl

/-! ## Built-in functions -/

theorem checkArity_ok {least : Nat} {most : Option Nat} (h : checkArity b argc least most p s = .ok () t) :
    s = t ∧ least ≤ argc ∧ ∀ n, most = some n → argc ≤ n := by
  unfold checkArity at h
  split at h
  · cases h
  rename_i hleast
  have hleast := Nat.le_of_not_lt hleast
  split at h
  · split at h
    · cases h
    · rename_i n hn
      cases h
      refine ⟨rfl, hleast, fun m hm => ?_⟩
      cases hm
      exact Nat.le_of_not_lt hn
  · cases h
    exact ⟨rfl, hleast, nofun⟩

theorem checkArity_seq {n : Nat} {f : Unit → Compile Unit} (h : (checkArity b argc n (some n) p >>= f) s = .ok () t) :
    argc = n ∧ f () s = .ok () t := by
  obtain ⟨_, u, ⟨rfl, hle, hge⟩, h⟩ := seq_by checkArity_ok h
  exact ⟨Nat.le_antisymm (hge n rfl) hle, h⟩

theorem extent_move (h : extent b argc p s = .ok () t) : Move argc 1 s t := by
  obtain ⟨rfl, h'⟩ := checkArity_seq h
  obtain ⟨v, u, ⟨hs, hu⟩, h⟩ := seq_by popValue_ok h'
  split at h
  · cases h
  obtain ⟨o, w, ⟨rfl, hk⟩, h⟩ := seq_by trailing?_ok h
  split at h
  · rename_i text i
    obtain ⟨hknown, hsize, hlabel⟩ := hk _ rfl
    refine fold_move [v.operand] h hs ?_ ?_ (.one hknown hu hsize hlabel) fun _ _ => .int _
    · rw [hu]
      exact .refl
    · rw [hu]
      rfl
  · obtain ⟨_, w, hemit, h⟩ := seq_ok.mp h
    refine .turn hemit (pushValue_ok h) hs hu rfl ?_ ?_ ?_
    · split <;> nofun
    · split <;> rfl
    · split <;> trivial

theorem coerceElements_ok (h : coerceElements elem p vs s = .ok () t) :
    ∃ ops, Codes (takenKnowns vs) s t ops ∧ Converts vs.length ops := by
  induction vs generalizing s with
  | nil =>
    cases h
    exact ⟨[], .refl, .nil⟩
  | cons v vs ih =>
    obtain ⟨_, u, ⟨ops, hc, hconv, -⟩, h⟩ := seq_by coerce_ok h
    obtain ⟨ops', hc', hconv'⟩ := ih h
    exact ⟨ops ++ ops', hc.trans hc', hconv.append (hconv'.mono (Nat.le_succ _))⟩

theorem checkAppended_ok {base : Ty} {more : List Taken} (h : checkAppended base elem more spread p s = .ok () t) :
    (∃ ops, Codes (takenKnowns more) s t ops ∧ Converts more.length ops) ∧ (spread = true → more.length = 1) := by
  unfold checkAppended at h
  split at h
  · split at h
    · split at h
      · cases h
      · cases h
        exact ⟨⟨[], Codes.refl.weaken nofun, .nil⟩, fun _ => rfl⟩
    · cases h
  · rename_i hspread
    exact ⟨coerceElements_ok h, fun h => absurd h hspread⟩

theorem append_move (h : append argc spread p s = .ok () t) : Move argc 1 s t := by
  obtain ⟨_, u, ⟨rfl, hargc, -⟩, h⟩ := seq_by checkArity_ok h
  obtain ⟨args, u, ⟨hs, hlen, hu⟩, h⟩ := seq_by popValues_ok h
  cases args with
  | nil => cases h
  | cons first more =>
    obtain ⟨base, h⟩ := complete_seq h
    obtain ⟨elem, w, rfl, h⟩ := seq_by appendElem_keeps.same h
    obtain ⟨_, w, ⟨⟨ops, hc, hconv⟩, hone⟩, h⟩ := seq_by checkAppended_ok h
    obtain ⟨_, w', hemit, h⟩ := seq_ok.mp h
    rw [length_cons] at hlen
    have hcells : cellsOf ((first :: more).map Taken.operand).reverse = List.replicate more.length true ++ [true] := by
      rw [cellsOf_values_reverse, length_cons, replicate_succ']
    have harity : Op.arity? (.append (argc - 1) spread) = some (more.length + 1, 1) := by
      rw [Op.arity?]
      cases spread with
      | true => rw [if_pos rfl, hone rfl]
      | false => rw [if_neg (by decide), ← hlen, Nat.add_sub_cancel]
    have hflow : Flow [.append (argc - 1) spread] (cellsOf ((first :: more).map Taken.operand).reverse) [true] := by
      rw [cellsOf_values_reverse]
      exact .one harity
    have hmove := Move.apply _ [.plain base] hemit (pushValue_ok h) hs hu hc (fun k hk => ?_) hcells hconv nofun
      hflow trivial rfl
    · rwa [length_reverse, length_map, length_cons, hlen] at hmove
    · exact mem_knowns_of_taken (mem_append_right _ hk)

theorem checkSizes_ok (h : checkSizes p os s = .ok () t) : s = t ∧ ∃ vs : List Taken, os = vs.map Taken.operand := by
  induction os with
  | nil =>
    cases h
    exact ⟨rfl, [], rfl⟩
  | cons o os ih =>
    obtain ⟨v, u, ⟨rfl, rfl⟩, h⟩ := seq_by expectValue_ok h
    split at h
    · obtain ⟨hs, vs, rfl⟩ := ih h
      exact ⟨hs, v :: vs, rfl⟩
    · cases h

theorem makeOf_move {sizes : List Operand} (ho : o.cells = [])
    (hs : s.stack.items = (o :: sizes).reverse ++ u.stack.items) (hu : u = { s with stack := u.stack })
    (h : makeOf ty sizes p u = .ok () t) : Move (sizes.length + 1) 1 s t := by
  obtain ⟨_, w, ⟨rfl, vs, rfl⟩, h⟩ := seq_by checkSizes_ok h
  obtain ⟨slot, w, hslot, h⟩ := seq_ok.mp h
  obtain ⟨_, w', hemit, h⟩ := seq_ok.mp h
  rw [length_map] at hemit ⊢
  have hflow : Flow [.make slot vs.length] (cellsOf (o :: vs.map Taken.operand).reverse) [true] := by
    rw [reverse_cons, cellsOf_append, cellsOf_values_reverse, cellsOf_cons, ho, cellsOf_nil, append_nil,
      append_nil]
    exact .one (show Op.arity? (.make slot vs.length) = some (vs.length, 1) from rfl)
  have hmove := Move.apply _ [.plain ty] hemit (pushValue_ok h) hs hu (typeSlot_ok hslot) nofun (n := 0) rfl .nil nofun
    hflow
    trivial rfl
  rwa [length_reverse, length_cons, length_map] at hmove

theorem make_move (h : make argc p s = .ok () t) : Move argc 1 s t := by
  obtain ⟨_, u, ⟨rfl, -, -⟩, h⟩ := seq_by checkArity_ok h
  obtain ⟨os, u, ⟨hs, hlen, hu⟩, h⟩ := seq_by popOperands_ok h
  split at h
  · split at h
    · cases h
    · rw [← hlen]
      exact makeOf_move rfl hs hu h
  · rw [← hlen]
    exact makeOf_move rfl hs hu h
  · cases h
  · cases h

theorem new_move (h : new argc p s = .ok () t) : Move argc 1 s t := by
  obtain ⟨rfl, h'⟩ := checkArity_seq h
  obtain ⟨o, u, ⟨hs, hu⟩, h⟩ := seq_by popOperand_ok h'
  have h' := ran h
  split at h'
  · rename_i ty
    obtain ⟨slot, w, hslot, h⟩ := seq_ok.mp h'
    obtain ⟨_, w', hemit, h⟩ := seq_ok.mp h
    obtain ⟨_, w'', hemit', h⟩ := seq_ok.mp h
    have hall := (typeSlot_ok hslot).trans (emit_ok hemit nofun)
    refine .of_codes [.type ty] [.plain (.ptr ty)] hs hu (hall.trans (emit_ok hemit' nofun)) nofun (pushValue_ok h) ?_
      ?_ rfl nofun
    · exact .plain (show Op.arity? (.new slot) = some (0, 1) from rfl)
        (.one (show Op.arity? .box = some (1, 1) from rfl))
    · intro op hop
      simp only [nil_append, cons_append, mem_cons, not_mem_nil, or_false] at hop
      rcases hop with rfl | rfl <;> trivial
  · cases h'

theorem coerceKey_ok {key : Taken} (h : coerceKey ty key p s = .ok () t) :
    ∃ ops, Codes key.known.toList s t ops ∧ Converts 1 ops := by
  unfold coerceKey at h
  split at h
  · obtain ⟨ops, hc, hconv, -⟩ := coerce_ok h
    exact ⟨ops, hc, hconv⟩
  · split at h
    · cases h
      exact ⟨[], Codes.refl.weaken nofun, .nil⟩
    · cases h

theorem delete_move (h : delete argc p s = .ok () t) : Move argc 0 s t := by
  obtain ⟨rfl, h'⟩ := checkArity_seq h
  obtain ⟨args, u, ⟨hs, -, hu⟩, h⟩ := seq_by popValues_ok h'
  have h' := ran h
  split at h'
  · rename_i m key
    obtain ⟨ty, h⟩ := complete_seq h'
    obtain ⟨_, w, ⟨ops, hc, hconv⟩, h⟩ := seq_by coerceKey_ok h
    refine .apply [key.operand, m.operand] [] h rfl hs hu hc (fun k hk => ?_) rfl hconv nofun
      (.one (show Op.arity? .delete = some (2, 0) from rfl)) trivial rfl
    exact mem_knowns (.head _) (Option.mem_toList.mp hk)
  · cases h'

/-- How many values a built-in function leaves. -/
def builtinResults : Builtin → Nat
  | .delete | .panic => 0
  | _ => 1

/-- A builtin leaves the results it is listed with. -/
theorem callBuiltin_move (h : callBuiltin b argc spread p s = .ok () t) : Move argc (builtinResults b) s t := by
  unfold callBuiltin at h
  split at h
  · cases h
  cases b with
  | len | cap => exact extent_move h
  | append => exact append_move h
  | make => exact make_move h
  | new => exact new_move h
  | delete => exact delete_move h
  | panic =>
    obtain ⟨rfl, h'⟩ := checkArity_seq h
    obtain ⟨v, u, ⟨hs, hu⟩, h⟩ := seq_by popValue_ok h'
    exact .act [v.operand] [] h rfl hs hu nofun (.one (show Op.arity? .panic = some (1, 0) from rfl)) trivial rfl

/-- **A call** is a call of a function by name, or a move. -/
theorem call_ok (h : call argc spread p s = .ok () t) :
    ∃ m, Calls argc spread p m s t ∨ Move (argc + 1) m s t ∧ ∀ key sig, s.stack.items.head? ≠ some (.func key sig) := by
  obtain ⟨o, u, ⟨hs, hu⟩, h⟩ := seq_by popOperand_ok h
  have hhead : s.stack.items.head? = some o := by rw [hs, head?_cons]
  split at h
  · exact ⟨_, .inl (callNamed_ok hs hu h)⟩
  · exact ⟨_, .inr ⟨callValue_move hs hu h, fun _ _ he => nomatch hhead.symm.trans he⟩⟩
  · exact ⟨_, .inr ⟨.beneath rfl hs hu (conversion_move h), fun _ _ he => nomatch hhead.symm.trans he⟩⟩
  · exact ⟨_, .inr ⟨.beneath rfl hs hu (callBuiltin_move h), fun _ _ he => nomatch hhead.symm.trans he⟩⟩
  · cases h

end Compile

end Goblet
