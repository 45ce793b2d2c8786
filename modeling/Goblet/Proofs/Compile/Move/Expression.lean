import Goblet.Proofs.Compile.Move.Name

/-!
# Moves of expressions

Every operation takes its operands and leaves its result (`binary_move`, `unary_move`, `index_move`, ...). An operation
on constants that were loaded just before loads its result in their place, and an operation with such a constant on the
right may take the place of its load.
-/

namespace Goblet

open List

/-- How many operands a literal takes. -/
def Keys.width (len : Nat) : Keys → Nat
  | .pairs => 2 * len
  | _ => len

namespace Compile

variable {s t u w v : CompileState} {p : Pos} {ty : Ty} {op : Op} {n : Nat} {k : Known} {name : String}
  {vs : List Taken} {path : List String} {len : Nat} {keys : Keys} {r : Registry} {ops : List Op} {operator : Operator}

/-! ## One instruction -/

/-- Operands give way to results. -/
theorem Move.apply (os rs : List Operand) {ks : List Known} {x : CompileState}
    (h : emit op p w = .ok () x) (ht : t = { x with stack := ⟨rs ++ x.stack.items⟩ })
    (hs : s.stack.items = os ++ u.stack.items) (hu : u = { s with stack := u.stack }) (hc : Codes ks u w ops)
    (hk : ∀ k ∈ ks, k ∈ knowns os) {cs : List Bool} (hcells : cellsOf os = List.replicate n true ++ cs)
    (hconv : Converts n ops) (hop : ∀ v, op ≠ .push v) (hf : Flow [op] (cellsOf os) (cellsOf rs))
    (hw : op.Within w.setting) (hr : rs.all isQuiet) : Move os.length rs.length s t := by
  refine .of_codes os rs hs hu (hc.trans (emit_ok h hop)) (by simpa using hk) ht (.trans ?_ hf)
    (fun op' hop' => ?_) hr ?_
  · rw [hcells]
    exact hconv.flow.above cs
  · rcases mem_append.mp hop' with hop' | hop'
    · obtain ⟨ty, d, rfl, -⟩ := hconv op' hop'
      trivial
    · rw [mem_singleton.mp hop', emit_setting h]
      exact hw
  · exact fun _ => append_ne_nil_of_right_ne_nil _ (cons_ne_nil _ _)

theorem Move.act (os rs : List Operand) (h : emit op p u = .ok () w)
    (ht : t = { w with stack := ⟨rs ++ w.stack.items⟩ }) (hs : s.stack.items = os ++ u.stack.items)
    (hu : u = { s with stack := u.stack }) (hop : ∀ v, op ≠ .push v) (hf : Flow [op] (cellsOf os) (cellsOf rs))
    (hw : op.Within u.setting) (hr : rs.all isQuiet) : Move os.length rs.length s t :=
  .apply os rs h ht hs hu .refl nofun (nil_append _).symm (Converts.nil (n := 0)) hop hf hw hr

theorem cellsOf_values (vs : List Taken) : cellsOf (vs.map Taken.operand) = List.replicate vs.length true := by
  induction vs with
  | nil => rfl
  | cons v vs ih =>
    rw [map_cons, cellsOf_cons, ih]
    rfl

theorem cellsOf_values_reverse (vs : List Taken) :
    cellsOf (vs.map Taken.operand).reverse = List.replicate vs.length true := by
  rw [← map_reverse, cellsOf_values, length_reverse]

theorem popTwo_ok {r l : Taken} (hr : popValue p s = .ok r u) (hl : popValue p u = .ok l v) :
    s.stack.items = [r.operand, l.operand] ++ v.stack.items ∧ v = { s with stack := v.stack } := by
  obtain ⟨hs, hu⟩ := popValue_ok hr
  obtain ⟨hs', hv⟩ := popValue_ok hl
  refine ⟨by rw [hs, hs']; rfl, ?_⟩
  rw [hv, hu]

theorem mem_knowns {o : Operand} {os : List Operand} (ho : o ∈ os) (hk : o.known? = some k) : k ∈ knowns os :=
  mem_filterMap.mpr ⟨o, ho, hk⟩

theorem Taken.known?_operand (v : Taken) : v.operand.known? = v.known := rfl

/-! ## Operations -/

theorem isTrailing_ok {b : Bool} (h : isTrailing k s = .ok b t) :
    s = t ∧ (b = true → k.loadedAt + 1 = s.ops.length ∧ s.lastLabel ≠ some k.loadedAt) := by
  cases h
  refine ⟨rfl, fun hb => ?_⟩
  rw [length_ops]
  exact of_decide_eq_true hb

theorem trailingPair?_ok {l r : Option Known} {o : Option (Known × Known)} (h : trailingPair? l r s = .ok o t) :
    s = t ∧ ∀ a b, o = some (a, b) → l = some a ∧ r = some b ∧ a.loadedAt + 1 = b.loadedAt ∧
      b.loadedAt + 1 = s.ops.length ∧ s.lastLabel ≠ some b.loadedAt := by
  unfold trailingPair? at h
  split at h
  · rename_i a b
    obtain ⟨c, u, ⟨rfl, htrail⟩, h⟩ := seq_by isTrailing_ok h
    split at h
    · rename_i hcond
      cases h
      refine ⟨rfl, fun a' b' he => ?_⟩
      cases he
      simp only [Bool.and_eq_true, decide_eq_true_eq] at hcond
      exact ⟨rfl, rfl, hcond.2, htrail hcond.1⟩
    · cases h
      exact ⟨rfl, nofun⟩
  · cases h
    exact ⟨rfl, nofun⟩

theorem trailingShort?_ok {op : BinOp} {l r : Taken} {o : Option (Nat × Op)} (h : trailingShort? op l r s = .ok o t) :
    s = t ∧ ∀ i short, o = some (i, short) → ∃ k, r = ⟨.int, some ⟨.int k, i⟩⟩ ∧ l.ty = .int ∧ i + 1 = s.ops.length ∧
      s.lastLabel ≠ some i ∧ shortOp? op k = some short := by
  unfold trailingShort? at h
  replace h := ran h
  split at h
  · rename_i k i hk
    obtain ⟨c, u, ⟨rfl, htrail⟩, h⟩ := seq_by isTrailing_ok h
    split at h
    · rename_i hcond
      cases h
      refine ⟨rfl, fun i' short he => ?_⟩
      obtain ⟨short', hs, he⟩ := Option.map_eq_some_iff.mp he
      cases he
      obtain ⟨hl, hr, hb⟩ := hcond
      obtain ⟨rty, rknown⟩ := r
      subst hk hr
      exact ⟨k, rfl, hl, (htrail hb).1, (htrail hb).2, hs⟩
    · cases h
      exact ⟨rfl, nofun⟩
  · cases h
    exact ⟨rfl, nofun⟩

theorem shortOp?_some {op : BinOp} {k : Int64} {short : Op} (h : shortOp? op k = some short) :
    short = .addi k ∨ short = .subi k ∨ short = .loweri k := by
  unfold shortOp? at h
  split at h <;> cases h
  · exact .inl rfl
  · exact .inr (.inl rfl)
  · exact .inr (.inr rfl)

theorem ops_replace_last {i : Nat} (hi : i + 1 = ops.length) : ops.set i op = ops.take i ++ [op] := by
  refine ext_getElem? fun j => ?_
  rcases Nat.lt_trichotomy j i with hj | rfl | hj
  · rw [getElem?_set_ne (by omega), getElem?_append_left (by rw [length_take]; omega),
      getElem?_take_of_lt hj]
  · rw [getElem?_set_self (by omega), getElem?_append_right (by rw [length_take]; omega),
      length_take, Nat.min_eq_left (by omega), Nat.sub_self]
    rfl
  · rw [getElem?_eq_none (by rw [length_set]; omega),
      getElem?_eq_none (by rw [length_append, length_take, length_singleton]; omega)]

/-- A folded constant stands for two. -/
theorem fold_move (os : List Operand) {i : Nat} {v : Value}
    (h : (do cutCode i; constant v ty p) u = .ok () t) (hs : s.stack.items = os ++ u.stack.items)
    (hu : Names s.setting u.setting) (hops : u.ops = s.ops) (htrail : Trailing i os s)
    (hv : ∀ t' : CompileState, t'.store = u.store → Origin s t' os v) : Move os.length 1 s t := by
  obtain ⟨_, w, ⟨hwstack, hwset, hwops⟩, h⟩ := seq_by cutCode_ok h
  obtain ⟨op, hstack, hnames, hcode, hstore, hloads⟩ := constant_ok h
  have hsize : w.ops.length = i := by
    rw [hwops, hops, length_take]
    have := htrail.size
    omega
  rw [hwstack, hsize] at hstack
  refine .folds hs htrail hstack ?_ ?_ hloads (hv t ?_)
  · rw [hwset] at hnames
    exact hu.trans hnames
  · rw [hcode, hwops, hops]
  · rw [hstore]
    exact congrArg Setting.store hwset

/-- A binary operator takes two and leaves one. -/
theorem binary_move (h : binary operator p s = .ok () t) : Move 2 1 s t := by
  unfold binary at h
  replace h := ran h
  split at h
  · cases h
  rename_i op _
  obtain ⟨r, u, hr, h⟩ := seq_ok.mp h
  obtain ⟨l, v, ⟨hs, hv⟩, h⟩ := seq_by (popTwo_ok hr) h
  have hops : v.ops = s.ops := by rw [hv]; rfl
  have hset : v.setting = s.setting := by rw [hv]; rfl
  split at h
  · cases h
  rename_i result _
  obtain ⟨pair, w, ⟨rfl, hpair⟩, h⟩ := seq_by trailingPair?_ok h
  split at h
  · rename_i a b
    obtain ⟨ha, hb, hnext, hsize, hlabel⟩ := hpair a b rfl
    split at h
    · cases h
    rename_i w hw
    refine fold_move [r.operand, l.operand] h hs (hset ▸ .refl) hops ⟨?_, ?_, ?_⟩ fun _ _ => .binary ?_ ?_ hw
    · simp [Taken.known?_operand, ha, hb, ← hnext, range'_succ]
    · rw [← hops]
      simp only [length_cons, length_nil]
      omega
    · have hlast : s.ops.length - 1 = b.loadedAt := by
        rw [← hops]
        omega
      rw [hlast]
      exact fun h => hlabel ((congrArg Setting.lastLabel hset).trans h)
    · exact mem_knowns (o := l.operand) (by simp) ha
    · exact mem_knowns (o := r.operand) (by simp) hb
  · obtain ⟨_, w, ⟨o, w', ho, hshape⟩, hpush⟩ := seq_by seq_ok.mp h
    obtain ⟨rfl, hshort⟩ := trailingShort?_ok ho
    have hput := ran hshape
    split at hput
    · rename_i i short
      obtain ⟨k, rfl, hlty, hsize, hlabel, hop⟩ := hshort i short rfl
      obtain ⟨hwstack, hwset, hwops⟩ := replaceOp_ok hput
      rw [hops] at hsize
      have hstack : t.stack.items = .plain result :: v.stack.items := by rw [pushValue_ok hpush, hwstack]
      have hitems : s.stack.items = .value .int (some ⟨.int k, i⟩) :: .value .int l.known :: v.stack.items := by
        rw [hs, ← hlty]
        rfl
      refine .shortens hitems hsize (fun h => hlabel ((congrArg Setting.lastLabel hset).trans h))
        hstack ?_ ?_ (shortOp?_some hop)
      · rw [pushValue_ok hpush, ← hset, ← hwset]
        rfl
      · rw [pushValue_ok hpush, ← hops, ← ops_replace_last (by rw [hops]; exact hsize), ← hwops]
        rfl
    · exact .act [r.operand, l.operand] [.plain _] hput (pushValue_ok hpush) hs hv nofun
        (.one (show Op.arity? (.binary op) = some (2, 1) from rfl)) trivial rfl

/-- The address of what the last instruction loads, or of a new cell with the value it leaves. -/
theorem addressOf_move (h : addressOf p s = .ok () t) : Move 1 1 s t := by
  obtain ⟨v, u, ⟨hs, hu⟩, h⟩ := seq_by popValue_ok h
  obtain ⟨_, w, hcode, h⟩ := seq_ok.mp h
  have hops : u.ops = s.ops := by rw [hu]; rfl
  have hset : u.setting = s.setting := by rw [hu]; rfl
  obtain ⟨u', w', hg, hcode⟩ := seq_ok.mp hcode
  cases hg
  have hput := ran hcode
  split at hput
  · cases hput
  · rename_i slot pos hslot hback hnone
    dsimp only at hput
    split at hput
    · cases hput
    rename_i hlabel
    obtain ⟨hwstack, hwset, hwops⟩ := replaceOp_ok hput
    have hback' : s.ops.getLast? = some (.get slot) := by
      rw [← hops, CompileState.ops, getLast?_map, Array.getLast?_toList, hback]
      rfl
    obtain ⟨ops, hlast⟩ := getLast?_eq_some_iff.mp hback'
    have hslot : ∃ i, slot = .global i := by
      cases slot with
      | global i => exact ⟨i, rfl⟩
      | «local» k => exact absurd rfl (hslot k)
    obtain ⟨i, rfl⟩ := hslot
    have hsize : u.program.code.size = ops.length + 1 := by
      rw [← length_ops, hops, hlast, length_append, length_singleton]
    have hitems : s.stack.items = .plain v.ty :: u.stack.items := by
      rw [hs, Taken.operand, hnone]
      rfl
    refine .addresses hitems hlast ?_ ?_ ?_ ?_
    · rw [← hops, length_ops]
      exact fun h => hlabel ((congrArg Setting.lastLabel hset).trans h)
    · rw [pushValue_ok h, hwstack]
    · rw [pushValue_ok h, ← hset, ← hwset]
      rfl
    · have hcode : w.ops = ops ++ [.addr (.global i)] := by
        rw [hwops, hops, hsize, Nat.add_sub_cancel, ops_replace_last (by rw [hlast]; simp), hlast, take_left]
      rw [pushValue_ok h]
      exact hcode
  · exact .act [v.operand] [.plain _] hput (pushValue_ok h) hs hu (fun _ => Op.noConfusion)
      (.one (show Op.arity? .box = some (1, 1) from rfl)) trivial rfl
  · cases hput

theorem Move.turn {v : Operand} (h : emit op p u = .ok () w)
    (ht : t = { w with stack := ⟨.plain ty :: w.stack.items⟩ }) (hs : s.stack.items = v :: u.stack.items)
    (hu : u = { s with stack := u.stack }) (hv : v.cells = [true]) (hop : ∀ v, op ≠ .push v)
    (ha : op.arity? = some (1, 1)) (hw : op.Within u.setting) : Move 1 1 s t := by
  refine .act [v] [.plain ty] h ht hs hu hop ?_ hw rfl
  rw [cellsOf_cons, hv]
  exact .one ha

theorem indirect_move (h : indirect p s = .ok () t) : Move 1 1 s t := by
  obtain ⟨o, u, ⟨hs, hu⟩, h⟩ := seq_by popOperand_ok h
  split at h
  · exact .of_codes [.type _] [.type _] hs hu .refl nofun (pushOperand_ok h) .done nofun rfl
      fun h => absurd rfl h
  · obtain ⟨c, h⟩ := complete_seq h
    obtain ⟨e, w, rfl, h⟩ := seq_by pointee_keeps.same h
    obtain ⟨_, w, hemit, h⟩ := seq_ok.mp h
    obtain ⟨e', h⟩ := complete_seq h
    exact .turn hemit (pushValue_ok h) hs hu rfl nofun rfl trivial
  · cases h

theorem trailing?_ok {known o : Option Known} (h : trailing? known s = .ok o t) :
    s = t ∧ ∀ k, o = some k → known = some k ∧ k.loadedAt + 1 = s.ops.length ∧ s.lastLabel ≠ some k.loadedAt := by
  unfold trailing? at h
  split at h
  · rename_i k
    obtain ⟨b, u, ⟨rfl, htrail⟩, h⟩ := seq_by isTrailing_ok h
    split at h
    · rename_i hcond
      cases h
      refine ⟨rfl, fun k' he => ?_⟩
      cases he
      exact ⟨rfl, htrail hcond⟩
    · cases h
      exact ⟨rfl, nofun⟩
  · cases h
    exact ⟨rfl, nofun⟩

theorem Trailing.one {v : Taken} (hv : v.known = some k) (hu : u = { s with stack := u.stack })
    (hsize : k.loadedAt + 1 = u.ops.length) (hlabel : u.lastLabel ≠ some k.loadedAt) :
    Trailing k.loadedAt [v.operand] s := by
  have hops : u.ops = s.ops := by rw [hu]; rfl
  have hlast : u.lastLabel = s.lastLabel := by rw [hu]
  refine ⟨by simp [Taken.known?_operand, hv], ?_, ?_⟩
  · rw [← hops, ← hsize]
    rfl
  · rw [← hops, ← hsize, Nat.add_sub_cancel, ← hlast]
    exact hlabel

/-- A unary operator takes one and leaves one. -/
theorem unary_move (h : unary operator p s = .ok () t) : Move 1 1 s t := by
  unfold unary at h
  split at h
  · exact addressOf_move h
  · exact indirect_move h
  obtain ⟨v, u, ⟨hs, hu⟩, h⟩ := seq_by popValue_ok h
  obtain ⟨o, w, rfl, h⟩ := seq_by unaryOp_keeps.same h
  split at h
  · have : t = s := by
      rw [pushOperand_ok h]
      change { u with stack := ⟨v.operand :: u.stack.items⟩ } = s
      rw [← hs, hu]
    rw [this]
    exact .keeps hs
  · rename_i op _
    obtain ⟨o, w, ⟨rfl, hk⟩, h⟩ := seq_by trailing?_ok h
    have hput := ran h
    split at hput
    · rename_i k
      obtain ⟨hknown, hsize, hlabel⟩ := hk k rfl
      have hfold := ran hput
      split at hfold
      · cases hfold
      · rename_i w hw
        refine fold_move [v.operand] hfold hs ?_ (by rw [hu]; rfl) (.one hknown hu hsize hlabel)
          fun _ _ => .unary (mem_knowns (o := v.operand) (by simp) hknown) hw
        rw [hu]
        exact .refl
    · obtain ⟨_, w, hemit, h⟩ := seq_ok.mp hput
      exact .turn hemit (pushValue_ok h) hs hu rfl nofun rfl trivial

/-! ## Elements, slices and fields -/

/-- An index takes its container along. -/
theorem index_move (h : index p s = .ok () t) : Move 2 1 s t := by
  obtain ⟨i, u, hi, h⟩ := seq_ok.mp h
  obtain ⟨c, v, ⟨hs, hv⟩, h⟩ := seq_by (popTwo_ok hi) h
  obtain ⟨cty, h⟩ := complete_seq h
  have elem {ty : Ty} {w : CompileState} (hemit : emit .index p v = .ok () w) (h : pushValue ty w = .ok () t) :
      Move 2 1 s t :=
    .act [i.operand, c.operand] [.plain ty] hemit (pushValue_ok h) hs hv nofun
      (.one (show Op.arity? .index = some (2, 1) from rfl)) trivial rfl
  split at h
  · obtain ⟨_, w, rfl, h⟩ := seq_by checkIndex_keeps.same h
    obtain ⟨_, w, hemit, h⟩ := seq_ok.mp h
    obtain ⟨_, h⟩ := complete_seq h
    exact elem hemit h
  · obtain ⟨_, w, rfl, h⟩ := seq_by checkIndex_keeps.same h
    obtain ⟨_, w, hemit, h⟩ := seq_ok.mp h
    exact elem hemit h
  · obtain ⟨_, w, ⟨ops, hcodes, hconv, -⟩, h⟩ := seq_by coerce_ok h
    obtain ⟨slot, w, hslot, h⟩ := seq_ok.mp h
    obtain ⟨_, w', hemit, h⟩ := seq_ok.mp h
    obtain ⟨_, h⟩ := complete_seq h
    have hall := hcodes.trans (typeSlot_ok hslot)
    rw [append_nil, append_nil] at hall
    refine .apply [i.operand, c.operand] [.plain _] hemit (pushValue_ok h) hs hv hall (fun k hk => ?_) rfl
      hconv nofun (.one (show Op.arity? (.mapIndex slot) = some (2, 1) from rfl)) trivial rfl
    exact mem_knowns (.head _) (Option.mem_toList.mp hk)
  · split at h
    · obtain ⟨_, w, hemit, h⟩ := seq_ok.mp h
      exact elem hemit h
    · cases h

theorem popBounds_ok (h : popBounds p n s = .ok () t) :
    ∃ vs : List Taken, vs.length = n ∧ s.stack.items = vs.map Taken.operand ++ t.stack.items ∧
      t = { s with stack := t.stack } := by
  induction n generalizing s with
  | zero =>
    cases h
    exact ⟨[], rfl, rfl, rfl⟩
  | succ n ih =>
    obtain ⟨v, u, ⟨hs, hu⟩, h⟩ := seq_by popValue_ok h
    obtain ⟨_, w, rfl, h⟩ := seq_by checkIndex_keeps.same h
    obtain ⟨vs, hn, hs', ht⟩ := ih h
    refine ⟨v :: vs, by rw [length_cons, hn], by rw [hs, hs']; rfl, ?_⟩
    rw [ht, hu]

theorem slice_move {low high : Bool} (h : slice low high p s = .ok () t) : Move (1 + low.toNat + high.toNat) 1 s t := by
  obtain ⟨_, u, ⟨vs, hn, hs, hu⟩, h⟩ := seq_by popBounds_ok h
  obtain ⟨v, w, ⟨hs', hw⟩, h⟩ := seq_by popValue_ok h
  split at h
  · obtain ⟨_, x, hemit, h⟩ := seq_ok.mp h
    have hvs : vs.map Taken.operand ++ [v.operand] = (vs ++ [v]).map Taken.operand := by
      rw [map_append, map_singleton]
    have hlen : (vs ++ [v]).length = 1 + low.toNat + high.toNat := by
      rw [length_append, length_singleton]
      omega
    have hitems : s.stack.items = (vs ++ [v]).map Taken.operand ++ w.stack.items := by
      rw [hs, hs', ← hvs, append_assoc]
      rfl
    have hflow : Flow [.slice low high] (cellsOf ((vs ++ [v]).map Taken.operand)) [true] := by
      rw [cellsOf_values, hlen]
      exact .one (show Op.arity? (.slice low high) = some (1 + low.toNat + high.toNat, 1) from rfl)
    have hmove := Move.act _ [.plain v.ty] hemit (pushValue_ok h) hitems (by rw [hw, hu]) nofun hflow trivial rfl
    rwa [length_map, hlen] at hmove
  · cases h

theorem addMember_ok {path : String} (hn : IsWord name) (h : addMember r path name p s = .ok () t) :
    Codes [] s t [] := by
  replace h := lookup_seq h
  split at h
  · rename_i hnone
    split at h
    · cases h
      exact .of_names rfl (.single (.member hn (Option.isNone_iff_eq_none.mp hnone) rfl rfl)) rfl
    · cases h
  · cases h
    exact .refl

theorem field_move (hn : IsWord name) (h : field r name p s = .ok () t) : Move 1 1 s t := by
  obtain ⟨o, u, ⟨hs, hu⟩, h⟩ := seq_by popOperand_ok h
  split at h
  · obtain ⟨_, w, hadd, h⟩ := seq_ok.mp h
    replace h := lookup_seq h
    obtain ⟨slot, x, ⟨hc, hreach⟩, h⟩ := seq_by materialize_ok h
    obtain ⟨_, y, hemit, h⟩ := seq_ok.mp h
    exact .apply [.package _] [.plain _] hemit (pushValue_ok h) hs hu ((addMember_ok hn hadd).trans hc) nofun
      (n := 0) rfl
      .nil nofun (.one (show Op.arity? (.get (.global slot)) = some (0, 1) from rfl)) hreach rfl
  · obtain ⟨_, h⟩ := complete_seq h
    split at h
    · obtain ⟨_, w, hemit, h⟩ := seq_ok.mp h
      obtain ⟨_, h⟩ := complete_seq h
      exact .turn hemit (pushValue_ok h) hs hu rfl nofun rfl trivial
    · cases h
  · cases h

/-! ## Composite literals -/

theorem popValues_cells (h : popValues n p s = .ok vs t) :
    ∃ os, s.stack.items = os ++ t.stack.items ∧ os.length = n ∧ cellsOf os = List.replicate n true ∧
      t = { s with stack := t.stack } := by
  obtain ⟨hs, hn, ht⟩ := popValues_ok h
  refine ⟨_, hs, ?_, ?_, ht⟩
  · rw [length_reverse, length_map, hn]
  · rw [cellsOf_values_reverse, hn]

/-- How many operands a literal takes, and how many cells its instruction. -/
theorem literalLayout_ok {layout : Layout} (h : literalLayout ty len keys p s = .ok layout t) :
    ∃ os n, s.stack.items = os ++ t.stack.items ∧ os.length = n ∧ cellsOf os = List.replicate n true ∧
      t = { s with stack := t.stack } ∧ n = keys.width len ∧
      ∀ slot, Op.arity? (.composite slot len layout) = some (n, 1) := by
  have none {n : Nat} {vs : List Taken} {u : CompileState} {wants : List Ty} {l : Layout}
      (hv : popValues n p s = .ok vs u) (h : (do checkElements p wants vs; return l) u = .ok layout t) :
      layout = l ∧ ∃ os, s.stack.items = os ++ t.stack.items ∧ os.length = n ∧ cellsOf os = List.replicate n true ∧
        t = { s with stack := t.stack } := by
    obtain ⟨_, w, rfl, h⟩ := seq_by checkElements_keeps.same h
    cases h
    exact ⟨rfl, popValues_cells hv⟩
  unfold literalLayout at h
  split at h
  · obtain ⟨vs, u, hv, h⟩ := seq_ok.mp h
    obtain ⟨rfl, os, hs, hn, hc, ht⟩ := none hv h
    exact ⟨os, len, hs, hn, hc, ht, rfl, fun _ => rfl⟩
  · cases h
  · obtain ⟨vs, u, hv, h⟩ := seq_ok.mp h
    obtain ⟨rfl, os, hs, hn, hc, ht⟩ := none hv h
    exact ⟨os, 2 * len, hs, hn, hc, ht, rfl, fun _ => rfl⟩
  · split at h
    · rename_i hlen
      cases h
      subst hlen
      exact ⟨[], 0, rfl, rfl, rfl, rfl, rfl, fun _ => rfl⟩
    · cases h
  · split at h
    · cases h
    · obtain ⟨vs, u, hv, h⟩ := seq_ok.mp h
      obtain ⟨rfl, os, hs, hn, hc, ht⟩ := none hv h
      exact ⟨os, len, hs, hn, hc, ht, rfl, fun _ => rfl⟩
  · obtain ⟨fs, u, rfl, h⟩ := seq_by literalFields_keeps.same h
    obtain ⟨vs, u, hv, h⟩ := seq_ok.mp h
    obtain ⟨rfl, os, hs, hn, hc, ht⟩ := none hv h
    exact ⟨os, len, hs, hn, hc, ht, rfl, fun _ => rfl⟩
  · cases h
  · cases h

/-- A literal takes one operand per element. -/
theorem composite_move {e : TypeExpr} (h : composite e len keys p s = .ok () t) :
    Move (keys.width len) 1 s t := by
  obtain ⟨ty, u, ⟨-, rfl⟩, h⟩ := seq_by resolveType_ok h
  obtain ⟨ty, h⟩ := complete_seq h
  obtain ⟨layout, u, ⟨os, n, hs, hn, hc, hu, hkeys, ha⟩, h⟩ := seq_by literalLayout_ok h
  obtain ⟨slot, w, hslot, h⟩ := seq_ok.mp h
  obtain ⟨_, w', hemit, h⟩ := seq_ok.mp h
  have hflow : Flow [.composite slot len layout] (cellsOf os) [true] := by
    rw [hc]
    exact .one (ha slot)
  have hmove := Move.apply os [.plain ty] hemit (pushValue_ok h) hs hu (typeSlot_ok hslot) nofun (n := 0)
    (nil_append _).symm .nil nofun hflow trivial rfl
  rwa [hn, hkeys] at hmove

/-! ## Stores into parts -/

theorem place_move (hn : IsPart name) (h : place name p s = .ok () t) : Move 0 1 s t := by
  obtain ⟨⟨key, sym⟩, u, ⟨hr, rfl⟩, h⟩ := seq_by resolve_ok h
  dsimp only at h
  split at h
  · cases h
  rename_i hk
  obtain ⟨slot, u, ⟨rfl, ha, hl⟩, h⟩ := seq_by varSlot_ok h
  have hreach : s.setting.Reach slot := reach_of_resolve hn hr (Decidable.not_not.mp hk) ha hl
  obtain ⟨_, h⟩ := complete_seq h
  split at h
  · obtain ⟨_, w, hemit, h⟩ := seq_ok.mp h
    exact .act [] [.place _] hemit (pushOperand_ok h) rfl rfl nofun (.base .done) hreach rfl
  · obtain ⟨_, w, hemit, h⟩ := seq_ok.mp h
    exact .act [] [.place _] hemit (pushOperand_ok h) rfl rfl nofun (.addr .done) hreach rfl
  · cases h

theorem fieldAssign_move (h : fieldAssign path p s = .ok () t) : Move 2 0 s t := by
  obtain ⟨v, u, ⟨hs, hu⟩, h⟩ := seq_by popValue_ok h
  obtain ⟨s', w, hg, h⟩ := seq_ok.mp h
  cases hg
  split at h
  · rename_i ty stack hpop
    obtain ⟨_, w, hset, h⟩ := seq_ok.mp h
    cases hset
    obtain ⟨⟨is, ty'⟩, w, rfl, h⟩ := seq_by fieldPath_keeps.same h
    obtain ⟨_, w, ⟨ops, hc, hconv, -⟩, h⟩ := seq_by coerce_ok h
    have hitems : u.stack.items = .place ty :: stack.items := by
      unfold OperandStack.pop? at hpop
      split at hpop
      · rename_i hi
        cases hpop
        exact hi
      · cases hpop
    refine .apply [v.operand, .place ty] [] h rfl (by rw [hs, hitems]; rfl) (by rw [hu]) hc (fun k hk => ?_) rfl
      hconv nofun (.fieldSet .done) trivial rfl
    exact mem_knowns (.head _) (Option.mem_toList.mp hk)
  · cases h

theorem popThree_ok {a b c : Taken} (ha : popValue p s = .ok a u) (hb : popValue p u = .ok b v)
    (hc : popValue p v = .ok c w) :
    s.stack.items = [a.operand, b.operand, c.operand] ++ w.stack.items ∧ w = { s with stack := w.stack } := by
  obtain ⟨hs, hv⟩ := popTwo_ok ha hb
  obtain ⟨hs', hw⟩ := popValue_ok hc
  refine ⟨by rw [hs, hs']; rfl, ?_⟩
  rw [hw, hv]

/-- A store takes container, index and value. -/
theorem indexAssign_move (h : indexAssign p s = .ok () t) : Move 3 0 s t := by
  obtain ⟨v, u, hv, h⟩ := seq_ok.mp h
  obtain ⟨i, u', hi, h⟩ := seq_ok.mp h
  obtain ⟨c, w, ⟨hs, hw⟩, h⟩ := seq_by (popThree_ok hv hi) h
  obtain ⟨_, h⟩ := complete_seq h
  have store {x : CompileState} {op : Op} {ks : List Known} {ops : List Op} (hemit : emit op p x = .ok () t)
      (hcodes : Codes ks w x ops) (hk : ∀ k ∈ ks, k ∈ i.known.toList ++ v.known.toList) (hconv : Converts 2 ops)
      (hop : op = .indexSet ∨ op = .mapSet) : Move 3 0 s t := by
    refine .apply [v.operand, i.operand, c.operand] [] hemit rfl hs hw hcodes (fun k hm => ?_) rfl hconv ?_ ?_ ?_ rfl
    · rcases mem_append.mp (hk k hm) with hm | hm
      · exact mem_knowns (o := i.operand) (by simp) (Option.mem_toList.mp hm)
      · exact mem_knowns (o := v.operand) (by simp) (Option.mem_toList.mp hm)
    · rcases hop with rfl | rfl <;> nofun
    · rcases hop with rfl | rfl
      · exact .one (show Op.arity? .indexSet = some (3, 0) from rfl)
      · exact .one (show Op.arity? .mapSet = some (3, 0) from rfl)
    · rcases hop with rfl | rfl <;> trivial
  split at h
  · obtain ⟨_, x, rfl, h⟩ := seq_by checkIndex_keeps.same h
    obtain ⟨_, x, ⟨ops, hcodes, hconv, -⟩, h⟩ := seq_by coerce_ok h
    exact store h hcodes (fun k hk => mem_append_right _ hk) (hconv.mono (by decide)) (.inl rfl)
  · obtain ⟨_, x, ⟨ops, hcodes, hconv, -⟩, h⟩ := seq_by coerce_ok h
    obtain ⟨_, x, ⟨ops', hcodes', hconv', -⟩, h⟩ := seq_by coerce_ok h
    exact store h (hcodes.trans hcodes') (fun k hk => hk) (hconv.append (hconv'.mono (by decide))) (.inr rfl)
  · cases h
  · split at h
    · exact store h .refl nofun .nil (.inl rfl)
    · cases h

theorem coerceTarget_ok {v : Taken} (h : coerceTarget v ty p s = .ok () t) :
    ∃ ops, Codes v.known.toList s t ops ∧ Converts 1 ops := by
  unfold coerceTarget at h
  split at h
  · obtain ⟨ops, hcodes, hconv, -⟩ := coerce_ok h
    exact ⟨ops, hcodes, hconv⟩
  · split at h
    · cases h
      exact ⟨[], Codes.refl.weaken nofun, .nil⟩
    · cases h

theorem derefAssign_move (h : derefAssign p s = .ok () t) : Move 2 0 s t := by
  obtain ⟨v, u, hv, h⟩ := seq_ok.mp h
  obtain ⟨q, w, ⟨hs, hw⟩, h⟩ := seq_by (popTwo_ok hv) h
  obtain ⟨_, h⟩ := complete_seq h
  obtain ⟨_, x, ⟨ops, hcodes, hconv⟩, h⟩ := seq_by coerceTarget_ok h
  refine .apply [v.operand, q.operand] [] h rfl hs hw hcodes (fun k hk => ?_) rfl hconv nofun
    (.one (show Op.arity? .derefSet = some (2, 0) from rfl)) trivial rfl
  exact mem_knowns (.head _) (Option.mem_toList.mp hk)

end Compile

end Goblet
