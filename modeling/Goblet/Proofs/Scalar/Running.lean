import Goblet.Proofs.Machine.Moves
import Goblet.Proofs.Scalar.Code

/-!
# Running expressions

The code of an expression leaves its value on the stack, or fails where the expression traps (`Expr.runs`).
-/

namespace Goblet

open Machine Piece

open Machine (Goes Fails)

/-- A machine at a spot comes to an index with a value above this stack, or fails with a trap. Of operands that do not
fit their operator nothing is said. -/
def RunsTo (p : Program) (a : Spot) (j : Nat) (st : List Value) : Except Trap Scalar → Prop
  | .ok v => Goes p a ⟨j, a.globals, v.value :: st⟩
  | .error trap => ∀ err, trap.error? = some err → Fails p a (.value err) a.globals

namespace RunsTo

variable {p : Program} {i j k : Nat} {g : Array Value} {st st' st'' : List Value} {r : Except Trap Scalar}

theorem after (h : Goes p ⟨i, g, st⟩ ⟨j, g, st'⟩) (hr : RunsTo p ⟨j, g, st'⟩ k st'' r) :
    RunsTo p ⟨i, g, st⟩ k st'' r := by
  cases r with
  | ok v => exact h.trans hr
  | error trap => exact fun err he => h.fails (hr err he)

theorem bind {f : Scalar → Except Trap Scalar} (h : RunsTo p ⟨i, g, st⟩ j st' r)
    (hf : ∀ v, r = .ok v → RunsTo p ⟨j, g, v.value :: st'⟩ k st'' (f v)) : RunsTo p ⟨i, g, st⟩ k st'' (r >>= f) := by
  cases r with
  | error trap => exact h
  | ok v => exact after h (hf v rfl)

theorem illTyped (a : Spot) (j : Nat) (st : List Value) : RunsTo p a j st (.error .illTyped) := nofun

theorem binary {o : BinOp} {v w : Value} (hop : OpAt p.code i (.binary o)) (h : Agree r (v.binary o w)) :
    RunsTo p ⟨i, g, w :: v :: st⟩ (i + 1) st r := by
  cases r with
  | ok x => exact goes_binary hop h
  | error trap =>
    obtain ⟨err, he, hb⟩ := h
    intro err' he'
    obtain rfl := Option.some.inj (he.symm.trans he')
    exact fails_binary hop hb

end RunsTo

theorem Item.Fits.jump {code : Array Instr} {at? : String → Option Nat} {i : Nat} {o : Op} {l : String}
    (h : (Item.jump o l).Fits code [] at? i) :
    ∃ t o', at? l = some t ∧ o.withOffset? ((t : Int) - i) = some o' ∧ OpAt code i o' := by
  obtain ⟨-, -, o', hat, -, ⟨j, hj, -⟩ | ⟨t, ht, ho⟩⟩ := h
  · exact nomatch hj
  · exact ⟨t, o', ht, ho, hat⟩

namespace Expr

open Item (Stand stand_append stand_singleton sizes)

variable {p : Program} {at? : String → Option Nat} {scope : String} {slot : String → Nat} {env : String → Option Scalar}
  {types : String → Option Ty} {g : Array Value}
variable {op : Operator} {x : Scalar} {t : Ty} {i : Nat} {st : List Value}

theorem runs_short {bop : BinOp} {k : Int64} {o : Op}
    (hb : BinOp.ofOperator? op = some bop) (hs : Compile.shortOp? bop k = some o) (hop : OpAt p.code i o) :
    RunsTo p ⟨i, g, x.value :: st⟩ (i + 1) st (Scalar.binary op x (.int k)) := by
  cases x with
  | bool f => exact .illTyped _ _ _
  | int n =>
    have hag : ∀ t, binaryType? op .int .int = some t → Agree (Scalar.binary op (.int n) (.int k)) _ :=
      fun t ht => Scalar.binary_agrees hb ht
    cases op <;> cases hb <;> cases hs
    · exact Machine.goes_immediate hop nofun (fun _ => rfl) (hag _ rfl)
    · exact Machine.goes_immediate hop nofun (fun _ => rfl) (hag _ rfl)
    · exact Machine.goes_immediate hop nofun (fun _ => rfl) (hag _ rfl)

theorem runs_load {c : Piece} {e : Expr} {v : Scalar} (h : Loads e t c v)
    (hs : Stand p.code [] at? i c.items) : RunsTo p ⟨i, g, st⟩ (i + sizes c.items) st (e.eval env) := by
  rw [h.items] at hs ⊢
  rw [h.eval]
  exact goes_push (stand_singleton.mp hs).1

theorem eval_unary (op : Operator) (e : Expr) : (Expr.unary op e).eval env = e.eval env >>= Scalar.unary op := rfl

theorem eval_binary (op : Operator) (a b : Expr) : (Expr.binary op a b).eval env =
    a.eval env >>= fun x => if x.decides op then .ok x else b.eval env >>= Scalar.binary op x := rfl

theorem not_decides (ho : isLogic op = false) (x : Scalar) : x.decides op = false := by
  cases op <;> first | rfl | cases ho

theorem binary_illTyped {y : Scalar} (h : binaryType? op x.ty y.ty = none) :
    Scalar.binary op x y = .error .illTyped := by
  cases x <;> cases y <;> first | rfl | (cases op <;> first | rfl | cases h)

theorem unary_illTyped (h : unaryType? op x.ty = none) : Scalar.unary op x = .error .illTyped := by
  cases op <;> cases x <;> first | rfl | cases h

theorem jumpSet_eq {t : Nat} {o : Op} (ho : isLogic op = true)
    (h : (jumpSet op).withOffset? ((t : Int) - i) = some o) :
    o = if op == .lor then .jumpSetTrue ((t : Int) - i) else .jumpSetFalse ((t : Int) - i) := by
  cases op <;> cases ho <;> cases h <;> rfl

theorem mem_of_binaryType?_bool {u : Ty} (h : binaryType? op t u = some .bool) :
    op ∈ [Operator.eql, .neq, .lss, .leq, .gtr, .geq, .land, .lor] := by
  unfold binaryType? at h
  split at h
  · split at h <;> first | (cases h; done) | simp
  · split at h <;> first | (cases h; done) | simp
  · cases h

theorem mem_of_compiledBinaryType?_bool {u : Ty} (h : compiledBinaryType? op t u = some .bool) :
    op ∈ [Operator.eql, .neq, .lss, .leq, .gtr, .geq, .land, .lor] := by
  cases ho : isLogic op with
  | true => obtain rfl | rfl := eq_land_or_lor ho <;> simp
  | false => exact mem_of_binaryType?_bool (compiledBinaryType?_eq ho t u ▸ h)

/-- Where a boolean is expected, an operator that has a result gives one. -/
theorem binary_bool {y z : Scalar} {u : Ty} (h : compiledBinaryType? op t u = some .bool)
    (hz : Scalar.binary op x y = .ok z) : z.ty = .bool := by
  have hop := mem_of_compiledBinaryType?_bool h
  simp only [List.mem_cons, List.not_mem_nil, or_false] at hop
  rcases hop with rfl | rfl | rfl | rfl | rfl | rfl | rfl | rfl <;> cases x <;> cases y <;> cases hz <;> rfl

theorem bool_of_eval (hb : ∀ x v, env x = some v → types x = some .bool → v.ty = .bool) :
    ∀ {e : Expr} {v : Scalar}, e.compiledType? types = some .bool → e.eval env = .ok v → v.ty = .bool
  | .int n, v, ht, hv => by
    simp only [compiledType?] at ht
    split at ht <;> cases ht
  | .bool f, v, ht, hv => by
    cases hv
    rfl
  | .var x, v, ht, hv => by
    simp only [eval] at hv
    split at hv
    · next w hw =>
      cases hv
      exact hb x _ hw ht
    · cases hv
  | .unary op e, v, ht, hv => by
    obtain ⟨u, -, hu⟩ := compiledType?_unary ht
    obtain ⟨x, -, hx⟩ := bind_ok.mp hv
    cases op <;> cases u <;> cases hu
    cases x <;> cases hx
    rfl
  | .binary op a b, v, ht, hv => by
    obtain ⟨u, w, hta, -, hu⟩ := compiledType?_binary ht
    obtain ⟨x, hx, hv⟩ := bind_ok.mp hv
    split at hv
    · next hd =>
      cases hv
      have ho : isLogic op = true := by
        cases ho : isLogic op with
        | true => rfl
        | false =>
          rw [not_decides ho] at hd
          cases hd
      rw [compiledBinaryType?_logic ho] at hu
      split at hu
      · next hbool => exact bool_of_eval hb (hbool ▸ hta) hx
      · cases hu
    · obtain ⟨y, -, hy⟩ := bind_ok.mp hv
      exact binary_bool hu hy

/-- **The code of an expression leaves its value on the stack**, or fails where the expression traps. -/
theorem runs (hg : ∀ x v, env x = some v → g[slot x]? = some v.value)
    (hb : ∀ x v, env x = some v → types x = some .bool → v.ty = .bool) :
    ∀ {e : Expr} {n : Nat} {l : Bool} {c : Piece} {t : Ty} {i : Nat} {st : List Value},
    e.code scope slot n l = .ok c → e.compiledType? types = some t → Stand p.code [] at? i c.items →
    RunsTo p ⟨i, g, st⟩ (i + sizes c.items) st (e.eval env)
  | .int _, _, _, _, _, i, st, hc, ht, hs | .bool _, _, _, _, _, i, st, hc, ht, hs =>
    runs_load (loads_of_known hc ht (by cases hc; rfl)) hs
  | .var x, _, _, c, t, i, st, hc, ht, hs => by
    cases hc
    simp only [eval]
    split
    · next v hv => exact goes_get (stand_singleton.mp hs).1 (hg x v hv)
    · exact .illTyped _ _ _
  | .unary op e, n, l, c, t, i, st, hc, ht, hs => by
    obtain ⟨u, hte, hu⟩ := compiledType?_unary ht
    obtain ⟨d, hd, hcd⟩ := code_unary_ok hc
    rw [eval_unary]
    obtain ⟨rfl, he⟩ | ⟨ho, v, hv, hl, he⟩ | ⟨ho, hl, he⟩ := unary_cases l op d <;> rw [he] at hcd
    · cases hcd
      have hrun : RunsTo p ⟨i, g, st⟩ (i + sizes c.items) st (e.eval env) := runs hg hb hd hte hs
      cases hv : e.eval env with
      | error trap =>
        rw [hv] at hrun
        exact hrun
      | ok v =>
        rw [hv] at hrun
        cases v with
        | int n => exact hrun
        | bool f => exact .illTyped _ _ _
    · obtain ⟨w, -, rfl⟩ := map_load_ok hcd
      exact runs_load (loads_of_known hc ht rfl) hs
    · cases hcd
      obtain ⟨hs1, hs2⟩ := stand_append.mp hs
      rw [Item.sizes_append]
      refine (runs hg hb hd hte hs1).bind fun v hv => ?_
      cases hvt : unaryType? op v.ty with
      | none =>
        rw [unary_illTyped hvt]
        exact .illTyped _ _ _
      | some t' =>
        obtain ⟨w, hw, -⟩ := Scalar.unary_of_type hvt
        have hag := Scalar.unary_agrees hvt (u := unOp op)
          (by cases op <;> first | (cases u <;> cases hu; done) | exact absurd rfl ho | simp [unOp])
        rw [hw] at hag ⊢
        exact goes_unary (stand_singleton.mp hs2).1 hag
  | .binary op a b, n, l, c, t, i, st, hc, ht, hs => by
    obtain ⟨u, v, hta, htb, hu⟩ := compiledType?_binary ht
    obtain ⟨d, f, hd, hf, hcd⟩ := code_binary_ok hc
    by_cases ho : isLogic op = true
    · rw [if_pos ho] at hcd
      subst hcd
      obtain rfl : u = .bool := by
        rw [compiledBinaryType?_logic ho] at hu
        split at hu
        · assumption
        · cases hu
      obtain ⟨hs3, hlabel⟩ := stand_append.mp hs
      obtain ⟨hs2, hsf⟩ := stand_append.mp hs3
      obtain ⟨hsd, hjump⟩ := stand_append.mp hs2
      obtain ⟨j, o, hj, hoff, hop⟩ := (stand_singleton.mp hjump).jump
      have hend : at? (freshIn scope "x" (n + a.logics)) =
        some (i + sizes (d.logic op (freshIn scope "x" (n + a.logics)) f).items) :=
        (stand_singleton.mp hlabel).trans (by simp [logic])
      obtain rfl : j = _ := Option.some.inj (hj.symm.trans hend)
      refine (runs hg hb hd hta hsd).bind fun x hx => ?_
      obtain ⟨y, rfl⟩ : ∃ y, x = .bool y := by
        have := bool_of_eval hb hta hx
        cases x with
        | int n => cases this
        | bool y => exact ⟨y, rfl⟩
      rw [jumpSet_eq ho hoff] at hop
      by_cases hy : y = (op == .lor)
      · -- the left operand settles it
        have hdec : Scalar.decides op (.bool y) = true := by
          obtain rfl | rfl := eq_land_or_lor ho <;> subst hy <;> rfl
        rw [if_pos hdec]
        subst hy
        exact goes_jumpSet hop
      · obtain rfl : y = !(op == .lor) := by
          cases y <;> cases h : (op == .lor) <;> first | rfl | exact absurd h.symm hy
        have hdec : Scalar.decides op (.bool !(op == .lor)) = false := by
          obtain rfl | rfl := eq_land_or_lor ho <;> rfl
        rw [hdec]
        rw [show i + sizes (d.logic op (freshIn scope "x" (n + a.logics)) f).items =
          i + sizes (d.items ++ [.jump (jumpSet op) (freshIn scope "x" (n + a.logics))]) + sizes f.items by
            simp [logic, Nat.add_assoc]]
        refine .after (goes_jumpSet_past hop) ?_
        have hright : RunsTo p ⟨_, g, st⟩ _ st (b.eval env) := runs hg hb hf htb hsf
        have hright : RunsTo p ⟨i + sizes d.items + 1, g, st⟩
            (i + sizes (d.items ++ [.jump (jumpSet op) (freshIn scope "x" (n + a.logics))]) + sizes f.items) st
            (b.eval env) := by simpa [Nat.add_assoc] using hright
        -- the right operand is the value, if it is a boolean
        cases hq : b.eval env with
        | error trap =>
          rw [hq] at hright
          exact hright
        | ok q =>
          rw [hq] at hright
          cases q with
          | int n => exact .illTyped _ _ _
          | bool q =>
            obtain rfl | rfl := eq_land_or_lor ho <;> cases q <;> exact hright
    · rw [if_neg ho] at hcd
      rw [Bool.not_eq_true] at ho
      unfold Piece.binary at hcd
      split at hcd
      · obtain ⟨w, -, rfl⟩ := map_load_ok hcd
        exact runs_load (loads_of_known hc ht rfl) hs
      · cases hcd
        obtain ⟨bop, hbop⟩ : ∃ bop, BinOp.ofOperator? op = some bop := by
          cases op <;> first | exact ⟨_, rfl⟩ | (cases u <;> cases v <;> cases hu; done) | cases ho
        rw [eval_binary]
        simp only [not_decides ho, Bool.false_eq_true, ↓reduceIte]
        rw [hbop] at hs ⊢
        unfold operation at hs ⊢
        split at hs
        · -- one instruction takes the constant on the right
          next o hshort =>
          obtain ⟨k, hk, hso⟩ := short?_eq_some hshort
          obtain ⟨hsd, hop⟩ := stand_append.mp hs
          simp only [Item.sizes_append, ← Nat.add_assoc]
          refine (runs hg hb hd hta hsd).bind fun x hx => ?_
          rw [(loads_of_known hf htb hk).eval]
          exact runs_short hbop hso (stand_singleton.mp hop).1
        · obtain ⟨hs2, hop⟩ := stand_append.mp hs
          obtain ⟨hsd, hsf⟩ := stand_append.mp hs2
          simp only [Item.sizes_append, ← Nat.add_assoc] at hop ⊢
          refine (runs hg hb hd hta hsd).bind fun x hx => (runs hg hb hf htb hsf).bind fun y hy => ?_
          cases hxy : binaryType? op x.ty y.ty with
          | none =>
            rw [binary_illTyped hxy]
            exact .illTyped _ _ _
          | some t' => exact .binary (stand_singleton.mp hop).1 (Scalar.binary_agrees hbop hxy)

end Expr

end Goblet
