import Goblet.Proofs.Scalar.Compiling

/-!
# Expressions that compile have types

The compiler checks types as it goes, so that an expression whose steps compile has a type for the compiler
(`Expr.typed_of_steps`), and what they compile to is the code of the expression (`Expr.compiled_of_steps`).
-/

namespace Goblet

open List Compile

open SymbolTable (SameNames)

/-! ## Checks on types -/

namespace Compile

variable {op : Operator} {t u : Ty} {k k' : Option Known} {rest : List Operand} {p : Pos} {s s' : CompileState}

theorem unaryType?_of_ok (ho : op ∈ Expr.signs) (ht : t = .int ∨ t = .bool) (hst : s.stack = ⟨.value t k :: rest⟩)
    (h : unary op p s = .ok () s') : ∃ v, Expr.unaryType? op t = some v := by
  have hop : ∃ x s1 s2, unaryOp op t p s1 = .ok x s2 := by
    simp only [Expr.signs, mem_cons, not_mem_nil, or_false] at ho
    rcases ho with rfl | rfl | rfl | rfl
    all_goals
      obtain ⟨v, s1, hv, h⟩ := seq_ok.mp h
      rw [popValue_eq hst] at hv
      cases hv
      obtain ⟨x, s2, hx, -⟩ := seq_ok.mp h
      exact ⟨x, _, s2, hx⟩
  obtain ⟨x, s1, s2, hx⟩ := hop
  simp only [Expr.signs, mem_cons, not_mem_nil, or_false] at ho
  rcases ho with rfl | rfl | rfl | rfl <;> rcases ht with rfl | rfl <;> first | exact ⟨_, rfl⟩ | cases hx

theorem binaryType?_of_ok {bop : BinOp} (hb : BinOp.ofOperator? op = some bop) (ht : t = .int ∨ t = .bool)
    (hu : u = .int ∨ u = .bool) (hst : s.stack = ⟨.value u k :: .value t k' :: rest⟩) (h : binary op p s = .ok () s') :
    ∃ w, Expr.binaryType? op t u = some w := by
  have hres : ∃ v, Ty.binaryResult bop t u = .ok v := by
    unfold binary at h
    rw [hb] at h
    dsimp only at h
    rw [seq_eq (popValue_eq hst p), seq_eq (popValue_eq rfl p)] at h
    cases hv : Ty.binaryResult bop t u with
    | ok v => exact ⟨v, rfl⟩
    | error e =>
      rw [hv] at h
      cases h
  obtain ⟨v, hv⟩ := hres
  rcases ht with rfl | rfl <;> rcases hu with rfl | rfl <;> cases op <;> cases hb <;>
    first | exact ⟨_, rfl⟩ | cases hv

end Compile

namespace Expr

/-- The literals and operators are those that can be written. -/
def Regular : Expr → Prop
  | .int n => n < 2 ^ 63
  | .bool _ | .var _ => True
  | .unary op e => op ∈ signs ∧ e.Regular
  | .binary op a b => (level? op).isSome ∧ a.Regular ∧ b.Regular

variable {e : Expr} {op : Operator} {ss : List Step}

theorem Forms.regular {k : Nat} {ts : List Token} (h : Forms Alphabet.tokens k e ts) : e.Regular := by
  induction h with
  | leaf h =>
    cases h with
    | int n h p => exact h
    | bool | var => trivial
  | paren _ _ ih => exact ih
  | unary ho _ _ ih => exact ⟨ho, ih⟩
  | binary ho _ _ _ iha ihb => exact ⟨ho ▸ rfl, iha, ihb⟩
  | looser _ ih => exact ih

variable {scope : String} {slot : String → Nat} {types : String → Option Ty} {n b : Nat} {t : Ty} {items : List Item}
  {s s' : CompileState} {r : Registry}

theorem acts_unary_ok (hss : ss.map At.val = (Expr.unary op e).acts scope n)
    (h : Compile.steps r ss s = .ok () s') : ∃ xs s1 p, xs.map At.val = e.acts scope n ∧
      Compile.steps r xs s = .ok () s1 ∧ Compile.unary op p s1 = .ok () s' := by
  obtain ⟨xs, ys, rfl, hxs, hys⟩ := map_eq_append_iff.mp hss
  obtain ⟨⟨_, p⟩, rfl, rfl⟩ := map_eq_singleton_iff.mp hys
  rw [Compile.steps_cut (by intro y hy; cases hy; trivial), Compile.steps_singleton] at h
  obtain ⟨_, s1, hx, h⟩ := seq_ok.mp h
  exact ⟨xs, s1, p, hxs, hx, h⟩

theorem acts_binary_ok {a : Expr}
    (hss : ss.map At.val = (Expr.binary op a e).acts scope n) (h : steps r ss s = .ok () s') :
    ∃ xs bs ys x s1 s2 s3, xs.map At.val = a.acts scope n ∧
      bs.map At.val = between op (freshIn scope "x" (n + a.logics)) ∧
      ys.map At.val = e.acts scope (n + a.logics + width op) ∧ x.val = behind op (freshIn scope "x" (n + a.logics)) ∧
      steps r xs s = .ok () s1 ∧ steps r bs s1 = .ok () s2 ∧ steps r ys s2 = .ok () s3 ∧
      step r false x s3 = .ok () s' := by
  obtain ⟨ws, zs, rfl, hws, hzs⟩ := map_eq_append_iff.mp hss
  obtain ⟨vs, ys, rfl, hvs, hys⟩ := map_eq_append_iff.mp hws
  obtain ⟨xs, bs, rfl, hxs, hbs⟩ := map_eq_append_iff.mp hvs
  obtain ⟨x, rfl, hx⟩ := map_eq_singleton_iff.mp hzs
  rw [steps_binary hbs hys hx] at h
  obtain ⟨_, s1, h1, h⟩ := seq_ok.mp h
  obtain ⟨_, s2, h2, h⟩ := seq_ok.mp h
  obtain ⟨_, s3, h3, h⟩ := seq_ok.mp h
  exact ⟨xs, bs, ys, x, s1, s2, s3, hxs, hbs, hys, hx, h1, h2, h3, h⟩

theorem not_blank_of_steps : ∀ {e : Expr} {n : Nat} {s s' : CompileState} {ss : List Step},
    ss.map At.val = e.acts scope n → steps r ss s = .ok () s' → ∀ x ∈ e.vars, x ≠ "_"
  | .int _, _, _, _, _, _, _ | .bool _, _, _, _, _, _, _ => nofun
  | .var x, n, s, s', ss, hss, h => by
    intro y hy
    rw [mem_singleton.mp hy]
    rintro rfl
    obtain ⟨⟨_, p⟩, rfl, rfl⟩ := map_eq_singleton_iff.mp hss
    cases h
  | .unary op e, n, s, s', ss, hss, h => by
    obtain ⟨xs, s1, p, hxs, h1, -⟩ := acts_unary_ok hss h
    exact not_blank_of_steps (e := e) hxs h1
  | .binary op a e, n, s, s', ss, hss, h => by
    obtain ⟨xs, bs, ys, x, s1, s2, s3, hxs, -, hys, -, h1, -, h3, -⟩ := acts_binary_ok hss h
    intro y hy
    rcases mem_append.mp hy with hy | hy
    · exact not_blank_of_steps hxs h1 y hy
    · exact not_blank_of_steps hys h3 y hy

theorem compiled_of_steps (hss : ss.map At.val = e.acts scope n)
    (ht : e.compiledType? types = some t) (hr : Ready scope slot types n e b items s)
    (h : steps r ss s = .ok () s') :
    ∃ c, e.code scope slot n (Item.endsAtLabel items) = .ok c ∧ Compiled scope n e t b items c s s' := by
  have hres := compiles (r := r) hss ht hr
  rw [h] at hres
  cases hc : e.code scope slot n (Item.endsAtLabel items) with
  | error trap =>
    rw [hc] at hres
    obtain ⟨_, _, _, -, he⟩ := hres
    cases he
  | ok c =>
    rw [hc] at hres
    obtain ⟨s'', he, hcomp⟩ := hres
    cases he
    exact ⟨c, rfl, hcomp⟩

theorem isLogic_or_binOp (h : (level? op).isSome) :
    isLogic op = true ∨ isLogic op = false ∧ ∃ bop, BinOp.ofOperator? op = some bop := by
  cases op <;> first | exact .inl rfl | exact .inr ⟨rfl, _, rfl⟩ | cases h

theorem bool_of_between {l : String} {rest : List Operand} {k : Option Known} {bs : List Step}
    (ho : isLogic op = true) (hbs : bs.map At.val = between op l) (hst : s.stack = ⟨.value t k :: rest⟩)
    (ht : t = .int ∨ t = .bool) (h : steps r bs s = .ok () s') : t = .bool := by
  obtain ⟨⟨act, p⟩, rfl, hx⟩ := between_logic ho hbs
  rw [steps_singleton] at h
  have hc : ∃ s1, popCondition p s = .ok () s1 := by
    obtain rfl | rfl := eq_land_or_lor ho <;> cases hx <;>
      obtain ⟨_, s1, hc, -⟩ := seq_ok.mp h <;> exact ⟨s1, hc⟩
  obtain ⟨s1, hc⟩ := hc
  rcases ht with rfl | rfl
  · rw [popCondition, seq_eq (popValue_eq hst p)] at hc
    cases hc
  · rfl

theorem typed_of_steps (hty : ∀ x t, types x = some t → t = .int ∨ t = .bool) :
    ∀ {e : Expr} {n : Nat} {items : List Item} {s s' : CompileState} {ss : List Step}, ss.map At.val = e.acts scope n →
    e.Regular → Ready scope slot types n e b items s →
    (∀ x ∈ e.vars, types x = none → s.symbols.resolve? x scope = none) → Compile.steps r ss s = .ok () s' →
    ∃ t, e.compiledType? types = some t
  | .int k, n, items, s, s', ss, hss, hreg, hr, hx, h => ⟨.int, if_pos hreg⟩
  | .bool _, n, items, s, s', ss, hss, hreg, hr, hx, h => ⟨.bool, rfl⟩
  | .var x, n, items, s, s', ss, hss, hreg, hr, hx, h => by
    cases ht : types x with
    | some t => exact ⟨t, ht⟩
    | none =>
      -- a name that means nothing does not compile
      have hnone := hx x (mem_singleton_self x) ht
      obtain ⟨-, hb, -⟩ := hr.named.vars x (mem_singleton_self x)
      obtain ⟨⟨_, p⟩, rfl, rfl⟩ := map_eq_singleton_iff.mp hss
      rw [Compile.steps_singleton] at h
      obtain ⟨m, s1, hm, -⟩ := seq_ok.mp (h : Compile.identifier x false p s = .ok () s')
      rw [Compile.resolve, if_neg hb] at hm
      obtain ⟨o, s2, ho, hm⟩ := seq_ok.mp hm
      have hseek : Compile.seek x s = .ok (s.symbols.resolve? x (s.scopes.headD Place.mainScope)) s := rfl
      rw [hseek, hr.scope_eq, hnone] at ho
      cases ho
      cases hm
  | .unary op e, n, items, s, s', ss, hss, hreg, hr, hx, h => by
    obtain ⟨xs, s1, p, hxs, h1, hu⟩ := acts_unary_ok hss h
    obtain ⟨t, ht⟩ := typed_of_steps hty hxs hreg.2 hr.unary hx h1
    obtain ⟨c, -, hcomp⟩ := compiled_of_steps hxs ht hr.unary h1
    have hib := eq_int_or_bool_of_compiledType? hty ht
    obtain ⟨v, hv⟩ := Compile.unaryType?_of_ok hreg.1 hib hcomp.stack hu
    refine ⟨v, ?_⟩
    simp only [compiledType?, ht]
    exact hv
  | .binary op a e, n, items, s, s', ss, hss, hreg, hr, hx, h => by
    obtain ⟨xs, bs, ys, x, s1, s2, s3, hxs, hbs, hys, hbehind, h1, h2, h3, h⟩ := acts_binary_ok hss h
    obtain ⟨t, ht⟩ := typed_of_steps hty hxs hreg.2.1 hr.left (fun y hy => hx y (mem_append_left _ hy)) h1
    obtain ⟨c, hc, hcomp⟩ := compiled_of_steps hxs ht hr.left h1
    have hib := eq_int_or_bool_of_compiledType? hty ht
    -- between the operands names stay what they are
    have hnone {s' : CompileState} (hs : SameNames s.symbols s'.symbols) :
        ∀ y ∈ e.vars, types y = none → s'.symbols.resolve? y scope = none := by
      intro y hy hty
      obtain ⟨hp, -⟩ := hr.named.vars y (mem_append_right _ hy)
      rw [hs.resolve? hp]
      exact hx y (mem_append_right _ hy) hty
    rcases isLogic_or_binOp hreg.1 with ho | ⟨ho, bop, hb⟩
    · obtain rfl := bool_of_between ho hbs hcomp.stack hib h2
      obtain ⟨x', rfl, hx'⟩ := between_logic ho hbs
      obtain ⟨s2', hstep, hq, hl, -, ha⟩ := step_between ho hr hcomp hx'
      rw [Compile.steps_singleton, hstep] at h2
      cases h2
      obtain ⟨u, hu⟩ := typed_of_steps hty hys hreg.2.2 (hr.right hcomp hq hl ha)
        (hnone (hcomp.quiet.names.trans hq.names)) h3
      refine ⟨u, ?_⟩
      simp only [compiledType?, ht, hu]
      exact (compiledBinaryType?_logic ho .bool u).trans (if_pos rfl)
    · obtain rfl := between_nil ho hbs
      cases h2
      have hr2 := hr.right hcomp (.refl _) rfl hcomp.assembled
      obtain ⟨u, hu⟩ := typed_of_steps hty hys hreg.2.2 hr2 (hnone hcomp.quiet.names) h3
      obtain ⟨d, -, hcomp2⟩ := compiled_of_steps hys hu hr2 h3
      have hib2 := eq_int_or_bool_of_compiledType? hty hu
      rw [step_behind hbehind, ho] at h
      have hst := hcomp2.stack
      rw [hcomp.stack, kept_value] at hst
      obtain ⟨w, hw⟩ := Compile.binaryType?_of_ok hb hib hib2 hst h
      refine ⟨w, ?_⟩
      simp only [compiledType?, ht, hu]
      exact (compiledBinaryType?_eq ho t u).trans hw

end Expr

end Goblet
