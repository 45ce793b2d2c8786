import Goblet.Proofs.Statement.Progress

/-!
# Compiling assignments

A variable that is declared gets a data slot of its own, or has one already (`Underway.declareVar`). So a store into a
name compiles to one instruction which does what the store means (`Underway.put`), and an assignment to the code of its
values and these instructions (`Underway.assignment`).
-/

namespace Goblet

open List Assignment Compile Layer

open SymbolTable (qualify)
open Machine (Goes)

namespace Compile

variable {s s' : CompileState} {x : String} {t : Ty} {p : Pos} {slot : Slot}

theorem declareVar_known {a : Var} {v : Option Value} (ha : a.ty = .int ∨ a.ty = .bool) (ht : t = .int ∨ t = .bool)
    (hs : s.symbols.lookup? (qualify (s.scopes.headD Place.mainScope) x) = some (a.symbol v))
    (h : declareVar x t p s = .ok slot s') : a.ty = t ∧ slot = .global a.slot ∧ s' = s := by
  have hl : lookup (qualify (s.scopes.headD Place.mainScope) x) s = .ok (some (a.symbol v)) s :=
    congrArg (EStateM.Result.ok · s) hs
  rw [declareVar, seq_eq (show scope s = .ok (s.scopes.headD Place.mainScope) s from rfl), seq_eq hl] at h
  rcases ha with ha | ha <;> rcases ht with rfl | rfl <;> (simp only [Var.symbol, ha] at h; cases h) <;>
    exact ⟨ha, rfl, rfl⟩

theorem declareVar_new (hf : s.funcs = [])
    (hs : s.symbols.lookup? (qualify (s.scopes.headD Place.mainScope) x) = none) :
    declareVar x t p s = .ok (.global s.program.data.size)
      { s with
        program.data := s.program.data.push t.zero
        symbols := s.symbols.add (qualify (s.scopes.headD Place.mainScope) x)
          ((Var.mk s.program.data.size t).symbol none) } := by
  have hl : lookup (qualify (s.scopes.headD Place.mainScope) x) s = .ok none s := congrArg (EStateM.Result.ok · s) hs
  have ha : allocVar t s = .ok (.global s.program.data.size) { s with program.data := s.program.data.push t.zero } := by
    rw [allocVar, get_seq, hf]
    rfl
  rw [declareVar, seq_eq (show scope s = .ok (s.scopes.headD Place.mainScope) s from rfl), seq_eq hl]
  dsimp only
  rw [seq_eq ha]
  rfl

end Compile

namespace Underway

variable {o : Base} {n : Nat} {l : Level} {levels : List Level} {ops : List Operand} {items : List Item}
  {s s' : CompileState} {r : Registry} {t : Ty} {x : String} {p : Pos} {slot : Slot}

theorem next_slot (hu : Underway o n levels ops items s) :
    o.kept s.program.data.size = none ∧ Layer.Free (layers levels) s.program.data.size := by
  constructor
  · cases hk : o.kept s.program.data.size with
    | none => rfl
    | some v => exact absurd (hu.kept _ v hk) (Nat.lt_irrefl _)
  · intro L hL x a ha
    obtain ⟨l, hl, rfl⟩ := mem_map.mp hL
    exact Nat.ne_of_lt (hu.slots l hl x a ha).1

variable (hV : o.lexicon.Known o.symbols) {v : Compile.Taken}
include hV

/-- A new variable takes the next slot. -/
theorem declareVar (hu : Underway o n (l :: levels) ops items s) (hx : o.lexicon.name x)
    (hb : x ≠ "_") (ht : t = .int ∨ t = .bool) (h : declareVar x t p s = .ok slot s') : ∃ k, slot = .global k ∧
      Underway o n (⟨l.path, l.layer.set x ⟨k, t⟩⟩ :: levels) ops items s' ∧ l.layer.Le (l.layer.set x ⟨k, t⟩) ∧
      s.program.data.size ≤ s'.program.data.size ∧ k < s'.program.data.size ∧ o.kept k = none ∧
      (∀ y b, l.layer y = some b → b.slot = k → y = x) ∧ Layer.Free (layers levels) k := by
  have hscope := hu.scope_eq
  cases hl : l.layer x with
  | some a =>
    obtain ⟨-, -, v, hs⟩ := hu.named.held l (.head _) x a hl
    obtain ⟨hlt, hty⟩ := hu.slots l (.head _) x a hl
    obtain ⟨rfl, rfl, rfl⟩ := declareVar_known hty ht (hscope ▸ hs) h
    obtain ⟨hk, hf, hone⟩ := hu.apart.1 x a hl
    have hset : l.layer.set x ⟨a.slot, a.ty⟩ = l.layer := by
      funext y
      by_cases hy : y = x
      · subst hy
        rw [set_self, hl]
      · exact set_of_ne hy ..
    exact ⟨a.slot, rfl, hset.symm ▸ hu, hset.symm ▸ .refl _, Nat.le_refl _, hlt, hk, hone, hf⟩
  | none =>
    have hs := hu.named.free l (.head _) x hx hl
    rw [declareVar_new hu.funcs (hscope ▸ hs)] at h
    cases h
    obtain ⟨hk, hf⟩ := hu.next_slot
    have hsize : (s.program.data.push t.zero).size = s.program.data.size + 1 := Array.size_push ..
    have hold : ∀ y b, l.layer y = some b → b.slot ≠ s.program.data.size := hf _ (.head _)
    have hone : ∀ y b, l.layer y = some b → b.slot = s.program.data.size → y = x :=
      fun y b hy he => absurd he (hold y b hy)
    have hfree : Layer.Free (layers levels) s.program.data.size := fun L hL => hf L (.tail _ hL)
    have hset : l.layer.Le (l.layer.set x ⟨s.program.data.size, t⟩) := by
      intro y b hy
      have hne : y ≠ x := by
        rintro rfl
        cases hl.symm.trans hy
      rw [set_of_ne hne]
      exact hy
    refine ⟨_, rfl, ⟨?_, hu.scopes, hu.funcs, ?_, hu.labels, ⟨fun y b hy => ?_, hu.apart.2⟩, fun l' hl' y b hy => ?_,
      fun k v hkv => ?_, hu.stack, hu.entry⟩, hset, ?_, ?_, hk, hone, hfree⟩
    · refine hu.assembled.symbols fun m => ?_
      rw [SymbolTable.lookup?_add, if_neg (Ne.symm (qualify_ne_labelKey (.inl (hV.words x hx))))]
      rfl
    · rw [hscope]
      exact hu.named.declare hV.words hx hb _ none
    · by_cases he : y = x
      · subst he
        cases (set_self ..).symm.trans hy
        refine ⟨hk, hfree, fun z c hz hc => ?_⟩
        by_cases hzy : z = y
        · exact hzy
        · exact absurd hc (hold z c ((set_of_ne hzy ..).symm.trans hz))
      · have hyb : l.layer y = some b := (set_of_ne he ..).symm.trans hy
        obtain ⟨hkb, hfb, hob⟩ := hu.apart.1 y b hyb
        refine ⟨hkb, hfb, fun z c hz hc => ?_⟩
        by_cases hzx : z = x
        · subst hzx
          cases (set_self ..).symm.trans hz
          exact absurd hc.symm (hold y b hyb)
        · exact hob z c ((set_of_ne hzx ..).symm.trans hz) hc
    · show b.slot < (s.program.data.push t.zero).size ∧ _
      rw [hsize]
      rcases mem_cons.mp hl' with rfl | hl'
      · by_cases he : y = x
        · subst he
          cases (set_self ..).symm.trans hy
          exact ⟨Nat.lt_succ_self _, ht⟩
        · obtain ⟨hlt, hty⟩ := hu.slots l (.head _) y b ((set_of_ne he ..).symm.trans hy)
          exact ⟨Nat.lt_succ_of_lt hlt, hty⟩
      · obtain ⟨hlt, hty⟩ := hu.slots l' (.tail _ hl') y b hy
        exact ⟨Nat.lt_succ_of_lt hlt, hty⟩
    · show k < (s.program.data.push t.zero).size
      rw [hsize]
      exact Nat.lt_succ_of_lt (hu.kept k v hkv)
    · show s.program.data.size ≤ (s.program.data.push t.zero).size
      rw [hsize]
      exact Nat.le_succ _
    · show s.program.data.size < (s.program.data.push t.zero).size
      rw [hsize]
      exact Nat.lt_succ_self _

/-! ## Stores into one name -/

theorem pop (hu : Underway o n levels (.plain t :: ops) items s) (h : popValue p s = .ok v s') :
    v.ty = t ∧ Underway o n levels ops items s' ∧ s'.program.data = s.program.data := by
  obtain ⟨k, rest, hs, hr⟩ := hu.top
  rw [popValue_eq hs] at h
  cases h
  exact ⟨rfl, hu.quiet hV .plain (Nat.le_refl n) (fun _ => .inl) hu.assembled hr, rfl⟩

omit hV in
/-- A value of one type may be stored where the other is wanted only if they are the same. -/
theorem coerce_ok {ty : Ty} {depth : Nat} {context : String} (hv : v.ty = .int ∨ v.ty = .bool)
    (ht : ty = .int ∨ ty = .bool) (h : coerce v ty depth context p s = .ok () s') : v.ty = ty ∧ s' = s := by
  obtain ⟨vt, k⟩ := v
  rcases hv with rfl | rfl <;> rcases ht with rfl | rfl <;> cases h <;> exact ⟨rfl, rfl⟩

/-- What a store leaves: one instruction that carries it out, and a layer in which the name may be new. -/
def Stored (o : Base) (n : Nat) (l : Level) (levels : List Level) (ops : List Operand) (items : List Item)
    (s s' : CompileState) (k : Storing) (x : String) (t : Ty) : Prop :=
  ∃ L' op, (k = .assign → L' = l.layer) ∧ l.layer.Le L' ∧
    Underway o n (⟨l.path, L'⟩ :: levels) ops (items ++ [.op op]) s' ∧ s.program.data.size ≤ s'.program.data.size ∧
    ∀ d, s'.program.data.size ≤ d → Put d o.kept k l.layer (layers levels) L' x t op

variable {k : Storing}

theorem stored_blank (hu : Underway o n (l :: levels) ops items s)
    (h : Compile.emit (.pop 1) p s = .ok () s') : Stored o n l levels ops items s s' k "_" t := by
  cases h
  exact ⟨l.layer, .pop 1, fun _ => rfl, .refl _, hu.emit hV (.pop 1) p, Nat.le_refl _, fun d _ => put_blank⟩

theorem stored_declared (hu : Underway o n (l :: levels) ops items s)
    (hx : o.lexicon.name x) (hb : x ≠ "_") (ht : t = .int ∨ t = .bool) (hk : k ≠ .assign) {s1 : CompileState}
    (hd : Compile.declareVar x t p s = .ok slot s1) (h : Compile.emit (.set slot) p s1 = .ok () s') :
    Stored o n l levels ops items s s' k x t := by
  obtain ⟨i, rfl, hu1, hL, hle, hlt, hkept, hone, hfree⟩ := hu.declareVar hV hx hb ht hd
  cases h
  exact ⟨_, _, fun h => absurd h hk, hL, hu1.emit hV _ p, hle,
    fun d hd => put_define hb hk (Nat.lt_of_lt_of_le hlt hd) hkept hone hfree⟩

/-- A definition declares the names that are new. -/
theorem define (hu : Underway o n (l :: levels) (.plain t :: ops) items s)
    (hx : o.lexicon.name x) (ht : t = .int ∨ t = .bool) (h : Compile.define x p s = .ok () s') :
    Stored o n l levels ops items s s' .define x t := by
  obtain ⟨v, s1, ⟨hvt, hu1, hd1⟩, h⟩ := seq_by (hu.pop hV) h
  unfold Stored
  rw [← hd1]
  by_cases hb : x = "_"
  · subst hb
    exact hu1.stored_blank hV h
  · rw [if_neg hb, hvt, if_neg (by rcases ht with rfl | rfl <;> decide)] at h
    obtain ⟨slot, s2, hslot, h⟩ := seq_ok.mp h
    exact hu1.stored_declared hV hx hb ht nofun hslot h

/-- An assignment declares nothing. -/
theorem assign (hu : Underway o n (l :: levels) (.plain t :: ops) items s)
    (hx : o.lexicon.name x) (ht : t = .int ∨ t = .bool) (h : Compile.assign x p s = .ok () s') :
    Stored o n l levels ops items s s' .assign x t := by
  obtain ⟨v, s1, ⟨hvt, hu1, hd1⟩, h⟩ := seq_by (hu.pop hV) h
  unfold Stored
  rw [← hd1]
  by_cases hb : x = "_"
  · subst hb
    exact hu1.stored_blank hV h
  · rw [if_neg hb] at h
    obtain ⟨⟨key, sym⟩, s2, ⟨hres, rfl⟩, h⟩ := seq_by Compile.resolve_ok h
    have hscope : s1.setting.scope = l.path := hu1.scope_eq
    rw [hscope] at hres
    cases hf : Layer.find (layers (l :: levels)) x with
    | none =>
      rw [hu1.named.resolve_none hx hf] at hres
      cases hres
    | some a =>
      obtain ⟨-, -, key', w, hs⟩ := hu1.named.resolve_var hf
      cases hs.symm.trans hres
      obtain ⟨_, s2, hc, hset⟩ := seq_ok.mp h
      have hat : a.ty = .int ∨ a.ty = .bool := hu1.typeIn (by rw [Layer.typeIn, hf]; rfl)
      obtain ⟨hta, rfl⟩ := coerce_ok (hvt ▸ ht) hat hc
      cases hset
      exact ⟨l.layer, .set (.global a.slot), fun _ => rfl, .refl _, hu1.emit hV _ p, Nat.le_refl _,
        fun d _ => put_assign hb hu1.apart hf (hta.symm.trans hvt)⟩

theorem resolveType (hu : Underway o n (l :: levels) ops items s) {T : String} {ty : Ty}
    (hT : o.lexicon.type T) (h : resolveType (.name T) p s = .ok ty s') : (ty = .int ∨ ty = .bool) ∧ s' = s := by
  obtain ⟨hres, rfl⟩ := resolveType_ok h
  obtain ⟨hw, hn, key, a, ty', v, hs, hty⟩ := hV.types T hT
  have hscope : s.setting.scope = l.path := hu.scope_eq
  rw [hscope, resolveTypeIn, hu.named.resolve_word hw hn, hs] at hres
  cases hres
  exact ⟨hty, rfl⟩

/-- The value of a declaration has the type that is written, if there is one. -/
theorem declaredType (hu : Underway o n levels (.plain t :: ops) items s)
    (ht : t = .int ∨ t = .bool) {written : Option Ty} {ty : Ty} (hw : ∀ ty' ∈ written, ty' = .int ∨ ty' = .bool)
    (h : declaredType written true p s = .ok ty s') :
    ty = t ∧ Underway o n levels ops items s' ∧ s'.program.data = s.program.data := by
  unfold Compile.declaredType at h
  obtain ⟨v, s1, ⟨hvt, hu1, hd1⟩, h⟩ := seq_by (hu.pop hV) h
  cases written with
  | none =>
    rw [hvt, if_neg (by rcases ht with rfl | rfl <;> decide)] at h
    cases h
    exact ⟨rfl, hu1, hd1⟩
  | some ty' =>
    obtain ⟨_, s2, ⟨hvt', rfl⟩, hret⟩ := seq_by (coerce_ok (hvt ▸ ht) (hw ty' rfl)) h
    cases hret
    exact ⟨hvt'.symm.trans hvt, hu1, hd1⟩

theorem declare {T : Option String} (hu : Underway o n (l :: levels) (.plain t :: ops) items s) (hx : o.lexicon.name x)
    (hT : ∀ T' ∈ T, o.lexicon.type T') (ht : t = .int ∨ t = .bool)
    (h : Compile.declare x (T.map TypeExpr.name) true p s = .ok () s') :
    Stored o n l levels ops items s s' (.declare T) x t := by
  obtain ⟨written, s1, hwritten, hrest⟩ := seq_ok.mp h
  have hw : s1 = s ∧ ∀ ty ∈ written, ty = .int ∨ ty = .bool := by
    cases T with
    | none =>
      cases hwritten
      exact ⟨rfl, nofun⟩
    | some T =>
      obtain ⟨ty, s2, ⟨hib, rfl⟩, hret⟩ := seq_by (hu.resolveType hV (hT T rfl)) hwritten
      cases hret
      exact ⟨rfl, fun ty' h => by cases h; exact hib⟩
  obtain ⟨rfl, hw⟩ := hw
  obtain ⟨ty, s2, ⟨rfl, hu2, hd2⟩, hrest⟩ := seq_by (hu.declaredType hV ht hw) hrest
  unfold Stored
  rw [← hd2]
  by_cases hb : x = "_"
  · subst hb
    exact hu2.stored_blank hV hrest
  · rw [if_neg hb] at hrest
    obtain ⟨slot, s3, hslot, hset⟩ := seq_ok.mp hrest
    exact hu2.stored_declared hV hx hb ht nofun hslot hset

end Underway

/-! ## Assignments -/

/-- An assignment that can be written with the names of a lexicon. -/
structure Assignment.Covered (V : Lexicon) (a : Assignment) : Prop where
  targets : ∀ x ∈ a.targets, V.name x
  values : ∀ e ∈ a.values, V.Covers e
  type : ∀ T, a.kind = .declare (some T) → V.type T

section Covered

variable {V : Lexicon} {a : Assignment} {es : List Expr} {xs : List String} {ts : List Token}

theorem Lexicon.Lists.covers (h : V.Lists es ts) : ∀ e ∈ es, V.Covers e := by
  induction h with
  | one h => simpa using h.covers
  | more h _ ih => exact forall_mem_cons.mpr ⟨h.covers, ih⟩

theorem Assignment.Simple.covered (h : a.Simple V ts) : a.Covered V := by
  cases h with
  | define hn he | assign hn he => exact ⟨hn.names, he.covers, nofun⟩
  | @compound op base x e ts p q ho hx he =>
    have hlevel : (Expr.level? base).isSome := by
      simp only [mem_cons, Prod.mk.injEq, not_mem_nil, or_false] at ho
      rcases ho with ⟨-, rfl⟩ | ⟨-, rfl⟩ | ⟨-, rfl⟩ | ⟨-, rfl⟩ | ⟨-, rfl⟩ <;> rfl
    refine ⟨fun y hy => ?_, fun e' he' => ?_, nofun⟩
    · rw [mem_singleton.mp hy]
      exact hx
    · rw [mem_singleton.mp he']
      refine ⟨⟨hlevel, trivial, he.covers.regular⟩, fun y hy => ?_⟩
      rcases mem_cons.mp hy with rfl | hy
      · exact hx
      · exact he.names y hy
  | @step op base x p q ho hx =>
    have hlevel : (Expr.level? base).isSome := by
      simp only [mem_cons, Prod.mk.injEq, not_mem_nil, or_false] at ho
      rcases ho with ⟨-, rfl⟩ | ⟨-, rfl⟩ <;> rfl
    refine ⟨fun y hy => ?_, fun e' he' => ?_, nofun⟩
    · rw [mem_singleton.mp hy]
      exact hx
    · rw [mem_singleton.mp he']
      refine ⟨⟨hlevel, trivial, show 1 < 2 ^ 63 by decide⟩, fun y hy => ?_⟩
      rw [mem_singleton.mp hy]
      exact hx

theorem Assignment.Spec.covered (h : a.Spec V ts) : a.Covered V := by
  cases h with
  | untyped hn he => exact ⟨hn.names, he.covers, nofun⟩
  | typed hn ht he =>
    refine ⟨hn.names, he.covers, fun T hT => ?_⟩
    cases hT
    exact ht

theorem Assignment.Specs.covered {as : List Assignment} (h : Specs V as ts) : ∀ a ∈ as, a.Covered V := by
  induction h with
  | nil => nofun
  | cons _ h _ _ ih => exact forall_mem_cons.mpr ⟨h.covered, ih⟩

end Covered

theorem Opens.stores (xs : List String) (k : Storing) : Opens (stores xs k) := by
  cases xs with
  | nil => cases k <;> exact .nil
  | cons x xs => cases k <;> exact .cons (by trivial) _

theorem Opens.exprs (scope : String) : ∀ (es : List Expr) (n : Nat), Opens (Expr.actsAll scope es n)
  | [], _ => .nil
  | e :: es, n => (Opens.expr e scope n).append (Opens.exprs scope es _)

theorem Assignment.stores_cons (x : String) (xs : List String) (k : Storing) :
    stores (x :: xs) k = stores [x] k ++ stores xs k := by
  cases k <;> simp [stores]

namespace Underway

variable {o : Base} {n : Nat} {l : Level} {levels : List Level} {ops : List Operand} {items : List Item}
  {s s' : CompileState} {r : Registry} {t : Ty} {x : String} {k : Storing} {exits : Exits}

variable (hV : o.lexicon.Known o.symbols)
include hV

theorem put (hu : Underway o n (l :: levels) (.plain t :: ops) items s)
    (hx : o.lexicon.name x) (hT : ∀ T, k = .declare (some T) → o.lexicon.type T) (ht : t = .int ∨ t = .bool)
    (h : Compiles r (stores [x] k) s s') : Stored o n l levels ops items s s' k x t := by
  cases k with
  | define =>
    obtain ⟨p, q, h⟩ := h.pair
    obtain ⟨_, s1, hdef, hret⟩ := seq_ok.mp h
    cases hret
    exact hu.define hV hx ht hdef
  | assign =>
    obtain ⟨p, q, h⟩ := h.pair
    obtain ⟨_, s1, hdef, hret⟩ := seq_ok.mp h
    cases hret
    exact hu.assign hV hx ht hdef
  | declare T =>
    obtain ⟨p, h⟩ := h.single
    refine hu.declare hV hx (fun T' h' => hT T' ?_) ht h
    cases h'
    rfl

/-- Stores into several names. The top operand goes to the first. -/
theorem puts (hT : ∀ T, k = .declare (some T) → o.lexicon.type T) :
    ∀ {xs : List String} {tys : List Ty} {l : Level} {items : List Item} {s : CompileState}, xs.length = tys.length →
    (∀ x ∈ xs, o.lexicon.name x) → (∀ t ∈ tys, t = .int ∨ t = .bool) →
    Underway o n (l :: levels) (tys.map Operand.plain ++ ops) items s → Compiles r (stores xs k) s s' →
    ∃ L' items', (k = .assign → L' = l.layer) ∧ l.layer.Le L' ∧
      Underway o n (⟨l.path, L'⟩ :: levels) ops (items ++ items') s' ∧ s.program.data.size ≤ s'.program.data.size ∧
      ∀ d, s'.program.data.size ≤ d → Puts d o.kept k l.layer (layers levels) L' (xs.zip tys) items'
  | [], [], l, items, s, _, _, _, hu, h => by
    have hnil : stores [] k = [] := by cases k <;> rfl
    rw [hnil] at h
    obtain rfl := h.nil
    refine ⟨l.layer, [], fun _ => rfl, .refl _, ?_, Nat.le_refl _, fun d _ => puts_nil⟩
    rw [append_nil]
    exact hu
  | x :: xs, t :: tys, l, items, s, hlen, hn, hty, hu, h => by
    rw [stores_cons] at h
    obtain ⟨s1, h1, h2⟩ := h.append (.stores xs k)
    obtain ⟨L1, op, hk1, hL1, hu1, hd1, hp1⟩ := hu.put hV (hn x (.head _)) hT (hty t (.head _)) h1
    obtain ⟨L2, items2, hk2, hL2, hu2, hd2, hp2⟩ := puts hT (Nat.succ.inj hlen) (fun y hy => hn y (.tail _ hy))
      (fun u hm => hty u (.tail _ hm)) hu1 h2
    rw [append_assoc] at hu2
    exact ⟨L2, .op op :: items2, fun h => (hk2 h).trans (hk1 h), hL1.trans hL2, hu2, Nat.le_trans hd1 hd2,
      fun d hd => puts_cons (hp1 d (Nat.le_trans hd2 hd)) (hp2 d hd)⟩

theorem exprs : ∀ {es : List Expr} {n : Nat} {ops : List Operand} {items : List Item}
    {s : CompileState}, Underway o n (l :: levels) ops items s → (∀ e ∈ es, o.lexicon.Covers e) →
    Compiles r (Expr.actsAll l.path es n) s s' → ∃ tys items', (∀ t ∈ tys, t = .int ∨ t = .bool) ∧
      tys.length = es.length ∧
      Underway o (n + Expr.logicsAll es) (l :: levels) (tys.reverse.map Operand.plain ++ ops) (items ++ items') s' ∧
      s'.program.data = s.program.data ∧ Evaluates o.kept (layers (l :: levels)) tys items' es
  | [], n, ops, items, s, hu, _, h => by
    obtain rfl := h.nil
    refine ⟨[], [], nofun, rfl, ?_, rfl, evaluates_nil⟩
    rw [append_nil]
    exact hu
  | e :: es, n, ops, items, s, hu, he, h => by
    obtain ⟨s1, h1, h2⟩ := h.append (.exprs _ es _)
    obtain ⟨t, items1, ht, hu1, hq1, hc1⟩ := hu.expr hV (he e (.head _)) h1
    obtain ⟨tys, items2, hty, hlen, hu2, hd2, hc2⟩ := exprs hu1 (fun e' h' => he e' (.tail _ h')) h2
    refine ⟨t :: tys, items1 ++ items2, fun u hm => ?_, congrArg Nat.succ hlen, ?_, hd2.trans hq1.data,
      evaluates_cons hc1 hc2⟩
    · rcases mem_cons.mp hm with rfl | hm
      · exact ht
      · exact hty u hm
    · rw [← append_assoc, reverse_cons, map_append, append_assoc]
      rw [Nat.add_assoc] at hu2
      exact hu2

/-- All the values are pushed before any is stored. -/
theorem assignment {a : Assignment} (hu : Underway o n (l :: levels) ops items s)
    (ha : a.Covered o.lexicon) (h : Compiles r (a.stream l.path n).1 s s') :
    ∃ L' items', (a.kind = .assign → L' = l.layer) ∧
      l.layer.Le L' ∧ Underway o (a.stream l.path n).2 (⟨l.path, L'⟩ :: levels) ops (items ++ items') s' ∧
      s.program.data.size ≤ s'.program.data.size ∧ ∀ d, s'.program.data.size ≤ d →
        Does d o.kept exits l.layer (layers levels) L' items' a.means := by
  obtain ⟨s1, h1, h2⟩ := Compiles.append h (.stores _ _)
  obtain ⟨tys, items1, hty, hlen, hu1, hd1, he⟩ := hu.exprs hV ha.values h1
  have hl : a.targets.length = tys.length := by
    rw [hlen, targets, values, length_map, length_map]
  obtain ⟨L', items2, hk, hL, hu2, hd2, hp⟩ := puts hV ha.type (by rw [length_reverse, length_reverse, hl])
    (fun x hx => ha.targets x (mem_reverse.mp hx)) (fun t ht => hty t (mem_reverse.mp ht)) hu1 h2
  have hzip : a.targets.reverse.zip tys.reverse = (a.targets.zip tys).reverse := by
    rw [← zip_unzip (a.targets.zip tys).reverse, unzip_eq_map, map_reverse, map_reverse,
      map_fst_zip (Nat.le_of_eq hl), map_snd_zip (Nat.le_of_eq hl.symm)]
  rw [hzip] at hp
  rw [append_assoc] at hu2
  refine ⟨L', items1 ++ items2, hk, hL, hu2, ?_, fun d hd => does_assignment he hl hL (hp d hd)⟩
  rw [← hd1]
  exact hd2

end Underway

end Goblet
