import Mathlib.Data.List.Forall2
import Goblet.Proofs.Scalar.Running
import Goblet.Proofs.Statement.Semantics

/-!
# Running statements

What code does is compared with what statements mean. The scopes of a statement agree with memory if each variable's
slot holds its value (`Agrees`). `Does` says of code that wherever it stands a machine goes through it as a meaning
says: to its end, to the label of a `break` or `continue`, or to a failure. There is one lemma for each way to build a
meaning; those for loops follow the turns of the loop.
-/

namespace Goblet

open List Goblet.Expr Machine Meaning

open Machine (Goes Fails)
open Item (Stand stand_append stand_singleton sizes)

/-! ## Variables in memory -/

/-- A variable as the compiler knows it. -/
structure Var where
  slot : Nat
  ty : Ty

/-- The variables of a scope as the compiler knows them. -/
abbrev Layer := String → Option Var

namespace Layer

/-- A scope without variables. -/
def empty : Layer := fun _ => none

/-- The layer with one more variable, or another in its place. -/
def set (L : Layer) (x : String) (a : Var) : Layer := fun y => if y = x then some a else L y

theorem set_self (L : Layer) (x : String) (a : Var) : L.set x a x = some a := if_pos rfl

theorem set_of_ne {x y : String} (h : y ≠ x) (L : Layer) (a : Var) : L.set x a y = L y := if_neg h

/-- The second layer has the variables of the first. -/
def Le (L L' : Layer) : Prop := ∀ x a, L x = some a → L' x = some a

theorem Le.refl (L : Layer) : L.Le L := fun _ _ h => h

theorem Le.trans {L L' L'' : Layer} (h : L.Le L') (h' : L'.Le L'') : L.Le L'' := fun x a hx => h' x a (h x a hx)

/-- The innermost variable of a name. -/
def find (Γ : List Layer) (x : String) : Option Var := Γ.findSome? (· x)

/-- A slot belongs to no variable of some layers. -/
def Free (Γ : List Layer) (k : Nat) : Prop := ∀ L ∈ Γ, ∀ x a, L x = some a → a.slot ≠ k

/-- Memory holds what the variables of a scope do. What has the type of booleans is one. -/
structure Holds (g : Array Value) (L : Layer) (scope : Scope) : Prop where
  held : ∀ x a, L x = some a → ∃ v, scope x = some v ∧ g[a.slot]? = some v.value ∧ (a.ty = .bool → v.ty = .bool)
  absent : ∀ x, L x = none → scope x = none

end Layer

/-- No slot belongs to two variables, and none is among those that are kept. -/
def Apart (kept : Nat → Option Value) : List Layer → Prop
  | [] => True
  | L :: Γ => (∀ x a, L x = some a → kept a.slot = none ∧ Layer.Free Γ a.slot ∧
      ∀ y b, L y = some b → b.slot = a.slot → y = x) ∧ Apart kept Γ

/-- Memory holds what the variables of some scopes do, and what is kept. -/
structure Agrees (kept : Nat → Option Value) (Γ : List Layer) (env : Env) (g : Array Value) : Prop where
  kept : ∀ k v, kept k = some v → g[k]? = some v
  layers : List.Forall₂ (Layer.Holds g) Γ env

section Memory

variable {kept kept' : Nat → Option Value} {Γ : List Layer} {L : Layer} {env : Env} {scope : Scope} {g : Array Value}
  {x : String} {a : Var} {v : Scalar} {w : Value} {k : Nat}

/-- A slot that no variable of the layer has may change. -/
theorem Layer.Holds.away (h : L.Holds g scope) (hk : ∀ x a, L x = some a → a.slot ≠ k) :
    L.Holds (g.setIfInBounds k w) scope := by
  refine ⟨fun x a hx => ?_, h.absent⟩
  obtain ⟨v, hv, hg, hb⟩ := h.held x a hx
  exact ⟨v, hv, by rw [Array.getElem?_setIfInBounds_ne (Ne.symm (hk x a hx))]; exact hg, hb⟩

theorem Layer.empty_holds (g : Array Value) : Layer.empty.Holds g fun _ => none :=
  ⟨nofun, fun _ _ => rfl⟩

theorem Agrees.away (h : Agrees kept Γ env g) (hk : kept k = none) (hf : Layer.Free Γ k) :
    Agrees kept Γ env (g.setIfInBounds k w) := by
  refine ⟨fun j v hj => ?_, ?_⟩
  · have hne : k ≠ j := by
      rintro rfl
      rw [hk] at hj
      cases hj
    rw [Array.getElem?_setIfInBounds_ne hne]
    exact h.kept j v hj
  · obtain ⟨-, hl⟩ := h
    induction hl with
    | nil => exact .nil
    | cons hL _ ih =>
      exact .cons (hL.away (hf _ (.head _))) (ih fun M hM => hf M (.tail _ hM))

theorem Agrees.cons (hL : L.Holds g scope) (h : Agrees kept Γ env g) : Agrees kept (L :: Γ) (scope :: env) g :=
  ⟨h.kept, .cons hL h.layers⟩

theorem Agrees.enter (h : Agrees kept Γ env g) : Agrees kept (.empty :: Γ) ((fun _ => none) :: env) g :=
  h.cons (Layer.empty_holds g)

theorem Agrees.leave (h : Agrees kept (L :: Γ) (scope :: env) g) : Agrees kept Γ env g := by
  cases h.layers with
  | cons _ hl => exact ⟨h.kept, hl⟩

theorem Agrees.weaken (h : Agrees kept' Γ env g) (hk : ∀ k v, kept k = some v → kept' k = some v) :
    Agrees kept Γ env g :=
  ⟨fun k v hv => h.kept k v (hk k v hv), h.layers⟩

/-- A variable's slot holds its value. -/
theorem Agrees.find (h : Agrees kept Γ env g) (hx : Layer.find Γ x = some a) :
    ∃ v, env.value x = some v ∧ g[a.slot]? = some v.value ∧ (a.ty = .bool → v.ty = .bool) := by
  obtain ⟨-, hl⟩ := h
  induction hl with
  | nil => cases hx
  | @cons L scope Γ env hL _ ih =>
    rw [Layer.find, findSome?_cons] at hx
    rw [Env.value, findSome?_cons]
    cases hLx : L x with
    | some b =>
      rw [hLx] at hx
      cases hx
      obtain ⟨v, hv, hg⟩ := hL.held x a hLx
      rw [hv]
      exact ⟨v, rfl, hg⟩
    | none =>
      rw [hLx] at hx
      rw [hL.absent x hLx]
      exact ih hx

/-- What no layer declares has no value. -/
theorem Agrees.find_none (h : Agrees kept Γ env g) (hx : Layer.find Γ x = none) : env.value x = none := by
  obtain ⟨-, hl⟩ := h
  induction hl with
  | nil => rfl
  | @cons L scope Γ env hL _ ih =>
    rw [Layer.find, findSome?_cons] at hx
    rw [Env.value, findSome?_cons]
    cases hLx : L x with
    | some b =>
      rw [hLx] at hx
      cases hx
    | none =>
      rw [hLx] at hx
      rw [hL.absent x hLx]
      exact ih hx

theorem Layer.Holds.set {t : Ty} (h : L.Holds g scope) (hk : k < g.size) (hL : ∀ y b, L y = some b → b.slot = k → y = x)
    (hv : t = .bool → v.ty = .bool) : (L.set x ⟨k, t⟩).Holds (g.setIfInBounds k v.value) (scope.set x v) := by
  refine ⟨fun y b hy => ?_, fun y hy => ?_⟩
  · simp only [Layer.set] at hy
    split at hy
    · next he =>
      cases hy
      exact ⟨v, if_pos he, Array.getElem?_setIfInBounds_self_of_lt hk, hv⟩
    · next he =>
      obtain ⟨w, hw, hg, hb⟩ := h.held y b hy
      have hne : k ≠ b.slot := fun hkb => he (hL y b hy hkb.symm)
      exact ⟨w, (if_neg he).trans hw, by rw [Array.getElem?_setIfInBounds_ne hne]; exact hg, hb⟩
  · simp only [Layer.set] at hy
    simp only [Scope.set]
    split at hy
    · cases hy
    · next he => exact (if_neg he).trans (h.absent y hy)

/-- A declaration fills its own slot. -/
theorem Agrees.define {t : Ty} (h : Agrees kept (L :: Γ) env g) (hs : k < g.size) (hk : kept k = none)
    (hL : ∀ y b, L y = some b → b.slot = k → y = x) (hf : Layer.Free Γ k) (hv : t = .bool → v.ty = .bool) :
    ∃ env', env.define x v = some env' ∧ Agrees kept (L.set x ⟨k, t⟩ :: Γ) env' (g.setIfInBounds k v.value) := by
  cases h.layers with
  | @cons _ scope _ env hl hls =>
    exact ⟨scope.set x v :: env, rfl, (Agrees.away ⟨h.kept, hls⟩ hk hf).cons (hl.set hs hL hv)⟩

/-- An assignment writes the slot of the nearest layer. -/
theorem Agrees.assign (h : Agrees kept Γ env g) (ha : Apart kept Γ) (hx : Layer.find Γ x = some a)
    (hv : a.ty = .bool → v.ty = .bool) : a.slot < g.size ∧
      ∃ env', env.assign x v = some env' ∧ Agrees kept Γ env' (g.setIfInBounds a.slot v.value) := by
  obtain ⟨w, -, hg, -⟩ := h.find hx
  have hs : a.slot < g.size := (Array.getElem?_eq_some_iff.mp hg).1
  refine ⟨hs, ?_⟩
  obtain ⟨hkept, hl⟩ := h
  induction hl with
  | nil => cases hx
  | @cons L scope Γ env hL hls ih =>
    rw [Layer.find, findSome?_cons] at hx
    obtain ⟨haL, haΓ⟩ := ha
    cases hLx : L x with
    | some b =>
      rw [hLx] at hx
      cases hx
      obtain ⟨hk, hf, hinj⟩ := haL x a hLx
      obtain ⟨u, hu, -⟩ := hL.held x a hLx
      have hset : L.set x ⟨a.slot, a.ty⟩ = L := by
        funext y
        unfold Layer.set
        split
        · next he => rw [he, hLx]
        · rfl
      refine ⟨scope.set x v :: env, by rw [Env.assign, hu]; rfl, (Agrees.away ⟨hkept, hls⟩ hk hf).cons ?_⟩
      have := hL.set hs (fun y b hy hb => hinj y b hy hb) hv
      rwa [hset] at this
    | none =>
      rw [hLx] at hx
      obtain ⟨env', he, hag⟩ := ih haΓ hx
      refine ⟨scope :: env', by rw [Env.assign, hL.absent x hLx, he]; rfl, hag.cons (hL.away ?_)⟩
      intro y b hy hb
      obtain ⟨M, hM, hMx⟩ := exists_of_findSome?_eq_some hx
      exact (haL y b hy).2.1 M hM x a hMx hb.symm

end Memory

/-! ## Expressions and conditions -/

namespace Layer

/-- The slot of the innermost variable of a name. -/
def slotIn (Γ : List Layer) (x : String) : Nat := ((find Γ x).map Var.slot).getD 0

/-- The type of the innermost variable of a name. -/
def typeIn (Γ : List Layer) (x : String) : Option Ty := (find Γ x).map Var.ty

end Layer

/-- A value is a boolean where the compiler takes it for one. -/
def Ty.Fits (t : Ty) (v : Scalar) : Prop := t = .bool → v.ty = .bool

/-- Code that leaves the value of an expression on the stack. -/
structure Computes (kept : Nat → Option Value) (Γ : List Layer) (t : Ty) (items : List Item) (e : Expr) : Prop where
  runs : ∀ ⦃p : Program⦄ ⦃at? : String → Option Nat⦄ ⦃i : Nat⦄ ⦃g : Array Value⦄ (st : List Value) ⦃env : Env⦄,
    Stand p.code [] at? i items → Agrees kept Γ env g →
    RunsTo p ⟨i, g, st⟩ (i + sizes items) st (e.eval env.value)
  bool : t = .bool → ∀ ⦃g : Array Value⦄ ⦃env : Env⦄ ⦃v : Scalar⦄, Agrees kept Γ env g → e.eval env.value = .ok v →
    v.ty = .bool

/-- What a decision comes to: one place if it is true, another if it is false, or a failure. -/
def Decides (p : Program) (a : Spot) (yes no : Spot) : Except Trap Bool → Prop
  | .ok true => Goes p a yes
  | .ok false => Goes p a no
  | .error t => ∀ err, t.error? = some err → Fails p a (.value err) a.globals

/-- Code that goes on to its end where a condition is `f`, and else to a label. -/
def Guards (kept : Nat → Option Value) (Γ : List Layer) (f : Bool) (l : String) (items : List Item)
    (cond : Env → Except Trap Bool) : Prop :=
  ∀ ⦃p : Program⦄ ⦃at? : String → Option Nat⦄ ⦃i t : Nat⦄ ⦃g : Array Value⦄ (st : List Value) ⦃env : Env⦄,
    Stand p.code [] at? i items → at? l = some t → Agrees kept Γ env g →
    Decides p ⟨i, g, st⟩ ⟨if f then i + sizes items else t, g, st⟩ ⟨if f then t else i + sizes items, g, st⟩ (cond env)

section Conditions

variable {kept : Nat → Option Value} {Γ : List Layer} {items : List Item} {e : Expr} {l : String} {g : Array Value}
  {env : Env}
  {v : Scalar}
  {x : String}

theorem Agrees.slotIn (h : Agrees kept Γ env g)
    (hv : env.value x = some v) : g[Layer.slotIn Γ x]? = some v.value := by
  cases hf : Layer.find Γ x with
  | none =>
    rw [h.find_none hf] at hv
    cases hv
  | some a =>
    obtain ⟨w, hw, hg, -⟩ := h.find hf
    cases hv.symm.trans hw
    rw [Layer.slotIn, hf]
    exact hg

theorem Agrees.typeIn (h : Agrees kept Γ env g)
    (hv : env.value x = some v) (ht : Layer.typeIn Γ x = some .bool) : v.ty = .bool := by
  obtain ⟨a, hf, hty⟩ := Option.map_eq_some_iff.mp ht
  obtain ⟨w, hw, -, hb⟩ := h.find hf
  cases hv.symm.trans hw
  exact hb hty

/-- The code of an expression leaves its value. -/
theorem computes_of_code {scope : String} {n : Nat} {b : Bool} {c : Piece} {t : Ty}
    (hc : e.code scope (Layer.slotIn Γ) n b = .ok c) (ht : e.compiledType? (Layer.typeIn Γ) = some t) :
    Computes kept Γ t c.items e := by
  refine ⟨fun _ _ _ _ _ _ hs ha => runs (fun _ _ => ha.slotIn) (fun _ _ => ha.typeIn) hc ht hs, ?_⟩
  rintro rfl g env v ha hv
  exact bool_of_eval (fun _ _ => ha.typeIn) ht hv

/-- The jump at a condition. -/
def jumpUnless (f : Bool) : Op := if f then .jumpFalse 0 else .jumpTrue 0

theorem jumpUnless_eq {f : Bool} {i t : Nat} {o : Op} (h : (jumpUnless f).withOffset? ((t : Int) - i) = some o) :
    o = if !f then .jumpTrue ((t : Int) - i) else .jumpFalse ((t : Int) - i) := by
  cases f <;> cases h <;> rfl

theorem decides_jump {p : Program} {at? : String → Option Nat} {i t : Nat} {st : List Value} {f : Bool}
    (hs : Stand p.code [] at? i [.jump (jumpUnless f) l]) (ht : at? l = some t) (b : Bool) :
    Goes p ⟨i, g, .bool b :: st⟩ ⟨if b = f then i + 1 else t, g, st⟩ := by
  obtain ⟨t', o, ht', ho, hop⟩ := (stand_singleton.mp hs).jump
  obtain rfl : t' = t := Option.some.inj (ht'.symm.trans ht)
  rw [jumpUnless_eq ho] at hop
  by_cases hb : b = f
  · rw [if_pos hb, hb, ← Bool.not_not f]
    exact goes_test_past hop
  · rw [if_neg hb, show b = !f by cases b <;> cases f <;> first | rfl | exact absurd rfl hb]
    exact goes_test hop

/-- A test falls through or jumps as its value says. -/
theorem guards_of_runs {x : Env → Except Trap Scalar} (f : Bool) (l : String)
    (hx : ∀ ⦃p : Program⦄ ⦃at? : String → Option Nat⦄ ⦃i : Nat⦄ ⦃g : Array Value⦄ (st : List Value) ⦃env : Env⦄,
      Stand p.code [] at? i items → Agrees kept Γ env g → RunsTo p ⟨i, g, st⟩ (i + sizes items) st (x env))
    (hb : ∀ ⦃g : Array Value⦄ ⦃env : Env⦄ ⦃v : Scalar⦄, Agrees kept Γ env g → x env = .ok v → v.ty = .bool) :
    Guards kept Γ f l (items ++ [.jump (jumpUnless f) l]) fun env => x env >>= Scalar.truth := by
  intro p at? i t g st env hs ht ha
  obtain ⟨hc, hj⟩ := stand_append.mp hs
  have hrun := hx st hc ha
  dsimp only
  cases hv : x env with
  | error trap =>
    rw [hv] at hrun
    exact hrun
  | ok v =>
    rw [hv] at hrun
    have hbool := hb ha hv
    cases v with
    | int n => cases hbool
    | bool b =>
      have hgo := Goes.trans hrun (decides_jump hj ht b)
      simp only [Item.sizes_append, Item.sizes_cons, Item.size_jump, Item.sizes_nil, ← Nat.add_assoc, Nat.add_zero]
      cases b <;> cases f <;> exact hgo

theorem guards_of_computes (h : Computes kept Γ .bool items e) (f : Bool) (l : String) :
    Guards kept Γ f l (items ++ [.jump (jumpUnless f) l]) e.truth :=
  guards_of_runs f l h.runs (h.bool rfl)

theorem Expr.eval_congr {env env' : String → Option Scalar} : ∀ ⦃e : Expr⦄, (∀ x ∈ e.vars, env x = env' x) →
    e.eval env = e.eval env'
  | .int _, _ | .bool _, _ => rfl
  | .var x, h => by simp only [eval, h x (mem_singleton_self x)]
  | .unary op e, h => by simp only [eval, eval_congr (e := e) h]
  | .binary op a b, h => by
    simp only [eval, eval_congr fun x hx => h x (mem_append_left _ hx),
      eval_congr fun x hx => h x (mem_append_right _ hx)]

theorem guards_always (l : String) : Guards kept Γ true l [] fun _ => .ok true :=
  fun p _ _ _ _ _ _ _ _ _ => Goes.refl p _

end Conditions

/-! ## Statements -/

/-- The labels of `break` and `continue`. -/
structure Exits where
  brk : Option String
  cont : Option String

/-- Where a machine comes to as a statement ends, and the scopes it agrees with there. -/
inductive Lands (p : Program) (at? : String → Option Nat) (kept : Nat → Option Value) (exits : Exits) (L : Layer)
    (Γ : List Layer) (a : Spot) (j : Nat) : Completion → Env → Prop
  | normal {g : Array Value} {env : Env} (hg : Goes p a ⟨j, g, a.stack⟩) (ha : Agrees kept (L :: Γ) env g) :
      Lands p at? kept exits L Γ a j .normal env
  | brk {l : String} {t : Nat} {g : Array Value} {M : Layer} {env : Env} (hl : exits.brk = some l) (ht : at? l = some t)
      (hg : Goes p a ⟨t, g, a.stack⟩) (ha : Agrees kept (M :: Γ) env g) : Lands p at? kept exits L Γ a j .brk env
  | cont {l : String} {t : Nat} {g : Array Value} {M : Layer} {env : Env} (hl : exits.cont = some l)
      (ht : at? l = some t) (hg : Goes p a ⟨t, g, a.stack⟩) (ha : Agrees kept (M :: Γ) env g) :
      Lands p at? kept exits L Γ a j .cont env
  | trap {t : Trap} {g : Array Value} {M : Layer} {env : Env}
      (hf : ∀ err, t.error? = some err → Fails p a (.value err) g) (hM : M.Le L) (ha : Agrees kept (M :: Γ) env g) :
      Lands p at? kept exits L Γ a j (.trap t) env

/-- Code that does what a meaning says, in memory with at least `d` slots. The innermost layer is `L` before and `L'`
after. -/
def Does (d : Nat) (kept : Nat → Option Value) (exits : Exits) (L : Layer) (Γ : List Layer) (L' : Layer)
    (items : List Item) (M : Meaning) : Prop :=
  ∀ ⦃p : Program⦄ ⦃at? : String → Option Nat⦄ ⦃i : Nat⦄ ⦃g : Array Value⦄ (st : List Value) ⦃env env' : Env⦄
    ⦃r : Completion⦄, Stand p.code [] at? i items → d ≤ g.size → Agrees kept (L :: Γ) env g → M env r env' →
    Lands p at? kept exits L' Γ ⟨i, g, st⟩ (i + sizes items) r env'

section Statements

variable {p : Program} {at? : String → Option Nat} {kept : Nat → Option Value} {exits : Exits} {L L' L'' : Layer}
  {Γ : List Layer} {i j d d' : Nat} {g g' : Array Value} {st : List Value} {env env' : Env} {r : Completion}
  {items items' : List Item} {M N : Meaning} {l : String} {w : Value} {ln : String} {ts : List Ty} {es : List Expr}
  {t : Ty}

namespace Lands

/-- Steps before a run of code. -/
theorem after (hg : Goes p ⟨i, g, st⟩ ⟨j, g', st⟩) {k : Nat} (h : Lands p at? kept exits L Γ ⟨j, g', st⟩ k r env') :
    Lands p at? kept exits L Γ ⟨i, g, st⟩ k r env' := by
  cases h with
  | normal h ha => exact .normal (hg.trans h) ha
  | brk hl ht h ha => exact .brk hl ht (hg.trans h) ha
  | cont hl ht h ha => exact .cont hl ht (hg.trans h) ha
  | trap hf hM ha => exact .trap (fun err he => hg.fails (hf err he)) hM ha

variable {a : Spot}

/-- Unless a statement ends normally, what comes behind does not matter. -/
theorem escape (hr : r ≠ .normal) (hL : L.Le L') {k : Nat} (h : Lands p at? kept exits L Γ a j r env') :
    Lands p at? kept exits L' Γ a k r env' := by
  cases h with
  | normal _ _ => exact absurd rfl hr
  | brk hl ht h ha => exact .brk hl ht h ha
  | cont hl ht h ha => exact .cont hl ht h ha
  | trap hf hM ha => exact .trap hf (hM.trans hL) ha

theorem leave {scope : Scope} (h : Lands p at? kept exits L' (L :: Γ) a j r (scope :: env')) :
    Lands p at? kept exits L Γ a j r env' := by
  cases h with
  | normal h ha => exact .normal h ha.leave
  | brk hl ht h ha => exact .brk hl ht h ha.leave
  | cont hl ht h ha => exact .cont hl ht h ha.leave
  | trap hf _ ha => exact .trap hf (.refl L) ha.leave

/-- A run that ends can go on. -/
theorem onward {k : Nat} (h : Lands p at? kept exits L Γ a j r env')
    (hg : ∀ g, Goes p ⟨j, g, a.stack⟩ ⟨k, g, a.stack⟩) : Lands p at? kept exits L Γ a k r env' := by
  cases h with
  | normal h ha => exact .normal (h.trans (hg _)) ha
  | brk hl ht h ha => exact .brk hl ht h ha
  | cont hl ht h ha => exact .cont hl ht h ha
  | trap hf hM ha => exact .trap hf hM ha

theorem decided {cond : Env → Except Trap Bool} {Y Z : Meaning} {y n k : Nat} {r' : Completion}
    (hdec : Decides p ⟨i, g, st⟩ ⟨y, g, st⟩ ⟨n, g, st⟩ (cond env)) (ha : Agrees kept (L :: Γ) env g)
    (hm : branch cond Y Z env r env') (ht : ∀ t, r = .trap t → r' = .trap t)
    (hy : Y env r env' → Lands p at? kept exits L Γ ⟨y, g, st⟩ k r' env')
    (hz : Z env r env' → Lands p at? kept exits L Γ ⟨n, g, st⟩ k r' env') :
    Lands p at? kept exits L Γ ⟨i, g, st⟩ k r' env' := by
  unfold Meaning.branch Meaning.given at hm
  cases hb : cond env with
  | error t =>
    rw [hb] at hm hdec
    obtain ⟨rfl, rfl⟩ := hm
    rw [ht t rfl]
    exact .trap hdec (.refl L) ha
  | ok b =>
    rw [hb] at hm hdec
    cases b with
    | true => exact .after hdec (hy hm)
    | false => exact .after hdec (hz hm)

end Lands

theorem does_skip : Does d kept exits L Γ L [] .skip := by
  rintro p at? i g st env env' r - - ha ⟨rfl, rfl⟩
  exact .normal (Goes.refl p _) ha

/-- Two statements run one after the other. -/
theorem does_seq (hM : Does d kept exits L Γ L' items M) (hL : L'.Le L'') (hN : Does d kept exits L' Γ L'' items' N) :
    Does d kept exits L Γ L'' (items ++ items') (.seq M N) := by
  intro p at? i g st env env' r hs hd ha hm
  obtain ⟨hs1, hs2⟩ := stand_append.mp hs
  rw [Item.sizes_append, ← Nat.add_assoc]
  rcases hm with ⟨mid, hm, hn⟩ | ⟨hr, hm⟩
  · cases hM st hs1 hd ha hm with
    | normal hg ha' => exact .after hg (hN _ hs2 (by rw [hg.1]; exact hd) ha' hn)
  · exact (hM _ hs1 hd ha hm).escape hr hL

/-- A block's variables end with it. -/
theorem does_inScope (h : Does d kept exits .empty (L :: Γ) L' items M) :
    Does d kept exits L Γ L items (.inScope M) := by
  rintro p at? i g st env env' r hs hd ha ⟨scope, hm⟩
  exact (h _ hs hd ha.enter hm).leave

theorem goes_label {t : Nat} (hs : Item.Fits p.code [] at? i (.jump (.jump 0) l)) (ht : at? l = some t) :
    Goes p ⟨i, g, st⟩ ⟨t, g, st⟩ := by
  obtain ⟨t', o, ht', ho, hop⟩ := hs.jump
  obtain rfl : t' = t := Option.some.inj (ht'.symm.trans ht)
  cases ho
  exact goes_jump hop

/-- A `break` lands on the exit label. -/
theorem does_brk (hl : exits.brk = some l) :
    Does d kept exits L Γ L [.jump (.jump 0) l] fun env r env' => r = .brk ∧ env' = env := by
  rintro p at? i g st env env' r hs - ha ⟨rfl, rfl⟩
  obtain ⟨t, -, ht, -⟩ := (stand_singleton.mp hs).jump
  exact .brk hl ht (goes_label (stand_singleton.mp hs) ht) ha

theorem does_cont (hl : exits.cont = some l) :
    Does d kept exits L Γ L [.jump (.jump 0) l] fun env r env' => r = .cont ∧ env' = env := by
  rintro p at? i g st env env' r hs - ha ⟨rfl, rfl⟩
  obtain ⟨t, -, ht, -⟩ := (stand_singleton.mp hs).jump
  exact .cont hl ht (goes_label (stand_singleton.mp hs) ht) ha

/-! ### Branches -/

variable {cond : Env → Except Trap Bool} {test yes no : List Item} {Y Z : Meaning}
variable {B : Meaning} {body bodies tests : List Item} {le : String} {clauses : Clauses} {ls : List String} {a : Spot}
  {scope : Scope} {slot : Option Nat} {start : Int64 → Meaning} {e : Expr}

/-- An `if` without `else`. -/
theorem does_when (hc : Guards kept (L :: Γ) true l test cond) (hy : Does d kept exits L Γ L yes Y) :
    Does d kept exits L Γ L (test ++ yes ++ [.label l]) (.branch cond Y .skip) := by
  intro p at? i g st env env' r hs hd ha hm
  simp only [stand_append, stand_singleton, Item.sizes_append, Item.sizes_cons, Item.size_label, Item.sizes_nil,
    ← Nat.add_assoc, Nat.add_zero] at hs ⊢
  obtain ⟨⟨hst, hsy⟩, hl⟩ := hs
  refine .decided (hc _ hst hl ha) ha hm (fun _ h => h) (hy _ hsy hd ha) ?_
  rintro ⟨rfl, rfl⟩
  exact .normal (.refl p _) ha

/-- An `if` with `else`: both branches meet behind it. -/
theorem does_branch {l' : String} (hc : Guards kept (L :: Γ) true l test cond) (hy : Does d kept exits L Γ L yes Y)
    (hn : Does d kept exits L Γ L no Z) : Does d kept exits L Γ L
      (test ++ yes ++ [.jump (.jump 0) l'] ++ [.label l] ++ no ++ [.label l']) (.branch cond Y Z) := by
  intro p at? i g st env env' r hs hd ha hm
  simp only [stand_append, stand_singleton, Item.sizes_append, Item.sizes_cons, Item.size_label, Item.size_jump,
    Item.sizes_nil, ← Nat.add_assoc, Nat.add_zero] at hs ⊢
  obtain ⟨⟨⟨⟨⟨hst, hsy⟩, hsj⟩, hl⟩, hsn⟩, hend⟩ := hs
  refine .decided (hc _ hst hl ha) ha hm (fun _ h => h) (fun hm => ?_) (hn _ hsn hd ha)
  exact (hy _ hsy hd ha hm).onward fun _ => goes_label hsj hend

/-! ### Loops -/

/-- A body in its scope that goes on comes to the label of `continue`, which stands at its end. -/
theorem Lands.goesOn {lb lc : String}
    (h : Lands p at? kept ⟨some lb, some lc⟩ L' (L :: Γ) a j r (scope :: env)) (hr : r.GoesOn) (hj : at? lc = some j) :
    ∃ g, Goes p a ⟨j, g, a.stack⟩ ∧ Agrees kept (L :: Γ) env g := by
  rcases hr with rfl | rfl
  · cases h with
    | normal hg ha => exact ⟨_, hg, ha.leave⟩
  · cases h with
    | cont hl ht hg ha =>
      cases hl
      cases ht.symm.trans hj
      exact ⟨_, hg, ha.leave⟩

/-- A `break` inside a loop reaches its exit label. -/
theorem Lands.breaks {lb : String} {lc : Option String} {t : Nat}
    (h : Lands p at? kept ⟨some lb, lc⟩ L' (L :: Γ) a j .brk (scope :: env)) (ht : at? lb = some t) :
    ∃ g, Goes p a ⟨t, g, a.stack⟩ ∧ Agrees kept (L :: Γ) env g := by
  cases h with
  | brk hl ht' hg ha =>
    cases hl
    cases ht'.symm.trans ht
    exact ⟨_, hg, ha.leave⟩

theorem Lands.stops {exits' : Exits} {t : Trap} {k : Nat}
    (h : Lands p at? kept exits' L' (L :: Γ) a j (.trap t) (scope :: env)) :
    Lands p at? kept exits L Γ a k (.trap t) env := by
  cases h with
  | trap hf _ ha => exact .trap hf (.refl L) ha.leave

/-- A counted loop, by induction on its turns. -/
theorem does_turns {lc lk : String} {post : List Item} {P : Meaning}
    (hc : Guards kept (L :: Γ) true le test cond) (hb : Does d kept ⟨some le, some lk⟩ .empty (L :: Γ) L' body B)
    (hp : Does d kept exits L Γ L post P) : Does d kept exits L Γ L
      ([.label lc] ++ test ++ body ++ [.label lk] ++ post ++ [.jump (.jump 0) lc] ++ [.label le])
      (Meaning.Turns cond (.inScope B) P) := by
  intro p at? i g st env env' r hs hd ha hm
  simp only [stand_append, stand_singleton, Item.sizes_append, Item.sizes_cons, Item.size_label, Item.size_jump,
    Item.sizes_nil, ← Nat.add_assoc, Nat.add_zero] at hs ⊢
  obtain ⟨⟨⟨⟨⟨⟨hlc, hst⟩, hsb⟩, hlk⟩, hsp⟩, hsj⟩, hle⟩ := hs
  have decides {g : Array Value} {env : Env} {c : Except Trap Bool} (ha : Agrees kept (L :: Γ) env g)
      (h : cond env = c) := h ▸ hc st hst hle ha
  -- memory keeps its size, so that each turn begins as the first one did
  induction hm generalizing g with
  | @done env h =>
    have hdec := decides ha h
    exact .normal hdec ha
  | @trap env t h =>
    have hdec := decides ha h
    exact .trap hdec (.refl L) ha
  | @brk env env' h hbody =>
    have hdec := decides ha h
    obtain ⟨scope, hbody⟩ := hbody
    obtain ⟨g', hg', ha'⟩ := (hb st hsb hd ha.enter hbody).breaks hle
    exact .normal (Goes.trans hdec hg') ha'
  | @stop env env' t h hbody =>
    have hdec := decides ha h
    obtain ⟨scope, hbody⟩ := hbody
    exact .after hdec (hb st hsb hd ha.enter hbody).stops
  | @stopPost env mid env' r t h hbody hr hpost =>
    have hdec := decides ha h
    obtain ⟨scope, hbody⟩ := hbody
    obtain ⟨g', hg', ha'⟩ := (hb st hsb hd ha.enter hbody).goesOn hr hlk
    have hland := hp st hsp (by rw [hg'.1]; exact hd) ha' hpost
    exact .after (Goes.trans hdec hg') (Lands.escape (fun h => Completion.noConfusion h) (.refl L) hland)
  | @turn env mid next env' r r' h hbody hr hpost _ ih =>
    have hdec := decides ha h
    obtain ⟨scope, hbody⟩ := hbody
    obtain ⟨g', hg', ha'⟩ := (hb st hsb hd ha.enter hbody).goesOn hr hlk
    have hd' : d ≤ g'.size := by rw [hg'.1]; exact hd
    cases hp st hsp hd' ha' hpost with
    | normal hg'' ha'' =>
      have hback := (Goes.trans hdec hg').trans (hg''.trans (goes_label hsj hlc))
      exact .after hback (ih (by rw [hg''.1]; exact hd') ha'')

/-- The slot of the variable of a lap takes its integer. `L` is the layer before the first lap, `L'` the one in every
other. -/
def Starts (d : Nat) (kept : Nat → Option Value) (Γ : List Layer) (L L' : Layer) (slot : Option Nat)
    (start : Int64 → Meaning) : Prop :=
  ∀ ⦃M : Layer⦄ ⦃g : Array Value⦄ ⦃env env' : Env⦄ ⦃n : Int64⦄, M = L ∨ M = L' → d ≤ g.size →
    Agrees kept (M :: Γ) env g → start n env .normal env' →
    (∀ k ∈ slot, k < g.size) ∧ Agrees kept (L' :: Γ) env' (slot.elim g (g.setIfInBounds · (.int n)))

/-- A range loop from its counter on, by its turns. -/
theorem lands_laps (st : List Value)
    {K : Layer} {n x : Int64} (hstart : Starts d kept (K :: Γ) L L' slot start)
    (hb : Does d kept ⟨some le, some ln⟩ .empty (L' :: K :: Γ) L'' body B)
    (hs : Stand p.code [] at? i ([.label ln] ++ [.jump (.next (slot.map Slot.global) none 0) le] ++ body ++
      [.jump (.jump 0) ln] ++ [.label le] ++ [.op (.pop 1)])) (hd : d ≤ g.size) {M : Layer} (hM : M = L ∨ M = L')
    (ha : Agrees kept (M :: K :: Γ) env g)
    (hm : Meaning.Laps start (.inScope B) n x env r (scope :: env')) :
    ∃ g', Agrees kept (K :: Γ) env' g' ∧ ((r = .normal ∧
    Goes p ⟨i, g, .count x n :: st⟩ ⟨i + 1 + sizes body + 2, g', st⟩) ∨
      ∃ t, r = .trap t ∧ ∀ err, t.error? = some err → Fails p ⟨i, g, .count x n :: st⟩ (.value err) g') := by
  simp only [stand_append, stand_singleton, Item.sizes_append, Item.sizes_cons, Item.size_label, Item.size_jump,
    Item.sizes_nil, ← Nat.add_assoc, Nat.add_zero] at hs
  obtain ⟨⟨⟨⟨⟨hln, hsn⟩, hsb⟩, hsj⟩, hle⟩, hpop, -⟩ := hs
  obtain ⟨t, o, ht, ho, hop⟩ := hsn.jump
  cases ht.symm.trans hle
  cases ho
  -- the variable takes its integer, and the body is done in a scope of its own
  have turn {x : Int64} {g : Array Value} {M : Layer} {env mid next : Env} {r : Completion} (hM : M = L ∨ M = L')
      (hd : d ≤ g.size) (ha : Agrees kept (M :: K :: Γ) env g) (h : x < n) (hset : start x env .normal mid)
      (hbody : inScope B mid r next) : ∃ g1 scope',
      Goes p ⟨i, g, .count x n :: st⟩ ⟨i + 1, g1, .count (x + 1) n :: st⟩ ∧
        Lands p at? kept ⟨some le, some ln⟩ L'' (L' :: K :: Γ)
          ⟨i + 1, g1, .count (x + 1) n :: st⟩ (i + 1 + sizes body) r
          (scope' :: next) := by
    obtain ⟨hk, ha1⟩ := hstart hM hd ha hset
    have hgo : Goes p ⟨i, g, .count x n :: st⟩ _ := goes_next hop h hk
    obtain ⟨scope', hbody⟩ := hbody
    exact ⟨_, scope', hgo, hb _ hsb (by rw [hgo.1]; exact hd) ha1.enter hbody⟩
  generalize henv : scope :: env' = after at hm
  induction hm generalizing g M with
  | @done x env h =>
    subst henv
    exact ⟨g, ha.leave, .inl ⟨rfl, (goes_next_end hop h).trans (goes_pop hpop)⟩⟩
  | @brk x env mid env' h hset hbody =>
    subst henv
    obtain ⟨g1, scope', hgo, hland⟩ := turn hM hd ha h hset hbody
    obtain ⟨g', hg', ha'⟩ := hland.breaks hle
    exact ⟨g', ha'.leave, .inl ⟨rfl, hgo.trans (hg'.trans (goes_pop hpop))⟩⟩
  | @stop x env mid env' t h hset hbody =>
    subst henv
    obtain ⟨g1, scope', hgo, hland⟩ := turn hM hd ha h hset hbody
    cases hland with
    | trap hf _ ha' => exact ⟨_, ha'.leave.leave, .inr ⟨t, rfl, fun err he => hgo.fails (hf err he)⟩⟩
  | @lap x env mid next env' r r' h hset hbody hr _ ih =>
    obtain ⟨g1, scope', hgo, hland⟩ := turn hM hd ha h hset hbody
    obtain ⟨g', hg', ha'⟩ := (hland.onward fun _ => goes_label hsj hln).goesOn hr hln
    have hback := hgo.trans hg'
    obtain ⟨g'', ha'', h⟩ := ih (by rw [hback.1]; exact hd) (.inr rfl) ha' henv
    refine ⟨g'', ha'', h.imp (fun ⟨hr, h⟩ => ⟨hr, hback.trans h⟩) fun ⟨t, hr, h⟩ =>
      ⟨t, hr, fun err he => hback.fails (h err he)⟩⟩

/-- A range loop evaluates its limit once. -/
theorem does_range {limit : List Item} (hl : Computes kept (.empty :: L :: Γ) t limit e)
    (hstart : Starts d kept (L :: Γ) .empty L' slot start)
    (hb : Does d kept ⟨some le, some ln⟩ .empty (L' :: L :: Γ) L'' body B) : Does d kept exits L Γ L
      (limit ++ [.op .range] ++ ([.label ln] ++ [.jump (.next (slot.map Slot.global) none 0) le] ++ body ++
        [.jump (.jump 0) ln] ++ [.label le] ++ [.op (.pop 1)]))
      (.inScope fun env => given (e.eval env.value >>= Scalar.number)
        (fun n => Meaning.Laps start (.inScope B) n 0) env) := by
  rintro p at? i g st env env' r hs hd ha ⟨scope, hm⟩
  obtain ⟨hs, hsl⟩ := stand_append.mp hs
  obtain ⟨hlim, ⟨hrange, -⟩, -⟩ := stand_append.mp hs
  have hrun := hl.runs st hlim ha.enter
  simp only [Item.sizes_append, Item.sizes_cons, Item.size_op, Item.size_label, Item.size_jump, Item.sizes_nil,
    Nat.add_zero, Nat.zero_add] at hsl ⊢
  cases hv : e.eval (Env.value ((fun _ => none) :: env)) with
  | error t =>
    rw [hv] at hm hrun
    obtain ⟨rfl, he⟩ := hm
    cases he
    exact .trap hrun (.refl L) ha
  | ok v =>
    rw [hv] at hm hrun
    cases v with
    | bool b =>
      obtain ⟨rfl, he⟩ := hm
      cases he
      exact .trap (nofun) (.refl L) ha
    | int n =>
      have hgo := Goes.trans hrun (goes_range hrange)
      obtain ⟨g', ha', ⟨rfl, hg'⟩ | ⟨t, rfl, hf⟩⟩ := lands_laps st hstart hb hsl hd (.inl rfl) ha.enter hm
      · refine .normal (hgo.trans ?_) ha'
        rw [show i + (sizes limit + 1 + (1 + sizes body + 1 + 1)) = i + (sizes limit + 1) + 1 + sizes body + 2 by omega]
        exact hg'
      · exact .trap (fun err he => hgo.fails (hf err he)) (.refl L) ha'

/-! ### Switches -/

/-- At a label a machine does what the body of a clause means, and then comes to the end of the switch. -/
def Serves (p : Program) (at? : String → Option Nat) (d : Nat) (kept : Nat → Option Value) (exits : Exits) (L : Layer)
    (Γ : List Layer) (j : Nat) (l : String) (M : Meaning) : Prop :=
  ∃ t, at? l = some t ∧ ∀ ⦃g : Array Value⦄ (st : List Value) ⦃env env' : Env⦄ ⦃r : Completion⦄, d ≤ g.size →
    Agrees kept (L :: Γ) env g → M env r env' → Lands p at? kept exits L Γ ⟨t, g, st⟩ j r.caught env'

theorem serves_body (hb : Does d kept { exits with brk := some le } .empty (L :: Γ) L' body B) (hle : at? le = some j)
    (hs : Stand p.code [] at? i ([.label l] ++ body ++ [.jump (.jump 0) le])) :
    Serves p at? d kept exits L Γ j l (.inScope B) := by
  simp only [stand_append, stand_singleton, Item.sizes_append, Item.sizes_cons, Item.size_label, Item.sizes_nil,
    Nat.add_zero, Nat.zero_add] at hs
  obtain ⟨⟨hl, hsb⟩, hsj⟩ := hs
  refine ⟨i, hl, ?_⟩
  rintro g st env env' r hd ha ⟨scope, hm⟩
  cases (hb st hsb hd ha.enter hm).onward fun _ => goes_label hsj hle with
  | normal hg ha' => exact .normal hg ha'.leave
  | brk hl ht hg ha' =>
    cases hl
    cases ht.symm.trans hle
    exact .normal hg ha'.leave
  | cont hl ht hg ha' => exact .cont hl ht hg ha'.leave
  | trap hf _ ha' => exact .trap hf (.refl L) ha'.leave

/-- The labels of the clauses of a switch lead to their bodies. -/
def Served (p : Program) (at? : String → Option Nat) (d : Nat) (kept : Nat → Option Value) (exits : Exits) (L : Layer)
    (Γ : List Layer) (j : Nat) : Clauses → List String → Prop
  | .cons _ body rest, l :: ls => Serves p at? d kept exits L Γ j l (.inScope body.means) ∧
      Served p at? d kept exits L Γ j rest ls
  | .nil, [] => True
  | _, _ => False

/-- Code of the bodies of a switch that ends at the label `le`. -/
def Bodies (d : Nat) (kept : Nat → Option Value) (exits : Exits) (L : Layer) (Γ : List Layer) (le : String)
    (clauses : Clauses) (ls : List String) (items : List Item) : Prop :=
  ∀ ⦃p : Program⦄ ⦃at? : String → Option Nat⦄ ⦃i j : Nat⦄, Stand p.code [] at? i items → at? le = some j →
    Served p at? d kept exits L Γ j clauses ls

/-- Code that jumps to a label if one of some cases is met. -/
inductive Tries (kept : Nat → Option Value) (Γ : List Layer) (tag : Option Scalar) (l : String) :
    List Expr → List Item → Prop
  | nil : Tries kept Γ tag l [] []
  | cons {e : Expr} {es : List Expr} {items items' : List Item} (h : Guards kept Γ false l items (e.meets tag))
      (hs : Tries kept Γ tag l es items') : Tries kept Γ tag l (e :: es) (items ++ items')

/-- The code of the cases of a switch, with the labels of its clauses. -/
inductive Chooses (kept : Nat → Option Value) (Γ : List Layer) (tag : Option Scalar) :
    Clauses → List String → List Item → Prop
  | nil : Chooses kept Γ tag .nil [] []
  | case {es : List Expr} {body : Block} {rest : Clauses} {l : String} {ls : List String} {items items' : List Item}
      (h : Tries kept Γ tag l es items) (hs : Chooses kept Γ tag rest ls items') :
      Chooses kept Γ tag (.cons (some es) body rest) (l :: ls) (items ++ items')
  | default {body : Block} {rest : Clauses} {l : String} {ls : List String} {items : List Item}
      (hs : Chooses kept Γ tag rest ls items) : Chooses kept Γ tag (.cons none body rest) (l :: ls) items

variable {kept' : Nat → Option Value} {tag : Option Scalar}

theorem Tries.lands (h : Tries kept' (L :: Γ) tag l es items)
    (hk : ∀ k v, kept k = some v → kept' k = some v) (hs : Stand p.code [] at? i items) (hd : d ≤ g.size)
    (ha : Agrees kept' (L :: Γ) env g) (hy : Serves p at? d kept exits L Γ j l Y)
    (hz : ∀ r env', Z env r env' → Lands p at? kept exits L Γ ⟨i + sizes items, g, st⟩ j r.caught env')
    (hm : anyOf tag Y Z es env r env') : Lands p at? kept exits L Γ ⟨i, g, st⟩ j r.caught env' := by
  induction h generalizing i with
  | nil => exact hz r env' hm
  | @cons e es xs ys hg _ ih =>
    obtain ⟨hsx, hsy⟩ := stand_append.mp hs
    obtain ⟨t, ht, hy'⟩ := id hy
    refine .decided (hg st hsx ht ha) (ha.weaken hk) hm (by rintro t rfl; rfl) (hy' _ hd (ha.weaken hk))
      (ih hsy fun r env' hr => ?_)
    have := hz r env' hr
    rwa [Item.sizes_append, ← Nat.add_assoc] at this

/-- The tests end at the first clause that matches. -/
theorem Chooses.lands (h : Chooses kept' (L :: Γ) tag clauses ls items)
    (hk : ∀ k v, kept k = some v → kept' k = some v) (hs : Stand p.code [] at? i items) (hd : d ≤ g.size)
    (ha : Agrees kept' (L :: Γ) env g) (hserved : Served p at? d kept exits L Γ j clauses ls)
    (hz : ∀ r env', Z env r env' → Lands p at? kept exits L Γ ⟨i + sizes items, g, st⟩ j r.caught env')
    (hm : clauses.means tag Z env r env') : Lands p at? kept exits L Γ ⟨i, g, st⟩ j r.caught env' := by
  induction h generalizing i r env' with
  | nil => exact hz r env' hm
  | @case es body rest l ls xs ys htries _ ih =>
    obtain ⟨hsx, hsy⟩ := stand_append.mp hs
    refine htries.lands hk hsx hd ha hserved.1 (fun r env' hr => ih hsy hserved.2 (fun r env' hr => ?_) hr) hm
    have := hz r env' hr
    rwa [Item.sizes_append, ← Nat.add_assoc] at this
  | default _ ih => exact ih hs hserved.2 hz hm

theorem Served.other : ∀ (clauses : Clauses) (ls : List String), Served p at? d kept exits L Γ j clauses ls →
    (∃ l, clauses.defaultLabel ls = some l ∧ Serves p at? d kept exits L Γ j l clauses.other) ∨
      clauses.defaultLabel ls = none ∧ clauses.other = .skip
  | .nil, _, _ => .inr ⟨rfl, rfl⟩
  | .cons none _ _, l :: _, h => .inl ⟨l, rfl, h.1⟩
  | .cons (some _) _ rest, _ :: ls, h => Served.other rest ls h.2

/-- The chosen body runs, then the code behind it. -/
theorem lands_switch (st : List Value)
    (hc : Chooses kept' (L :: Γ) tag clauses ls tests) (hk : ∀ k v, kept k = some v → kept' k = some v)
    (hb : Bodies d kept exits L Γ le clauses ls bodies)
    (hs : Stand p.code [] at? i (tests ++ [.jump (.jump 0) ((clauses.defaultLabel ls).getD le)] ++ bodies ++
    [.label le])) (hd : d ≤ g.size) (ha : Agrees kept' (L :: Γ) env g)
    (hm : breakable (clauses.means tag clauses.other) env r env') :
    Lands p at? kept exits L Γ ⟨i, g, st⟩ (i + (sizes tests + 1 + sizes bodies)) r env' := by
  simp only [stand_append, stand_singleton, Item.sizes_append, Item.sizes_cons, Item.size_jump, Item.sizes_nil,
    Nat.add_zero] at hs
  obtain ⟨⟨⟨hst, hsj⟩, hsb⟩, hle⟩ := hs
  have hserved := hb hsb hle
  obtain ⟨r, hm, rfl⟩ := hm
  refine hc.lands hk hst hd ha hserved (fun r env' hr => ?_) hm
  rcases Served.other _ _ hserved with ⟨l, hl, t, ht, hland⟩ | ⟨hl, hskip⟩
  · rw [hl] at hsj
    exact .after (goes_label hsj ht) (hland _ hd (ha.weaken hk) hr)
  · rw [hl] at hsj
    rw [hskip] at hr
    obtain ⟨rfl, rfl⟩ := hr
    exact .normal (goes_label hsj hle) (ha.weaken hk)

/-- What is kept, and a value in one more slot. -/
def keeping (kept : Nat → Option Value) (k : Nat) (w : Value) : Nat → Option Value :=
  fun j => if j = k then some w else kept j

theorem keeping_of_kept {k : Nat} (hk : kept k = none) (j : Nat) (v : Value) (hj : kept j = some v) :
    keeping kept k w j = some v := by
  unfold keeping
  rw [if_neg, hj]
  rintro rfl
  rw [hk] at hj
  cases hj

theorem Agrees.keeping {k : Nat} (h : Agrees kept Γ env g) (hk : kept k = none) (hf : Layer.Free Γ k)
    (hs : k < g.size) : Agrees (keeping kept k w) Γ env (g.setIfInBounds k w) := by
  refine ⟨fun j v hj => ?_, (h.away hk hf).layers⟩
  unfold Goblet.keeping at hj
  split at hj
  · next he =>
    cases hj
    rw [he]
    exact Array.getElem?_setIfInBounds_self_of_lt hs
  · exact (h.away hk hf).kept j v hj

/-- A case is compared with the tag, which lies in a slot of its own. -/
theorem guards_tag {scope x : String} {k n : Nat} {b : Bool} {c : Piece} {v : Scalar}
    (hc : (binary .eql (.var x) e).code scope (fun y => if y = x then k else Layer.slotIn Γ y) n b = .ok c)
    (ht : (binary .eql (.var x) e).compiledType? (fun y => if y = x then some t else Layer.typeIn Γ y) = some .bool)
    (hx : x ∉ e.vars) (hv : t.Fits v) (l : String) :
    Guards (keeping kept k v.value) Γ false l (c.items ++ [.jump (jumpUnless false) l]) (e.meets (some v)) := by
  have hmeets : e.meets (some v) = fun env => (e.eval env.value >>= Scalar.binary .eql v) >>= Scalar.truth := by
    funext env
    unfold meets
    cases e.eval env.value <;> rfl
  -- the tag is one more variable
  have hval : ∀ env : Env, (binary .eql (.var x) e).eval (fun y => if y = x then some v else env.value y) =
      e.eval env.value >>= Scalar.binary .eql v := by
    intro env
    rw [eval_binary, eval]
    simp only [↓reduceIte]
    rw [eval_congr fun y hy => if_neg fun (h : y = x) => hx (h ▸ hy)]
    cases v <;> rfl
  have hslot : ∀ ⦃env : Env⦄ ⦃g : Array Value⦄, Agrees (keeping kept k v.value) Γ env g → ∀ y w,
      (if y = x then some v else env.value y) = some w → g[if y = x then k else Layer.slotIn Γ y]? = some w.value := by
    intro env g ha y w hw
    split at hw
    · next he =>
      cases hw
      rw [if_pos he]
      exact ha.kept k _ (if_pos rfl)
    · next he =>
      rw [if_neg he]
      exact ha.slotIn hw
  have hbool : ∀ ⦃env : Env⦄ ⦃g : Array Value⦄, Agrees (keeping kept k v.value) Γ env g → ∀ y w,
      (if y = x then some v else env.value y) = some w →
      (if y = x then some t else Layer.typeIn Γ y) = some .bool → w.ty = .bool := by
    intro env g ha y w hw hty
    split at hw
    · next he =>
      cases hw
      rw [if_pos he] at hty
      exact hv (Option.some.inj hty)
    · next he =>
      rw [if_neg he] at hty
      exact ha.typeIn hw hty
  rw [hmeets]
  refine guards_of_runs false l (fun _ _ _ _ _ _ hs ha => ?_) fun _ _ _ ha hw => ?_
  · rw [← hval]
    exact runs (hslot ha) (hbool ha) hc ht hs
  · rw [← hval] at hw
    exact bool_of_eval (hbool ha) ht hw

/-- A `switch` without a tag. -/
theorem does_untagged (hc : Chooses kept (L :: Γ) none clauses ls tests)
    (hb : Bodies d kept exits L Γ le clauses ls bodies) : Does d kept exits L Γ L
      (tests ++ [.jump (.jump 0) ((clauses.defaultLabel ls).getD le)] ++ bodies ++ [.label le])
      (.tagged none fun v => .breakable (clauses.means v clauses.other)) := by
  intro p at? i g st env env' r hs hd ha hm
  have hland := lands_switch st hc (fun _ _ h => h) hb hs hd ha hm
  simpa [Nat.add_assoc] using hland

/-- A tag stays in its slot while the clauses run. -/
theorem does_tagged {tag : List Item}
    {k : Nat} (he : Computes kept (L :: Γ) t tag e) (hk : kept k = none) (hf : Layer.Free (L :: Γ) k) (hkd : k < d)
    (hc : ∀ v, t.Fits v → Chooses (keeping kept k v.value) (L :: Γ) (some v) clauses ls tests)
    (hb : Bodies d kept exits L Γ le clauses ls bodies) : Does d kept exits L Γ L
      (tag ++ [.op (.set (.global k))] ++ (tests ++ [.jump (.jump 0) ((clauses.defaultLabel ls).getD le)] ++ bodies ++
        [.label le])) (.tagged (some e) fun v => .breakable (clauses.means v clauses.other)) := by
  intro p at? i g st env env' r hs hd ha hm
  obtain ⟨hs, hsw⟩ := stand_append.mp hs
  obtain ⟨hst, ⟨hset, -⟩, -⟩ := stand_append.mp hs
  have hrun := he.runs st hst ha
  have hm : given (e.eval env.value)
    (fun v => .breakable (clauses.means (some v) clauses.other)) env r env' := hm
  cases hv : e.eval env.value with
  | error t =>
    rw [hv] at hm hrun
    obtain ⟨rfl, rfl⟩ := hm
    exact .trap hrun (.refl L) ha
  | ok v =>
    rw [hv] at hm hrun
    have hfit : t.Fits v := fun ht => he.bool ht ha hv
    have hks : k < g.size := Nat.lt_of_lt_of_le hkd hd
    have hgo := Goes.trans hrun (goes_set hset hks)
    have hland := lands_switch st (hc v hfit) (keeping_of_kept hk) hb hsw (by rw [hgo.1]; exact hd)
      (ha.keeping hk hf hks) hm
    refine .after hgo ?_
    simpa [Nat.add_assoc] using hland

/-! ### Assignments -/

/-- Code that leaves the values of expressions on the stack, the last one on top. -/
def Evaluates (kept : Nat → Option Value) (Γ : List Layer) (ts : List Ty) (items : List Item) (es : List Expr) : Prop :=
  ∀ ⦃p : Program⦄ ⦃at? : String → Option Nat⦄ ⦃i : Nat⦄ ⦃g : Array Value⦄ (st : List Value) ⦃env : Env⦄,
    Stand p.code [] at? i items → Agrees kept Γ env g →
    match Expr.evalAll env.value es with
    | .ok vs => Goes p ⟨i, g, st⟩ ⟨i + sizes items, g, (vs.map Scalar.value).reverse ++ st⟩ ∧ List.Forall₂ Ty.Fits ts vs
    | .error t => ∀ err, t.error? = some err → Fails p ⟨i, g, st⟩ (.value err) g

theorem evaluates_nil : Evaluates kept Γ [] [] [] := fun p _ _ _ _ _ _ _ => ⟨Goes.refl p _, .nil⟩

/-- The values of a list are pushed in order. -/
theorem evaluates_cons (he : Computes kept Γ t items e)
    (hes : Evaluates kept Γ ts items' es) : Evaluates kept Γ (t :: ts) (items ++ items') (e :: es) := by
  intro p at? i g st env hs ha
  obtain ⟨hs1, hs2⟩ := stand_append.mp hs
  have hrun := he.runs st hs1 ha
  rw [Item.sizes_append, ← Nat.add_assoc]
  unfold evalAll
  cases hv : e.eval env.value with
  | error t =>
    rw [hv] at hrun
    exact hrun
  | ok v =>
    rw [hv] at hrun
    have hrun : Goes p ⟨i, g, st⟩ ⟨i + sizes items, g, v.value :: st⟩ := hrun
    have hrest := hes (v.value :: st) hs2 ha
    cases hvs : evalAll env.value es with
    | error t =>
      rw [hvs] at hrest
      exact fun err hr => hrun.fails (hrest err hr)
    | ok vs =>
      rw [hvs] at hrest
      refine ⟨?_, .cons (fun ht => he.bool ht ha hv) hrest.2⟩
      have hgo := hrun.trans hrest.1
      simpa using hgo

/-- Code that stores the values on top of the stack, the top one first, into these names. -/
def Puts (d : Nat) (kept : Nat → Option Value) (k : Storing) (L : Layer) (Γ : List Layer) (L' : Layer)
    (targets : List (String × Ty)) (items : List Item) : Prop :=
  ∀ ⦃p : Program⦄ ⦃at? : String → Option Nat⦄ ⦃i : Nat⦄ ⦃g : Array Value⦄ (st : List Value) ⦃env : Env⦄
    ⦃vs : List Scalar⦄, Stand p.code [] at? i items → d ≤ g.size → Agrees kept (L :: Γ) env g →
    List.Forall₂ (fun (a : String × Ty) v => a.2.Fits v) targets vs → ∃ g' env',
      env.putAll k ((targets.map (·.1)).zip vs) = some env' ∧
      Goes p ⟨i, g, vs.map Scalar.value ++ st⟩ ⟨i + sizes items, g', st⟩ ∧ Agrees kept (L' :: Γ) env' g'

variable {k : Storing} {x : String} {t : Ty} {targets : List (String × Ty)}

theorem puts_nil : Puts d kept k L Γ L [] [] := by
  intro p at? i g st env vs _ _ ha hv
  cases hv
  exact ⟨g, env, rfl, Goes.refl p _, ha⟩

/-- An instruction that stores the value on top of the stack into a name. -/
def Put (d : Nat) (kept : Nat → Option Value) (k : Storing) (L : Layer) (Γ : List Layer) (L' : Layer) (x : String)
    (t : Ty) (o : Op) : Prop :=
  ∀ ⦃p : Program⦄ ⦃i : Nat⦄ ⦃g : Array Value⦄ (st : List Value) ⦃env : Env⦄ ⦃v : Scalar⦄, OpAt p.code i o → d ≤ g.size →
    Agrees kept (L :: Γ) env g → t.Fits v → ∃ g' env', env.put k x v = some env' ∧
      Goes p ⟨i, g, v.value :: st⟩ ⟨i + 1, g', st⟩ ∧ Agrees kept (L' :: Γ) env' g'

/-- The first target takes the top of the stack. -/
theorem puts_cons {o : Op} (hx : Put d kept k L Γ L' x t o) (hrest : Puts d kept k L' Γ L'' targets items) :
    Puts d kept k L Γ L'' ((x, t) :: targets) (.op o :: items) := by
  intro p at? i g st env vs hs hd ha hv
  cases hv with
  | @cons _ v _ vs hv hvs =>
    obtain ⟨hop, hs⟩ := hs
    obtain ⟨g1, env1, hput, hgo, ha1⟩ := hx (vs.map Scalar.value ++ st) hop.1 hd ha hv
    obtain ⟨g2, env2, hputs, hgo2, ha2⟩ := hrest st hs (by rw [hgo.1]; exact hd) ha1 hvs
    refine ⟨g2, env2, ?_, ?_, ha2⟩
    · simp only [map_cons, zip_cons_cons, Env.putAll, hput, Option.bind_some]
      exact hputs
    · rw [Item.sizes_cons, ← Nat.add_assoc]
      exact hgo.trans hgo2

theorem put_blank : Put d kept k L Γ L "_" t (.pop 1) :=
  fun _ _ g _ env _ hop _ ha _ => ⟨g, env, rfl, goes_pop hop, ha⟩

/-- A definition writes a slot of its own. -/
theorem put_define {s : Nat} (hx : x ≠ "_") (hk : k ≠ .assign) (hs : s < d) (hkept : kept s = none)
    (hL : ∀ y b, L y = some b → b.slot = s → y = x) (hf : Layer.Free Γ s) :
    Put d kept k L Γ (L.set x ⟨s, t⟩) x t (.set (.global s)) := by
  intro p i g st env v hop hd ha hv
  have hs := Nat.lt_of_lt_of_le hs hd
  obtain ⟨env', he, ha'⟩ := ha.define hs hkept hL hf hv
  refine ⟨_, env', ?_, goes_set hop hs, ha'⟩
  unfold Env.put
  rw [if_neg hx]
  cases k with
  | assign => exact absurd rfl hk
  | define => exact he
  | declare => exact he

/-- An assignment writes the slot it finds. -/
theorem put_assign {a : Var} (hx : x ≠ "_") (hap : Apart kept (L :: Γ)) (hf : Layer.find (L :: Γ) x = some a)
    (ht : a.ty = t) : Put d kept .assign L Γ L x t (.set (.global a.slot)) := by
  subst ht
  intro p i g st env v hop _ ha hv
  obtain ⟨hs, env', he, ha'⟩ := ha.assign hap hf hv
  refine ⟨_, env', ?_, goes_set hop hs, ha'⟩
  unfold Env.put
  rw [if_neg hx]
  exact he

theorem starts_none {define : Bool} : Starts d kept Γ L L none (lapStart none define) := by
  rintro M g env env' n hM - ha ⟨-, rfl⟩
  refine ⟨nofun, ?_⟩
  rcases hM with rfl | rfl <;> exact ha

theorem starts_define {s : Nat} (hx : x ≠ "_") (hs : s < d) (hkept : kept s = none)
    (hL : ∀ y b, L y = some b → b.slot = s → y = x) (hf : Layer.Free Γ s) :
    Starts d kept Γ L (L.set x ⟨s, .int⟩) (some s) (lapStart (some x) true) := by
  rintro M g env env' n hM hd ha ⟨-, hput⟩
  have hs := Nat.lt_of_lt_of_le hs hd
  have hM' : ∀ y b, M y = some b → b.slot = s → y = x := by
    intro y b hy hb
    rcases hM with rfl | rfl
    · exact hL y b hy hb
    · by_cases he : y = x
      · exact he
      · exact hL y b ((Layer.set_of_ne he ..).symm.trans hy) hb
  have hset : M.set x ⟨s, .int⟩ = L.set x ⟨s, .int⟩ := by
    rcases hM with rfl | rfl
    · rfl
    · funext y
      by_cases he : y = x
      · subst he
        rw [Layer.set_self, Layer.set_self]
      · rw [Layer.set_of_ne he]
  obtain ⟨env1, he, ha'⟩ := ha.define (t := .int) hs hkept hM' hf nofun
  unfold Env.put at hput
  rw [if_neg hx] at hput
  cases he.symm.trans hput
  refine ⟨fun k hk => ?_, hset ▸ ha'⟩
  cases hk
  exact hs

theorem starts_assign {a : Var} (hx : x ≠ "_") (hap : Apart kept (L :: Γ)) (hf : Layer.find (L :: Γ) x = some a)
    (ht : a.ty = .int) : Starts d kept Γ L L (some a.slot) (lapStart (some x) false) := by
  rintro M g env env' n hM - ha ⟨-, hput⟩
  obtain rfl : M = L := hM.elim id id
  obtain ⟨hs, env1, he, ha'⟩ := ha.assign hap hf fun hb => nomatch ht.symm.trans hb
  unfold Env.put at hput
  rw [if_neg hx] at hput
  cases he.symm.trans hput
  refine ⟨fun k hk => ?_, ha'⟩
  cases hk
  exact hs

/-- Values from left to right, then stores from right to left. -/
theorem does_assignment {a : Assignment} (he : Evaluates kept (L :: Γ) ts items a.values)
    (hl : a.targets.length = ts.length) (hL : L.Le L')
    (hp : Puts d kept a.kind L Γ L' (a.targets.zip ts).reverse items') :
    Does d kept exits L Γ L' (items ++ items') a.means := by
  intro p at? i g st env env' r hs hd ha hm
  obtain ⟨hs1, hs2⟩ := stand_append.mp hs
  have hev := he st hs1 ha
  unfold Assignment.means Meaning.given at hm
  cases hvs : evalAll env.value a.values with
  | error t =>
    rw [hvs] at hm hev
    obtain ⟨rfl, rfl⟩ := hm
    exact .trap hev hL ha
  | ok vs =>
    rw [hvs] at hm hev
    obtain ⟨hgo, hfits⟩ := hev
    have hzip : List.Forall₂ (fun (b : String × Ty) v => b.2.Fits v) (a.targets.zip ts) vs := by
      have hsnd : (a.targets.zip ts).map Prod.snd = ts := map_snd_zip (Nat.le_of_eq hl.symm)
      rw [← hsnd] at hfits
      exact forall₂_map_left_iff.mp hfits
    have hlen : a.targets.length = vs.length := hl.trans hfits.length_eq
    have hnames : ((a.targets.zip ts).reverse.map (·.1)).zip vs.reverse = (a.targets.zip vs).reverse := by
      rw [← zip_unzip (a.targets.zip vs).reverse, unzip_eq_map, map_reverse, map_reverse,
        map_reverse, map_fst_zip (Nat.le_of_eq hl), map_fst_zip (Nat.le_of_eq hlen),
        map_snd_zip (Nat.le_of_eq hlen.symm)]
    obtain ⟨g', env'', hput, hgo', ha'⟩ := hp st hs2 hd ha (forall₂_reverse_iff.mpr hzip)
    rw [hnames] at hput
    simp only [hput] at hm
    obtain ⟨rfl, rfl⟩ := hm
    rw [Item.sizes_append, ← Nat.add_assoc]
    rw [map_reverse] at hgo'
    exact .normal (hgo.trans hgo') ha'

end Statements

end Goblet
