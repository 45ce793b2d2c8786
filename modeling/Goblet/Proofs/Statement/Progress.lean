import Goblet.Proofs.Scalar.Typing
import Goblet.Proofs.Statement.Levels
import Goblet.Proofs.Statement.Stream

/-!
# The compiler inside a program

`Underway o n levels ops items s` says what the compiler has done of a program: the code so far is `items`, the scopes
around are `levels`, the operands are `ops`, and fresh names have numbers below `n`. `Compiles r acts s s'` says that
steps which do `acts` lead from one state to another. Each step that compiles leaves the compiler underway, with more
code: an expression with code that computes it (`Underway.expr`), a condition with code that decides it
(`Underway.guard`).
-/

namespace Goblet

open List Compile

open SymbolTable (qualify SameNames)
open Compile (Cuts)

/-- An expression that can be written with the names of a lexicon. -/
structure Lexicon.Covers (V : Lexicon) (e : Expr) : Prop where
  regular : e.Regular
  names : ∀ x ∈ e.vars, V.name x

theorem Lexicon.Writes.covers {V : Lexicon} {e : Expr} {ts : List Token} (h : V.Writes e ts) : V.Covers e :=
  ⟨h.forms.regular, h.names⟩

/-! ## Steps by what they do -/

/-- Steps that do this lead from one state to another. -/
def Compiles (r : Registry) (acts : List Act) (s s' : CompileState) : Prop :=
  ∃ ss : List Step, ss.map At.val = acts ∧ steps r ss s = .ok () s'

/-- What begins something: it declares nothing for the chunk, and steps may be cut before it. -/
def Act.Begins : Act → Prop
  | .define | .assign | .call .. | .imports .. | .typeDef .. | .constant .. | .header .. => False
  | _ => True

namespace Act.Begins

variable {a : Act}

theorem cuts (h : a.Begins) : Cuts a := by
  cases a <;> first | exact h | trivial

theorem turn? (h : a.Begins) : turn? a = none := by
  cases a <;> first | exact h.elim | rfl

end Act.Begins

/-- These begin something. -/
def Opens (acts : List Act) : Prop := ∀ a ∈ acts.head?, a.Begins

namespace Opens

variable {xs ys : List Act}

theorem nil : Opens [] := nofun

theorem cons {a : Act} (h : a.Begins) (acts : List Act) : Opens (a :: acts) := by
  intro b hb
  cases hb
  exact h

theorem append (hx : Opens xs) (hy : Opens ys) : Opens (xs ++ ys) := by
  cases xs with
  | nil => exact hy
  | cons a xs => exact .cons (hx a rfl) _

theorem expr (e : Expr) (scope : String) (n : Nat) : Opens (e.acts scope n) := by
  obtain ⟨a, tl, h⟩ := Expr.acts_head scope n e
  rw [h]
  exact .cons (a := .atom a) trivial tl

end Opens

namespace Compiles

variable {r : Registry} {xs ys : List Act} {s s' : CompileState}

theorem nil (h : Compiles r [] s s') : s' = s := by
  obtain ⟨ss, hss, h⟩ := h
  obtain rfl := map_eq_nil_iff.mp hss
  cases h
  rfl

/-- Statements compile one after the other. -/
theorem append (h : Compiles r (xs ++ ys) s s') (hy : Opens ys) : ∃ s1, Compiles r xs s s1 ∧ Compiles r ys s1 s' := by
  obtain ⟨ss, hss, h⟩ := h
  obtain ⟨us, vs, rfl, hu, hv⟩ := map_eq_append_iff.mp hss
  have hcut : ∀ y ∈ vs.head?, Cuts y.val := by
    intro y hm
    cases vs with
    | nil => cases hm
    | cons v vs =>
      cases hm
      refine (hy y.val ?_).cuts
      rw [← hv]
      rfl
  rw [steps_cut hcut] at h
  obtain ⟨_, s1, h1, h2⟩ := seq_ok.mp h
  exact ⟨s1, ⟨us, hu, h1⟩, vs, hv, h2⟩

theorem cut {a : Act} (h : Compiles r (xs ++ a :: ys) s s') (ha : a.Begins) :
    ∃ s1, Compiles r xs s s1 ∧ Compiles r (a :: ys) s1 s' := h.append (.cons ha ys)

theorem single {a : Act} (h : Compiles r [a] s s') : ∃ p, step r false ⟨a, p⟩ s = .ok () s' := by
  obtain ⟨ss, hss, h⟩ := h
  obtain ⟨⟨_, p⟩, rfl, rfl⟩ := map_eq_singleton_iff.mp hss
  rw [steps_singleton] at h
  exact ⟨p, h⟩

theorem pair {a b : Act} (h : Compiles r [a, b] s s') : ∃ p q, steps r [⟨a, p⟩, ⟨b, q⟩] s = .ok () s' := by
  obtain ⟨ss, hss, h⟩ := h
  obtain ⟨⟨_, p⟩, ss, rfl, rfl, hrest⟩ := map_eq_cons_iff.mp hss
  obtain ⟨⟨_, q⟩, rfl, rfl⟩ := map_eq_singleton_iff.mp hrest
  exact ⟨p, q, h⟩

end Compiles

theorem Compile.jump_back {s : CompileState} {x x' : Op} {m : String} {i : Nat} {p : Pos}
    (hl : s.draft.labelAt m = some i) (hx : x.withOffset? ((i : Int) - s.program.code.size) = some x') :
    jump x m p s = .ok () { s with program.code := s.program.code.push ⟨x', p⟩ } := by
  have hl' : labelAt? m { s with program := s.program.emit x p } = .ok (some i)
    { s with program := s.program.emit x p } :=
    congrArg (EStateM.Result.ok · _) hl
  have hset : (s.program.emit x p).setOffset? s.program.code.size ((i : Int) - s.program.code.size) =
      some { s.program with code := s.program.code.push ⟨x', p⟩ } := by
    have hget : (s.program.code.push ⟨x, p⟩)[s.program.code.size]? = some ⟨x, p⟩ := Array.getElem?_push_size
    have hput : (s.program.code.push ⟨x, p⟩).setIfInBounds s.program.code.size ⟨x', p⟩ =
      s.program.code.push ⟨x', p⟩ := by
      apply Array.toList_inj.mp
      simp [Array.toList_setIfInBounds]
    simp only [Program.setOffset?, Program.emit, hget, Option.bind_eq_bind, Option.bind_some, hx, Option.pure_def, hput]
  rw [jump, seq_eq (show emitSite x p s = .ok s.program.code.size _ from rfl), jumpTo, seq_eq hl']
  show EStateM.Result.ok PUnit.unit _ = _
  simp only [hset]

theorem Compile.Quiet.data {s s' : CompileState} (h : Quiet s s') : s'.program.data = s.program.data := by
  rw [h.program]

/-! ## Numbers of labels -/

/-- A label that was made, with a number below `n`. -/
def Below (n : Nat) (l : String) : Prop :=
  ∃ scope tag k, tag.toList.all Char.isAlpha = true ∧ k < n ∧ l = freshIn scope tag k

theorem Below.mono {n n' : Nat} {l : String} (h : Below n l) (hn : n ≤ n') : Below n' l := by
  obtain ⟨scope, tag, k, ht, hk, hl⟩ := h
  exact ⟨scope, tag, k, ht, Nat.lt_of_lt_of_le hk hn, hl⟩

theorem freshIn_number {P Q tag tag' : String} {j k : Nat} (ht : tag.toList.all Char.isAlpha = true)
    (ht' : tag'.toList.all Char.isAlpha = true) (h : freshIn P tag j = freshIn Q tag' k) : j = k := by
  have slash {tag : String} (ht : IsTag tag) (i : Nat) : '/' ∉ (freshText tag i).toList :=
    freshText_notMem ht (by decide) (by decide) (by decide) i
  have hlast : freshText tag j = freshText tag' k := (last_part_inj h (slash ht j) (slash ht' k)).2
  exact (freshText_inj ht ht' hlast).2

theorem Below.ne {n k : Nat} {l P tag : String} (h : Below n l) (ht : tag.toList.all Char.isAlpha = true) (hk : n ≤ k) :
    l ≠ freshIn P tag k := by
  obtain ⟨scope, tag', j, ht', hj, rfl⟩ := h
  intro he
  have := freshIn_number ht' ht he
  omega

/-! ## What has been compiled -/

/-- What a program is compiled onto, and the cells that it leaves alone. -/
structure Base where
  lexicon : Lexicon
  symbols : SymbolTable
  program : Program
  kept : Nat → Option Value

/-- The compiler inside a program. -/
structure Underway (o : Base) (n : Nat) (levels : List Level) (ops : List Operand) (items : List Item)
    (s : CompileState) : Prop where
  assembled : Assembled o.program.code.size items s.draft
  scopes : s.scopes = levels.map Level.path
  funcs : s.funcs = []
  named : Named o.lexicon o.symbols n levels s.symbols
  labels : ∀ l ∈ s.labels, Below n l
  apart : Apart o.kept (levels.map Level.layer)
  slots : ∀ l ∈ levels, ∀ x a, l.layer x = some a → a.slot < s.program.data.size ∧ (a.ty = .int ∨ a.ty = .bool)
  kept : ∀ k v, o.kept k = some v → k < s.program.data.size
  stack : s.stack.items.map Operand.forget = ops
  entry : s.program.entry = o.program.entry

/-- The layers of some levels. -/
abbrev layers (levels : List Level) : List Layer := levels.map Level.layer

namespace Underway

variable {o : Base} {n : Nat} {l : Level} {levels : List Level} {ops : List Operand} {items : List Item}
  {s s' : CompileState} {r : Registry} {e : Expr} {t : Ty} {m : String}

/-- What keeps the names keeps a compilation under way. -/
theorem quiet {n' : Nat} {ops' : List Operand} {items' : List Item} (hV : o.lexicon.Known o.symbols)
    (hu : Underway o n levels ops items s) (hq : Compile.Quiet s s') (hn : n ≤ n')
    (hl : ∀ l ∈ s'.labels, l ∈ s.labels ∨ Below n' l) (ha : Assembled o.program.code.size items' s'.draft)
    (hst : s'.stack.items.map Operand.forget = ops') : Underway o n' levels ops' items' s' where
  assembled := ha
  scopes := hq.scopes.trans hu.scopes
  funcs := hq.funcs.trans hu.funcs
  named := (hu.named.mono hn).sameNames hV.words hq.names
  labels l h := (hl l h).elim (fun h => (hu.labels l h).mono hn) id
  apart := hu.apart
  slots := by
    rw [hq.program]
    exact hu.slots
  kept := by
    rw [hq.program]
    exact hu.kept
  stack := hst
  entry := by
    rw [hq.program]
    exact hu.entry

theorem mono {n' : Nat} (hu : Underway o n levels ops items s) (hn : n ≤ n') : Underway o n' levels ops items s :=
  { hu with named := hu.named.mono hn, labels := fun l h => (hu.labels l h).mono hn }

theorem scope_eq (hu : Underway o n (l :: levels) ops items s) : s.scopes.headD Place.mainScope = l.path := by
  rw [hu.scopes]
  rfl

theorem top {ty : Ty} (hu : Underway o n levels (.plain ty :: ops) items s) :
    ∃ k rest, s.stack = ⟨.value ty k :: rest⟩ ∧ rest.map Operand.forget = ops := by
  have hst := hu.stack
  cases hs : s.stack with
  | mk stack =>
    rw [hs] at hst
    obtain ⟨a, rest, rfl, ha, hr⟩ := map_eq_cons_iff.mp hst
    cases a with
    | value ty' k =>
      cases ha
      exact ⟨k, rest, rfl, hr⟩
    | _ => cases ha

/-! ## Expressions -/

theorem typeIn (hu : Underway o n levels ops items s) {x : String} {ty : Ty}
    (h : Layer.typeIn (layers levels) x = some ty) :
    ty = .int ∨ ty = .bool := by
  obtain ⟨a, ha, rfl⟩ := Option.map_eq_some_iff.mp h
  obtain ⟨L, hL, hx⟩ := exists_of_findSome?_eq_some ha
  obtain ⟨l, hl, rfl⟩ := mem_map.mp hL
  exact (hu.slots l hl x a hx).2

variable (hV : o.lexicon.Known o.symbols)
include hV

/-- The steps of an expression whose names mean these variables leave its code. -/
theorem piece (slot : String → Nat) (types : String → Option Ty) (hu : Underway o n (l :: levels) ops items s)
    (hreg : e.Regular) (hty : ∀ x ty, types x = some ty → ty = .int ∨ ty = .bool)
    (hvar : ∀ x ∈ e.vars, SymbolTable.Plain x ∧ (∀ ty, types x = some ty →
      ∃ key v, s.symbols.resolve? x l.path = some (key, ⟨.var, .global (slot x), ty, v⟩)) ∧
      (types x = none → s.symbols.resolve? x l.path = none))
    (h : Compiles r (e.acts l.path n) s s') : ∃ t c, (t = .int ∨ t = .bool) ∧
      e.code l.path slot n (Item.endsAtLabel items) = .ok c ∧ e.compiledType? types = some t ∧
      Underway o (n + e.logics) (l :: levels) (.plain t :: ops) (items ++ c.items) s' ∧
      Compile.Quiet s s' := by
  obtain ⟨ss, hss, h⟩ := h
  have hb := Expr.not_blank_of_steps hss h
  have hflag (b : Bool) : ∃ key a,
      s.symbols.resolve? (Act.flagText b) l.path = some (key, ⟨.const, a, .bool, some (.bool b)⟩) := by
    obtain ⟨hn, key, a, hf⟩ := hV.flags b
    have hw : IsWord (Act.flagText b) := by
      cases b
      · exact ⟨'f', ['a', 'l', 's', 'e'], rfl, by decide, all_eq_true.mp rfl⟩
      · exact ⟨'t', ['r', 'u', 'e'], rfl, by decide, all_eq_true.mp rfl⟩
    exact ⟨key, a, (hu.named.resolve_word hw hn).trans hf⟩
  have hr : e.Ready l.path slot types n o.program.code.size items s := by
    refine ⟨hu.assembled, hu.scope_eq, hu.funcs, ⟨fun x hx => ?_, fun b _ => hflag b⟩, fun k hk _ hm => ?_⟩
    · obtain ⟨hp, hv, -⟩ := hvar x hx
      exact ⟨hp, hb x hx, hv⟩
    · exact (hu.labels _ hm).ne rfl hk rfl
  obtain ⟨t, ht⟩ := Expr.typed_of_steps hty hss hreg hr (fun x hx => (hvar x hx).2.2) h
  obtain ⟨c, hc, hcomp⟩ := Expr.compiled_of_steps hss ht hr h
  refine ⟨t, c, Expr.eq_int_or_bool_of_compiledType? hty ht, hc, ht, ?_, hcomp.quiet⟩
  refine hu.quiet hV hcomp.quiet (Nat.le_add_right _ _) (fun m hm => ?_) hcomp.assembled ?_
  · refine (hcomp.labels m hm).imp_right ?_
    rintro ⟨k, -, hk, rfl⟩
    exact ⟨l.path, "x", k, rfl, hk, rfl⟩
  · rw [hcomp.stack, map_cons, Expr.map_forget_kept, hu.stack]
    rfl

theorem resolves (hu : Underway o n (l :: levels) ops items s) {x : String}
    (hx : o.lexicon.name x) : SymbolTable.Plain x ∧ (∀ ty, Layer.typeIn (layers (l :: levels)) x = some ty →
      ∃ key v, s.symbols.resolve? x l.path = some
      (key, ⟨.var, .global (Layer.slotIn (layers (l :: levels)) x), ty, v⟩)) ∧
      (Layer.typeIn (layers (l :: levels)) x = none → s.symbols.resolve? x l.path = none) := by
  refine ⟨SymbolTable.plain_of_isWord (hV.words x hx), fun ty h => ?_, fun h => ?_⟩
  · obtain ⟨a, ha, rfl⟩ := Option.map_eq_some_iff.mp h
    obtain ⟨-, -, key, v, hs⟩ := hu.named.resolve_var ha
    refine ⟨key, v, hs.trans ?_⟩
    rw [Layer.slotIn, ha]
    rfl
  · exact hu.named.resolve_none hx (Option.map_eq_none_iff.mp h)

/-- An expression adds its code and its operand. -/
theorem expr (hu : Underway o n (l :: levels) ops items s) (he : o.lexicon.Covers e)
    (h : Compiles r (e.acts l.path n) s s') : ∃ t items', (t = .int ∨ t = .bool) ∧
      Underway o (n + e.logics) (l :: levels) (.plain t :: ops) (items ++ items') s' ∧ Compile.Quiet s s' ∧
      Computes o.kept (layers (l :: levels)) t items' e := by
  obtain ⟨t, c, ht, hc, hct, hu', hq⟩ := hu.piece hV _ _ he.regular (fun x ty => hu.typeIn)
    (fun x hx => hu.resolves hV (he.names x hx)) h
  exact ⟨t, c.items, ht, hu', hq, computes_of_code hc hct⟩

/-! ## Jumps and labels -/

theorem emit (hu : Underway o n levels ops items s) (x : Op) (p : Pos) :
    Underway o n levels ops (items ++ [.op x]) { s with program := s.program.emit x p } :=
  hu.quiet hV .plain (Nat.le_refl n) (fun _ => .inl) (hu.assembled.emit x p) hu.stack

/-- A jump to a label not yet met is left open. -/
theorem jump (hu : Underway o n levels ops items s) {x : Op} {p : Pos}
    (hx : x.offset?.isSome) (h : jump x m p s = .ok () s') :
    Underway o n levels ops (items ++ [.jump x m]) s' ∧ Compile.Quiet s s' := by
  cases hl : s.draft.labelAt m with
  | none =>
    rw [jump_open hl] at h
    cases h
    exact ⟨hu.quiet hV .plain (Nat.le_refl n) (fun _ => .inl) (hu.assembled.jumpOpen hx p p m)
      hu.stack, rfl, rfl, rfl, rfl, rfl, .refl _⟩
  | some i =>
    obtain ⟨x', hx'⟩ := Assembled.withOffset?_of_isSome hx ((i : Int) - s.program.code.size)
    rw [jump_back hl hx'] at h
    cases h
    exact ⟨hu.quiet hV .plain (Nat.le_refl n) (fun _ => .inl) (hu.assembled.jumpBack hl hx' p)
      hu.stack, rfl, rfl, rfl, rfl, rfl, .refl _⟩

theorem goto (hu : Underway o n levels ops items s) (h : Compiles r [.goto m] s s') :
    Underway o n levels ops (items ++ [.jump (.jump 0) m]) s' ∧ s'.program.data = s.program.data := by
  obtain ⟨p, h⟩ := h.single
  obtain ⟨hu', hq⟩ := hu.jump hV rfl h
  exact ⟨hu', hq.data⟩

theorem condition (ht : t = .int ∨ t = .bool)
    (hu : Underway o n levels (.plain t :: ops) items s) {p : Pos} (h : popCondition p s = .ok () s') :
    t = .bool ∧ Underway o n levels ops items s' ∧ Compile.Quiet s s' := by
  obtain ⟨k, rest, hs, hr⟩ := hu.top
  rcases ht with rfl | rfl
  · rw [popCondition, seq_eq (popValue_eq hs p)] at h
    cases h
  · rw [popCondition_eq hs] at h
    cases h
    exact ⟨rfl, hu.quiet hV .plain (Nat.le_refl n) (fun _ => .inl) hu.assembled hr, rfl, rfl, rfl,
      rfl, rfl, .refl _⟩

theorem test {f : Bool} (ht : t = .int ∨ t = .bool)
    (hu : Underway o n levels (.plain t :: ops) items s)
    (h : Compiles r [if f then .jumpFalse m else .jumpTrue m] s s') : t = .bool ∧
      Underway o n levels ops (items ++ [.jump (jumpUnless f) m]) s' ∧ Compile.Quiet s s' := by
  obtain ⟨p, h⟩ := h.single
  have hj : ∃ s1, Compile.popCondition p s = .ok () s1 ∧ Compile.jump (jumpUnless f) m p s1 = .ok () s' := by
    cases f <;> obtain ⟨_, s1, hc, h⟩ := seq_ok.mp h <;> exact ⟨s1, hc, h⟩
  obtain ⟨s1, hc, hj⟩ := hj
  obtain ⟨rfl, hu1, hq1⟩ := hu.condition hV ht hc
  obtain ⟨hu2, hq2⟩ := hu1.jump hV (by cases f <;> rfl) hj
  exact ⟨rfl, hu2, hq1.trans hq2⟩

theorem guard {f : Bool} (hu : Underway o n (l :: levels) ops items s)
    (he : o.lexicon.Covers e)
    (h : Compiles r (e.acts l.path n ++ [if f then .jumpFalse m else .jumpTrue m]) s s') : ∃ items',
      Underway o (n + e.logics) (l :: levels) ops (items ++ items') s' ∧ Compile.Quiet s s' ∧
      Guards o.kept (layers (l :: levels)) f m items' e.truth := by
  obtain ⟨s1, h1, h2⟩ := h.append (.cons (by cases f <;> trivial) _)
  obtain ⟨t, items1, ht, hu1, hq1, hc⟩ := hu.expr hV he h1
  obtain ⟨rfl, hu2, hq2⟩ := hu1.test hV ht h2
  rw [append_assoc] at hu2
  exact ⟨_, hu2, hq1.trans hq2, guards_of_computes hc f m⟩

/-- A label is put where the code ends. -/
theorem label (hu : Underway o n levels ops items s) (hm : Below n m)
    (hops : ops.map Operand.forget = ops) (h : Compiles r [.label m] s s') :
    Underway o n levels ops (items ++ [.label m]) s' ∧ s'.program.data = s.program.data := by
  obtain ⟨p, h⟩ := h.single
  have h : Compile.label m p s = .ok () s' := h
  by_cases hl : m ∈ s.labels
  · -- a label does not stand twice
    have hc : Compile.closes m s.funcs = false := by rw [hu.funcs]; rfl
    rw [Compile.label, get_seq, hc] at h
    simp only [Bool.false_eq_true, ↓reduceIte, contains_iff_mem, hl] at h
    cases h
  · rw [Compile.label_eq hu.funcs hl] at h
    cases h
    refine ⟨hu.quiet hV ⟨rfl, rfl, rfl, rfl, rfl, .addLabel _ _ _⟩ (Nat.le_refl n) (fun l h => ?_)
      (hu.assembled.label hl) ?_, rfl⟩
    · rcases mem_cons.mp h with rfl | h
      · exact .inr hm
      · exact .inl h
    · show (s.stack.items.map Operand.forget).map Operand.forget = ops
      rw [hu.stack, hops]

/-! ## Scopes -/

/-- A scope opens a level. -/
theorem enter (hu : Underway o n (l :: levels) ops items s)
    (h : Compiles r [.enter (freshIn l.path "b" n)] s s') :
    Underway o (n + 1) (⟨freshIn l.path "b" n, .empty⟩ :: l :: levels) ops items s' ∧
      s'.program.data = s.program.data := by
  obtain ⟨p, h⟩ := h.single
  cases h
  refine ⟨⟨hu.assembled, congrArg (_ :: ·) hu.scopes, hu.funcs, hu.named.enter hV.words,
    fun m hm => (hu.labels m hm).mono (Nat.le_add_right n 1), ⟨nofun, hu.apart⟩, fun l' hl x a hx => ?_,
    hu.kept, hu.stack, hu.entry⟩, rfl⟩
  rcases mem_cons.mp hl with rfl | hl
  · cases hx
  · exact hu.slots l' hl x a hx

omit hV

/-- Its end closes it. -/
theorem leave {l' : Level} (hu : Underway o n (l' :: l :: levels) ops items s) (h : Compiles r [.leave] s s') :
    Underway o n (l :: levels) ops items s' ∧ s'.program.data = s.program.data := by
  obtain ⟨p, h⟩ := h.single
  cases h
  refine ⟨⟨hu.assembled, ?_, hu.funcs, hu.named.leave, hu.labels, hu.apart.2,
    fun l' hl => hu.slots l' (mem_cons_of_mem _ hl), hu.kept, hu.stack, hu.entry⟩, rfl⟩
  show s.scopes.drop 1 = _
  rw [hu.scopes]
  rfl

end Underway

end Goblet
