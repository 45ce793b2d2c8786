import Goblet.Proofs.Scalar.Code

/-!
# Compiling expressions

The steps of an expression compile to the code that `Expr.code` says, with its value on top of the operands, and fail
just where that traps (`Expr.compiles`). Besides code only labels are added (`Quiet`).
-/

namespace Goblet

open List Compile

/-! ## Names -/

namespace SymbolTable

variable {t t' : SymbolTable} {x : String}

/-- No label is kept under the name, in whatever scope. -/
def Plain (x : String) : Prop := ∀ scope l, qualify scope x ≠ labelKey l

/-- All but labels means the same. -/
def SameNames (t t' : SymbolTable) : Prop := ∀ key, (∀ l, key ≠ labelKey l) → t'.lookup? key = t.lookup? key

theorem SameNames.refl (t : SymbolTable) : SameNames t t := fun _ _ => rfl

theorem SameNames.trans {t'' : SymbolTable} (h : SameNames t t') (h' : SameNames t' t'') : SameNames t t'' :=
  fun key hk => (h' key hk).trans (h key hk)

theorem SameNames.addLabel (t : SymbolTable) (l : String) (i : Nat) : SameNames t (t.addLabel l i) := fun key hk => by
  rw [SymbolTable.addLabel, lookup?_add, if_neg (hk l)]

/-- The same names resolve alike. -/
theorem SameNames.resolve? (h : SameNames t t') (hx : Plain x) (scope : String) :
    t'.resolve? x scope = t.resolve? x scope := by
  simp only [SymbolTable.resolve?, fun s => h (qualify s x) fun l => hx s l]

theorem plain_of_last {cs : List Char} {c : Char} (hx : x.toList = cs ++ [c]) (hc : c ≠ ':') : Plain x := by
  intro scope l h
  have h := congrArg (fun s : String => s.toList.getLast?) h
  have hl : (labelKey l).toList.getLast? = some ':' := by simp [labelKey]
  have hq : (qualify scope x).toList.getLast? = some c := by
    unfold qualify
    split
    · rw [hx, getLast?_concat]
    · rw [String.toList_append, hx, ← append_assoc, getLast?_concat]
  simp only [hl, hq] at h
  exact hc (Option.some.inj h)

theorem plain_of_isWord (h : IsWord x) : Plain x := by
  have hne : x.toList ≠ [] := by
    obtain ⟨c, cs, hw, -⟩ := h
    rw [hw]
    exact cons_ne_nil _ _
  refine plain_of_last (dropLast_concat_getLast hne).symm fun hc => ?_
  have hw := h.wordChar (getLast_mem hne)
  rw [hc] at hw
  exact absurd hw (by decide)

end SymbolTable

open SymbolTable (Plain SameNames)

/-- The names of an expression mean variables with these slots and types, and the boolean constants. -/
structure Expr.Scoped (e : Expr) (t : SymbolTable) (scope : String) (slot : String → Nat) (types : String → Option Ty) :
    Prop where
  vars : ∀ x ∈ e.vars, Plain x ∧ x ≠ "_" ∧ ∀ ty, types x = some ty →
    ∃ key v, t.resolve? x scope = some (key, ⟨.var, .global (slot x), ty, v⟩)
  flags : ∀ b ∈ e.flags, ∃ key a, t.resolve? (Act.flagText b) scope = some (key, ⟨.const, a, .bool, some (.bool b)⟩)

namespace Expr.Scoped

variable {t t' : SymbolTable} {scope : String} {slot : String → Nat} {types : String → Option Ty} {op : Operator}
  {a b e : Expr}

theorem unary (h : (Expr.unary op e).Scoped t scope slot types) : e.Scoped t scope slot types := ⟨h.vars, h.flags⟩

theorem left (h : (Expr.binary op a b).Scoped t scope slot types) : a.Scoped t scope slot types :=
  ⟨fun x hx => h.vars x (mem_append_left _ hx), fun x hx => h.flags x (mem_append_left _ hx)⟩

theorem right (h : (Expr.binary op a b).Scoped t scope slot types) : b.Scoped t scope slot types :=
  ⟨fun x hx => h.vars x (mem_append_right _ hx), fun x hx => h.flags x (mem_append_right _ hx)⟩

theorem plain_flagText (b : Bool) : Plain (Act.flagText b) := by
  cases b
  · exact SymbolTable.plain_of_last (show _ = ['f', 'a', 'l', 's'] ++ ['e'] from rfl) (by decide)
  · exact SymbolTable.plain_of_last (show _ = ['t', 'r', 'u'] ++ ['e'] from rfl) (by decide)

theorem sameNames (h : e.Scoped t scope slot types) (hs : SameNames t t') : e.Scoped t' scope slot types where
  vars x hx := by
    obtain ⟨hp, hn, hv⟩ := h.vars x hx
    refine ⟨hp, hn, fun ty hty => ?_⟩
    rw [hs.resolve? hp]
    exact hv ty hty
  flags b hb := by
    rw [hs.resolve? (plain_flagText b)]
    exact h.flags b hb

end Expr.Scoped

/-! ## Steps that add no more than code and labels -/

namespace Compile

/-- Of a state no more than code, jumps, labels and operands has changed. -/
structure Quiet (s s' : CompileState) : Prop where
  program : s'.program = { s.program with code := s'.program.code }
  store : s'.store = s.store
  scopes : s'.scopes = s.scopes
  funcs : s'.funcs = s.funcs
  marks : s'.marks = s.marks
  names : SameNames s.symbols s'.symbols

theorem Quiet.plain {s : CompileState} {code : Array Instr} {stack : OperandStack} {jumps : List OpenJump} :
    Quiet s { s with program := { s.program with code := code }, stack := stack, jumps := jumps } :=
  ⟨rfl, rfl, rfl, rfl, rfl, .refl _⟩

theorem Quiet.refl (s : CompileState) : Quiet s s := .plain

theorem Quiet.trans {s s' s'' : CompileState} (h : Quiet s s') (h' : Quiet s' s'') : Quiet s s'' where
  program := by rw [h'.program, h.program]
  store := h'.store.trans h.store
  scopes := h'.scopes.trans h.scopes
  funcs := h'.funcs.trans h.funcs
  marks := h'.marks.trans h.marks
  names := h.names.trans h'.names

variable {s : CompileState} {p : Pos} {r : Registry} {l x : String} {key : String}

theorem jump_open (h : s.draft.labelAt l = none) (o : Op) (p : Pos) : jump o l p s = .ok ()
    { s with
      program := s.program.emit o p
      jumps := s.jumps ++ [⟨s.program.code.size, .label l, p⟩] } := by
  have hl : labelAt? l { s with program := s.program.emit o p } = .ok none { s with program := s.program.emit o p } :=
    congrArg (EStateM.Result.ok · _) h
  rw [jump, seq_eq (show emitSite o p s = .ok s.program.code.size _ from rfl), jumpTo, seq_eq hl]
  rfl

theorem label_eq (hf : s.funcs = []) (hl : l ∉ s.labels) (p : Pos) : label l p s = .ok ()
    { s with
      labels := l :: s.labels
      symbols := s.symbols.addLabel l s.program.code.size
      lastLabel := some s.program.code.size
      stack := s.stack.forget } := by
  rw [label, get_seq]
  have hc : closes l s.funcs = false := by rw [hf]; rfl
  simp only [hc, Bool.false_eq_true, ↓reduceIte, contains_iff_mem, hl]
  rfl

theorem resolve_eq {m : String × Symbol} (hx : x ≠ "_")
    (h : s.symbols.resolve? x (s.scopes.headD Place.mainScope) = some m) (p : Pos) : resolve x p s = .ok m s := by
  have hs : seek x s = .ok (some m) s := congrArg (EStateM.Result.ok · s) h
  rw [resolve, if_neg hx, seq_eq hs]
  rfl

theorem identifier_var {i : Nat} {ty : Ty} {v : Option Value} (hx : x ≠ "_")
    (h : s.symbols.resolve? x (s.scopes.headD Place.mainScope) = some (key, ⟨.var, .global i, ty, v⟩)) (called : Bool)
    (p : Pos) : identifier x called p s = .ok ()
      { s with program := s.program.emit (.get (.global i)) p, stack := ⟨.plain ty :: s.stack.items⟩ } := by
  rw [identifier, seq_eq (resolve_eq hx h p)]
  rfl

theorem identifier_const {a : Address} {ty : Ty} {v : Value} (hx : x ≠ "_")
    (h : s.symbols.resolve? x (s.scopes.headD Place.mainScope) = some (key, ⟨.const, a, ty, some v⟩)) (called : Bool)
    (p : Pos) : identifier x called p s = constant v ty p s := by
  rw [identifier, seq_eq (resolve_eq hx h p)]
  rfl

/-! ## Cutting the steps of an expression -/

/-- Steps can be cut before this one. -/
def Cuts : Act → Prop
  | .define | .assign | .call _ _ => False
  | _ => True

/-- Steps before a cut compile on their own. -/
theorem steps_cut {xs ys : List Step} (h : ∀ y ∈ ys.head?, Cuts y.val) :
    steps r (xs ++ ys) = (do steps r xs; steps r ys) := by
  refine steps_append (fun q tl => ⟨?_, ?_⟩) ?_ xs
  · rintro rfl
    exact h _ rfl
  · rintro rfl
    exact h _ rfl
  · cases ys with
    | nil => rfl
    | cons y ys =>
      obtain ⟨act, q⟩ := y
      cases act <;> first | rfl | exact absurd (h _ rfl) id

theorem steps_singleton (x : Step) : steps r [x] = step r false x := by
  have h : steps r [x] = (do step r false x; steps r []) := steps_cons fun _ _ _ _ => ⟨nofun, nofun⟩
  rw [h]
  exact bind_pure_unit

end Compile

/-! ## Labels of expressions -/

/-- Fresh names of one scope tell their numbers apart. -/
theorem freshIn_inj {scope tag : String} {m n : Nat} (h : freshIn scope tag m = freshIn scope tag n) : m = n := by
  have h := congrArg String.toList h
  simp only [freshIn, String.toList_append, append_assoc, append_cancel_left_eq] at h
  exact toString_inj h

namespace Expr

theorem acts_head (scope : String) : ∀ (n : Nat) (e : Expr), ∃ a tl, e.acts scope n = .atom a :: tl
  | _, .int _ | _, .bool _ | _, .var _ => ⟨_, [], rfl⟩
  | n, .unary op e => by
    obtain ⟨a, tl, h⟩ := acts_head scope n e
    exact ⟨a, tl ++ [.unary op], by rw [acts, h]; rfl⟩
  | n, .binary op a b => by
    obtain ⟨x, tl, h⟩ := acts_head scope n a
    exact ⟨x, _, by simp only [acts, h, cons_append]; rfl⟩

variable {e : Expr} {op : Operator} {l : String} {m : Nat} {items' : List Item}

theorem cuts_acts {scope : String} {n : Nat} {ss tl : List Step} (h : ss.map At.val = e.acts scope n) :
    ∀ y ∈ (ss ++ tl).head?, Compile.Cuts y.val := by
  obtain ⟨a, acts, ha⟩ := acts_head scope n e
  rw [ha] at h
  obtain ⟨y, ys, rfl, hy, -⟩ := map_eq_cons_iff.mp h
  intro z hz
  cases hz
  rw [hy]
  trivial

/-- The operands below an expression, forgotten if it has labels. -/
def kept (e : Expr) (operands : List Operand) : List Operand :=
  if e.logics = 0 then operands else operands.map Operand.forget

theorem map_forget_kept (e : Expr) (operands : List Operand) :
    (e.kept operands).map Operand.forget = operands.map Operand.forget := by
  have hf : ∀ o : Operand, o.forget.forget = o.forget := by intro o; cases o <;> rfl
  unfold kept
  split
  · rfl
  · simp [Function.comp_def, hf]

/-- A state after the code of an expression. -/
structure Compiled (scope : String) (n : Nat) (e : Expr) (t : Ty) (b : Nat) (items : List Item) (c : Piece)
    (s s' : CompileState) : Prop where
  quiet : Compile.Quiet s s'
  assembled : Assembled b (items ++ c.items) s'.draft
  stack : s'.stack = ⟨.value t (c.known.map fun v => ⟨v.value, s.program.code.size⟩) :: e.kept s.stack.items⟩
  labels : ∀ l ∈ s'.labels, l ∈ s.labels ∨ ∃ k, n ≤ k ∧ k < n + e.logics ∧ l = freshIn scope "x" k

/-- What compiling the steps of an expression comes to: its code, or an error where an operation on constants traps. -/
def Results (scope : String) (n : Nat) (e : Expr) (t : Ty) (b : Nat) (items : List Item) (s : CompileState)
    (r : EStateM.Result CompileError CompileState Unit) : Except Trap Piece → Prop
  | .ok c => ∃ s', r = .ok () s' ∧ Compiled scope n e t b items c s s'
  | .error trap => ∃ err p s', trap.error? = some err ∧ r = .error ⟨.constant err, p⟩ s'

/-- What is there when an expression is compiled. -/
structure Ready (scope : String) (slot : String → Nat) (types : String → Option Ty) (n : Nat) (e : Expr) (b : Nat)
    (items : List Item) (s : CompileState) : Prop where
  assembled : Assembled b items s.draft
  scope_eq : s.scopes.headD Place.mainScope = scope
  funcs : s.funcs = []
  named : e.Scoped s.symbols scope slot types
  fresh : ∀ k, n ≤ k → k < n + e.logics → freshIn scope "x" k ∉ s.labels

variable {scope : String} {slot : String → Nat} {types : String → Option Ty} {n b : Nat} {t : Ty} {items : List Item}
  {s s' : CompileState} {r : Registry}

theorem results_load (v : Scalar) (p : Pos) (hr : Ready scope slot types n e b items s)
    (he : e.logics = 0) : Results scope n e v.ty b items s (constant v.value v.ty p s) (.ok (.load v)) :=
  ⟨_, constant_eq v v.ty p s, .plain, hr.assembled.emit _ p, by simp [kept, he, Piece.load],
    fun _ hl => .inl hl⟩

theorem Compiled.trailing {c : Piece} {v : Scalar} (hc : Compiled scope n e t b items c s s')
    (ha : Assembled b items s.draft) (hi : c.items = [.op (.push v.value)]) :
    s.program.code.size + 1 = s'.program.code.size ∧
      (s'.lastLabel ≠ some s.program.code.size ↔ Item.endsAtLabel items = false) := by
  have hs : s.program.code.size = b + Item.sizes items := ha.size
  have hs' : s'.program.code.size = b + Item.sizes (items ++ c.items) := hc.assembled.size
  have hl : s'.lastLabel = Item.lastLabel b (items ++ c.items) := hc.assembled.lastLabel
  rw [hi] at hs' hl
  rw [Item.lastLabel_append_op] at hl
  refine ⟨by rw [hs, hs', Item.sizes_append]; rfl, ?_⟩
  rw [hl, hs, ne_eq, Item.lastLabel_eq_end, Bool.not_eq_true]

/-- A unary operator, folded or not. -/
theorem results_unary {u : Ty} {c : Piece} (ha : Assembled b items s.draft)
    (hc : Compiled scope n e u b items c s s') (hk : ∀ v, c.known = some v → Loads e u c v)
    (hu : unaryType? op u = some t) (p : Pos) :
    Results scope n (.unary op e) t b items s (Compile.unary op p s') (c.unary (Item.endsAtLabel items) op) := by
  obtain rfl : t = u := (Compile.unaryOp_eq (p := p) hu s).2
  rw [Compile.unary_eq hu hc.stack]
  obtain ⟨rfl, he⟩ | ⟨ho, v, hv, hl, he⟩ | ⟨ho, hl, he⟩ := Piece.unary_cases (Item.endsAtLabel items) op c <;> rw [he]
  · -- the operand stays as it is
    exact ⟨_, rfl, hc.quiet.trans .plain, hc.assembled, rfl, hc.labels⟩
  · -- a constant takes the place of a constant
    have hload := hk v hv
    obtain ⟨hsz, hll⟩ := hc.trailing ha hload.items
    have hcut : Assembled b items { s'.draft with code := s'.program.code.take s.program.code.size } := by
      have h := hc.assembled
      rw [hload.items] at h
      rw [show s.program.code.size = b + Item.sizes items from ha.size]
      exact h.cut
    have hun := Scalar.unary_agrees (hload.ty ▸ hu : unaryType? op v.ty = some t) (u := Piece.unOp op)
      (by cases op <;> first | (cases t <;> cases hu; done) | exact absurd rfl ho | simp [Piece.unOp])
    obtain ⟨w, hw, hwt⟩ := Scalar.unary_of_type (hload.ty ▸ hu : unaryType? op v.ty = some t)
    rw [hw] at hun ⊢
    have hun : v.value.unary (Piece.unOp op) = .ok w.value := hun
    rw [if_neg ho, hv]
    dsimp only
    rw [seq_eq (a := some ⟨v.value, s.program.code.size⟩) (t := { s' with stack := ⟨e.kept s.stack.items⟩ }) ?_]
    · dsimp only
      rw [hun]
      dsimp only
      rw [seq_eq (show Compile.cutCode _ _ = .ok () _ from rfl), Compile.constant_eq]
      have hts : (s'.program.code.take s.program.code.size).size = s.program.code.size := by
        rw [Array.take_eq_extract, Array.size_extract]
        omega
      refine ⟨_, rfl, hc.quiet.trans .plain, hcut.emit _ p, ?_, hc.labels⟩
      simp only [Piece.load, Option.map_some, hts]
      rfl
    · show (Compile.isTrailing _ >>= _) _ = _
      rw [seq_eq (Compile.isTrailing_eq _ _)]
      simp only [hsz, hll.mpr hl, ne_eq, not_false_eq_true, and_self, decide_true, ↓reduceIte]
      rfl
  · -- the operation is carried out when running
    rw [if_neg ho]
    dsimp only
    rw [seq_eq (a := none) (t := { s' with stack := ⟨e.kept s.stack.items⟩ }) ?_]
    · refine ⟨_, rfl, hc.quiet.trans .plain, ?_, rfl, hc.labels⟩
      rw [← append_assoc]
      exact hc.assembled.emit _ p
    · cases hv : c.known with
      | none => rfl
      | some v =>
        obtain ⟨-, hll⟩ := hc.trailing ha (hk v hv).items
        have hne : ¬(s'.lastLabel ≠ some s.program.code.size) := by
          rw [hll, hl.resolve_left (by rw [hv]; exact nofun)]
          exact nofun
        show (Compile.isTrailing _ >>= _) _ = _
        rw [seq_eq (Compile.isTrailing_eq _ _)]
        simp only [hne, and_false, decide_false]
        rfl

theorem kept_value {u : Ty} {k : Option Known} {operands : List Operand} :
    e.kept (.value u k :: operands) = .value u (if e.logics = 0 then k else none) :: e.kept operands := by
  unfold kept
  split <;> rfl

theorem kept_kept {e1 e2 : Expr} (ho : isLogic op = false) (operands : List Operand) :
    e2.kept (e1.kept operands) = (Expr.binary op e1 e2).kept operands := by
  have hl : (Expr.binary op e1 e2).logics = e1.logics + e2.logics := by simp [logics, width, ho]
  unfold kept
  by_cases h2 : e2.logics = 0
  · simp [hl, h2]
  · have := map_forget_kept e1 operands
    unfold kept at this
    simp [hl, h2, this]

section Binary

variable {op : Operator} {bop : BinOp} {e1 e2 : Expr} {u v : Ty} {c d : Piece} {s1 s2 s1' : CompileState}

theorem labels_binary (h1 : Compiled scope n e1 u b items c s s1) (hm : m = n + e1.logics + width op)
    (hs : s1'.labels = s1.labels)
    (h2 : Compiled scope m e2 v b items' d s1' s2) : ∀ l ∈ s2.labels, l ∈ s.labels ∨
      ∃ k, n ≤ k ∧ k < n + (Expr.binary op e1 e2).logics ∧ l = freshIn scope "x" k := by
  intro l hl
  simp only [logics]
  rcases h2.labels l hl with hl | ⟨k, hk, hk', rfl⟩
  · rw [hs] at hl
    rcases h1.labels l hl with hl | ⟨k, hk, hk', rfl⟩
    · exact .inl hl
    · exact .inr ⟨k, hk, by omega, rfl⟩
  · exact .inr ⟨k, by omega, by omega, rfl⟩

/-- Two constants in a row become one. -/
theorem results_fold (hb : BinOp.ofOperator? op = some bop) (ho : isLogic op = false) (ha : Assembled b items s.draft)
    (h1 : Compiled scope n e1 u b items c s s1)
    (h2 : Compiled scope (n + e1.logics) e2 v b (items ++ c.items) d s1 s2) {x y : Scalar} (hx : c.known = some x)
    (hy : d.known = some y) (hl1 : Loads e1 u c x) (hl2 : Loads e2 v d y) (ht : binaryType? op u v = some t) (p : Pos) :
    Results scope n (.binary op e1 e2) t b items s (Compile.binary op p s2)
      ((Scalar.binary op x y).map Piece.load) := by
  obtain ⟨hs1, -⟩ := h1.trailing ha hl1.items
  obtain ⟨hs2, hll⟩ := h2.trailing h1.assembled hl2.items
  have hne : Item.endsAtLabel (items ++ c.items) = false := by simp [Item.endsAtLabel, hl1.items]
  have hst : s2.stack = ⟨.value v (some ⟨y.value, s.program.code.size + 1⟩) ::
      .value u (some ⟨x.value, s.program.code.size⟩) :: (Expr.binary op e1 e2).kept s.stack.items⟩ := by
    rw [h2.stack, hy, h1.stack, hx, kept_value, if_pos hl2.logics, kept_kept ho, ← hs1]
    rfl
  have hcut : Assembled b items { s2.draft with code := s2.program.code.take s.program.code.size } := by
    have h := h2.assembled
    rw [hl2.items] at h
    have h := h.cut
    rw [hl1.items] at h
    have h := h.cut
    have hsz : s.program.code.size = b + Item.sizes items := ha.size
    rw [hsz]
    have h : Assembled b items { s2.draft with code := s2.draft.code.extract 0 (b + Item.sizes items) } := by
      simpa using h
    exact h
  have hag := Scalar.binary_agrees hb (hl1.ty ▸ hl2.ty ▸ ht : binaryType? op x.ty y.ty = some t)
  have hlab := labels_binary h1 (by simp [width, ho] : n + e1.logics = n + e1.logics + width op) rfl h2
  obtain ⟨hok, herr⟩ := Compile.binary_fold hb hst (Scalar.binaryResult_of_type hb ht) (by omega)
    (by rw [hs1]; exact hll.mpr hne)
  cases hz : Scalar.binary op x y with
  | ok z =>
    rw [hz] at hag
    exact ⟨_, hok z hag, h1.quiet.trans (h2.quiet.trans .plain), hcut.emit _ p, rfl, hlab⟩
  | error trap =>
    rw [hz] at hag
    obtain ⟨err, htrap, herr'⟩ := hag
    obtain ⟨s', hs'⟩ := herr err herr'
    exact ⟨err, p, s', htrap, hs'⟩

/-- Without constants the instruction is emitted. -/
theorem results_operation (hb : BinOp.ofOperator? op = some bop) (ho : isLogic op = false)
    (h1 : Compiled scope n e1 u b items c s s1)
    (h2 : Compiled scope (n + e1.logics) e2 v b (items ++ c.items) d s1 s2) (hn : c.items ≠ [])
    (hk : c.known = none ∨ d.known = none) (hl2 : ∀ y, d.known = some y → Loads e2 v d y)
    (ht : binaryType? op u v = some t) (p : Pos) :
    Results scope n (.binary op e1 e2) t b items s (Compile.binary op p s2) (.ok (Piece.operation bop c d)) := by
  obtain ⟨kl, hst, hkl⟩ : ∃ kl, s2.stack = ⟨.value v (d.known.map fun y => ⟨y.value, s1.program.code.size⟩) ::
      .value u kl :: (Expr.binary op e1 e2).kept s.stack.items⟩ ∧ (c.known = none → kl = none) := by
    refine ⟨_, by rw [h2.stack, h1.stack, kept_value, kept_kept ho], fun hc => ?_⟩
    rw [hc]
    split <;> rfl
  have hkk : kl = none ∨ (d.known.map fun y => ⟨y.value, s1.program.code.size⟩) = (none : Option Known) :=
    hk.imp hkl fun hd => by rw [hd]; rfl
  have hq := h1.quiet.trans h2.quiet
  have hlab := labels_binary h1 (by simp [width, ho] : n + e1.logics = n + e1.logics + width op) rfl h2
  have hres := Scalar.binaryResult_of_type hb ht
  -- unless one instruction does, the operation follows its operands
  have hlong : Piece.short? bop c d.known = none →
      Compile.trailingShort? bop ⟨u, kl⟩ ⟨v, d.known.map fun y => ⟨y.value, s1.program.code.size⟩⟩
        { s2 with stack := ⟨(Expr.binary op e1 e2).kept s.stack.items⟩ } =
          .ok none { s2 with stack := ⟨(Expr.binary op e1 e2).kept s.stack.items⟩ } →
      Results scope n (.binary op e1 e2) t b items s (Compile.binary op p s2) (.ok (Piece.operation bop c d)) := by
    intro hs h
    have he : Piece.operation bop c d = ⟨c.items ++ d.items ++ [.op (.binary bop)], none⟩ := by
      rw [Piece.operation, hs]
    rw [he]
    refine ⟨_, Compile.binary_run hb hst hres hkk h, hq.trans .plain, ?_, rfl, hlab⟩
    rw [← append_assoc, ← append_assoc]
    exact h2.assembled.emit _ p
  rcases hd : d.known with _ | k | f
  · rw [hd] at hlong
    exact hlong rfl rfl
  · have hl := hl2 _ hd
    obtain ⟨hs2, hll⟩ := h2.trailing h1.assembled hl.items
    rw [Item.endsAtLabel_append hn] at hll
    rw [hd] at hlong
    obtain rfl : v = .int := hl.ty.symm
    obtain rfl : u = .int := by cases op <;> cases u <;> first | rfl | cases ht
    have hts := Compile.trailingShort?_int bop k s1.program.code.size kl
      { s2 with stack := ⟨(Expr.binary op e1 e2).kept s.stack.items⟩ }
    by_cases hle : Item.endsAtLabel c.items = true
    · have hll : ¬(s2.lastLabel ≠ some s1.program.code.size) := by rw [hll, hle]; decide
      rw [if_neg fun h => hll h.2] at hts
      exact hlong (if_pos hle) hts
    · have hll : s2.lastLabel ≠ some s1.program.code.size := hll.mpr (by simpa using hle)
      rw [if_pos ⟨hs2, hll⟩] at hts
      cases hso : Compile.shortOp? bop k with
      | none =>
        rw [hso] at hts
        exact hlong ((if_neg hle).trans hso) hts
      | some o =>
        -- the instruction takes the place of the one that loads the constant
        rw [hso] at hts
        have he : Piece.operation bop c d = ⟨c.items ++ [.op o], none⟩ := by
          simp only [Piece.operation, hd, Piece.short?, hle, hso]
          rfl
        rw [he]
        rw [hd] at hst hkk
        refine ⟨_, Compile.binary_run hb hst hres hkk hts, hq.trans .plain, ?_, rfl, hlab⟩
        have hasm := h2.assembled
        rw [hl.items] at hasm
        have hasm := hasm.replace o
        rw [← (h1.assembled.size : s1.program.code.size = _), append_assoc] at hasm
        exact hasm
  · rw [hd] at hlong
    exact hlong rfl rfl

/-- An operator that takes both operands. -/
theorem results_binary (ho : isLogic op = false) (ha : Assembled b items s.draft)
    (h1 : Compiled scope n e1 u b items c s s1)
    (h2 : Compiled scope (n + e1.logics) e2 v b (items ++ c.items) d s1 s2) (hn : c.items ≠ [])
    (hl1 : ∀ x, c.known = some x → Loads e1 u c x) (hl2 : ∀ y, d.known = some y → Loads e2 v d y)
    (ht : binaryType? op u v = some t) (p : Pos) :
    Results scope n (.binary op e1 e2) t b items s (Compile.binary op p s2) (c.binary op d) := by
  obtain ⟨bop, hb⟩ : ∃ bop, BinOp.ofOperator? op = some bop := by
    cases op <;> first | exact ⟨_, rfl⟩ | (cases u <;> cases v <;> cases ht; done) | cases ho
  unfold Piece.binary
  split
  · next x y hx hy => exact results_fold hb ho ha h1 h2 hx hy (hl1 x hx) (hl2 y hy) ht p
  · next hk =>
    rw [hb]
    refine results_operation hb ho h1 h2 hn ?_ hl2 ht p
    cases hx : c.known with
    | none => exact .inl rfl
    | some x =>
      cases hy : d.known with
      | none => exact .inr rfl
      | some y => exact absurd hy (hk x y hx)

/-- The second operand starts where the first ended. -/
theorem Ready.right (hr : Ready scope slot types n (.binary op e1 e2) b items s)
    (h1 : Compiled scope n e1 u b items c s s1) (hq : Compile.Quiet s1 s1') (hs : s1'.labels = s1.labels)
    (ha : Assembled b items' s1'.draft) : Ready scope slot types (n + e1.logics + width op) e2 b items' s1' where
  assembled := ha
  scope_eq := by
    rw [hq.scopes, h1.quiet.scopes]
    exact hr.scope_eq
  funcs := hq.funcs.trans (h1.quiet.funcs.trans hr.funcs)
  named := (hr.named.right.sameNames h1.quiet.names).sameNames hq.names
  fresh k hk hk' hl := by
    rw [hs] at hl
    rcases h1.labels _ hl with hl | ⟨j, hj, hj', he⟩
    · exact hr.fresh k (by omega) (by simp only [logics]; omega) hl
    · have := freshIn_inj he
      omega

theorem Ready.left (hr : Ready scope slot types n (.binary op e1 e2) b items s) :
    Ready scope slot types n e1 b items s :=
  ⟨hr.assembled, hr.scope_eq, hr.funcs, hr.named.left, fun k hk hk' => hr.fresh k hk (by simp only [logics]; omega)⟩

theorem Ready.unary (hr : Ready scope slot types n (.unary op e1) b items s) : Ready scope slot types n e1 b items s :=
  ⟨hr.assembled, hr.scope_eq, hr.funcs, hr.named.unary, hr.fresh⟩

theorem Ready.label_fresh (ho : isLogic op = true) (hr : Ready scope slot types n (.binary op e1 e2) b items s)
    (h1 : Compiled scope n e1 u b items c s s1) : freshIn scope "x" (n + e1.logics) ∉ s1.labels := by
  intro hl
  have hw : width op = 1 := if_pos ho
  rcases h1.labels _ hl with hl | ⟨j, hj, hj', he⟩
  · exact hr.fresh (n + e1.logics) (by omega) (by simp only [logics]; omega) hl
  · have := freshIn_inj he
    omega

theorem step_between (ho : isLogic op = true) (hr : Ready scope slot types n (.binary op e1 e2) b items s)
    (h1 : Compiled scope n e1 .bool b items c s s1) {x : Step}
    (hx : [x.val] = between op (freshIn scope "x" (n + e1.logics))) :
    ∃ s1', step r false x s1 = .ok () s1' ∧ Compile.Quiet s1 s1' ∧ s1'.labels = s1.labels ∧
      s1'.stack = ⟨e1.kept s.stack.items⟩ ∧
      Assembled b (items ++ c.items ++ [.jump (Piece.jumpSet op) (freshIn scope "x" (n + e1.logics))]) s1'.draft := by
  obtain ⟨act, p⟩ := x
  have hl := hr.label_fresh ho h1
  have hla : ∀ stack : OperandStack,
      ({ s1 with stack := stack } : CompileState).draft.labelAt (freshIn scope "x" (n + e1.logics)) = none := by
    intro stack
    simp [Draft.labelAt, CompileState.draft, hl]
  have hstep : step r false ⟨act, p⟩ = (do
      popCondition p
      jump (Piece.jumpSet op) (freshIn scope "x" (n + e1.logics)) p) := by
    obtain rfl | rfl := eq_land_or_lor ho <;> cases hx <;> rfl
  have ha := h1.assembled.jumpOpen (o := Piece.jumpSet op) (by obtain rfl | rfl := eq_land_or_lor ho <;> rfl) p p
    (freshIn scope "x" (n + e1.logics))
  rw [hstep, seq_eq (popCondition_eq h1.stack p), jump_open (hla _)]
  exact ⟨_, rfl, .plain, rfl, rfl, ha⟩

/-- An operator that may skip its second operand. -/
theorem results_logic (ho : isLogic op = true) {k : Nat}
    (hr : Ready scope slot types n (.binary op e1 e2) b items s) (hk : k = n + e1.logics)
    (hl : l = freshIn scope "x" k) (h1 : Compiled scope n e1 .bool b items c s s1) (hq : Compile.Quiet s1 s1')
    (hs : s1'.labels = s1.labels) (hst : s1'.stack = ⟨e1.kept s.stack.items⟩)
    (h2 : Compiled scope (n + e1.logics + width op) e2 v b (items ++ c.items ++ [.jump (Piece.jumpSet op) l]) d s1' s2)
    (p : Pos) :
    Results scope n (.binary op e1 e2) v b items s (label l p s2) (.ok (c.logic op l d)) := by
  subst hk hl
  have hw : width op = 1 := if_pos ho
  have hlog : (Expr.binary op e1 e2).logics = e1.logics + 1 + e2.logics := by simp only [logics, hw]
  have hlab := labels_binary h1 rfl hs h2
  have hnot : freshIn scope "x" (n + e1.logics) ∉ s2.labels := by
    intro hl
    rcases h2.labels _ hl with hl | ⟨j, hj, hj', he⟩
    · rw [hs] at hl
      exact hr.label_fresh ho h1 hl
    · have := freshIn_inj he
      omega
  have hf : s2.funcs = [] := h2.quiet.funcs.trans (hq.funcs.trans (h1.quiet.funcs.trans hr.funcs))
  refine ⟨_, label_eq hf hnot p, ?_, ?_, ?_, ?_⟩
  · exact (h1.quiet.trans (hq.trans h2.quiet)).trans ⟨rfl, rfl, rfl, rfl, rfl, .addLabel _ _ _⟩
  · have ha := h2.assembled.label hnot
    simp only [append_assoc, Piece.logic] at ha ⊢
    exact ha
  · have hkept : (Expr.binary op e1 e2).kept s.stack.items = s.stack.items.map Operand.forget := by
      rw [kept, if_neg (by omega)]
    rw [h2.stack, hst, hkept, ← map_forget_kept e1, ← map_forget_kept e2]
    rfl
  · intro l hl
    rcases mem_cons.mp hl with rfl | hl
    · exact .inr ⟨_, Nat.le_add_right .., by omega, rfl⟩
    · exact hlab l hl

end Binary

theorem results_seq {e' : Expr} {s0 : CompileState} {t' : Ty} {x : Except Trap Piece}
    {k : Piece → Except Trap Piece} {f g : Compile Unit} (h : Results scope m e' t' b items' s (f s) x)
    (hk : ∀ c s', x = .ok c → Compiled scope m e' t' b items' c s s' → Results scope n e t b items s0 (g s') (k c)) :
    Results scope n e t b items s0 ((do f; g) s) (x >>= k) := by
  cases x with
  | error trap =>
    obtain ⟨err, p, s', htrap, hm⟩ := h
    exact ⟨err, p, s', htrap, seq_error hm⟩
  | ok c =>
    obtain ⟨s', hs', hc⟩ := h
    rw [seq_eq hs']
    exact hk c s' rfl hc

section Operators

variable {op : Operator} {l : String} {bs : List Step} {x : Step}

theorem between_logic (ho : isLogic op = true) (hbs : bs.map At.val = between op l) :
    ∃ x, bs = [x] ∧ [x.val] = between op l := by
  obtain rfl | rfl := eq_land_or_lor ho <;> obtain ⟨x, rfl, hx⟩ := map_eq_singleton_iff.mp hbs <;>
    exact ⟨x, rfl, congrArg ([·]) hx⟩

theorem between_nil (ho : isLogic op = false) (hbs : bs.map At.val = between op l) : bs = [] := by
  cases op <;> first | exact map_eq_nil_iff.mp hbs | cases ho

theorem step_behind (hx : x.val = behind op l) :
    Compile.step r false x = if isLogic op then Compile.label l x.pos else Compile.binary op x.pos := by
  obtain ⟨act, p⟩ := x
  obtain rfl : act = _ := hx
  cases op <;> rfl

end Operators

/-- The steps of an operator between operands are cut around its operands. -/
theorem steps_binary {xs bs ys : List Step} {x : Step}
    (hbs : bs.map At.val = between op l) (hys : ys.map At.val = e.acts scope m) (hx : x.val = behind op l) :
    steps r (xs ++ bs ++ ys ++ [x]) = (do
      steps r xs; steps r bs; steps r ys; step r false x) := by
  have hb : ∀ y ∈ (bs ++ (ys ++ [x])).head?, Compile.Cuts y.val := by
    cases bs with
    | nil => exact (cuts_acts hys : ∀ y ∈ (ys ++ [x]).head?, _)
    | cons z bs =>
      intro y hy
      cases hy
      have hz : .jumpSetFalse l = z.val ∨ .jumpSetTrue l = z.val := by
        cases op <;> first | cases hbs | exact .inl (List.cons.inj hbs).1.symm | exact .inr (List.cons.inj hbs).1.symm
      obtain hz | hz := hz <;> rw [← hz] <;> trivial
  have hx' : ∀ y ∈ [x].head?, Compile.Cuts y.val := by
    intro y hy
    cases hy
    rw [hx, behind]
    split <;> trivial
  rw [append_assoc, append_assoc, steps_cut hb, steps_cut (cuts_acts hys), steps_cut hx',
    steps_singleton]

/-- The steps of a well-typed expression compile to its code. -/
theorem compiles : ∀ {e : Expr} {n : Nat} {t : Ty} {items : List Item} {s : CompileState} {ss : List Step},
    ss.map At.val = e.acts scope n → e.compiledType? types = some t → Ready scope slot types n e b items s →
    Results scope n e t b items s (Compile.steps r ss s) (e.code scope slot n (Item.endsAtLabel items))
  | .int k, n, t, items, s, ss, hss, ht, hr => by
    obtain ⟨⟨_, p⟩, rfl, rfl⟩ := map_eq_singleton_iff.mp hss
    simp only [compiledType?] at ht
    split at ht
    · cases ht
      exact results_load (Scalar.wrap k) p hr rfl
    · cases ht
  | .bool f, n, t, items, s, ss, hss, ht, hr => by
    obtain ⟨⟨_, p⟩, rfl, rfl⟩ := map_eq_singleton_iff.mp hss
    cases ht
    obtain ⟨key, a, hf⟩ := hr.named.flags f (mem_singleton_self _)
    rw [Compile.steps_singleton]
    show Results scope n _ _ b items s (Compile.identifier (Act.flagText f) false p s) _
    rw [Compile.identifier_const (by cases f <;> decide) (hr.scope_eq ▸ hf) false p]
    exact results_load (.bool f) p hr rfl
  | .var x, n, t, items, s, ss, hss, ht, hr => by
    obtain ⟨⟨_, p⟩, rfl, rfl⟩ := map_eq_singleton_iff.mp hss
    obtain ⟨-, hx, hv⟩ := hr.named.vars x (mem_singleton_self _)
    obtain ⟨key, v, hv⟩ := hv t ht
    rw [Compile.steps_singleton]
    exact ⟨_, Compile.identifier_var hx (hr.scope_eq ▸ hv) false p, .plain, hr.assembled.emit _ p,
      rfl, fun _ hl => .inl hl⟩
  | .unary op e, n, t, items, s, ss, hss, ht, hr => by
    obtain ⟨u, hte, hu⟩ := compiledType?_unary ht
    obtain ⟨xs, ys, rfl, hxs, hys⟩ := map_eq_append_iff.mp hss
    obtain ⟨⟨_, p⟩, rfl, rfl⟩ := map_eq_singleton_iff.mp hys
    have ih := compiles hxs hte hr.unary
    rw [Compile.steps_cut (by intro y hy; cases hy; trivial), Compile.steps_singleton]
    refine results_seq ih fun c s' hc hcomp => ?_
    exact results_unary hr.assembled hcomp (fun v hv => loads_of_known hc hte hv) hu p
  | .binary op e1 e2, n, t, items, s, ss, hss, ht, hr => by
    obtain ⟨u, v, ht1, ht2, hu⟩ := compiledType?_binary ht
    obtain ⟨ws, zs, rfl, hws, hzs⟩ := map_eq_append_iff.mp hss
    obtain ⟨vs, ys, rfl, hvs, hys⟩ := map_eq_append_iff.mp hws
    obtain ⟨xs, bs, rfl, hxs, hbs⟩ := map_eq_append_iff.mp hvs
    obtain ⟨z, rfl, hact⟩ := map_eq_singleton_iff.mp hzs
    have ih1 := compiles hxs ht1 hr.left
    rw [steps_binary hbs hys hact]
    refine results_seq ih1 fun c s1 hc h1 => ?_
    by_cases ho : isLogic op = true
    · obtain ⟨rfl, rfl⟩ : u = .bool ∧ t = v := by
        rw [compiledBinaryType?_logic ho] at hu
        split at hu
        · exact ⟨‹_›, (Option.some.inj hu).symm⟩
        · cases hu
      obtain ⟨x, rfl, hx⟩ := between_logic ho hbs
      obtain ⟨s1', hstep, hq, hl, hst, ha⟩ := step_between ho hr h1 hx
      have hw : width op = 1 := if_pos ho
      have ih2 := compiles hys ht2 (hr.right h1 hq hl ha)
      rw [Item.endsAtLabel_append (cons_ne_nil _ _), show Item.endsAtLabel [_] = false from rfl, hw] at ih2
      rw [Compile.steps_singleton, seq_eq hstep, if_pos ho]
      refine results_seq ih2 fun d s2 _ h2 => ?_
      rw [← hw] at h2
      rw [step_behind hact, if_pos ho]
      exact results_logic ho hr rfl rfl h1 hq hl hst h2 _
    · rw [Bool.not_eq_true] at ho
      rw [compiledBinaryType?_eq ho] at hu
      obtain rfl := between_nil ho hbs
      have ih2 := compiles hys ht2 (hr.right h1 (.refl _) rfl h1.assembled)
      rw [Item.endsAtLabel_append (items_ne_nil hc), show width op = 0 by simp [width, ho]] at ih2
      rw [if_neg (by simp [ho])]
      show Results scope n _ t b items s ((do Compile.steps r ys; Compile.step r false z : Compile Unit) s1) _
      refine results_seq ih2 fun d s2 hd h2 => ?_
      rw [step_behind hact, ho]
      exact results_binary ho hr.assembled h1 h2 (items_ne_nil hc) (fun x hx => loads_of_known hc ht1 hx)
        (fun y hy => loads_of_known hd ht2 hy) hu _

end Expr

end Goblet
