import Goblet.Proofs.Compile.Assembly
import Goblet.Proofs.Compile.Chunk
import Goblet.Proofs.Scalar.Arithmetic
import Goblet.Proofs.Scalar.Shaping

/-!
# Code for expressions

`Expr.code` is the code that an expression compiles to: operations on constants are carried out at once, adding,
subtracting and comparing with a constant take one instruction, and `&&` and `||` jump over their right operand. That
the compiler makes this code out of the steps of an expression, and fails where an operation on constants traps, is
`Expr.compiles`.
-/

namespace Goblet

/-- The code of an expression, and its value if it is a constant that one instruction loads. -/
structure Piece where
  items : List Item
  known : Option Scalar

namespace Piece

/-- A constant. -/
def load (v : Scalar) : Piece := ⟨[.op (.push v.value)], some v⟩

/-- The operation that an operator before an operand stands for. -/
def unOp : Operator → UnOp
  | .sub => .neg
  | .xor => .bitNot
  | _ => .not

/-- An operator before an operand. At a label a constant is not known to be loaded. -/
def unary (atLabel : Bool) (op : Operator) (c : Piece) : Except Trap Piece :=
  if op = .add then .ok c
  else
    match c.known, atLabel with
    | some v, false => (v.unary op).map load
    | _, _ => .ok ⟨c.items ++ [.op (.unary (unOp op))], none⟩

theorem unary_cases (l : Bool) (op : Operator) (c : Piece) :
    op = .add ∧ c.unary l op = .ok c ∨
    (op ≠ .add ∧ ∃ v, c.known = some v ∧ l = false ∧ c.unary l op = (v.unary op).map load) ∨
    (op ≠ .add ∧ (c.known = none ∨ l = true) ∧ c.unary l op = .ok ⟨c.items ++ [.op (.unary (unOp op))], none⟩) := by
  unfold unary
  by_cases ho : op = .add
  · exact .inl ⟨ho, if_pos ho⟩
  · refine .inr ?_
    rw [if_neg ho]
    cases hk : c.known with
    | none => exact .inr ⟨ho, .inl rfl, rfl⟩
    | some v =>
      cases l
      · exact .inl ⟨ho, v, rfl, rfl, rfl⟩
      · exact .inr ⟨ho, .inr rfl, rfl⟩

/-- The instruction for an operation with a constant on the right. -/
def short? (op : BinOp) (a : Piece) : Option Scalar → Option Op
  | some (.int k) => if Item.endsAtLabel a.items then none else Compile.shortOp? op k
  | _ => none

theorem short?_eq_some {op : BinOp} {a : Piece} {v : Option Scalar} {o : Op} (h : short? op a v = some o) :
    ∃ k, v = some (.int k) ∧ Compile.shortOp? op k = some o := by
  unfold short? at h
  split at h
  · split at h
    · cases h
    · exact ⟨_, rfl, h⟩
  · cases h

/-- An operation on two operands. -/
def operation (op : BinOp) (a b : Piece) : Piece :=
  match short? op a b.known with
  | some o => ⟨a.items ++ [.op o], none⟩
  | none => ⟨a.items ++ b.items ++ [.op (.binary op)], none⟩

/-- An operator between operands that takes both. -/
def binary (op : Operator) (a b : Piece) : Except Trap Piece :=
  match a.known, b.known with
  | some x, some y => (Scalar.binary op x y).map load
  | _, _ => .ok (operation ((BinOp.ofOperator? op).getD .add) a b)

/-- The jump over a right operand. -/
def jumpSet (op : Operator) : Op := if op = .land then .jumpSetFalse 0 else .jumpSetTrue 0

/-- An operator that may do without its right operand. -/
def logic (op : Operator) (label : String) (a b : Piece) : Piece :=
  ⟨a.items ++ [.jump (jumpSet op) label] ++ b.items ++ [.label label], none⟩

end Piece

/-- The code of an expression whose variables have these slots. `atLabel` says whether a label stands before it; its
labels are numbered from `n`. -/
def Expr.code (scope : String) (slot : String → Nat) : (n : Nat) → (atLabel : Bool) → Expr → Except Trap Piece
  | _, _, .int k => .ok (.load (Scalar.wrap k))
  | _, _, .bool b => .ok (.load (.bool b))
  | _, _, .var x => .ok ⟨[.op (.get (.global (slot x)))], none⟩
  | n, l, .unary op e => do Piece.unary l op (← code scope slot n l e)
  | n, l, .binary op a b => do
    let c ← code scope slot n l a
    if isLogic op then
      let d ← code scope slot (n + a.logics + 1) false b
      return c.logic op (freshIn scope "x" (n + a.logics)) d
    else
      let d ← code scope slot (n + a.logics) (Item.endsAtLabel c.items) b
      Piece.binary op c d

namespace Expr

variable {scope : String} {slot : String → Nat} {types : String → Option Ty} {n : Nat} {l : Bool} {c : Piece} {t : Ty}
  {op : Operator}

/-- What is known of a piece: it loads the value of an expression without variables. -/
structure Loads (e : Expr) (t : Ty) (c : Piece) (v : Scalar) : Prop where
  items : c.items = [.op (.push v.value)]
  logics : e.logics = 0
  vars : e.vars = []
  eval : ∀ env, e.eval env = .ok v
  ty : v.ty = t

theorem eq_land_or_lor (ho : isLogic op = true) : op = .land ∨ op = .lor := by
  simpa [isLogic] using ho

theorem compiledBinaryType?_logic (ho : isLogic op = true) (t u : Ty) :
    compiledBinaryType? op t u = if t = .bool then some u else none := by
  obtain rfl | rfl := eq_land_or_lor ho <;> rfl

theorem compiledBinaryType?_eq (ho : isLogic op = false) (t u : Ty) :
    compiledBinaryType? op t u = binaryType? op t u := by
  cases op <;> first | rfl | cases ho

theorem code_unary_ok {e : Expr} (h : (Expr.unary op e).code scope slot n l = .ok c) :
    ∃ d, e.code scope slot n l = .ok d ∧ d.unary l op = .ok c := bind_ok.mp h

theorem code_binary_ok {a b : Expr} (h : (Expr.binary op a b).code scope slot n l = .ok c) :
    ∃ d f, a.code scope slot n l = .ok d ∧
      b.code scope slot (n + a.logics + width op) (if isLogic op then false else Item.endsAtLabel d.items) = .ok f ∧
      if isLogic op then c = d.logic op (freshIn scope "x" (n + a.logics)) f else d.binary op f = .ok c := by
  obtain ⟨d, hd, h⟩ := bind_ok.mp h
  by_cases ho : isLogic op = true
  · simp only [ho, ↓reduceIte] at h
    obtain ⟨f, hf, h⟩ := bind_ok.mp h
    exact ⟨d, f, hd, by simpa [width, ho] using hf, by rw [if_pos ho]; cases h; rfl⟩
  · simp only [ho] at h
    obtain ⟨f, hf, h⟩ := bind_ok.mp h
    exact ⟨d, f, hd, by simpa [width, ho] using hf, by rw [if_neg ho]; exact h⟩

theorem map_load_ok {r : Except Trap Scalar} (h : r.map Piece.load = .ok c) : ∃ v, r = .ok v ∧ c = .load v := by
  cases r with
  | ok v => cases h; exact ⟨v, rfl, rfl⟩
  | error e => cases h

theorem operation_known (op : BinOp) (d f : Piece) : (Piece.operation op d f).known = none := by
  unfold Piece.operation
  split <;> rfl

/-- A piece with a known value only loads it. -/
theorem loads_of_known : ∀ {e : Expr} {n : Nat} {l : Bool} {c : Piece} {t : Ty} {v : Scalar},
    e.code scope slot n l = .ok c → e.compiledType? types = some t → c.known = some v → Loads e t c v
  | .int k, n, l, c, t, v, h, ht, hv => by
    cases h
    cases hv
    simp only [compiledType?] at ht
    split at ht
    · cases ht
      exact ⟨rfl, rfl, rfl, fun _ => rfl, rfl⟩
    · cases ht
  | .bool b, n, l, c, t, v, h, ht, hv => by
    cases h
    cases hv
    cases ht
    exact ⟨rfl, rfl, rfl, fun _ => rfl, rfl⟩
  | .var x, n, l, c, t, v, h, ht, hv => by
    cases h
    cases hv
  | .unary op e, n, l, c, t, v, h, ht, hv => by
    obtain ⟨u, hte, hu⟩ := compiledType?_unary ht
    obtain ⟨d, hd, hc⟩ := code_unary_ok h
    obtain ⟨rfl, he⟩ | ⟨-, w, hw, -, he⟩ | ⟨-, -, he⟩ := Piece.unary_cases l op d <;> rw [he] at hc
    · cases hc
      have ih := loads_of_known hd hte hv
      obtain ⟨w, hw, hty⟩ := Scalar.unary_of_type (ih.ty ▸ hu : unaryType? .add v.ty = some t)
      obtain rfl : w = v := by
        cases v
        · cases hw; rfl
        · cases hw
      exact ⟨ih.items, ih.logics, ih.vars, fun env => by simp only [eval, ih.eval env]; exact hw, hty⟩
    · obtain ⟨x, hx, rfl⟩ := map_load_ok hc
      cases hv
      have ih := loads_of_known hd hte hw
      obtain ⟨y, hy, hty⟩ := Scalar.unary_of_type (ih.ty ▸ hu : unaryType? op w.ty = some t)
      obtain rfl : y = v := Except.ok.inj (hy.symm.trans hx)
      exact ⟨rfl, ih.logics, ih.vars, fun env => by simp only [eval, ih.eval env]; exact hx, hty⟩
    · cases hc
      cases hv
  | .binary op a b, n, l, c, t, v, h, ht, hv => by
    obtain ⟨u, w, hta, htb, hu⟩ := compiledType?_binary ht
    obtain ⟨d, f, hd, hf, hc⟩ := code_binary_ok h
    split at hc
    · subst hc
      cases hv
    · next ho =>
      unfold Piece.binary at hc
      split at hc
      · next x y hx hy =>
        obtain ⟨z, hz, rfl⟩ := map_load_ok hc
        cases hv
        rw [compiledBinaryType?_eq (Bool.not_eq_true _ ▸ ho)] at hu
        have iha := loads_of_known hd hta hx
        have ihb := loads_of_known hf htb hy
        have hty := Scalar.binary_of_type (iha.ty ▸ ihb.ty ▸ hu : binaryType? op x.ty y.ty = some t)
        rw [hz] at hty
        have hdec : x.decides op = false := by
          cases op <;> first | rfl | exact absurd rfl ho
        refine ⟨rfl, ?_, ?_, fun env => ?_, hty⟩
        · simp only [Bool.not_eq_true] at ho
          simp [logics, iha.logics, ihb.logics, width, ho]
        · simp [vars, iha.vars, ihb.vars]
        · simp only [eval, iha.eval env, ihb.eval env]
          show (if x.decides op = true then _ else _) = _
          rw [hdec]
          exact hz
      · cases hc
        rw [operation_known] at hv
        cases hv

/-- The pieces that cannot be compiled: an operation on constants traps. -/
theorem literalTrap_of_error {trap : Trap} : ∀ {e : Expr} {n : Nat} {l : Bool} {t : Ty},
    e.code scope slot n l = .error trap → e.type? types = some t → e.LiteralTrap
  | .int _, _, _, _, h, _ | .bool _, _, _, _, h, _ | .var _, _, _, _, h, _ => nomatch h
  | .unary op e, n, l, t, h, ht => by
    obtain ⟨u, hte, hu⟩ := type?_unary ht
    simp only [code] at h
    cases hd : e.code scope slot n l with
    | error e => rw [hd] at h; cases h; exact (literalTrap_of_error hd hte).unary
    | ok d =>
      rw [hd] at h
      have hc : d.unary l op = .error trap := h
      obtain ⟨rfl, he⟩ | ⟨-, w, hw, -, he⟩ | ⟨-, -, he⟩ := Piece.unary_cases l op d <;> rw [he] at hc
      · cases hc
      · have ih := loads_of_known hd (compiledType?_of_type? hte) hw
        obtain ⟨y, hy, -⟩ := Scalar.unary_of_type (ih.ty ▸ hu : unaryType? op w.ty = some t)
        rw [hy] at hc
        cases hc
      · cases hc
  | .binary op a b, n, l, t, h, ht => by
    obtain ⟨u, w, hta, htb, hu⟩ := type?_binary ht
    simp only [code] at h
    cases hd : a.code scope slot n l with
    | error e => rw [hd] at h; cases h; exact (literalTrap_of_error hd hta).left
    | ok d =>
      rw [hd] at h
      by_cases ho : isLogic op = true
      · simp only [bind, Except.bind, ho, ↓reduceIte] at h
        cases hf : b.code scope slot (n + a.logics + 1) false with
        | error e => exact (literalTrap_of_error hf htb).right
        | ok f => rw [hf] at h; cases h
      · simp only [bind, Except.bind, ho] at h
        cases hf : b.code scope slot (n + a.logics) (Item.endsAtLabel d.items) with
        | error e => exact (literalTrap_of_error hf htb).right
        | ok f =>
          rw [hf] at h
          have h : d.binary op f = .error trap := h
          unfold Piece.binary at h
          split at h
          · next x y hx hy =>
            have iha := loads_of_known hd (compiledType?_of_type? hta) hx
            have ihb := loads_of_known hf (compiledType?_of_type? htb) hy
            have hty := Scalar.binary_of_type (iha.ty ▸ ihb.ty ▸ hu : binaryType? op x.ty y.ty = some t)
            have hdec : x.decides op = false := by
              cases op <;> first | rfl | exact absurd rfl ho
            cases hz : Scalar.binary op x y with
            | ok z => rw [hz] at h; cases h
            | error e =>
              rw [hz] at hty
              refine ⟨_, e, .whole, by simp [vars, iha.vars, ihb.vars], ?_, hty⟩
              simp only [eval, iha.eval, ihb.eval]
              show (if x.decides op = true then _ else _) = _
              rw [hdec]
              exact hz
          · cases h

theorem items_ne_nil : ∀ {e : Expr} {n : Nat} {l : Bool} {c : Piece}, e.code scope slot n l = .ok c → c.items ≠ []
  | .int _, _, _, _, h | .bool _, _, _, _, h | .var _, _, _, _, h => by
    cases h
    exact nofun
  | .unary op e, n, l, c, h => by
    obtain ⟨d, hd, hc⟩ := code_unary_ok h
    obtain ⟨-, he⟩ | ⟨-, w, -, -, he⟩ | ⟨-, -, he⟩ := Piece.unary_cases l op d <;> rw [he] at hc
    · cases hc
      exact items_ne_nil hd
    · obtain ⟨x, -, rfl⟩ := map_load_ok hc
      exact nofun
    · cases hc
      simp
  | .binary op a b, n, l, c, h => by
    obtain ⟨d, f, -, -, hc⟩ := code_binary_ok h
    split at hc
    · subst hc
      simp [Piece.logic]
    · unfold Piece.binary at hc
      split at hc
      · obtain ⟨z, -, rfl⟩ := map_load_ok hc
        exact nofun
      · cases hc
        unfold Piece.operation
        split <;> simp

end Expr

/-! ## Steps of the compiler -/

namespace Compile

variable {s : CompileState} {p : Pos} {k : Option Known}

theorem constant_eq (v : Scalar) (t : Ty) (p : Pos) (s : CompileState) : constant v.value t p s = .ok ()
    { s with
      program := s.program.emit (.push v.value) p
      stack := ⟨.value t (some ⟨v.value, s.program.code.size⟩) :: s.stack.items⟩ } := by
  cases v <;> rfl

theorem popValue_eq {t : Ty} {rest : List Operand} (h : s.stack = ⟨.value t k :: rest⟩) (p : Pos) :
    popValue p s = .ok ⟨t, k⟩ { s with stack := ⟨rest⟩ } := by
  obtain ⟨symbols, program, store, stack, scopes, funcs, marks, jumps, labels, lastLabel⟩ := s
  subst h
  rfl

theorem popCondition_eq {rest : List Operand} (h : s.stack = ⟨.value .bool k :: rest⟩) (p : Pos) :
    popCondition p s = .ok () { s with stack := ⟨rest⟩ } := by
  rw [popCondition, seq_eq (popValue_eq h p)]
  rfl

theorem isTrailing_eq (k : Known) (s : CompileState) : isTrailing k s =
    .ok (decide (k.loadedAt + 1 = s.program.code.size ∧ s.lastLabel ≠ some k.loadedAt)) s := rfl

theorem trailingPair?_eq {x y : Known} (h : x.loadedAt + 1 = y.loadedAt) (hs : y.loadedAt + 1 = s.program.code.size)
    (hl : s.lastLabel ≠ some y.loadedAt) : trailingPair? (some x) (some y) s = .ok (some (x, y)) s := by
  rw [trailingPair?, seq_eq (isTrailing_eq y s)]
  simp only [hs, hl, h, ne_eq, not_false_eq_true, and_self, decide_true, Bool.and_self, ↓reduceIte]
  rfl

variable {op : Operator} {bop : BinOp} {t u v : Ty} {rest : List Operand}

/-- Two known operands are computed at once. -/
theorem binary_fold {x y : Value} {i : Nat} (hb : BinOp.ofOperator? op = some bop)
    (hst : s.stack = ⟨.value u (some ⟨y, i + 1⟩) :: .value t (some ⟨x, i⟩) :: rest⟩)
    (ht : Ty.binaryResult bop t u = .ok v) (hs : i + 2 = s.program.code.size) (hl : s.lastLabel ≠ some (i + 1)) :
    (∀ w : Scalar, x.binary bop y = .ok w.value → binary op p s = .ok ()
      { s with
        program.code := (s.program.code.take i).push ⟨.push w.value, p⟩
        stack := ⟨.value v (some ⟨w.value, i⟩) :: rest⟩ }) ∧
    ∀ e, x.binary bop y = .error e → ∃ s', binary op p s = .error ⟨.constant e, p⟩ s' := by
  have hpair := trailingPair?_eq (s := { s with stack := ⟨rest⟩ }) (x := ⟨x, i⟩) (y := ⟨y, i + 1⟩) rfl hs hl
  simp only [binary, hb]
  rw [seq_eq (popValue_eq hst p), seq_eq (popValue_eq rfl p), ht]
  dsimp only
  rw [seq_eq hpair]
  refine ⟨fun w hw => ?_, fun e he => ?_⟩
  · dsimp only
    rw [hw]
    dsimp only
    rw [seq_eq (show cutCode i _ = .ok () _ from rfl), constant_eq]
    have hi : (s.program.code.take i).size = i := by
      rw [Array.take_eq_extract, Array.size_extract]
      omega
    simp only [Program.emit, hi]
  · dsimp only
    rw [he]
    exact ⟨_, rfl⟩

theorem trailingShort?_int (bop : BinOp) (k : Int64) (i : Nat) (kl : Option Known) (s : CompileState) :
    trailingShort? bop ⟨.int, kl⟩ ⟨.int, some ⟨.int k, i⟩⟩ s =
      .ok (if i + 1 = s.program.code.size ∧ s.lastLabel ≠ some i then (shortOp? bop k).map (i, ·) else none) s := by
  simp only [trailingShort?]
  rw [seq_eq (isTrailing_eq _ s)]
  simp only [true_and, decide_eq_true_eq]
  split <;> rfl

/-- Otherwise the operator is emitted. -/
theorem binary_run {kl kr : Option Known} (hb : BinOp.ofOperator? op = some bop)
    (hst : s.stack = ⟨.value u kr :: .value t kl :: rest⟩) (ht : Ty.binaryResult bop t u = .ok v)
    (hk : kl = none ∨ kr = none) {short : Option (Nat × Op)}
    (hs : trailingShort? bop ⟨t, kl⟩ ⟨u, kr⟩ { s with stack := ⟨rest⟩ } = .ok short { s with stack := ⟨rest⟩ }) :
    binary op p s = .ok () (match short with
      | some (i, o) => { s with
          program.code := s.program.code.modify i fun x => { x with op := o }
          stack := ⟨.plain v :: rest⟩ }
      | none => { s with program := s.program.emit (.binary bop) p, stack := ⟨.plain v :: rest⟩ }) := by
  have hpair : trailingPair? kl kr { s with stack := ⟨rest⟩ } = .ok none { s with stack := ⟨rest⟩ } := by
    obtain rfl | rfl := hk
    · rfl
    · cases kl <;> rfl
  simp only [binary, hb]
  rw [seq_eq (popValue_eq hst p), seq_eq (popValue_eq rfl p), ht]
  dsimp only
  rw [seq_eq hpair]
  dsimp only
  have hcode : binaryCode bop ⟨t, kl⟩ ⟨u, kr⟩ p { s with stack := ⟨rest⟩ } = .ok () (match short with
      | some (i, o) => { s with
          program.code := s.program.code.modify i fun x => { x with op := o }
          stack := ⟨rest⟩ }
      | none => { s with program := s.program.emit (.binary bop) p, stack := ⟨rest⟩ }) := by
    rw [binaryCode, seq_eq hs]
    cases short <;> rfl
  rw [seq_eq hcode]
  cases short <;> rfl

theorem unaryOp_eq (h : Expr.unaryType? op t = some v) (s : CompileState) :
    unaryOp op t p s = .ok (if op = .add then none else some (Piece.unOp op)) s ∧ v = t := by
  cases op <;> cases t <;> cases h <;> exact ⟨rfl, rfl⟩

theorem unary_eq (h : Expr.unaryType? op t = some v) (hst : s.stack = ⟨.value t k :: rest⟩) :
    unary op p s = (do
      match (if op = .add then none else some (Piece.unOp op) : Option UnOp) with
      | none => pushOperand (.value t k)
      | some op =>
        match ← trailing? k with
        | some k =>
          match k.value.unary op with
          | .error e => fail (.constant e) p
          | .ok w =>
            cutCode k.loadedAt
            constant w t p
        | none =>
          emit (.unary op) p
          pushValue t : Compile Unit) { s with stack := ⟨rest⟩ } := by
  have hne : op ≠ .and ∧ op ≠ .mul := by constructor <;> rintro rfl <;> cases h
  rw [unary.eq_def]
  split
  · exact absurd rfl hne.1
  · exact absurd rfl hne.2
  · rw [seq_eq (popValue_eq hst p)]
    exact seq_eq (unaryOp_eq h _).1

end Compile

end Goblet
