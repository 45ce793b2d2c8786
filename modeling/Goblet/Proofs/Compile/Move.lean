import Goblet.Proofs.Compile.Check
import Goblet.Proofs.Compile.Setting

/-!
# Moves

What one step of the compiler can do to code and operands, apart from jumps, labels, blocks and functions
(`Move n m s t`): it takes `n` operands and leaves `m`, and

- adds instructions, which find what they take on the machine's stack and leave what the operands say (`Flow`), and
  which only use slots that names have (`Op.Within`), or
- loads a constant, or loads one in place of the constants that it was computed from, or
- puts another instruction in the place of the last one.
-/

namespace Goblet

open List

/-! ## Cells -/

/-- The cells that an operand takes on the machine's stack, each with whether it holds a value; the base of an
assignment may be the address of a local variable. -/
def Operand.cells : Operand → List Bool
  | .value .. | .iter .. => [true]
  | .place _ => [false]
  | _ => []

/-- The cells of operands, the top one first. -/
def cellsOf (os : List Operand) : List Bool := os.flatMap Operand.cells

@[simp] theorem cellsOf_nil : cellsOf [] = [] := rfl

@[simp] theorem cellsOf_cons (o : Operand) (os : List Operand) : cellsOf (o :: os) = o.cells ++ cellsOf os := rfl

@[simp] theorem cellsOf_append (os rs : List Operand) : cellsOf (os ++ rs) = cellsOf os ++ cellsOf rs :=
  flatMap_append ..

theorem Operand.length_cells (o : Operand) : o.cells.length = o.slots := by
  cases o <;> rfl

/-- How many values an instruction takes from the stack and leaves there, if that is all it does to it. -/
def Op.arity? : Op → Option (Nat × Nat)
  | .push _ | .get _ | .new _ => some (0, 1)
  | .set _ => some (1, 0)
  | .deref | .box | .unary _ | .addi _ | .subi _ | .loweri _ | .field _ | .len | .cap | .range => some (1, 1)
  | .derefSet => some (2, 0)
  | .binary _ | .index | .mapIndex _ => some (2, 1)
  | .convert _ depth => some (depth + 1, depth + 1)
  | .callX argc results _ _ => some (argc + 1, results)
  | .ret n _ => some (n, 0)
  | .indexSet | .mapSet => some (3, 0)
  | .slice low high => some (1 + low.toNat + high.toNat, 1)
  | .composite _ n .pairs => some (2 * n, 1)
  | .composite _ n _ => some (n, 1)
  | .append count spread => some ((if spread then 1 else count) + 1, 1)
  | .make _ argc => some (argc, 1)
  | .delete => some (2, 0)
  | .panic => some (1, 0)
  | _ => none

/-- What instructions make of the cells on top of the stack. -/
inductive Flow : List Op → List Bool → List Bool → Prop
  | done {cs : List Bool} : Flow [] cs cs
  | plain {op : Op} {ops : List Op} {k m : Nat} {cs ds : List Bool} : op.arity? = some (k, m) →
      Flow ops (List.replicate m true ++ cs) ds → Flow (op :: ops) (List.replicate k true ++ cs) ds
  /-- The address of a variable. -/
  | addr {slot : Slot} {ops : List Op} {cs ds : List Bool} : Flow ops (false :: cs) ds → Flow (.addr slot :: ops) cs ds
  /-- The pointer that a variable holds, as the base of a store. -/
  | base {slot : Slot} {ops : List Op} {cs ds : List Bool} : Flow ops (false :: cs) ds → Flow (.get slot :: ops) cs ds
  /-- A store into a field, whatever its base is. -/
  | fieldSet {path : List Nat} {b : Bool} {ops : List Op} {cs ds : List Bool} : Flow ops cs ds →
      Flow (.fieldSet path :: ops) (true :: b :: cs) ds
  | pop {n : Nat} {bs : List Bool} {ops : List Op} {cs ds : List Bool} : bs.length = n → Flow ops cs ds →
      Flow (.pop n :: ops) (bs ++ cs) ds

namespace Flow

variable {a b : List Op} {cs ds es : List Bool}

theorem trans (h : Flow a cs ds) (h' : Flow b ds es) : Flow (a ++ b) cs es := by
  induction h with
  | done => exact h'
  | plain hop _ ih => exact .plain hop (ih h')
  | addr _ ih => exact .addr (ih h')
  | base _ ih => exact .base (ih h')
  | fieldSet _ ih => exact .fieldSet (ih h')
  | pop hn _ ih => exact .pop hn (ih h')

theorem above (h : Flow a cs ds) (bs : List Bool) : Flow a (cs ++ bs) (ds ++ bs) := by
  induction h with
  | done => exact .done
  | plain hop _ ih =>
    rw [append_assoc] at ih ⊢
    exact .plain hop ih
  | addr _ ih => exact .addr ih
  | base _ ih => exact .base ih
  | fieldSet _ ih => exact .fieldSet ih
  | pop hn _ ih =>
    rw [append_assoc]
    exact .pop hn ih

theorem one {op : Op} {k m : Nat} (h : op.arity? = some (k, m)) :
    Flow [op] (List.replicate k true) (List.replicate m true) := by
  have h : Flow [op] (List.replicate k true ++ []) (List.replicate m true ++ []) := .plain h .done
  rwa [append_nil, append_nil] at h

end Flow

/-- Conversions of values, none of them below the top `n`. -/
def Converts (n : Nat) (ops : List Op) : Prop := ∀ op ∈ ops, ∃ ty d, op = .convert ty d ∧ d < n

variable {n : Nat}

theorem Converts.nil : Converts n [] := nofun

theorem Converts.append {a b : List Op} (h : Converts n a) (h' : Converts n b) : Converts n (a ++ b) :=
  fun op hop => (mem_append.mp hop).elim (h op) (h' op)

theorem Converts.mono {m : Nat} {a : List Op} (h : Converts m a) (hmn : m ≤ n) : Converts n a := fun op hop => by
  obtain ⟨ty, d, he, hd⟩ := h op hop
  exact ⟨ty, d, he, Nat.lt_of_lt_of_le hd hmn⟩

theorem Converts.flow {ops : List Op} (h : Converts n ops) :
    Flow ops (List.replicate n true) (List.replicate n true) := by
  induction ops with
  | nil => exact .done
  | cons op ops ih =>
    obtain ⟨ty, d, rfl, hd⟩ := h op (.head _)
    have hn : List.replicate n true = List.replicate (d + 1) true ++ List.replicate (n - (d + 1)) true := by
      rw [replicate_append_replicate, Nat.add_sub_cancel' hd]
    have hrest := ih fun op hop => h op (.tail _ hop)
    rw [hn] at hrest ⊢
    exact .plain rfl hrest

namespace Compile

/-! ## Slots -/

/-- A place in memory that a name has, as seen from the innermost scope, or one of the innermost function. -/
def Setting.Reach (σ : Setting) : Slot → Prop
  | .global i => i < σ.data.size ∨ ∃ key sym, σ.symbols.lookup? key = some sym ∧ sym.addr = .global i
  | .local k => (∃ f fs, σ.funcs = f :: fs ∧ 0 ≤ k ∧ k < f.locals) ∨
      ∃ sc name sym, IsPart name ∧ σ.symbols.lookup? (SymbolTable.qualify sc name) = some sym ∧ sym.kind = .var ∧
        sym.addr = .local k ∧ (sc = σ.scope ∨ sc ∈ SymbolTable.enclosing σ.scope ∧ ∃ f fs, σ.funcs = f :: fs ∧
          (f.key ++ "/").toList.isPrefixOf (SymbolTable.qualify sc name).toList)

end Compile

/-- The slots of an instruction are those of names, and it returns from the innermost function. -/
def Op.Within (σ : Compile.Setting) : Op → Prop
  | .get slot | .set slot | .addr slot => σ.Reach slot
  | .next key value _ => (∀ slot, key = some slot → σ.Reach slot) ∧ ∀ slot, value = some slot → σ.Reach slot
  | .ret n params => ∃ f fs, σ.funcs = f :: fs ∧ n = f.sig.results.length ∧ params = f.sig.params.length
  | _ => True

namespace Compile

/-! ## Moves -/

/-- What is known of operands. -/
def knowns (os : List Operand) : List Known := os.filterMap Operand.known?

@[simp] theorem knowns_append (os rs : List Operand) : knowns (os ++ rs) = knowns os ++ knowns rs :=
  filterMap_append ..

/-- Whether nothing is known of an operand and it names no function. -/
def isQuiet : Operand → Bool
  | .value _ known => known.isNone
  | .func .. => false
  | _ => true

theorem knowns_of_quiet {os : List Operand} (h : os.all isQuiet) : knowns os = [] := by
  refine filterMap_eq_nil_iff.mpr fun o ho => ?_
  have hq := all_eq_true.mp h o ho
  cases o with
  | value ty known => exact Option.isNone_iff_eq_none.mp hq
  | _ => rfl

/-- Where a constant comes from that is loaded in the place of some operands. -/
inductive Origin (s t : CompileState) (os : List Operand) : Value → Prop
  | int (n : Int64) : Origin s t os (.int n)
  | float (x : Double) : Origin s t os (.float x)
  | str (text : String) : Origin s t os (.str text)
  | const {key : String} {sym : Symbol} : s.symbols.lookup? key = some sym → sym.kind = .const →
      Origin s t os (sym.value.getD .nil)
  | binary {op : BinOp} {a b : Known} {v : Value} : a ∈ knowns os → b ∈ knowns os → a.value.binary op b.value = .ok v →
      Origin s t os v
  | unary {op : UnOp} {k : Known} {v : Value} : k ∈ knowns os → k.value.unary op = .ok v → Origin s t os v
  | convert {k : Known} {ty : Ty} {v : Value} : k ∈ knowns os → s.store.convert k.value ty = .ok (v, t.store) →
      Origin s t os v

/-- The operands are constants that were loaded just before, one after the other from `i` on, and nothing jumps in
between. -/
structure Trailing (i : Nat) (os : List Operand) (s : CompileState) : Prop where
  sites : os.map (·.known?.map Known.loadedAt) = (List.range' i os.length).reverse.map some
  size : i + os.length = s.ops.length
  label : s.lastLabel ≠ some (s.ops.length - 1)

/-- The instruction loads the value. -/
inductive Loads (σ : Setting) : Value → Op → Prop
  | push {v : Value} : (∀ text, v ≠ .str text) → Loads σ v (.push v)
  | get {text : String} {i : Nat} : i < σ.data.size → Loads σ (.str text) (.get (.global i))

/-- A step that takes some operands and leaves some. -/
inductive Move : Nat → Nat → CompileState → CompileState → Prop
  | emits {s t : CompileState} {os rs rest : List Operand} {ops : List Op} : s.stack.items = os ++ rest →
      t.stack.items = rs ++ rest → Names s.setting t.setting →
      (∃ base, Floats (knowns os) s.ops base ∧ t.ops = base ++ ops) → Flow ops (cellsOf os) (cellsOf rs) →
      (∀ op ∈ ops, op.Within t.setting) → rs.all isQuiet → (cellsOf rs ≠ [] → ops ≠ []) →
      Move os.length rs.length s t
  /-- The name of a function that is called. -/
  | names {s t : CompileState} {key : String} {sym : Symbol} {sig : FuncType} : s.symbols.lookup? key = some sym →
      sym.kind = .func → sym.ty = sig.ty → t = { s with stack := ⟨.func key sig :: s.stack.items⟩ } → Move 0 1 s t
  | keeps {s : CompileState} {o : Operand} {rest : List Operand} : s.stack.items = o :: rest → Move 1 1 s s
  | loads {s t : CompileState} {v : Value} {ty : Ty} {op : Op} :
      t.stack.items = .value ty (some ⟨v, s.ops.length⟩) :: s.stack.items → Names s.setting t.setting →
      t.ops = s.ops ++ [op] → Loads t.setting v op → Origin s t [] v → Move 0 1 s t
  | folds {s t : CompileState} {os rest : List Operand} {i : Nat} {v : Value} {ty : Ty} {op : Op} :
      s.stack.items = os ++ rest → Trailing i os s → t.stack.items = .value ty (some ⟨v, i⟩) :: rest →
      Names s.setting t.setting → t.ops = s.ops.take i ++ [op] → Loads t.setting v op → Origin s t os v →
      Move os.length 1 s t
  | shortens {s t : CompileState} {left : Option Known} {rest : List Operand} {i : Nat} {k : Int64} {ty : Ty}
      {op : Op} :
      s.stack.items = .value .int (some ⟨.int k, i⟩) :: .value .int left :: rest → i + 1 = s.ops.length →
      s.lastLabel ≠ some i → t.stack.items = .plain ty :: rest → t.setting = s.setting → t.ops = s.ops.take i ++ [op] →
      op = .addi k ∨ op = .subi k ∨ op = .loweri k → Move 2 1 s t
  | addresses {s t : CompileState} {rest : List Operand} {ty : Ty} {ops : List Op} {i : Nat} :
      s.stack.items = .plain ty :: rest → s.ops = ops ++ [.get (.global i)] → s.lastLabel ≠ some s.ops.length →
      t.stack.items = .plain (.ptr ty) :: rest → t.setting = s.setting → t.ops = ops ++ [.addr (.global i)] →
        Move 1 1 s t
  /-- An operand on top takes no room. -/
  | beneath {n m : Nat} {s t u : CompileState} {o : Operand} : o.cells = [] → s.stack.items = o :: u.stack.items →
      u = { s with stack := u.stack } → Move n m u t → Move (n + 1) m s t

variable {s t u : CompileState} {p : Pos}

theorem Move.of_codes (os rs : List Operand) {ks : List Known} {ops : List Op}
    (hs : s.stack.items = os ++ u.stack.items) (hu : u = { s with stack := u.stack }) {w : CompileState}
    (hc : Codes ks u w ops) (hk : ∀ k ∈ ks, k ∈ knowns os) (ht : t = { w with stack := ⟨rs ++ w.stack.items⟩ })
    (hf : Flow ops (cellsOf os) (cellsOf rs)) (hw : ∀ op ∈ ops, op.Within w.setting) (hr : rs.all isQuiet)
    (hsolid : cellsOf rs ≠ [] → ops ≠ []) :
    Move os.length rs.length s t := by
  obtain ⟨base, hfl, hb⟩ := hc.code
  have huops : u.ops = s.ops := by rw [hu]; rfl
  have huset : u.setting = s.setting := by rw [hu]; rfl
  refine .emits hs ?_ ?_ ⟨base, huops ▸ hfl.weaken hk, ?_⟩ hf ?_ hr hsolid
  · rw [ht, hc.stack]
  · rw [ht, ← huset]
    exact hc.names
  · rw [ht]
    exact hb
  · rw [ht]
    exact hw

end Compile

end Goblet
