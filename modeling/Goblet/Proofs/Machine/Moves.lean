import Goblet.Machine.Run
import Goblet.Proofs.Code
import Goblet.Proofs.Effect

/-!
# Moves of the machine

Where a machine is between two instructions of a chunk is a `Spot`: its instruction, the global variables, and the
values on the stack above them. `Goes p a b` says that a machine with the program `p` comes from `a` to `b`, and
`Fails p a f g` that an instruction fails with `f` on the way while the global variables are `g`. Both hold whatever the
limits are, unless a limit is hit because it is too low (`Short`): the number of steps and the height of the stack do
not depend on the limits. What each instruction does to a spot is said once here. Behind a chunk stands an exit, where a
run ends (`Goes.run`, `Fails.run`).
-/

namespace Goblet

open Array Machine

/-- Where a machine is; the top of the stack is first. -/
structure Spot where
  ip : Nat
  globals : Array Value
  stack : List Value

namespace Spot

/-- The stack lies above the global variables. -/
def mem (a : Spot) : Array Value := a.stack.foldr (fun v m => m.push v) a.globals

variable {i : Nat} {g : Array Value} {st : List Value}

@[simp] theorem mem_cons {v : Value} : mem ⟨i, g, v :: st⟩ = (mem ⟨i, g, st⟩).push v := rfl

@[simp] theorem mem_nil : mem ⟨i, g, []⟩ = g := rfl

theorem mem_ip (j : Nat) : mem ⟨i, g, st⟩ = mem ⟨j, g, st⟩ := rfl

@[simp] theorem size_mem : (mem ⟨i, g, st⟩).size = g.size + st.length := by
  induction st with
  | nil => rfl
  | cons v st ih => rw [mem_cons, size_push, ih, List.length_cons]; omega

theorem getElem?_mem {k : Nat} (hk : k < g.size) : (mem ⟨i, g, st⟩)[k]? = g[k]? := by
  induction st with
  | nil => rfl
  | cons v st ih =>
    have hsize : k < (mem ⟨i, g, st⟩).size := by rw [size_mem]; omega
    rw [mem_cons, getElem?_push_lt hsize, ← getElem?_eq_getElem hsize, ih]

theorem setIfInBounds_mem {k : Nat} (hk : k < g.size) (w : Value) :
    (mem ⟨i, g, st⟩).setIfInBounds k w = mem ⟨i, g.setIfInBounds k w, st⟩ := by
  induction st with
  | nil => rfl
  | cons v st ih =>
    have hsize : k < (mem ⟨i, g, st⟩).size := by rw [size_mem]; omega
    rw [mem_cons, mem_cons, ← ih]
    simp only [setIfInBounds, size_push, Nat.lt_succ_of_lt hsize, hsize, set_push, ↓reduceDIte]

theorem shrink_mem : (mem ⟨i, g, st⟩).shrink g.size = g := by
  induction st with
  | nil => simp
  | cons v st ih =>
    have hsize : g.size ≤ (mem ⟨i, g, st⟩).size := by rw [size_mem]; omega
    rw [mem_cons, shrink_eq_take, take_eq_extract, extract_push, if_pos hsize, ← take_eq_extract,
      ← shrink_eq_take, ih]

end Spot

namespace Machine

/-- The machine is at a spot, and the run began with as many global variables. -/
structure Holds (a : Spot) (m : Machine) : Prop where
  ip : m.ip = a.ip
  mem : m.mem = a.mem
  base : m.base = a.globals.size

/-- The machine at another spot, some steps later. -/
def moved (m : Machine) (b : Spot) (k : Nat) : Machine := { m with ip := b.ip, mem := b.mem, steps := m.steps + k }

/-- A limit is too low for some steps and some cells. -/
def Short (l : Limits) (steps cells : Nat) : Prop := (∃ n, l.steps = some n ∧ n < steps) ∨ l.stack < cells

/-- A limit was hit, and is too low for some steps and some cells. -/
def Limited (l : Limits) (steps cells : Nat) (r : EStateM.Result Fault Machine α) : Prop :=
  Short l steps cells ∧ ∃ n m, r = .error (.stepLimit n) m ∨ r = .error (.stackLimit n) m

/-- A machine at `a` comes to `b`. -/
def Goes (p : Program) (a b : Spot) : Prop :=
  b.globals.size = a.globals.size ∧ ∃ k h, ∀ s : Setting, s.program = p → ∀ m, Holds a m → ∀ fuel,
    execute s (k + fuel) m = execute s fuel (m.moved b k) ∨ Limited s.limits (m.steps + k) h (execute s (k + fuel) m)

/-- A machine at `a` fails later on, with these global variables. -/
def Fails (p : Program) (a : Spot) (f : Fault) (g : Array Value) : Prop :=
  ∃ k h, ∀ s : Setting, s.program = p → ∀ m, Holds a m → ∀ fuel,
    (∃ m', execute s (k + fuel) m = .error f m' ∧ m'.mem.shrink a.globals.size = g) ∨
      Limited s.limits (m.steps + k) h (execute s (k + fuel) m)

variable {p : Program} {s : Setting} {a b c : Spot} {m : Machine} {f : Fault} {g g' : Array Value} {l : Limits}
  {k h i : Nat}

theorem Limited.mono {k' h' : Nat} {r : EStateM.Result Fault Machine α} (hr : Limited l k h r) (hk : k ≤ k')
    (hh : h ≤ h') : Limited l k' h' r := by
  refine ⟨?_, hr.2⟩
  rcases hr.1 with ⟨n, hn, hlt⟩ | hlt
  · exact .inl ⟨n, hn, Nat.lt_of_lt_of_le hlt hk⟩
  · exact .inr (Nat.lt_of_lt_of_le hlt hh)

theorem Holds.moved (h : Holds a m) (hb : b.globals.size = a.globals.size) (k : Nat) : Holds b (m.moved b k) :=
  ⟨rfl, rfl, h.base.trans hb.symm⟩

theorem Goes.refl (p : Program) (a : Spot) : Goes p a a := by
  refine ⟨rfl, 0, 0, fun s _ m h fuel => .inl ?_⟩
  have hm : m.moved a 0 = m := by
    unfold moved
    rw [← h.ip, ← h.mem]
    rfl
  rw [Nat.zero_add, hm]

/-- Moves compose. -/
theorem Goes.trans (h : Goes p a b) (h' : Goes p b c) : Goes p a c := by
  obtain ⟨hb, k, n, h⟩ := h
  obtain ⟨hc, k', n', h'⟩ := h'
  refine ⟨hc.trans hb, k + k', max n n', fun s hs m hm fuel => ?_⟩
  rw [Nat.add_assoc]
  rcases h s hs m hm (k' + fuel) with he | hl
  · rw [he]
    rcases h' s hs _ (hm.moved hb k) fuel with he' | hl'
    · refine .inl (he'.trans ?_)
      simp [moved, Nat.add_assoc]
    · exact .inr (hl'.mono (by simp [moved, Nat.add_assoc]) (Nat.le_max_right ..))
  · exact .inr (hl.mono (by omega) (Nat.le_max_left ..))

/-- A failure after a move is a failure. -/
theorem Goes.fails (h : Goes p a b) (h' : Fails p b f g) : Fails p a f g := by
  obtain ⟨hb, k, n, h⟩ := h
  obtain ⟨k', n', h'⟩ := h'
  refine ⟨k + k', max n n', fun s hs m hm fuel => ?_⟩
  rw [Nat.add_assoc]
  rcases h s hs m hm (k' + fuel) with he | hl
  · rw [he, ← hb]
    rcases h' s hs _ (hm.moved hb k) fuel with he' | hl'
    · exact .inl he'
    · exact .inr (hl'.mono (by simp [moved, Nat.add_assoc]) (Nat.le_max_right ..))
  · exact .inr (hl.mono (by omega) (Nat.le_max_left ..))

/-! ## One instruction -/

theorem less_eq {n : Nat} (h : k ≤ n) (m : Machine) : less n k m = .ok (n - k) m := by
  unfold less
  rw [if_pos h]
  rfl

/-- A check passes or names the limit that stopped it. -/
theorem checkLimits_cases (l : Limits) (m : Machine) (hb : m.base ≤ m.mem.size) :
    checkLimits l m = .ok () { m with steps := m.steps + 1 } ∨
      Limited l (m.steps + 1) (m.mem.size - m.base) (checkLimits l m) := by
  have hm : ∀ m : Machine, m.base ≤ m.mem.size →
      (do
        let used ← less m.mem.size m.base
        if l.stack < used then throw (.stackLimit l.stack) : Exec Unit) m = .ok () m ∨
      Limited l m.steps (m.mem.size - m.base) ((do
        let used ← less m.mem.size m.base
        if l.stack < used then throw (.stackLimit l.stack) : Exec Unit) m) := by
    intro m hb
    rw [seq_eq (less_eq hb m)]
    split
    · next h => exact .inr ⟨.inr h, _, _, .inr rfl⟩
    · exact .inl rfl
  unfold checkLimits
  rw [seq_eq (show (modify fun m => { m with steps := m.steps + 1 } : Exec Unit) m = .ok () _ from rfl), get_seq]
  cases hl : l.steps with
  | none => exact hm { m with steps := m.steps + 1 } hb
  | some max =>
    by_cases hs : max < m.steps + 1
    · refine .inr ⟨.inl ⟨max, hl, hs⟩, max, { m with steps := m.steps + 1 }, .inl ?_⟩
      dsimp only
      rw [if_pos hs]
      rfl
    · dsimp only
      rw [if_neg hs]
      exact hm { m with steps := m.steps + 1 } hb

theorem Limited.seq {x : Exec α} {f : α → Exec β} (hl : Limited l k h (x m)) : Limited l k h ((x >>= f) m) := by
  obtain ⟨hs, n, m', hx | hx⟩ := hl
  · exact ⟨hs, n, m', .inl (seq_error hx)⟩
  · exact ⟨hs, n, m', .inr (seq_error hx)⟩

theorem Holds.height (h : Holds a m) : m.mem.size - m.base = a.stack.length := by
  rw [h.mem, h.base, show a.mem.size = a.globals.size + a.stack.length from Spot.size_mem]
  omega

theorem Holds.base_le (h : Holds a m) : m.base ≤ m.mem.size := by
  rw [h.mem, h.base, show a.mem.size = a.globals.size + a.stack.length from Spot.size_mem]
  exact Nat.le_add_right ..

variable {op : Op}

/-- A step is its instruction, once the limits allow it. -/
theorem step_of_opAt (hop : OpAt s.program.code a.ip op) (hne : op ≠ .exit) (hm : Holds a m) :
    step s m = (do
      let next ← perform s op
      modify fun m => { m with ip := next.getD (a.ip + 1) }
      return true : Exec Bool) { m with steps := m.steps + 1 } ∨
    Limited s.limits (m.steps + 1) a.stack.length (step s m) := by
  obtain ⟨p, hp⟩ := hop
  unfold step
  rcases checkLimits_cases s.limits m hm.base_le with hc | hl
  · left
    rw [seq_eq hc, get_seq]
    simp only [hm.ip, hp]
  · rw [hm.height] at hl
    exact .inr hl.seq

theorem execute_succ (n : Nat) (m : Machine) :
    execute s (1 + n) m = (do if ← step s then execute s n else return true : Exec Bool) m := by
  rw [Nat.add_comm]
  rfl

theorem Holds.counted (h : Holds a m) : Holds a { m with steps := m.steps + 1 } := ⟨h.ip, h.mem, h.base⟩

/-- An instruction takes a machine to a spot. -/
def Performs (op : Op) (a b : Spot) : Prop :=
  b.globals.size = a.globals.size ∧ ∀ s m, Holds a m → ∃ next,
    perform s op m = .ok next { m with mem := b.mem } ∧ next.getD (a.ip + 1) = b.ip

/-- An instruction that performs is a move. -/
theorem Performs.goes (h : Performs op a b) (hop : OpAt p.code a.ip op) (hne : op ≠ .exit) : Goes p a b := by
  refine ⟨h.1, 1, a.stack.length, fun s hs m hm fuel => ?_⟩
  subst hs
  rw [execute_succ]
  rcases step_of_opAt hop hne hm with hs | hl
  · left
    obtain ⟨next, hp, hn⟩ := h.2 s _ hm.counted
    rw [seq_eq hp] at hs
    rw [seq_eq hs, hn]
    rfl
  · exact .inr hl.seq

theorem fails_of_perform (hop : OpAt p.code a.ip op) (hne : op ≠ .exit)
    (h : ∀ s m, Holds a m → ∃ m', perform s op m = .error f m' ∧ m'.mem.shrink a.globals.size = g) : Fails p a f g := by
  refine ⟨1, a.stack.length, fun s hs m hm fuel => ?_⟩
  subst hs
  rw [execute_succ]
  rcases step_of_opAt hop hne hm with hs | hl
  · left
    obtain ⟨m', hp, hg⟩ := h s _ hm.counted
    rw [seq_error hp] at hs
    exact ⟨m', seq_error hs, hg⟩
  · exact .inr hl.seq

/-- At the exit the run ends. -/
theorem execute_exit (hop : OpAt s.program.code a.ip .exit) (hm : Holds a m) (fuel : Nat) :
    (∃ m', execute s (1 + fuel) m = .ok true m' ∧ m'.mem = a.mem) ∨
      Limited s.limits (m.steps + 1) a.stack.length (execute s (1 + fuel) m) := by
  obtain ⟨p, hp⟩ := hop
  rw [execute_succ]
  rcases checkLimits_cases s.limits m hm.base_le with hc | hl
  · left
    have hs : step s m = .ok false { m with steps := m.steps + 1 } := by
      unfold step
      rw [seq_eq hc, get_seq]
      simp only [hm.ip, hp]
      rfl
    rw [seq_eq hs]
    exact ⟨_, rfl, hm.mem⟩
  · rw [hm.height] at hl
    exact .inr (Limited.seq (hl.seq))

/-! ## What instructions do -/

section Instructions

variable {i k t : Nat} {st : List Value} {v w x : Value} {rel : Int} {y : Int64}

theorem pop_eq {b : Spot} (hmem : m.mem = b.mem.push v) (hbase : m.base ≤ b.mem.size) (name : String) :
    pop name m = .ok v { m with mem := b.mem } := by
  have hlt : m.base < m.mem.size := by rw [hmem, size_push]; omega
  unfold pop
  have hget : (modifyGet fun m : Machine =>
      if m.base < m.mem.size then (m.mem.back?, { m with mem := m.mem.pop }) else (none, m) : Exec (Option Value)) m =
        .ok (some v) { m with mem := b.mem } := by
    rw [modifyGet_run]
    simp only [hlt, ↓reduceIte]
    rw [hmem, back?_push, pop_push]
  rw [seq_eq hget]
  rfl

theorem Holds.pop (h : Holds ⟨i, g, v :: st⟩ m) (name : String) :
    pop name m = .ok v { m with mem := Spot.mem ⟨i, g, st⟩ } :=
  pop_eq h.mem (by rw [h.base, Spot.size_mem]; exact Nat.le_add_right ..) name

theorem Holds.rest (h : Holds ⟨i, g, v :: st⟩ m) : Holds ⟨i, g, st⟩ { m with mem := Spot.mem ⟨i, g, st⟩ } :=
  ⟨h.ip, rfl, h.base⟩

theorem Holds.address (h : Holds ⟨i, g, st⟩ m) (hk : k < g.size) : address (.global k) m = .ok k m := by
  have hlt : (0 : Int) ≤ k ∧ (k : Int) < m.mem.size := by
    rw [h.mem, Spot.size_mem]
    omega
  unfold Machine.address
  rw [get_seq]
  simp only [hlt, and_self, ↓reduceIte]
  rfl

theorem Holds.target (h : Holds ⟨i, g, st⟩ m) (t : Nat) : target ((t : Int) - i) m = .ok t m := by
  unfold Machine.target
  rw [get_seq]
  have hip : (m.ip : Int) + ((t : Int) - i) = t := by rw [show m.ip = i from h.ip]; omega
  simp only [hip, Int.toNat_natCast, Int.natCast_nonneg, ↓reduceIte]
  rfl

theorem Holds.peekBool {f : Bool} (h : Holds ⟨i, g, .bool f :: st⟩ m) (name : String) :
    peekBool name m = .ok f m := by
  have hlt : m.base < m.mem.size := by
    rw [h.base, h.mem, Spot.size_mem]
    exact Nat.lt_add_of_pos_right (Nat.succ_pos _)
  have hback : m.mem.back? = some (.bool f) := by rw [h.mem, Spot.mem_cons, back?_push]
  unfold Machine.peekBool
  rw [get_seq]
  simp only [hlt, ↓reduceIte, hback]
  rfl

theorem goes_push (hop : OpAt p.code i (.push v)) : Goes p ⟨i, g, st⟩ ⟨i + 1, g, v :: st⟩ := by
  refine Performs.goes ⟨rfl, fun s m hm => ⟨none, ?_, rfl⟩⟩ hop nofun
  show EStateM.Result.ok none { m with mem := m.mem.push v } = _
  rw [hm.mem]
  rfl

theorem goes_get (hop : OpAt p.code i (.get (.global k))) (hv : g[k]? = some v) :
    Goes p ⟨i, g, st⟩ ⟨i + 1, g, v :: st⟩ := by
  refine Performs.goes ⟨rfl, fun s m hm => ⟨none, ?_, rfl⟩⟩ hop nofun
  have hk : k < g.size := (Array.getElem?_eq_some_iff.mp hv).1
  have hr : cell k m = .ok v m := by
    unfold cell
    rw [get_seq, hm.mem, Spot.getElem?_mem hk, hv]
    rfl
  refine (seq_eq (hm.address hk)).trans ((seq_eq hr).trans ?_)
  show EStateM.Result.ok none { m with mem := m.mem.push v } = _
  rw [hm.mem]
  rfl

/-- Two operands give way to their result. -/
theorem goes_binary {o : BinOp} (hop : OpAt p.code i (.binary o)) (h : v.binary o w = .ok x) :
    Goes p ⟨i, g, w :: v :: st⟩ ⟨i + 1, g, x :: st⟩ := by
  refine Performs.goes ⟨rfl, fun s m hm => ⟨none, ?_, rfl⟩⟩ hop nofun
  refine (seq_eq (hm.pop _)).trans ((seq_eq (hm.rest.pop _)).trans ?_)
  rw [h]
  rfl

theorem fails_binary {o : BinOp} {e : ValueError} (hop : OpAt p.code i (.binary o)) (h : v.binary o w = .error e) :
    Fails p ⟨i, g, w :: v :: st⟩ (.value e) g := by
  refine fails_of_perform hop nofun fun s m hm => ⟨{ m with mem := Spot.mem ⟨i, g, st⟩ }, ?_, Spot.shrink_mem⟩
  refine (seq_eq (hm.pop _)).trans ((seq_eq (hm.rest.pop _)).trans ?_)
  rw [h]
  rfl

theorem goes_unary {o : UnOp} (hop : OpAt p.code i (.unary o)) (h : v.unary o = .ok w) :
    Goes p ⟨i, g, v :: st⟩ ⟨i + 1, g, w :: st⟩ := by
  refine Performs.goes ⟨rfl, fun s m hm => ⟨none, ?_, rfl⟩⟩ hop nofun
  refine (seq_eq (hm.pop _)).trans ?_
  rw [h]
  rfl

theorem goes_immediate {o : Op} {bop : BinOp} {name : String} {n : Int64} (hop : OpAt p.code i o) (hne : o ≠ .exit)
    (hp : ∀ s, perform s o = (do immediate bop name n; return none)) (h : v.binary bop (.int n) = .ok w) :
    Goes p ⟨i, g, v :: st⟩ ⟨i + 1, g, w :: st⟩ := by
  refine Performs.goes ⟨rfl, fun s m hm => ⟨none, ?_, rfl⟩⟩ hop hne
  have hi : immediate bop name n m = .ok () { m with mem := Spot.mem ⟨i, g, w :: st⟩ } := by
    unfold immediate
    rw [seq_eq (hm.pop _), h]
    rfl
  rw [hp, seq_eq hi]
  rfl

/-- The jumps over the right operand of `&&` and `||`, which keep the left one where they are taken. -/
theorem perform_jumpSet (s : Setting) (f : Bool) (rel : Int) :
    perform s (if f then .jumpSetTrue rel else .jumpSetFalse rel) = (do
      let op := if f then "JSET_TRUE" else "JSET_FALSE"
      if (← peekBool op) = f then return some (← target rel)
      else let _ ← pop op; return none : Exec (Option Nat)) := by
  cases f
  all_goals
    refine bind_congr fun b => ?_
    cases b <;> rfl

/-- A short circuit jumps with its operand in place. -/
theorem goes_jumpSet {f : Bool} (hop : OpAt p.code i
    (if f then .jumpSetTrue ((t : Int) - i) else .jumpSetFalse ((t : Int) - i))) :
    Goes p ⟨i, g, .bool f :: st⟩ ⟨t, g, .bool f :: st⟩ := by
  refine Performs.goes ⟨rfl, fun s m hm => ⟨some t, ?_, rfl⟩⟩ hop (by cases f <;> nofun)
  rw [perform_jumpSet, seq_eq (hm.peekBool _), if_pos rfl, seq_eq (hm.target t), Spot.mem_ip i, ← hm.mem]
  rfl

theorem goes_jumpSet_past {f : Bool} (hop : OpAt p.code i (if f then .jumpSetTrue rel else .jumpSetFalse rel)) :
    Goes p ⟨i, g, .bool (!f) :: st⟩ ⟨i + 1, g, st⟩ := by
  refine Performs.goes ⟨rfl, fun s m hm => ⟨none, ?_, rfl⟩⟩ hop (by cases f <;> nofun)
  rw [perform_jumpSet, seq_eq (hm.peekBool _), if_neg (Bool.not_eq_self f).mp, seq_eq (hm.pop _)]
  rfl

theorem write_eq (hk : k < m.mem.size) (v : Value) :
    write k v m = .ok () { m with mem := m.mem.setIfInBounds k v } := by
  unfold write
  rw [seq_eq (modifyGet_run _ m)]
  simp only [hk, ↓reduceIte]
  rfl

theorem Holds.write (h : Holds ⟨i, g, st⟩ m) (hk : k < g.size) (v : Value) :
    write k v m = .ok () { m with mem := Spot.mem ⟨i, g.setIfInBounds k v, st⟩ } := by
  have hlt : k < m.mem.size := by
    rw [h.mem, Spot.size_mem]
    exact Nat.lt_of_lt_of_le hk (Nat.le_add_right ..)
  rw [write_eq hlt, h.mem, Spot.setIfInBounds_mem hk]

/-- A store takes the top of the stack to its slot. -/
theorem goes_set (hop : OpAt p.code i (.set (.global k))) (hk : k < g.size) :
    Goes p ⟨i, g, v :: st⟩ ⟨i + 1, g.setIfInBounds k v, st⟩ := by
  refine Performs.goes ⟨size_setIfInBounds, fun s m hm => ⟨none, ?_, rfl⟩⟩ hop nofun
  refine (seq_eq (hm.pop _)).trans ((seq_eq (hm.rest.address hk)).trans ?_)
  exact seq_eq (hm.rest.write hk v)

theorem goes_pop (hop : OpAt p.code i (.pop 1)) : Goes p ⟨i, g, v :: st⟩ ⟨i + 1, g, st⟩ := by
  refine Performs.goes ⟨rfl, fun s m hm => ⟨none, ?_, rfl⟩⟩ hop nofun
  have hsize : m.mem.size = (Spot.mem ⟨i, g, st⟩).size + 1 := by rw [hm.mem, Spot.mem_cons, size_push]
  have hle : ¬m.mem.size < m.base + 1 := by
    rw [hsize, hm.base, Spot.size_mem]
    dsimp only
    omega
  have hshrink : m.mem.shrink (Spot.mem ⟨i, g, st⟩).size = Spot.mem ⟨i, g, st⟩ := by
    rw [hm.mem]
    simp
  have hpop : popN 1 "POP" m =
      .ok (m.mem.extract (Spot.mem ⟨i, g, st⟩).size m.mem.size).toList { m with mem := Spot.mem ⟨i, g, st⟩ } := by
    unfold popN
    rw [get_seq]
    simp only [hle, ↓reduceIte]
    rw [seq_eq (less_eq (by omega) m), modifyGet_run, hsize, Nat.add_sub_cancel, hshrink]
  exact seq_eq hpop

theorem goes_jump (hop : OpAt p.code i (.jump ((t : Int) - i))) : Goes p ⟨i, g, st⟩ ⟨t, g, st⟩ := by
  refine Performs.goes ⟨rfl, fun s m hm => ⟨some t, ?_, rfl⟩⟩ hop nofun
  refine (seq_eq (hm.target t)).trans ?_
  rw [Spot.mem_ip i, ← hm.mem]
  rfl

theorem Holds.popBool {f : Bool} (h : Holds ⟨i, g, .bool f :: st⟩ m) (name : String) :
    popBool name m = .ok f { m with mem := Spot.mem ⟨i, g, st⟩ } := by
  unfold Machine.popBool
  rw [seq_eq (h.pop _)]
  rfl

theorem perform_test (s : Setting) (f : Bool) (rel : Int) :
    perform s (if f then .jumpTrue rel else .jumpFalse rel) = (do
      if (← popBool (if f then "JUMP_TRUE" else "JUMP_FALSE")) = f then return some (← target rel)
      else return none : Exec (Option Nat)) := by
  cases f
  all_goals
    refine bind_congr fun b => ?_
    cases b <;> rfl

/-- A test that holds jumps. -/
theorem goes_test {f : Bool} (hop : OpAt p.code i
    (if f then .jumpTrue ((t : Int) - i) else .jumpFalse ((t : Int) - i))) :
    Goes p ⟨i, g, .bool f :: st⟩ ⟨t, g, st⟩ := by
  refine Performs.goes ⟨rfl, fun s m hm => ⟨some t, ?_, rfl⟩⟩ hop (by cases f <;> nofun)
  rw [perform_test, seq_eq (hm.popBool _), if_pos rfl, seq_eq (hm.rest.target t)]
  rfl

theorem goes_test_past {f : Bool} (hop : OpAt p.code i (if f then .jumpTrue rel else .jumpFalse rel)) :
    Goes p ⟨i, g, .bool (!f) :: st⟩ ⟨i + 1, g, st⟩ := by
  refine Performs.goes ⟨rfl, fun s m hm => ⟨none, ?_, rfl⟩⟩ hop (by cases f <;> nofun)
  rw [perform_test, seq_eq (hm.popBool _), if_neg (Bool.not_eq_self f).mp]
  rfl

/-! ### Loops over integers -/

theorem goes_range {n : Int64} (hop : OpAt p.code i .range) :
    Goes p ⟨i, g, .int n :: st⟩ ⟨i + 1, g, .count 0 n :: st⟩ := by
  refine Performs.goes ⟨rfl, fun s m hm => ⟨none, ?_, rfl⟩⟩ hop nofun
  exact seq_eq (hm.pop _)

theorem nextItem_count {x : Int64} (hm : Holds ⟨i, g, .count x y :: st⟩ m) : nextItem m =
    if x < y then .ok (some (.int x, .nil)) { m with mem := Spot.mem ⟨i, g, .count (x + 1) y :: st⟩ }
    else .ok none m := by
  have hback : m.mem.back? = some (.count x y) := by rw [hm.mem, Spot.mem_cons, back?_push]
  have hsize : m.mem.size = (Spot.mem ⟨i, g, st⟩).size + 1 := by rw [hm.mem, Spot.mem_cons, size_push]
  unfold nextItem
  rw [get_seq, hback]
  by_cases h : x < y
  · have hset : m.mem.setIfInBounds (Spot.mem ⟨i, g, st⟩).size (.count (x + 1) y) =
        Spot.mem ⟨i, g, .count (x + 1) y :: st⟩ := by
      rw [hm.mem, Spot.mem_cons, Spot.mem_cons]
      apply ext <;> grind
    have hw : write (m.mem.size - 1) (.count (x + 1) y) m =
        .ok () { m with mem := Spot.mem ⟨i, g, .count (x + 1) y :: st⟩ } := by
      rw [write_eq (by omega), hsize, Nat.add_sub_cancel, hset]
    simp only [Value.next?, h, ↓reduceIte]
    rw [seq_eq (less_eq (by omega) m), seq_eq hw]
    rfl
  · simp only [Value.next?, h, ↓reduceIte]
    rfl

/-- A counter that is not spent goes up by one. -/
theorem goes_next {x : Int64} {key : Option Nat}
    (hop : OpAt p.code i (.next (key.map Slot.global) none rel)) (h : x < y) (hk : ∀ k ∈ key, k < g.size) :
    Goes p ⟨i, g, .count x y :: st⟩
      ⟨i + 1, key.elim g (g.setIfInBounds · (.int x)), .count (x + 1) y :: st⟩ := by
  refine Performs.goes ⟨?_, fun s m hm => ⟨none, ?_, rfl⟩⟩ hop nofun
  · cases key with
    | none => rfl
    | some k => exact size_setIfInBounds
  have hitem := nextItem_count hm
  rw [if_pos h] at hitem
  refine (seq_eq hitem).trans ?_
  have hm' : Holds ⟨i, g, .count (x + 1) y :: st⟩ { m with mem := Spot.mem ⟨i, g, .count (x + 1) y :: st⟩ } :=
    ⟨hm.ip, rfl, hm.base⟩
  cases key with
  | none => rfl
  | some k =>
    have hs : setSlot (some (.global k)) (.int x) { m with mem := Spot.mem ⟨i, g, .count (x + 1) y :: st⟩ } =
        .ok () { m with mem := Spot.mem ⟨i, g.setIfInBounds k (.int x), .count (x + 1) y :: st⟩ } := by
      unfold setSlot
      dsimp only
      rw [seq_eq (hm'.address (hk k rfl)), hm'.write (hk k rfl)]
    dsimp only [Option.map_some]
    rw [seq_eq hs]
    rfl

/-- A counter that is spent stays, and the loop ends. -/
theorem goes_next_end {x : Int64} {key : Option Slot}
    (hop : OpAt p.code i (.next key none ((t : Int) - i))) (h : ¬x < y) :
    Goes p ⟨i, g, .count x y :: st⟩ ⟨t, g, .count x y :: st⟩ := by
  refine Performs.goes ⟨rfl, fun s m hm => ⟨some t, ?_, rfl⟩⟩ hop nofun
  have hitem := nextItem_count hm
  rw [if_neg h] at hitem
  refine (seq_eq hitem).trans ?_
  dsimp only
  rw [seq_eq (hm.target t), Spot.mem_ip i, ← hm.mem]
  rfl

end Instructions

/-! ## Runs -/

/-- The error says that a limit was hit. -/
def HitsLimit (e : RuntimeError) : Prop := ∃ n, e.fault = .stepLimit n ∨ e.fault = .stackLimit n

theorem start_holds (g : Array Value) (store : Store) (i : Nat) : Holds ⟨i, g, []⟩ (start g store i) := ⟨rfl, rfl, rfl⟩

theorem run_of_limited {fuel n : Nat} {store : Store} (hk : k ≤ n) (hh : h ≤ n)
    (hl : Limited s.limits k h (execute s fuel (start g store i))) :
    ∃ e, (run s fuel g store i).ending = .error e ∧ HitsLimit e ∧ Short s.limits n n := by
  obtain ⟨hs, j, m, hj | hj⟩ := hl.mono hk hh <;> unfold run <;> rw [hj]
  · exact ⟨_, rfl, ⟨j, .inl rfl⟩, hs⟩
  · exact ⟨_, rfl, ⟨j, .inr rfl⟩, hs⟩

/-- A move to the exit is a run that ends. -/
theorem Goes.run {j : Nat} {st : List Value} (h : Goes p ⟨i, g, []⟩ ⟨j, g', st⟩)
    (hx : OpAt p.code j .exit) : ∃ n, ∀ s : Setting, s.program = p → ∀ store fuel, n ≤ fuel →
      ((run s fuel g store i).ending = .value st.head? ∧ (run s fuel g store i).mem = g') ∨
        ∃ e, (run s fuel g store i).ending = .error e ∧ HitsLimit e ∧ Short s.limits n n := by
  obtain ⟨hg, k, c, h⟩ := h
  refine ⟨k + 1 + c + st.length, fun s hs store fuel hf => ?_⟩
  obtain ⟨fuel, rfl⟩ : ∃ f, fuel = k + (1 + f) := ⟨fuel - (k + 1), by omega⟩
  have hm := start_holds g store i
  rcases h s hs _ hm (1 + fuel) with he | hl
  · subst hs
    rcases execute_exit hx (hm.moved hg k) fuel with ⟨m', hx, hmem⟩ | hl
    · left
      have hsize : m'.mem.size = g.size + st.length := by
        rw [hmem, Spot.size_mem]
        exact congrArg (· + st.length) hg
      unfold run
      rw [he, hx]
      refine ⟨?_, ?_⟩
      · show Ending.value (if g.size < m'.mem.size then m'.mem.back? else none) = _
        cases st with
        | nil => rw [if_neg (by rw [hsize]; exact Nat.lt_irrefl _)]; rfl
        | cons v st =>
          rw [if_pos (by rw [hsize, List.length_cons]; omega), hmem, Spot.mem_cons, back?_push]
          rfl
      · show m'.mem.shrink g.size = g'
        rw [hmem, ← show g'.size = g.size from hg]
        exact Spot.shrink_mem
    · rw [← he] at hl
      exact .inr (run_of_limited (by simp [moved, start]; omega) (by simp) hl)
  · exact .inr (run_of_limited (by simp [start]; omega) (by omega) hl)

/-- A failure after moves ends the run with its error. -/
theorem Fails.run {err : ValueError} (h : Fails p ⟨i, g, []⟩ (.value err) g') :
    ∃ n, ∀ s : Setting, s.program = p → ∀ store fuel, n ≤ fuel →
      (∃ e, (run s fuel g store i).ending = .error e ∧ e.fault = .value err ∧ (run s fuel g store i).mem = g') ∨
        ∃ e, (run s fuel g store i).ending = .error e ∧ HitsLimit e ∧ Short s.limits n n := by
  obtain ⟨k, c, h⟩ := h
  refine ⟨k + c, fun s hs store fuel hf => ?_⟩
  obtain ⟨fuel, rfl⟩ : ∃ f, fuel = k + f := ⟨fuel - k, by omega⟩
  rcases h s hs _ (start_holds g store i) fuel with ⟨m', he, hg⟩ | hl
  · left
    unfold Machine.run
    rw [he]
    exact ⟨_, rfl, rfl, hg⟩
  · exact .inr (run_of_limited (by simp [start]) (by omega) hl)

end Machine

end Goblet
