import Goblet.Proofs.Statement.Shaping
import Goblet.Proofs.Statement.Storing

/-!
# Compiling statements

The steps of a statement which compile leave code that does what the statement means (`Lowered`). There is one lemma for
each control structure: its steps are cut at the labels and jumps between its parts, and the code of the parts is put
together as the lemmas on running say. The statements of a block follow by recursion on the syntax (`Block.lowers`).
-/

namespace Goblet

open List Compile Compiles Goblet.Expr

open SymbolTable (qualify)

/-- Where `break` and `continue` lead. -/
def Place.leads (c : Place) : Exits := ⟨c.brk, c.cont⟩

/-! ## Where steps may be cut -/

namespace Opens

theorem maybe (scope : String) (a : Option Assignment) (n : Nat) : Opens (Assignment.streamMaybe scope a n).1 := by
  cases a with
  | none => exact .nil
  | some a => exact (Opens.exprs scope a.values n).append (.stores _ _)

theorem assignments (scope : String) : ∀ (as : List Assignment) (n : Nat), Opens (Assignment.streamAll scope as n).1
  | [], _ => .nil
  | a :: as, n => (Opens.maybe scope (some a) n).append (assignments scope as _)

theorem loopTest (scope l : String) (cond : Option Expr) (n : Nat) : Opens (loopTest scope l cond n).1 := by
  cases cond with
  | none => exact .nil
  | some e => exact (Opens.expr e scope n).append (.cons (by trivial) _)

/-- The steps of a statement may be cut off from those before. -/
theorem stmt (st : Stmt) (c : Place) (n : Nat) : Opens (st.stream c n).1 := by
  cases st with
  | store a => exact .maybe c.scope (some a) n
  | vars as => exact .assignments c.scope as n
  | brk | cont => exact .cons (a := .goto _) trivial _
  | _ => exact .cons (a := .enter _) trivial _

/-- And so may those of a block. -/
theorem block : ∀ (body : Block) (c : Place) (n : Nat), Opens (body.stream c n).1
  | .nil, _, _ => .nil
  | .cons first rest, c, n => (Opens.stmt first c n).append (.block rest c _)

end Opens

/-! ## Headers -/

section Headers

variable {V : Lexicon} {a b : Option Assignment} {ts : List Token} {e : Option Expr}

theorem Optional.simple_covered (h : Optional (Assignment.Simple V) a ts) : ∀ a' ∈ a, a'.Covered V := by
  rintro a' rfl
  cases h with
  | some h => exact h.covered

theorem Optional.writes_covers (h : Optional V.Writes e ts) : ∀ e' ∈ e, V.Covers e' := by
  rintro e' rfl
  cases h with
  | some h => exact h.covers

/-- What is in a header is covered by the lexicon. -/
theorem IfHeader.covers {e : Expr} (h : IfHeader V a e ts) : (∀ a' ∈ a, a'.Covered V) ∧ V.Covers e := by
  cases h with
  | cond h => exact ⟨nofun, h.covers⟩
  | init ha h => exact ⟨Optional.simple_covered (.some ha), h.covers⟩

theorem LoopHeader.covers (h : LoopHeader V a e b ts) :
    (∀ a' ∈ a, a'.Covered V) ∧ (∀ e' ∈ e, V.Covers e') ∧ ∀ b' ∈ b, b'.Covered V ∧ b'.kind = .assign := by
  cases h with
  | cond h => exact ⟨nofun, h.writes_covers, nofun⟩
  | clauses ha he hb hk =>
    exact ⟨ha.simple_covered, he.writes_covers, fun b' hb' => ⟨hb.simple_covered b' hb', hk b' hb'⟩⟩

theorem SwitchHeader.covers (h : SwitchHeader V a e ts) : (∀ a' ∈ a, a'.Covered V) ∧ ∀ e' ∈ e, V.Covers e' := by
  cases h with
  | tag h => exact ⟨nofun, h.writes_covers⟩
  | init ha h => exact ⟨ha.simple_covered, h.writes_covers⟩

end Headers

/-! ## Statements -/

/-- What steps leave: fresh names get numbers from `n'` on, the innermost layer has become `L'`, and behind the code so
far there is code that does what a meaning says. -/
structure Lowered (o : Base) (exits : Exits) (n : Nat) (l : Level) (levels : List Level) (ops : List Operand)
    (items : List Item) (s : CompileState) (n' : Nat) (L' : Layer) (s' : CompileState) (M : Meaning) : Prop where
  number : n ≤ n'
  layer : l.layer.Le L'
  size : s.program.data.size ≤ s'.program.data.size
  code : ∃ items', Underway o n' (⟨l.path, L'⟩ :: levels) ops (items ++ items') s' ∧ ∀ d, s'.program.data.size ≤ d →
    Does d o.kept exits l.layer (layers levels) L' items' M

/-- A statement with braces is lowered, and declares nothing outside of them. -/
def Stmt.Lowers (o : Base) (r : Registry) (st : Stmt) : Prop :=
  ∀ ⦃b k : Bool⦄ ⦃ts : List Token⦄, Stmt.Forms o.lexicon b k st ts → ∀ ⦃c : Place⦄, c.Allows b k → ∀ ⦃n : Nat⦄
    ⦃L : Layer⦄ ⦃levels : List Level⦄ ⦃ops : List Operand⦄ ⦃items : List Item⦄ ⦃s s' : CompileState⦄,
    ops.map Operand.forget = ops → Underway o n (⟨c.scope, L⟩ :: levels) ops items s →
    Compiles r (st.stream c n).1 s s' →
    Lowered o c.leads n ⟨c.scope, L⟩ levels ops items s (st.stream c n).2 L s' st.means

/-- The statements of a block are lowered. -/
def Block.Lowers (o : Base) (r : Registry) (body : Block) : Prop :=
  ∀ ⦃b k : Bool⦄ ⦃ts : List Token⦄, Block.Forms o.lexicon b k body ts → ∀ ⦃c : Place⦄, c.Allows b k → ∀ ⦃n : Nat⦄
    ⦃L : Layer⦄ ⦃levels : List Level⦄ ⦃ops : List Operand⦄ ⦃items : List Item⦄ ⦃s s' : CompileState⦄,
    ops.map Operand.forget = ops → Underway o n (⟨c.scope, L⟩ :: levels) ops items s →
    Compiles r (body.stream c n).1 s s' →
    ∃ L', Lowered o c.leads n ⟨c.scope, L⟩ levels ops items s (body.stream c n).2 L' s' body.means

/-- The bodies of clauses are lowered. -/
def Clauses.Lowers (o : Base) (r : Registry) : Clauses → Prop
  | .nil => True
  | .cons _ body rest => body.Lowers o r ∧ rest.Lowers o r

section Parts

variable {o : Base} {n : Nat} {l : Level} {levels : List Level} {ops : List Operand} {items : List Item}
  {s s' : CompileState} {r : Registry} {m : String} {exits : Exits} {j i : Nat} {V : Lexicon} {clauses : Clauses}
  {t : Ty} {define : Bool}

variable (hV : o.lexicon.Known o.symbols)
include hV

/-- An assignment that may be missing is lowered. -/
theorem Underway.maybe (exits : Exits) {a : Option Assignment} (hu : Underway o n (l :: levels) ops items s)
    (ha : ∀ a' ∈ a, a'.Covered o.lexicon) (h : Compiles r (Assignment.streamMaybe l.path a n).1 s s') :
    ∃ L', ((∀ a' ∈ a, a'.kind = .assign) → L' = l.layer) ∧
      Lowered o exits n l levels ops items s (Assignment.streamMaybe l.path a n).2 L' s' (Assignment.maybe a) := by
  cases a with
  | none =>
    obtain rfl := nil h
    refine ⟨l.layer, fun _ => rfl, Nat.le_refl n, .refl _, Nat.le_refl _, [], ?_, fun d _ => does_skip⟩
    rw [append_nil]
    exact hu
  | some a =>
    obtain ⟨L', items', hk, hL, hu', hd, hdoes⟩ := hu.assignment hV (ha a rfl) h
    exact ⟨L', fun h => hk (h a rfl), Nat.le_add_right n _, hL, hd, items', hu', hdoes⟩

/-- The test of a loop compiles to code that decides it. -/
theorem Underway.loopTest {e : Option Expr} (hu : Underway o n (l :: levels) ops items s)
    (he : ∀ e' ∈ e, o.lexicon.Covers e') (h : Compiles r (loopTest l.path m e n).1 s s') :
    n ≤ (loopTest l.path m e n).2 ∧ ∃ items',
      Underway o (loopTest l.path m e n).2 (l :: levels) ops (items ++ items') s' ∧
      s'.program.data = s.program.data ∧ Guards o.kept (layers (l :: levels)) true m items' (Meaning.holds e) := by
  cases e with
  | none =>
    obtain rfl := nil h
    refine ⟨Nat.le_refl n, [], ?_, rfl, guards_always m⟩
    rw [append_nil]
    exact hu
  | some e =>
    obtain ⟨items', hu', hq, hg⟩ := hu.guard (f := true) hV (he e rfl) h
    exact ⟨Nat.le_add_right n _, items', hu', hq.data, hg⟩

variable {c : Place} {b k : Bool} {ts : List Token} {L : Layer} {body : Block}

/-- A block in a scope of its own is lowered and declares nothing outside. -/
theorem Block.Lowers.inner (hb : body.Lowers o r) (hf : Block.Forms o.lexicon b k body ts)
    (hc : c.Allows b k) (hops : ops.map Operand.forget = ops) (hu : Underway o n (⟨c.scope, L⟩ :: levels) ops items s)
    (h : Compiles r ([.enter (freshIn c.scope "b" n)] ++ (body.stream (c.within (freshIn c.scope "b" n)) (n + 1)).1 ++
      [.leave]) s s') : n < (body.stream (c.within (freshIn c.scope "b" n)) (n + 1)).2 ∧
      s.program.data.size ≤ s'.program.data.size ∧ ∃ L' items',
      Underway o (body.stream (c.within (freshIn c.scope "b" n)) (n + 1)).2 (⟨c.scope, L⟩ :: levels) ops
        (items ++ items') s' ∧
      ∀ d, s'.program.data.size ≤ d → Does d o.kept c.leads .empty (L :: layers levels) L' items' body.means := by
  obtain ⟨s2, h, h3⟩ := h.cut trivial
  obtain ⟨s1, h1, h2⟩ := h.append (.block _ _ _)
  obtain ⟨hu1, hd1⟩ := hu.enter hV h1
  obtain ⟨L', hn, -, hs, items', hu2, hdoes⟩ := hb hf (hc.within _) hops hu1 h2
  obtain ⟨hu3, hd3⟩ := hu2.leave h3
  rw [hd1, ← hd3] at hs
  exact ⟨hn, hs, L', items', hu3, fun d hd => hdoes d (hd3 ▸ hd)⟩

theorem Block.Lowers.stmt (hb : body.Lowers o r) : (Stmt.block body).Lowers o r := by
  intro b k ts hf c hc n L levels ops items s s' hops hu h
  cases hf with
  | block hf =>
    obtain ⟨hn, hs, L', items', hu', hdoes⟩ := hb.inner hV hf hc hops hu h
    exact ⟨Nat.le_of_lt hn, .refl _, hs, items', hu', fun d hd => does_inScope (hdoes d hd)⟩

/-! ## Branches -/

variable {init : Option Assignment} {cond : Expr} {yes : Block} {no : Stmt} {key : Option String}

/-- `if` without `else`. -/
theorem Stmt.lowers_when (hy : yes.Lowers o r) : (Stmt.when init cond yes).Lowers o r := by
  intro b k ts hf c hc n L levels ops items s s' hops hu h
  cases hf with
  | when hh hyes =>
    obtain ⟨hinit, hcond⟩ := hh.covers
    obtain ⟨s5, h, h6⟩ := Compiles.cut h trivial
    obtain ⟨s4, h, h5⟩ := h.cut trivial
    obtain ⟨s3, h, h4⟩ := h.cut trivial
    obtain ⟨s2, h, h3⟩ := h.append ((Opens.expr _ _ _).append (.cons (by trivial) _))
    obtain ⟨s1, h1, h2⟩ := h.append (.maybe _ _ _)
    obtain ⟨hu1, hd1⟩ := hu.enter hV h1
    obtain ⟨L2, -, hn2, -, hs2, items2, hu2, hdoes2⟩ := (hu1.mono (Nat.le_succ _)).maybe hV _ hinit h2
    obtain ⟨items3, hu3, hq3, hg3⟩ := hu2.guard (f := true) hV hcond h3
    obtain ⟨hn4, hs4, L4, items4, hu4, hdoes4⟩ := hy.inner (c := c.within _) hV hyes hc hops hu3 h4
    obtain ⟨hu5, hd5⟩ := hu4.label hV ⟨_, "else", n + 1, rfl, by omega, rfl⟩ hops h5
    obtain ⟨hu6, hd6⟩ := hu5.leave h6
    have hd : s'.program.data = s4.program.data := hd6.trans hd5
    rw [hq3.data, ← hd] at hs4
    rw [hd1] at hs2
    refine ⟨?_, .refl _, Nat.le_trans hs2 hs4, items2 ++ (items3 ++ items4 ++ [Item.label _]), ?_, fun d hsize =>
      does_inScope (does_seq (hdoes2 d (Nat.le_trans hs4 hsize)) (.refl _)
        (does_when hg3 (does_inScope (hdoes4 d (hd ▸ hsize)))))⟩
    · exact Nat.le_of_lt (Nat.lt_of_le_of_lt (by omega) hn4)
    · simp only [append_assoc] at hu6 ⊢
      exact hu6

/-- `if` with `else`: the label of the end stands behind both bodies. -/
theorem Stmt.lowers_branch (hy : yes.Lowers o r) (hn : no.Lowers o r) :
    (Stmt.branch init cond yes no).Lowers o r := by
  intro b k ts hf c hc n L levels ops items s s' hops hu h
  cases hf with
  | branch hh hyes hno he =>
    obtain ⟨hinit, hcond⟩ := hh.covers
    obtain ⟨s8, h, h9⟩ := Compiles.cut h trivial
    obtain ⟨s7, h, h8⟩ := h.cut trivial
    obtain ⟨s6, h, h7⟩ := h.append (.stmt _ _ _)
    obtain ⟨s5, h, h6⟩ := h.cut trivial
    obtain ⟨s4, h, h5⟩ := h.cut trivial
    obtain ⟨s3, h, h4⟩ := h.cut trivial
    obtain ⟨s2, h, h3⟩ := h.append ((Opens.expr _ _ _).append (.cons (by trivial) _))
    obtain ⟨s1, h1, h2⟩ := h.append (.maybe _ _ _)
    obtain ⟨hu1, hd1⟩ := hu.enter hV h1
    obtain ⟨L2, -, hn2, -, hs2, items2, hu2, hdoes2⟩ := (hu1.mono (Nat.le_succ _)).maybe hV _ hinit h2
    obtain ⟨items3, hu3, hq3, hg3⟩ := hu2.guard (f := true) hV hcond h3
    obtain ⟨hn4, hs4, L4, items4, hu4, hdoes4⟩ := hy.inner (c := c.within _) hV hyes hc hops hu3 h4
    obtain ⟨hu5, hd5⟩ := hu4.goto hV h5
    obtain ⟨hu6, hd6⟩ := (hu5.mono (Nat.le_succ _)).label hV ⟨_, "else", n + 1, rfl, by omega, rfl⟩ hops h6
    obtain ⟨hn7, -, hs7, items7, hu7, hdoes7⟩ := hn hno (c := c.within _) hc hops hu6 h7
    obtain ⟨hu8, hd8⟩ := hu7.label hV ⟨_, "end", _, rfl, hn7, rfl⟩ hops h8
    obtain ⟨hu9, hd9⟩ := hu8.leave h9
    obtain ⟨behind, hu9⟩ : ∃ m, Underway o ((Stmt.branch init cond yes no).stream c n).2 (⟨c.scope, L⟩ :: levels) ops
        (items ++ items2 ++ items3 ++ items4 ++ [Item.jump (.jump 0) m] ++
          [Item.label (freshIn (freshIn c.scope "b" n) "else" (n + 1))] ++ items7 ++ [Item.label m]) s' := ⟨_, hu9⟩
    have hd : s'.program.data = s7.program.data := hd9.trans hd8
    rw [hd6, hd5, ← hd] at hs7
    rw [hq3.data] at hs4
    rw [hd1] at hs2
    refine ⟨?_, .refl _, Nat.le_trans hs2 (Nat.le_trans hs4 hs7), items2 ++ (items3 ++ items4 ++ [Item.jump _ behind] ++
      [Item.label _] ++ items7 ++ [Item.label behind]), ?_, fun d hsize =>
        does_inScope (does_seq (hdoes2 d ?_) (.refl _)
        (does_branch hg3 (does_inScope (hdoes4 d ?_)) (hdoes7 d (hd ▸ hsize))))⟩
    · exact Nat.le_trans (Nat.le_of_lt (Nat.lt_of_le_of_lt (by omega) hn4)) (Nat.le_trans (Nat.le_succ _) hn7)
    · simp only [append_assoc] at hu9 ⊢
      exact hu9
    · exact Nat.le_trans (Nat.le_trans hs4 hs7) hsize
    · exact Nat.le_trans hs7 hsize

/-! ## Loops -/

/-- A loop: its labels are the top, what follows each turn, and the end. -/
theorem Stmt.lowers_loop {post : Option Assignment} {test : Option Expr} (hb : body.Lowers o r) :
    (Stmt.loop init test post body).Lowers o r := by
  intro b k ts hf c hc n L levels ops items s s' hops hu h
  cases hf with
  | loop hh hbody =>
    obtain ⟨hinit, htest, hpost⟩ := hh.covers
    obtain ⟨s9, h, h10⟩ := Compiles.cut h trivial
    obtain ⟨s8, h, h9⟩ := h.cut trivial
    obtain ⟨s7, h, h8⟩ := h.cut trivial
    obtain ⟨s6, h, h7⟩ := h.append (.maybe _ _ _)
    obtain ⟨s5, h, h6⟩ := h.cut trivial
    obtain ⟨s4, h, h5⟩ := h.cut trivial
    obtain ⟨s3, h, h4⟩ := h.append (.loopTest _ _ _ _)
    obtain ⟨s2, h, h3⟩ := h.cut trivial
    obtain ⟨s1, h1, h2⟩ := h.append (.maybe _ _ _)
    obtain ⟨hu1, hd1⟩ := hu.enter hV h1
    obtain ⟨L2, -, hn2, -, hs2, items2, hu2, hdoes2⟩ := (hu1.mono (Nat.le_add_right _ 3)).maybe hV _ hinit h2
    obtain ⟨hu3, hd3⟩ := hu2.label hV ⟨_, "cond", n + 1, rfl, by omega, rfl⟩ hops h3
    obtain ⟨hn4, items4, hu4, hd4, hg4⟩ := hu3.loopTest hV htest h4
    obtain ⟨hn5, hs5, L5, items5, hu5, hdoes5⟩ :=
      hb.inner (c := (c.within _).loop _ _) hV hbody (Place.allows_loop _ _) hops hu4 h5
    obtain ⟨hu6, hd6⟩ := hu5.label hV ⟨_, "cont", n + 2, rfl, by omega, rfl⟩ hops h6
    obtain ⟨L7, hk7, hn7, -, hs7, items7, hu7, hdoes7⟩ :=
      hu6.maybe hV c.leads (fun a ha => (hpost a ha).1) h7
    obtain rfl := hk7 fun a ha => (hpost a ha).2
    obtain ⟨hu8, hd8⟩ := hu7.goto hV h8
    obtain ⟨hu9, hd9⟩ := hu8.label hV ⟨_, "end", n + 3, rfl, by omega, rfl⟩ hops h9
    obtain ⟨hu10, hd10⟩ := hu9.leave h10
    have hd : s'.program.data = s7.program.data := hd10.trans (hd9.trans hd8)
    rw [hd6, ← hd] at hs7
    rw [hd4, hd3] at hs5
    rw [hd1] at hs2
    refine ⟨?_, .refl _, Nat.le_trans hs2 (Nat.le_trans hs5 hs7),
      items2 ++ ([Item.label (freshIn (freshIn c.scope "b" n) "cond" (n + 1))] ++ items4 ++ items5 ++ [Item.label _] ++
        items7 ++ [Item.jump _ _] ++ [Item.label _]), ?_, fun d hsize => does_inScope (does_seq (hdoes2 d ?_) (.refl _)
        (does_turns hg4 (hdoes5 d ?_) (hdoes7 d (hd ▸ hsize))))⟩
    · exact Nat.le_trans (Nat.le_of_lt (Nat.lt_of_le_of_lt (by omega) hn5)) hn7
    · simp only [append_assoc] at hu10 ⊢
      exact hu10
    · exact Nat.le_trans (Nat.le_trans hs5 hs7) hsize
    · exact Nat.le_trans hs7 hsize

/-! ## Loops over integers -/

omit hV in
/-- The name of a range header is in the lexicon and not blank. -/
theorem RangeHeader.key_name (h : RangeHeader V key define ts) :
    ∀ x ∈ key, V.name x ∧ x ≠ "_" := by
  intro x hx
  cases h with
  | none => cases hx
  | one hn | two hn =>
    split at hx
    · cases hx
    · next hb =>
      cases hx
      exact ⟨hn, hb⟩

namespace Underway

omit hV in
/-- What an iterator on the compiler's stack stands for. -/
theorem topIter (hu : Underway o n levels (.iter .int .nil :: ops) items s) :
    ∃ rest, s.stack = ⟨.iter .int .nil :: rest⟩ ∧ rest.map Operand.forget = ops := by
  have hst := hu.stack
  cases hs : s.stack with
  | mk stack =>
    rw [hs] at hst
    obtain ⟨a, rest, rfl, ha, hr⟩ := map_eq_cons_iff.mp hst
    cases a with
    | iter =>
      cases ha
      exact ⟨rest, rfl, hr⟩
    | _ => cases ha

theorem range (ht : t = .int ∨ t = .bool)
    (hu : Underway o n levels (.plain t :: ops) items s) (h : Compiles r [.range] s s') :
    Underway o n levels (.iter .int .nil :: ops) (items ++ [.op .range]) s' ∧ s'.program.data = s.program.data := by
  obtain ⟨p, h⟩ := h.single
  obtain ⟨v, s1, hv, h⟩ := seq_ok.mp (show Compile.range p s = .ok () s' from h)
  obtain ⟨hvt, hu1, hd1⟩ := hu.pop hV hv
  rcases ht with rfl | rfl
  · obtain ⟨ty, k⟩ := v
    cases hvt
    cases h
    refine ⟨hu1.quiet hV .plain (Nat.le_refl n) (fun _ => .inl)
      (hu1.assembled.emit .range p) ?_, hd1⟩
    show Operand.iter .int .nil :: s1.stack.items.map Operand.forget = _
    rw [hu1.stack]
  · obtain ⟨ty, k⟩ := v
    cases hvt
    cases h

variable {key : Option String}

/-- The name of a range is declared or found, or there is none. -/
theorem rangeVar {p : Pos} {slot : Option Slot} (hu : Underway o n (l :: levels) ops items s)
    (hk : ∀ x ∈ key, o.lexicon.name x ∧ x ≠ "_") (h : rangeVar? key .int define p s = .ok slot s') :
    ∃ L' k, slot = k.map Slot.global ∧
      Underway o n (⟨l.path, L'⟩ :: levels) ops items s' ∧ s.program.data.size ≤ s'.program.data.size ∧
      ∀ d, s'.program.data.size ≤ d →
        Starts d o.kept (layers levels) l.layer L' k (Meaning.lapStart key define) := by
  cases key with
  | none =>
    cases h
    exact ⟨l.layer, none, rfl, hu, Nat.le_refl _, fun d _ => starts_none⟩
  | some x =>
    obtain ⟨hx, hb⟩ := hk x rfl
    obtain ⟨slot, s1, h, hret⟩ := seq_ok.mp (show (rangeVar x .int define p >>= fun i => pure (some i)) s = _ from h)
    cases hret
    cases define with
    | true =>
      obtain ⟨k, rfl, hu', -, hle, hlt, hkept, hone, hfree⟩ := hu.declareVar hV hx hb (.inl rfl) h
      exact ⟨_, some k, rfl, hu', hle, fun d hd => starts_define hb (Nat.lt_of_lt_of_le hlt hd) hkept hone hfree⟩
    | false =>
      obtain ⟨⟨key, sym⟩, s2, ⟨hres, rfl⟩, h⟩ := seq_by resolve_ok h
      have hscope : s.setting.scope = l.path := hu.scope_eq
      rw [hscope] at hres
      cases hf : Layer.find (layers (l :: levels)) x with
      | none =>
        rw [hu.named.resolve_none hx hf] at hres
        cases hres
      | some a =>
        obtain ⟨-, -, key', w, hs⟩ := hu.named.resolve_var hf
        cases hs.symm.trans hres
        rcases hu.typeIn (by rw [Layer.typeIn, hf]; rfl) with ha | ha
        · simp only [Var.symbol, ha] at h
          cases h
          exact ⟨l.layer, some a.slot, rfl, hu, Nat.le_refl _, fun d _ => starts_assign hb hu.apart hf ha⟩
        · simp only [Var.symbol, ha] at h
          cases h

/-- The step of a range compiles to one instruction, which leaves the loop at the end. -/
theorem next (hu : Underway o n (l :: levels) (.iter .int .nil :: ops) items s)
    (hk : ∀ x ∈ key, o.lexicon.name x ∧ x ≠ "_") (h : Compiles r [.next m key none define] s s') :
    ∃ L' k, Underway o n (⟨l.path, L'⟩ :: levels) (.iter .int .nil :: ops)
      (items ++ [.jump (.next (k.map Slot.global) none 0) m]) s' ∧ s.program.data.size ≤ s'.program.data.size ∧
      ∀ d, s'.program.data.size ≤ d →
        Starts d o.kept (layers levels) l.layer L' k (Meaning.lapStart key define) := by
  obtain ⟨p, h⟩ := h.single
  obtain ⟨rest, hs, -⟩ := hu.topIter
  have h : Compile.next m key none define p s = .ok () s' := h
  have htop : s.stack.top? = some (.iter .int .nil) := by rw [hs]; rfl
  unfold Compile.next at h
  rw [get_seq, htop] at h
  obtain ⟨slot, s1, ⟨L', k, rfl, hu1, hle, hstarts⟩, h⟩ := seq_by (hu.rangeVar hV hk) h
  obtain ⟨hu2, hq⟩ := hu1.jump hV rfl h
  rw [← hq.data] at hle hstarts
  exact ⟨L', k, hu2, hle, hstarts⟩

theorem drop (hu : Underway o n levels (.iter .int .nil :: ops) items s)
    (h : Compiles r [.drop] s s') :
    Underway o n levels ops (items ++ [.op (.pop 1)]) s' ∧ s'.program.data = s.program.data := by
  obtain ⟨p, h⟩ := h.single
  obtain ⟨rest, hs, hr⟩ := hu.topIter
  have h : dropRange p s = .ok () s' := h
  have hpop : s.stack.pop? = some (.iter .int .nil, ⟨rest⟩) := by rw [hs]; rfl
  unfold dropRange at h
  rw [get_seq, hpop] at h
  cases h
  exact ⟨hu.quiet hV .plain (Nat.le_refl n) (fun _ => .inl) (hu.assembled.emit (.pop 1) p) hr, rfl⟩

end Underway

/-- A loop over integers: an iterator lies on the stack until the end. -/
theorem Stmt.lowers_range {limit : Expr} (hb : body.Lowers o r) :
    (Stmt.range key define limit body).Lowers o r := by
  intro b k ts hf c hc n L levels ops items s s' hops hu h
  cases hf with
  | range hh hl hbody =>
    have hops' : (Operand.iter .int .nil :: ops).map Operand.forget = .iter .int .nil :: ops := congrArg (_ :: ·) hops
    obtain ⟨s9, h, h10⟩ := Compiles.cut h trivial
    obtain ⟨s8, h, h9⟩ := h.cut trivial
    obtain ⟨s7, h, h8⟩ := h.cut trivial
    obtain ⟨s6, h, h7⟩ := h.cut trivial
    obtain ⟨s5, h, h6⟩ := h.cut trivial
    obtain ⟨s4, h, h5⟩ := h.cut trivial
    obtain ⟨s3, h, h4⟩ := h.cut trivial
    obtain ⟨s2, h, h3⟩ := h.cut trivial
    obtain ⟨s1, h1, h2⟩ := h.append (.expr _ _ _)
    obtain ⟨hu1, hd1⟩ := hu.enter hV h1
    obtain ⟨t, items2, ht, hu2, hq2, hlimit⟩ := hu1.expr hV hl.covers h2
    obtain ⟨hu3, hd3⟩ := hu2.range hV ht h3
    obtain ⟨hu4, hd4⟩ := (hu3.mono (Nat.le_add_right _ 2)).label hV
      ⟨_, "next", _, rfl, Nat.lt_add_of_pos_right (by decide), rfl⟩ hops' h4
    obtain ⟨L5, slot, hu5, hs5, hstart⟩ := hu4.next hV hh.key_name h5
    obtain ⟨hn6, hs6, L6, items6, hu6, hdoes6⟩ :=
      hb.inner (c := (c.within _).loop _ _) hV hbody (Place.allows_loop _ _) hops' hu5 h6
    obtain ⟨hu7, hd7⟩ := hu6.goto hV h7
    obtain ⟨hu8, hd8⟩ := hu7.label hV ⟨_, "end", _, rfl, Nat.lt_trans (Nat.lt_succ_self _) hn6, rfl⟩ hops' h8
    obtain ⟨hu9, hd9⟩ := hu8.drop hV h9
    obtain ⟨hu10, hd10⟩ := hu9.leave h10
    have hd : s'.program.data = s6.program.data := hd10.trans (hd9.trans (hd8.trans hd7))
    rw [← hd] at hs6
    rw [hd4, hd3, hq2.data, hd1] at hs5
    refine ⟨?_, .refl _, Nat.le_trans hs5 hs6, items2 ++ [Item.op .range] ++
      ([Item.label _] ++ [Item.jump _ _] ++ items6 ++
      [Item.jump _ _] ++ [Item.label _] ++ [Item.op _]), ?_, fun d hsize => does_range hlimit
        (hstart d (Nat.le_trans hs6 hsize)) (hdoes6 d (hd ▸ hsize))⟩
    · exact Nat.le_of_lt (Nat.lt_of_le_of_lt (by omega) hn6)
    · simp only [append_assoc] at hu10 ⊢
      exact hu10

/-! ## Switches -/

/-- The symbol table has the tag of a switch in a slot. -/
def TagAt (path : String) (j k : Nat) (t : Ty) (s : CompileState) : Prop :=
  s.symbols.lookup? (qualify path (tagName j)) = some ⟨.var, .global k, t, none⟩

omit hV in
/-- The tag stays where it is. -/
theorem TagAt.quiet {path : String} (h : TagAt path j i t s) (hq : Compile.Quiet s s') :
    TagAt path j i t s' :=
  (hq.names _ fun _ => qualify_ne_labelKey (varName_tagName j)).trans h

omit hV in
theorem Lexicon.Known.ne_tag {t : SymbolTable} (hV : V.Known t) {x : String} (hx : V.name x) (j : Nat) :
    x ≠ tagName j := (hV.words x hx).ne_fresh (fresh_tagName j)

namespace Underway

/-- The name of a tag gets a slot of its own. -/
theorem declareTag {j : Nat} {p : Pos} {slot : Slot} (hu : Underway o n (l :: levels) ops items s) (hj : j < n)
    (hs : s.symbols.lookup? (qualify l.path (tagName j)) = none)
    (h : Compile.declareVar (tagName j) t p s = .ok slot s') :
    slot = .global s.program.data.size ∧ Underway o n (l :: levels) ops items s' ∧
      s'.program.data.size = s.program.data.size + 1 ∧ TagAt l.path j s.program.data.size t s' := by
  have hscope := hu.scope_eq
  rw [Compile.declareVar_new hu.funcs (hscope ▸ hs), hscope] at h
  cases h
  have hsize : (s.program.data.push t.zero).size = s.program.data.size + 1 := Array.size_push ..
  refine ⟨rfl, ⟨?_, hu.scopes, hu.funcs, hu.named.declareTag hV.words hj _, hu.labels, hu.apart, fun l' hl x a hx => ?_,
    fun k v hk => ?_, hu.stack, hu.entry⟩, hsize, ?_⟩
  · refine hu.assembled.symbols fun m => ?_
    rw [SymbolTable.lookup?_add, if_neg (Ne.symm (Compile.qualify_ne_labelKey (varName_tagName j)))]
    rfl
  · show a.slot < (s.program.data.push t.zero).size ∧ _
    rw [hsize]
    exact ⟨Nat.lt_succ_of_lt (hu.slots l' hl x a hx).1, (hu.slots l' hl x a hx).2⟩
  · show k < (s.program.data.push t.zero).size
    rw [hsize]
    exact Nat.lt_succ_of_lt (hu.kept k v hk)
  · show SymbolTable.lookup? _ _ = _
    rw [SymbolTable.lookup?_add, if_pos rfl]
    rfl

/-- The tag of a switch is computed once and kept in a slot. -/
theorem tag {e : Expr} (hp : l.path ≠ Place.mainScope)
    (hu : Underway o n (l :: levels) ops items s) (he : o.lexicon.Covers e)
    (h : Compiles r (Expr.tagStream l.path (some e) n).1 s s') : ∃ t i items', (t = .int ∨ t = .bool) ∧
      Underway o (n + 1 + e.logics) (l :: levels) ops (items ++ (items' ++ [.op (.set (.global i))])) s' ∧
      s.program.data.size ≤ s'.program.data.size ∧ i < s'.program.data.size ∧ o.kept i = none ∧
      Layer.Free (layers (l :: levels)) i ∧ TagAt l.path n i t s' ∧
        Computes o.kept (layers (l :: levels)) t items' e := by
  have hnone : s.symbols.lookup? (qualify l.path (tagName n)) = none :=
    hu.named.inner l (.head _) hp _ (varName_tagName n) (fun hx => hV.ne_tag hx n rfl)
      fun k hk he => Nat.ne_of_lt hk (tagName_inj he).symm
  obtain ⟨s1, h1, h2⟩ := Compiles.cut h trivial
  obtain ⟨t, items', ht, hu1, hq1, hc⟩ := (hu.mono (Nat.le_succ n)).expr hV he h1
  have hnone1 := (hq1.names _ fun _ => Compile.qualify_ne_labelKey (varName_tagName n)).trans hnone
  obtain ⟨p, q, h2⟩ := h2.pair
  obtain ⟨_, s2, hdef, hret⟩ := seq_ok.mp h2
  cases hret
  obtain ⟨k, rest, hst, hr⟩ := hu1.top
  obtain ⟨v, s2, hv, hdef⟩ := seq_ok.mp (show Compile.define (tagName n) p s1 = .ok () s' from hdef)
  obtain ⟨hvt, hu2, hd2⟩ := hu1.pop hV hv
  rw [Compile.popValue_eq hst] at hv
  cases hv
  have hne : tagName n ≠ "_" := (IsWord.ne_fresh ⟨'_', [], rfl, by decide, all_eq_true.mp rfl⟩ (fresh_tagName n)).symm
  rw [if_neg hne, if_neg (by rcases ht with rfl | rfl <;> exact nofun)] at hdef
  obtain ⟨slot, s3, ⟨rfl, hu3, hs3, htag⟩, hset⟩ := seq_by (hu2.declareTag hV (by omega) hnone1) hdef
  obtain ⟨hk, hf⟩ := hu2.next_slot
  cases hset
  have hd : s.program.data.size < s3.program.data.size := by
    rw [hs3, hd2, hq1.data]
    exact Nat.lt_succ_self _
  have hu4 := hu3.emit hV (.set (.global s1.program.data.size)) p
  rw [append_assoc] at hu4
  exact ⟨t, _, items', ht, hu4, Nat.le_of_lt hd, by rw [← hq1.data] at hd; exact hd, hk, hf, htag, hc⟩

end Underway

/-- What the test of one case does, before the jump at it. -/
def Expr.caseActs (scope : String) (tag : Option String) (e : Expr) (n : Nat) : List Act :=
  tag.elim (e.acts scope n) fun x => .ident x :: e.acts scope n ++ [.binary .eql]

omit hV in
theorem Opens.caseActs (scope : String) (tag : Option String) (e : Expr) (n : Nat) :
    Opens (caseActs scope tag e n) := by
  cases tag with
  | none => exact .expr e scope n
  | some x => exact .cons (a := .ident x) trivial _

omit hV in
theorem Opens.caseTests (scope : String) (tag : Option String) (m : String) : ∀ (es : List Expr) (n : Nat),
    Opens (caseTests scope tag m es n)
  | [], _ => .nil
  | e :: es, n => ((Opens.caseActs scope tag e n).append (.cons (by trivial) _)).append (.caseTests scope tag m es _)

omit hV in
theorem Opens.tests (scope : String) (tag : Option String) : ∀ (clauses : Clauses) (n : Nat),
    Opens (clauses.tests scope tag n)
  | .nil, _ => .nil
  | .cons _ _ rest, _ => (Opens.caseTests scope tag _ _ _).append (.tests scope tag rest _)

/-- The test of a case compiles to code that decides it, in a state with `P`, for what is kept and a tag with `T`. -/
def Tests (o : Base) (r : Registry) (l : Level) (levels : List Level) (ops : List Operand) (tag : Option String)
    (P : CompileState → Prop) (T : (Nat → Option Value) → Option Scalar → Prop) : Prop :=
  ∀ ⦃e : Expr⦄ ⦃m : String⦄ ⦃n : Nat⦄ ⦃items : List Item⦄ ⦃s s' : CompileState⦄, o.lexicon.Covers e →
    Underway o n (l :: levels) ops items s → P s → Compiles r (e.caseActs l.path tag n ++ [.jumpTrue m]) s s' →
    P s' ∧ s'.program.data = s.program.data ∧ ∃ items', Underway o (n + e.logics)
      (l :: levels) ops (items ++ items') s' ∧
      ∀ kept v, T kept v → Guards kept (layers (l :: levels)) false m items' (e.meets v)

/-- Without a tag a case is a condition. -/
theorem tests_untagged :
    Tests o r l levels ops none (fun _ => True) fun kept v => kept = o.kept ∧ v = none := by
  intro e m n items s s' he hu _ h
  obtain ⟨items', hu', hq, hg⟩ := hu.guard (f := false) hV he h
  refine ⟨trivial, hq.data, items', hu', ?_⟩
  rintro _ _ ⟨rfl, rfl⟩
  exact hg

/-- With a tag a case is compared with it. -/
theorem tests_tagged (ht : t = .int ∨ t = .bool) :
    Tests o r l levels ops (some (tagName j)) (TagAt l.path j i t)
      fun kept v => ∃ w, t.Fits w ∧ v = some w ∧ kept = keeping o.kept i w.value := by
  intro e m n items s s' he hu htag h
  have hnotin : tagName j ∉ e.vars := fun hx => hV.ne_tag (he.names _ hx) j rfl
  obtain ⟨s1, h1, h2⟩ := h.cut trivial
  obtain ⟨t', c, ht', hc, hct, hu1, hq1⟩ := hu.piece (e := .binary .eql (.var (tagName j)) e) hV
    (fun y => if y = tagName j then i else Layer.slotIn (layers (l :: levels)) y)
    (fun y => if y = tagName j then some t else Layer.typeIn (layers (l :: levels)) y) ⟨rfl, trivial, he.regular⟩
    (fun x ty hx => by
      split at hx
      · cases hx
        exact ht
      · exact hu.typeIn hx)
    (fun x hx => by
      rcases mem_cons.mp hx with rfl | hx
      · simp only [↓reduceIte]
        refine ⟨fun _ _ => qualify_ne_labelKey (varName_tagName j), fun ty hty => ?_, nofun⟩
        cases hty
        exact ⟨_, _, hu.named.resolve_head htag⟩
      · have hne : x ≠ tagName j := hV.ne_tag (he.names x hx) j
        simp only [if_neg hne]
        exact hu.resolves hV (he.names x hx)) h1
  obtain ⟨rfl, hu2, hq2⟩ := hu1.test (f := false) hV ht' h2
  have hlogics : (binary .eql (.var (tagName j)) e).logics = e.logics := Nat.zero_add _
  rw [hlogics, append_assoc] at hu2
  refine ⟨htag.quiet (hq1.trans hq2), (hq1.trans hq2).data, _, hu2, ?_⟩
  rintro _ _ ⟨w, hw, rfl, rfl⟩
  exact guards_tag hc hct hnotin hw m

section Cases

variable {tag : Option String} {P : CompileState → Prop} {T : (Nat → Option Value) → Option Scalar → Prop}

omit hV in
/-- The cases of a clause are tried in order. -/
theorem Tests.tries (ht : Tests o r l levels ops tag P T) : ∀ {es : List Expr} {n : Nat} {items : List Item}
    {s : CompileState}, (∀ e ∈ es, o.lexicon.Covers e) → Underway o n (l :: levels) ops items s → P s →
    Compiles r (caseTests l.path tag m es n) s s' → P s' ∧ s'.program.data = s.program.data ∧ ∃ items',
      Underway o (n + logicsAll es) (l :: levels) ops (items ++ items') s' ∧
      ∀ kept v, T kept v → Tries kept (layers (l :: levels)) v m es items'
  | [], n, items, s, _, hu, hP, h => by
    obtain rfl := h.nil
    refine ⟨hP, rfl, [], ?_, fun _ _ _ => .nil⟩
    rw [append_nil]
    exact hu
  | e :: es, n, items, s, he, hu, hP, h => by
    obtain ⟨s1, h1, h2⟩ := append h (.caseTests _ _ _ _ _)
    obtain ⟨hP1, hd1, items1, hu1, hg⟩ := ht (he e (.head _)) hu hP h1
    obtain ⟨hP2, hd2, items2, hu2, hts⟩ := ht.tries (fun e' h' => he e' (.tail _ h')) hu1 hP1 h2
    rw [append_assoc, Nat.add_assoc] at hu2
    exact ⟨hP2, hd2.trans hd1, _, hu2, fun kept v hv => .cons (hg kept v hv) (hts kept v hv)⟩

omit hV in
/-- The tests of all clauses choose the first that is met. -/
theorem Tests.chooses (ht : Tests o r l levels ops tag P T) : ∀ {clauses : Clauses}
    {ts : List Token} {n : Nat} {items : List Item} {s : CompileState}, Clauses.Forms o.lexicon k clauses ts →
    Underway o n (l :: levels) ops items s → P s → Compiles r (clauses.tests l.path tag n) s s' →
    s'.program.data = s.program.data ∧ ∃ items', Underway o (n + clauses.width) (l :: levels) ops (items ++ items') s' ∧
      ∀ kept v, T kept v → Chooses kept (layers (l :: levels)) v clauses (clauses.labels l.path n) items'
  | .nil, ts, n, items, s, _, hu, _, h => by
    obtain rfl := nil h
    refine ⟨rfl, [], ?_, fun _ _ _ => .nil⟩
    rw [append_nil]
    exact hu
  | .cons cases body rest, ts, n, items, s, hf, hu, hP, h => by
    have hu0 := hu.mono (Nat.le_succ n)
    obtain ⟨s1, h1, h2⟩ := append h (.tests _ _ _ _)
    cases hf with
    | case he _ _ _ hr =>
      obtain ⟨hP1, hd1, items1, hu1, hts⟩ := ht.tries he.covers hu0 hP h1
      obtain ⟨hd2, items2, hu2, hcs⟩ := ht.chooses hr hu1 hP1 h2
      rw [append_assoc] at hu2
      refine ⟨hd2.trans hd1, _, hu2.mono (Nat.le_of_eq ?_), fun kept v hv => .case (hts kept v hv) (hcs kept v hv)⟩
      simp only [Clauses.width, Option.getD_some]
      omega
    | default _ _ _ _ hr =>
      obtain rfl := nil h1
      obtain ⟨hd2, items2, hu2, hcs⟩ := ht.chooses hr hu0 hP h2
      refine ⟨hd2, items2, hu2.mono (Nat.le_of_eq ?_), fun kept v hv => .default (hcs kept v hv)⟩
      simp only [Clauses.width, Option.getD_none, logicsAll]
      omega

end Cases

omit hV in
theorem Opens.bodies (clauses : Clauses) (c : Place) (m : String) (ls : List String) (n : Nat) :
    Opens (clauses.bodies c m ls n).1 := by
  cases clauses with
  | nil => exact .nil
  | cons cases body rest =>
    cases ls with
    | nil => exact .nil
    | cons x ls => exact .cons (a := .label x) trivial _

/-- Behind the label of each clause stands its body. -/
theorem Clauses.Lowers.served (hc : c.Allows b k) (hops : ops.map Operand.forget = ops) :
    ∀ {clauses : Clauses} {ts : List Token} {j n : Nat} {items : List Item} {s : CompileState}, clauses.Lowers o r →
    Clauses.Forms o.lexicon k clauses ts → j + clauses.width ≤ n → Underway o n (⟨c.scope, L⟩ :: levels) ops items s →
    Compiles r (clauses.bodies { c with brk := some m } m (clauses.labels c.scope j) n).1 s s' →
    n ≤ (clauses.bodies { c with brk := some m } m (clauses.labels c.scope j) n).2 ∧
      s.program.data.size ≤ s'.program.data.size ∧ ∃ items',
      Underway o (clauses.bodies { c with brk := some m } m (clauses.labels c.scope j) n).2 (⟨c.scope, L⟩ :: levels) ops
        (items ++ items') s' ∧
      ∀ d, s'.program.data.size ≤ d → Bodies d o.kept c.leads L (layers levels) m clauses (clauses.labels c.scope j)
      items'
  | .nil, ts, j, n, items, s, _, _, _, hu, h => by
    obtain rfl := Compiles.nil h
    refine ⟨Nat.le_refl n, Nat.le_refl _, [], ?_, fun _ _ _ _ _ _ _ _ => trivial⟩
    rw [append_nil]
    exact hu
  | .cons cases body rest, ts, j, n, items, s, hl, hf, hj, hu, h => by
    have hj : j + (1 + Expr.logicsAll (cases.getD []) + rest.width) ≤ n := hj
    obtain ⟨inner, us, hbody, hr⟩ : ∃ inner us, Block.Forms o.lexicon true k body inner ∧
        Clauses.Forms o.lexicon k rest us := by
      cases hf with
      | case _ _ hb _ hr | default _ hb _ _ hr => exact ⟨_, _, hb, hr⟩
    obtain ⟨s3, h, h4⟩ := Compiles.append h (.bodies _ _ _ _ _)
    obtain ⟨s2, h, h3⟩ := h.cut trivial
    obtain ⟨s1, h1, h2⟩ := h.cut trivial
    obtain ⟨hu1, hd1⟩ := hu.label hV ⟨_, "case", j, rfl, by omega, rfl⟩ hops h1
    obtain ⟨hn2, hs2, L2, items2, hu2, hdoes2⟩ :=
      hl.1.inner hV hbody (hc.breaking m) hops hu1 h2
    obtain ⟨hu3, hd3⟩ := hu2.goto hV h3
    obtain ⟨hn4, hs4, items4, hu4, hserved⟩ := served hc hops hl.2 hr
      (Nat.le_trans (by omega) (Nat.le_of_lt hn2)) hu3 h4
    rw [hd3] at hs4
    rw [hd1] at hs2
    refine ⟨Nat.le_trans (Nat.le_of_lt hn2) hn4, Nat.le_trans hs2 hs4,
      [Item.label (freshIn c.scope "case" j)] ++ items2 ++ [Item.jump (.jump 0) m] ++ items4, ?_,
      fun d hsize p at? i e hst he => ?_⟩
    · simp only [append_assoc] at hu4 ⊢
      exact hu4
    · obtain ⟨hst1, hst2⟩ := Item.stand_append.mp hst
      exact ⟨serves_body (hdoes2 d (Nat.le_trans hs4 hsize)) he hst1, hserved d hsize hst2 he⟩

/-- Tests, the jump to the default and the bodies do what the clauses mean. -/
theorem Clauses.Lowers.choice {tag : Option String} {P : CompileState → Prop}
    {T : (Nat → Option Value) → Option Scalar → Prop} {s1 s2 s3 : CompileState}
    (ht : Tests o r ⟨c.scope, L⟩ levels ops tag P T) (hl : clauses.Lowers o r)
    (hf : Clauses.Forms o.lexicon k clauses ts) (hc : c.Allows b k) (hops : ops.map Operand.forget = ops)
    (hm : Below n m) (hu : Underway o n (⟨c.scope, L⟩ :: levels) ops items s) (hP : P s)
    (h1 : Compiles r (clauses.tests c.scope tag n) s s1)
    (h2 : Compiles r [.goto ((clauses.defaultLabel (clauses.labels c.scope n)).getD m)] s1 s2)
    (h3 : Compiles r (clauses.bodies { c with brk := some m } m (clauses.labels c.scope n) (n + clauses.width)).1 s2 s3)
    (h4 : Compiles r [.label m] s3 s') :
    n ≤ (clauses.bodies { c with brk := some m } m (clauses.labels c.scope n) (n + clauses.width)).2 ∧
      s.program.data.size ≤ s'.program.data.size ∧ ∃ tests bodies,
      Underway o (clauses.bodies { c with brk := some m } m (clauses.labels c.scope n) (n + clauses.width)).2
        (⟨c.scope, L⟩ :: levels) ops (items ++ (tests ++
          [.jump (.jump 0) ((clauses.defaultLabel (clauses.labels c.scope n)).getD m)] ++ bodies ++ [.label m])) s' ∧
      (∀ kept v, T kept v → Chooses kept (L :: layers levels) v clauses (clauses.labels c.scope n) tests) ∧
      ∀ d, s'.program.data.size ≤ d →
        Bodies d o.kept c.leads L (layers levels) m clauses (clauses.labels c.scope n) bodies := by
  obtain ⟨hd1, tests, hu1, hchooses⟩ := ht.chooses hf hu hP h1
  obtain ⟨hu2, hd2⟩ := hu1.goto hV h2
  obtain ⟨hn3, hs3, bodies, hu3, hserved⟩ := hl.served hV hc hops hf (Nat.le_refl _) hu2 h3
  obtain ⟨hu4, hd4⟩ := hu3.label hV (hm.mono (Nat.le_trans (Nat.le_add_right _ _) hn3)) hops h4
  rw [hd2, hd1, ← hd4] at hs3
  rw [← hd4] at hserved
  refine ⟨Nat.le_trans (Nat.le_add_right _ _) hn3, hs3, tests, bodies, ?_, hchooses, hserved⟩
  simp only [append_assoc] at hu4 ⊢
  exact hu4

/-- A switch, with a tag or without. -/
theorem Stmt.lowers_switch {tag : Option Expr} (hl : clauses.Lowers o r) :
    (Stmt.switch init tag clauses).Lowers o r := by
  intro b k ts hf c hc n L levels ops items s s' hops hu h
  cases hf with
  | switch hh hseps hf =>
    obtain ⟨hinit, htag⟩ := hh.covers
    obtain ⟨s7, h, h8⟩ := cut h trivial
    obtain ⟨s6, h, h7⟩ := h.cut trivial
    obtain ⟨s5, h, h6⟩ := h.append (.bodies _ _ _ _ _)
    obtain ⟨s4, h, h5⟩ := h.cut trivial
    obtain ⟨s3, h, h4⟩ := h.append (.tests _ _ _ _)
    cases tag with
    | none =>
      rw [show (tagStream _ none _).1 = [] from rfl, append_nil] at h
      obtain ⟨s1, h1, h2⟩ := h.append (.maybe _ _ _)
      obtain ⟨hu1, hd1⟩ := hu.enter hV h1
      obtain ⟨L2, -, hn2, -, hs2, items2, hu2, hdoes2⟩ := hu1.maybe hV c.leads hinit h2
      obtain ⟨hn7, hs7, tests, bodies, hu7, hchooses, hserved⟩ :=
        hl.choice (c := c.within _) hV (tests_untagged hV) hf hc
        hops ⟨_, "end", _, rfl, Nat.lt_succ_self _, rfl⟩ (hu2.mono (Nat.le_succ _)) trivial h4 h5 h6 h7
      obtain ⟨hu8, hd8⟩ := hu7.leave h8
      rw [← hd8] at hs7 hserved
      rw [hd1] at hs2
      rw [append_assoc] at hu8
      exact ⟨Nat.le_trans (by omega) hn7, .refl _, Nat.le_trans hs2 hs7, _, hu8, fun d hsize => does_inScope (does_seq
        (hdoes2 d (Nat.le_trans hs7 hsize)) (.refl _) (does_untagged (hchooses _ _ ⟨rfl, rfl⟩) (hserved d hsize)))⟩
    | some e =>
      obtain ⟨s2, h, h3⟩ := h.append ((Opens.expr _ _ _).append (.cons (by trivial) _))
      obtain ⟨s1, h1, h2⟩ := h.append (.maybe _ _ _)
      obtain ⟨hu1, hd1⟩ := hu.enter hV h1
      obtain ⟨L2, -, hn2, -, hs2, items2, hu2, hdoes2⟩ := hu1.maybe hV c.leads hinit h2
      obtain ⟨t, i, items3, ht, hu3, hs3, hi, hk, hfree, hat, hcomp⟩ :=
        hu2.tag hV (Nested.freshIn_ne_main _ _ _) (htag e rfl) h3
      obtain ⟨hn7, hs7, tests, bodies, hu7, hchooses, hserved⟩ :=
        hl.choice (c := c.within _) hV (tests_tagged hV ht) hf hc
        hops ⟨_, "end", _, rfl, Nat.lt_succ_self _, rfl⟩ (hu3.mono (Nat.le_succ _)) hat h4 h5 h6 h7
      obtain ⟨hu8, hd8⟩ := hu7.leave h8
      rw [← hd8] at hs7 hserved
      rw [hd1] at hs2
      rw [append_assoc, append_assoc] at hu8
      exact ⟨Nat.le_trans (by omega) hn7, .refl _, Nat.le_trans hs2 (Nat.le_trans hs3 hs7), _, hu8, fun d hsize =>
        does_inScope (does_seq (hdoes2 d (Nat.le_trans hs3 (Nat.le_trans hs7 hsize))) (.refl _)
          (does_tagged hcomp hk hfree
          (Nat.lt_of_lt_of_le hi (Nat.le_trans hs7 hsize)) (fun v hv => hchooses _ _ ⟨v, hv, rfl, rfl⟩)
          (hserved d hsize)))⟩

/-! ## Blocks -/

/-- Declarations one after another are lowered. -/
theorem Underway.assignments (exits : Exits) {as : List Assignment} (has : ∀ a ∈ as, a.Covered o.lexicon)
    (hu : Underway o n (l :: levels) ops items s) (h : Compiles r (Assignment.streamAll l.path as n).1 s s') :
    ∃ L', Lowered o exits n l levels ops items s (Assignment.streamAll l.path as n).2 L' s'
    (Assignment.meansAll as) := by
  induction as generalizing n l items s with
  | nil =>
    obtain rfl := nil h
    refine ⟨l.layer, Nat.le_refl n, .refl _, Nat.le_refl _, [], ?_, fun d _ => does_skip⟩
    rw [append_nil]
    exact hu
  | cons a as ih =>
    obtain ⟨s1, h1, h2⟩ := append h (.assignments _ _ _)
    obtain ⟨L1, items1, -, hL1, hu1, hs1, hdoes1⟩ := hu.assignment hV (has a (.head _)) h1
    obtain ⟨L2, hn2, hL2, hs2, items2, hu2, hdoes2⟩ := ih (fun a ha => has a (.tail _ ha)) hu1 h2
    rw [append_assoc] at hu2
    exact ⟨L2, Nat.le_trans (Nat.le_add_right n _) hn2, hL1.trans hL2, Nat.le_trans hs1 hs2, _, hu2,
      fun d hd => does_seq (hdoes1 d (Nat.le_trans hs2 hd)) hL2 (hdoes2 d hd)⟩

/-- A statement that goes up to a semicolon is lowered. -/
theorem Stmt.Line.lowered {st : Stmt} (hf : Stmt.Line o.lexicon b k st ts)
    (hc : c.Allows b k) (hu : Underway o n (⟨c.scope, L⟩ :: levels) ops items s)
    (h : Compiles r (st.stream c n).1 s s') :
    ∃ L', Lowered o c.leads n ⟨c.scope, L⟩ levels ops items s (st.stream c n).2 L' s' st.means := by
  have jump {x : Option String} (hx : x.isSome = true) (h : Compiles r [.goto (x.getD "")] s s') : ∃ m, x = some m ∧
      Underway o n (⟨c.scope, L⟩ :: levels) ops (items ++ [.jump (.jump 0) m]) s' ∧
        s'.program.data = s.program.data := by
    obtain ⟨m, rfl⟩ := Option.isSome_iff_exists.mp hx
    exact ⟨m, rfl, hu.goto hV h⟩
  cases hf with
  | store h' =>
    obtain ⟨L', items', -, hL, hu', hd, hdoes⟩ := hu.assignment hV h'.covered h
    exact ⟨L', Nat.le_add_right n _, hL, hd, items', hu', hdoes⟩
  | var h' => exact hu.assignments hV c.leads (by simpa using h'.covered) h
  | vars h' => exact hu.assignments hV c.leads h'.covered h
  | brk =>
    obtain ⟨m, hm, hu', hd⟩ := jump (hc.1 rfl) h
    exact ⟨L, Nat.le_refl n, .refl _, Nat.le_of_eq (by rw [hd]), _, hu', fun d _ => does_brk hm⟩
  | cont =>
    obtain ⟨m, hm, hu', hd⟩ := jump (hc.2 rfl) h
    exact ⟨L, Nat.le_refl n, .refl _, Nat.le_of_eq (by rw [hd]), _, hu', fun d _ => does_cont hm⟩

omit hV in
/-- A statement and the rest of its block. -/
theorem Block.lowered_cons {first : Stmt} {rest : Block} (hr : rest.Lowers o r) (hf : Block.Forms o.lexicon b k rest ts)
    (hc : c.Allows b k) (hops : ops.map Operand.forget = ops)
    (h : Compiles r (Block.stream (.cons first rest) c n).1 s s')
    (hfirst : ∀ {s1}, Compiles r (first.stream c n).1 s s1 →
      ∃ L', Lowered o c.leads n ⟨c.scope, L⟩ levels ops items s (first.stream c n).2 L' s1 first.means) :
    ∃ L', Lowered o c.leads n ⟨c.scope, L⟩ levels ops items s (Block.stream (.cons first rest) c n).2 L' s'
      (Block.means (.cons first rest)) := by
  obtain ⟨s1, h1, h2⟩ := append h (.block _ _ _)
  obtain ⟨L1, hn1, hL1, hs1, items1, hu1, hdoes1⟩ := hfirst h1
  obtain ⟨L2, hn2, hL2, hs2, items2, hu2, hdoes2⟩ := hr hf hc hops hu1 h2
  rw [append_assoc] at hu2
  exact ⟨L2, Nat.le_trans hn1 hn2, hL1.trans hL2, Nat.le_trans hs1 hs2, _, hu2,
    fun d hd => does_seq (hdoes1 d (Nat.le_trans hs2 hd)) hL2 (hdoes2 d hd)⟩

end Parts

mutual

variable {o : Base}

/-- Every statement with braces is lowered. -/
theorem Stmt.lowers (r : Registry) (hV : o.lexicon.Known o.symbols) (st : Stmt) : st.Lowers o r := by
  cases st with
  | store | vars | brk | cont => exact nofun
  | block body => exact (body.lowers r hV).stmt hV
  | when init cond yes => exact Stmt.lowers_when hV (yes.lowers r hV)
  | branch init cond yes no => exact Stmt.lowers_branch hV (yes.lowers r hV) (no.lowers r hV)
  | loop init cond post body => exact Stmt.lowers_loop hV (body.lowers r hV)
  | range key define limit body => exact Stmt.lowers_range hV (body.lowers r hV)
  | switch init tag clauses => exact Stmt.lowers_switch hV (clauses.lowers r hV)

/-- **Every block is lowered**: where its steps compile, the code does what the block means. -/
theorem Block.lowers (r : Registry) (hV : o.lexicon.Known o.symbols) (body : Block) : body.Lowers o r := by
  cases body with
  | nil =>
    intro b k ts hf c hc n L levels ops items s s' hops hu h
    obtain rfl := nil h
    refine ⟨L, Nat.le_refl n, .refl _, Nat.le_refl _, [], ?_, fun d _ => does_skip⟩
    rw [append_nil]
    exact hu
  | cons first rest =>
    have ih := first.lowers r hV
    have ih' := rest.lowers r hV
    intro b k ts hf c hc n L levels ops items s s' hops hu h
    cases hf with
    | line _ hl _ hr => exact Block.lowered_cons ih' hr hc hops h (hl.lowered hV hc hu)
    | compound _ hf hr => exact Block.lowered_cons ih' hr hc hops h fun h => ⟨L, ih hf hc hops hu h⟩

theorem Clauses.lowers (r : Registry) (hV : o.lexicon.Known o.symbols) (clauses : Clauses) : clauses.Lowers o r := by
  cases clauses with
  | nil => trivial
  | cons cases body rest => exact ⟨body.lowers r hV, rest.lowers r hV⟩

end

end Goblet
