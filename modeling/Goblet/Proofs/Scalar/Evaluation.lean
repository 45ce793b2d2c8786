import Goblet.Proofs.Scalar.Compiling
import Goblet.Proofs.Scalar.Running
import Goblet.Proofs.Scalar.Scanning
import Goblet.Proofs.Session

/-!
# Evaluating expressions

A text that writes an expression over the integer and boolean variables of a session evaluates to the value of the
expression, or to the error of its first trap. It does not compile only if a part made of literals alone traps
(`Session.eval_expression`).
-/

namespace Goblet

open List Alphabet Goblet.Expr Place SymbolTable

namespace Item

/-- The jumps lead to labels that stand among the items. -/
def Closed (items : List Item) : Prop := ∀ o l, .jump o l ∈ items → .label l ∈ items

theorem closed_op (o : Op) : Closed [.op o] := fun _ _ h => nomatch mem_singleton.mp h

theorem Closed.append {xs ys : List Item} (hx : Closed xs) (hy : Closed ys) : Closed (xs ++ ys) := fun o l h => by
  rcases mem_append.mp h with h | h
  · exact mem_append_left _ (hx o l h)
  · exact mem_append_right _ (hy o l h)

end Item

namespace Expr

open Item (Stand sizes Closed closed_op)

variable {scope : String} {slot : String → Nat} {types : String → Option Ty}

theorem closed_logic {op : Operator} {l : String} {c d : Piece} (hc : Closed c.items) (hd : Closed d.items) :
    Closed (c.logic op l d).items := by
  intro o m h
  simp only [Piece.logic, mem_append, mem_singleton] at h ⊢
  rcases h with ((h | h) | h) | h
  · exact .inl (.inl (.inl (hc o m h)))
  · cases h
    exact .inr rfl
  · exact .inl (.inr (hd o m h))
  · cases h

theorem closed_code : ∀ {e : Expr} {n : Nat} {l : Bool} {c : Piece}, e.code scope slot n l = .ok c → Closed c.items
  | .int _, _, _, _, hc | .bool _, _, _, _, hc | .var _, _, _, _, hc => by
    cases hc
    exact closed_op _
  | .unary op e, n, l, c, hc => by
    obtain ⟨d, hd, hcd⟩ := code_unary_ok hc
    obtain ⟨-, he⟩ | ⟨-, w, -, -, he⟩ | ⟨-, -, he⟩ := Piece.unary_cases l op d <;> rw [he] at hcd
    · cases hcd
      exact closed_code hd
    · obtain ⟨x, -, rfl⟩ := map_load_ok hcd
      exact closed_op _
    · cases hcd
      exact (closed_code hd).append (closed_op _)
  | .binary op a b, n, l, c, hc => by
    obtain ⟨d, f, hd, hf, hcd⟩ := code_binary_ok hc
    split at hcd
    · subst hcd
      exact closed_logic (closed_code hd) (closed_code hf)
    · unfold Piece.binary at hcd
      split at hcd
      · obtain ⟨z, -, rfl⟩ := map_load_ok hcd
        exact closed_op _
      · cases hcd
        unfold Piece.operation
        split
        · exact (closed_code hd).append (closed_op _)
        · exact ((closed_code hd).append (closed_code hf)).append (closed_op _)

end Expr

/-! ## A chunk -/

namespace Compile

open Item (Stand sizes)

variable {symbols : SymbolTable} {program : Program} {store : Store} {r : Registry} {e : Expr} {slot : String → Nat}
  {types : String → Option Ty} {n : Nat} {t : Ty} {ss : List Step} {s : CompileState}

theorem start_assembled : Assembled program.code.size [] (start symbols program store).draft :=
  ⟨rfl, trivial, nofun, nofun, nofun, rfl⟩

theorem chunk_eq (h : ∀ x ∈ ss.head?, turn? x.val = none) : chunk r ss = (do steps r ss; finish) := by
  have hd : (ss.takeWhile fun s => (turn? s.val).isSome) = [] := by
    cases ss with
    | nil => rfl
    | cons x ss => simp [h x rfl]
  unfold chunk
  rw [hd]
  rfl

theorem finish_closes (hf : s.funcs = []) : finish s = closeJumps s.jumps { s with jumps := [] } := by
  unfold finish
  rw [get_seq, hf]
  rfl

theorem finish_ok {b : Nat} {items : List Item} {s' : CompileState} (ha : Assembled b items s.draft)
    (hf : s.funcs = []) (h : finish s = .ok () s') : ∃ code, s' = { s with jumps := [], program.code := code } ∧
      code.size = s.program.code.size ∧ Stand code [] s.draft.labelAt b items := by
  rw [finish_closes hf] at h
  obtain ⟨hst, code, rfl, hsz⟩ := closeJumps_ok (s := { s with jumps := [] }) (fun j hj => by
    obtain ⟨o, l, hl, -⟩ := ha.targets j hj
    exact ⟨l, hl⟩) ha.stand h
  exact ⟨code, rfl, hsz, hst⟩

theorem finish_total {b : Nat} {items : List Item} (ha : Assembled b items s.draft)
    (hf : s.funcs = []) (hc : Item.Closed items) : ∃ s', finish s = .ok () s' := by
  rw [finish_closes hf]
  refine closeJumps_total fun j hj => ?_
  obtain ⟨o, l, hl, hm⟩ := ha.targets j hj
  obtain ⟨t, ht⟩ := labelAt_of_mem ha.stand (hc o l hm)
  exact ⟨l, t, hl, ht⟩

/-- A chunk that is an expression compiles to its code, unless a constant traps. -/
theorem chunk_expr (r : Registry) (program : Program) (store : Store)
    (hss : ss.map At.val = e.acts mainScope n) (ht : e.compiledType? types = some t)
    (hn : e.Scoped symbols mainScope slot types) :
    match e.code mainScope slot n false with
    | .ok c => ∃ s', chunk r ss (start symbols program store) = .ok () s' ∧
        s'.program = { program with code := s'.program.code } ∧ s'.store = store ∧
        s'.program.code.size = program.code.size + sizes c.items ∧
        ∃ at?, Stand s'.program.code [] at? program.code.size c.items
    | .error _ => ∃ err s', chunk r ss (start symbols program store) = .error err s' := by
  have hhead : ∀ x ∈ ss.head?, turn? x.val = none := by
    intro x hx
    obtain ⟨a, tl, ha⟩ := acts_head mainScope n e
    rw [ha] at hss
    obtain ⟨y, ys, rfl, hy, -⟩ := map_eq_cons_iff.mp hss
    cases hx
    rw [hy]
    rfl
  have hready : e.Ready mainScope slot types n program.code.size [] (start symbols program store) :=
    ⟨start_assembled, rfl, rfl, hn, nofun⟩
  have hres := compiles (r := r) hss ht hready
  rw [chunk_eq hhead]
  rw [show Item.endsAtLabel [] = false from rfl] at hres
  cases hc : e.code mainScope slot n false with
  | error trap =>
    rw [hc] at hres
    obtain ⟨err, p, s', -, hs'⟩ := hres
    exact ⟨_, s', seq_error hs'⟩
  | ok c =>
    rw [hc] at hres
    obtain ⟨s', hs', hcomp⟩ := hres
    obtain ⟨s'', hfin⟩ := finish_total hcomp.assembled hcomp.quiet.funcs (closed_code hc)
    obtain ⟨code, rfl, hsz, hst⟩ := finish_ok hcomp.assembled hcomp.quiet.funcs hfin
    refine ⟨_, (seq_eq hs').trans hfin, ?_, hcomp.quiet.store, ?_, _, hst⟩
    · show { s'.program with code := code } = _
      rw [hcomp.quiet.program]
      rfl
    · exact hsz.trans hcomp.assembled.size

end Compile

/-! ## A session -/

theorem Expr.Forms.isWord {k : Nat} {e : Expr} {ws : List String} (h : Forms words k e ws) :
    ∀ x ∈ e.vars, IsWord x := by
  induction h with
  | leaf h =>
    cases h with
    | int | bool => exact nofun
    | var x hw _ =>
      intro y hy
      rw [mem_singleton.mp hy]
      exact hw
  | paren _ _ ih => exact ih
  | unary _ _ _ ih => exact ih
  | binary _ _ _ _ iha ihb =>
    intro x hx
    rcases mem_append.mp hx with hx | hx
    · exact iha x hx
    · exact ihb x hx
  | looser _ ih => exact ih

/-- What evaluating an expression may answer: its value, the error of its first trap, that a limit was hit which is too
low for `n` steps and `n` cells, or that it does not compile, which takes a trap of literals alone. -/
inductive Expr.Answers (e : Expr) (env : String → Option Scalar) (limits : Limits) (n : Nat) : Answer → Prop
  | value {v : Scalar} (h : e.eval env = .ok v) : Answers e env limits n (.value (some v.value))
  | trap {trap : Trap} {err : ValueError} {r : RuntimeError} (h : e.eval env = .error trap)
      (he : trap.error? = some err) (hr : r.fault = .value err) : Answers e env limits n (.error (.runtime r))
  | limit {r : RuntimeError} (h : Machine.HitsLimit r) (hs : Machine.Short limits n n) :
      Answers e env limits n (.error (.runtime r))
  | constant {c : CompileError} (h : e.LiteralTrap) : Answers e env limits n (.error (.compile c))

namespace Session

/-- A variable of the top level holds an integer or boolean, and is declared of that type. -/
def Global (s : Session) (x : String) (v : Scalar) : Prop :=
  x ≠ "_" ∧ ∃ i w, s.symbols.lookup? (qualify mainScope x) = some ⟨.var, .global i, v.ty, w⟩ ∧
    s.mem[i]? = some v.value

/-- `true` or `false` means what it does from the start. -/
def Flag (s : Session) (b : Bool) : Prop := ∃ key a,
  s.symbols.resolve? (Act.flagText b) mainScope = some (key, ⟨.const, a, .bool, some (.bool b)⟩)

/-- The data slot of a variable of the top level. -/
def slotOf (s : Session) (x : String) : Nat :=
  match s.symbols.lookup? (qualify mainScope x) with
  | some ⟨_, .global i, _, _⟩ => i
  | _ => 0

theorem resolve?_main {t : SymbolTable} {x : String} {sym : Symbol}
    (h : t.lookup? (qualify mainScope x) = some sym) :
    t.resolve? x mainScope = some (qualify mainScope x, sym) := by
  have he : enclosing mainScope = mainScope :: outward mainScope.toList.reverse := rfl
  rw [resolve?, he, findSome?_cons, h]
  rfl

theorem loadData_self {mem data : Array Value} (h : mem.size = data.size) :
    Machine.loadData mem data data.size = mem := by
  simp [Machine.loadData, ← h]

theorem stand_exit {code : Array Instr} {at? : String → Option Nat} {n : Nat} {items : List Item} {x : Instr}
    (h : Item.Stand code [] at? n items) (hs : code.size = n + Item.sizes items) :
    Item.Stand (code.push x) [] at? n items := by
  refine h.imp fun i it _ hi hf => hf.of_code fun h1 => ?_
  rw [Array.getElem?_push_lt (by omega), ← Array.getElem?_eq_getElem]

variable {s : Session} {e : Expr} {t : Ty} {env : String → Option Scalar}

theorem scoped_of_global (hv : ∀ x v, env x = some v → s.Global x v) (hf : ∀ b ∈ e.flags, s.Flag b)
    (hw : ∀ x ∈ e.vars, IsWord x) (ht : e.type? (typesOf env) = some t) :
    e.Scoped s.symbols mainScope s.slotOf (typesOf env) where
  vars x hx := by
    obtain ⟨ty, hty⟩ := type?_vars ht x hx
    obtain ⟨v, hxv, -⟩ := Option.map_eq_some_iff.mp hty
    obtain ⟨hne, i, w, hl, -⟩ := hv x v hxv
    refine ⟨plain_of_isWord (hw x hx), hne, fun ty hty => ⟨qualify mainScope x, w, ?_⟩⟩
    obtain rfl : v.ty = ty := by simpa [typesOf, hxv] using hty
    have hslot : s.slotOf x = i := by simp only [slotOf, hl]
    rw [hslot]
    exact resolve?_main hl
  flags := hf

theorem slotOf_of_global (hv : ∀ x v, env x = some v → s.Global x v) (x : String) (v : Scalar) (hx : env x = some v) :
    s.mem[s.slotOf x]? = some v.value := by
  obtain ⟨-, i, w, hl, hm⟩ := hv x v hx
  have hslot : s.slotOf x = i := by simp only [slotOf, hl]
  rw [hslot]
  exact hm

theorem typesOf_bool (x : String) (v : Scalar) (hx : env x = some v) (ht : typesOf env x = some .bool) :
    v.ty = .bool := by
  simpa [typesOf, hx] using ht

theorem error?_of_hasType {trap : Trap} (h : Expr.HasType t (.error trap)) : ∃ err, trap.error? = some err := by
  cases trap with
  | divisionByZero | negativeShift => exact ⟨_, rfl⟩
  | illTyped => exact absurd rfl h

/-- A chunk that compiles runs from where the code of the session ended. -/
theorem eval_eq_runFrom {text : String} {stream : List Step} {n : Nat} {c : CompileState} (fuel : Nat)
    (hshape : shape s.labels text = (.ok stream, n))
    (hchunk : Compile.chunk s.registry stream (Compile.start s.symbols (withoutExit s.program) s.store) = .ok () c)
    (hentry : c.program.entry ≤ s.nextStart) :
    s.eval fuel text = runFrom { s.grown stream c with labels := n } fuel s.nextStart := by
  have hstart : max s.nextStart c.program.entry = s.nextStart := Nat.max_eq_left hentry
  simp only [eval, hshape, load, Compiled.attempt, hchunk]
  exact congrArg (runFrom _ fuel) hstart

/-- **Evaluating an expression gives its value.** The variables may hold anything of their types, and how many steps and
cells the value takes does not depend on the limits. -/
theorem eval_expression {ws : List String} {text : String} {mem : Array Value} {store : Store} (hs : s.Reachable)
    (hm : mem.size = s.mem.size) (hv : ∀ x v, env x = some v → Global { s with mem := mem, store := store } x v)
    (hf : ∀ b ∈ e.flags, s.Flag b) (ht : e.type? (typesOf env) = some t)
    (hw : Expr.Forms words 1 e ws) (hsp : Spaced ws text.toList) :
    ∃ n, ∀ limits fuel, n ≤ fuel →
      e.Answers env limits n (eval { s with mem := mem, store := store, limits := limits } fuel text).answer := by
  have hin : InOrder { s with mem := mem, store := store } :=
    ⟨hm.trans hs.inOrder.mem, hs.inOrder.loaded, hs.inOrder.entry, hs.inOrder.tidy⟩
  have hf : ∀ b ∈ e.flags, Flag { s with mem := mem, store := store } b := hf
  show ∃ n, ∀ limits fuel, n ≤ fuel →
    e.Answers env limits n (eval { ({ s with mem := mem, store := store } : Session) with limits := limits } fuel
      text).answer
  generalize { s with mem := mem, store := store } = s at hin hv hf ⊢
  obtain ⟨toks, p, hscan, htok⟩ := Token.scan_forms hw hsp
  obtain ⟨stream, s', hstream, hacts, -⟩ := Stream.chunkSteps_expr htok p s.labels
  have hshape : shape s.labels text = (.ok stream, s'.labels) := by
    simp only [shape, hscan, Stream.ofTokens, hstream]
  have htc := compiledType?_of_type? ht
  have hchunk := Compile.chunk_expr s.registry (withoutExit s.program) s.store hacts htc
    (scoped_of_global hv hf hw.isWord ht)
  cases hc : e.code mainScope s.slotOf s.labels false with
  | error trap =>
    rw [hc] at hchunk
    obtain ⟨err, c, hchunk⟩ := hchunk
    refine ⟨0, fun limits fuel _ => ?_⟩
    simp only [eval, hshape, load, Compiled.attempt, hchunk]
    exact .constant (literalTrap_of_error hc ht)
  | ok piece =>
    rw [hc] at hchunk
    obtain ⟨c, hchunk, hprogram, -, hsize, at?, hstand⟩ := hchunk
    have hdata : c.program.data = s.program.data := by
      rw [hprogram]
      exact withoutExit_data _
    have hentry : c.program.entry ≤ s.nextStart := by
      rw [hprogram]
      exact Nat.le_trans (Nat.le_of_eq (withoutExit_entry _)) hin.entry
    have hmem : Machine.loadData s.mem c.program.data s.loaded = s.mem := by
      rw [hdata, hin.loaded]
      exact loadData_self hin.mem
    have hexit : OpAt (c.program.emit .exit (endPos stream)).code (s.nextStart + Item.sizes piece.items) .exit :=
      ⟨endPos stream, by rw [nextStart, ← hsize]; exact Array.getElem?_push_size⟩
    have hrun : RunsTo (c.program.emit .exit (endPos stream)) ⟨s.nextStart, s.mem, []⟩
        (s.nextStart + Item.sizes piece.items) [] (e.eval env) :=
      runs (slotOf_of_global hv) typesOf_bool hc htc (stand_exit hstand hsize)
    have heval := fun limits fuel => eval_eq_runFrom (s := { s with limits := limits }) fuel hshape hchunk hentry
    have hstart : ∀ limits, nextStart { s with limits := limits } = s.nextStart := fun _ => rfl
    simp only [hmem, runFrom, hstart] at heval
    cases hr : e.eval env with
    | ok v =>
      rw [hr] at hrun
      obtain ⟨n, hn⟩ := Machine.Goes.run hrun hexit
      refine ⟨n, fun limits fuel hfuel => ?_⟩
      rw [heval]
      rcases hn ⟨c.program.emit .exit (endPos stream), s.registry, limits⟩ rfl c.store fuel hfuel with
        ⟨he, -⟩ | ⟨err, he, hl, hshort⟩
      · simp only [he]
        exact .value hr
      · simp only [he]
        exact .limit hl hshort
    | error trap =>
      rw [hr] at hrun
      obtain ⟨err, htrap⟩ := error?_of_hasType (hr ▸ eval_of_type ht)
      obtain ⟨n, hn⟩ := (hrun err htrap).run
      refine ⟨n, fun limits fuel hfuel => ?_⟩
      rw [heval]
      rcases hn ⟨c.program.emit .exit (endPos stream), s.registry, limits⟩ rfl c.store fuel hfuel with
        ⟨err', he, hfault, -⟩ | ⟨err', he, hl, hshort⟩
      · simp only [he]
        exact .trap hr htrap hfault
      · simp only [he]
        exact .limit hl hshort

/-- In a session where `x` was set to 1 and holds 0 by now, `&&` does without the division. -/
theorem eval_expression_guarded : ∃ n, ∀ limits fuel, n ≤ fuel →
    (binary .land (.binary .neq (.var "x") (.int 0))
    (.binary .gtr (.binary .quo (.int 10) (.var "x")) (.int 2))).Answers
      (fun x => if x = "x" then some (.int 0) else none) limits n
      (eval { ((new .empty .standard).eval 100 "x := 1").session with mem := #[.int 0], limits := limits } fuel
        "x != 0 && 10 / x > 2").answer := by
  have hr : ((new .empty .standard).eval 100 "x := 1").session.Reachable := ⟨_, _, .eval 100 "x := 1" .now⟩
  have hm : (#[.int 0] : Array Value).size = ((new .empty .standard).eval 100 "x := 1").session.mem.size := by
    decide +kernel
  have hx : (((new .empty .standard).eval 100 "x := 1").session.symbols.lookup?
      (qualify mainScope "x")).map (fun u => (u.kind, u.addr, u.ty)) = some (.var, .global 0, .int) := by
    decide +kernel
  generalize ((new .empty .standard).eval 100 "x := 1").session = s at hr hm hx ⊢
  obtain ⟨⟨kind, addr, ty, w⟩, hu, heq⟩ := Option.map_eq_some_iff.mp hx
  cases heq
  have hvar : Expr.Forms words 7 (.var "x") ["x"] :=
    .leaf (.var "x" ⟨'x', [], rfl, by decide, by simp⟩ (by decide))
  have hint : ∀ k : Fin 11, Expr.Forms words 7 (.int k) [k.val.repr] := fun k => .leaf (.int k (by omega))
  have hneq : Expr.Forms words 3 (.binary .neq (.var "x") (.int 0)) ["x", "!=", "0"] :=
    .binary rfl rfl (hvar.loosened (by decide)) ((hint 0).loosened (by decide))
  have hquo : Expr.Forms words 5 (.binary .quo (.int 10) (.var "x")) ["10", "/", "x"] :=
    .binary rfl rfl ((hint 10).loosened (by decide)) (hvar.loosened (by decide))
  have hgtr : Expr.Forms words 3 (.binary .gtr (.binary .quo (.int 10) (.var "x")) (.int 2))
      ["10", "/", "x", ">", "2"] :=
    .binary rfl rfl (hquo.loosened (by decide)) ((hint 2).loosened (by decide))
  have htext : Spaced ["x", "!=", "0", "&&", "10", "/", "x", ">", "2"] "x != 0 && 10 / x > 2".toList :=
    spaced_cons "x" ["!=", "0", "&&", "10", "/", "x", ">", "2"]
  refine eval_expression hr hm (fun x v h => ?_) (fun b hb => nomatch hb) rfl
    (.looser (.binary rfl rfl (.looser hneq) hgtr)) htext
  split at h
  · cases h
    subst x
    exact ⟨by decide, 0, w, hu, rfl⟩
  · cases h

end Session

end Goblet
