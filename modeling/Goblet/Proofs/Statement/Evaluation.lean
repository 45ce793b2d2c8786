import Goblet.Proofs.Scalar.Evaluation
import Goblet.Proofs.Session.Numbers
import Goblet.Proofs.Statement.Compiling

/-!
# Evaluating programs

A text that writes structured statements over the integer and boolean variables of a session, and that the compiler
accepts, evaluates to what the statements mean (`Session.eval_program`): where they end, so does the evaluation, and
where they trap, the evaluation fails with the error of the trap. In both cases the variables of the session hold what
they hold there, and no other cell has changed.
-/

namespace Goblet

open List Place Compile

open SymbolTable (qualify)
open Machine (Goes Fails)
open Item (Stand sizes stand_append)

/-! ## A chunk -/

/-- Code that ends with nothing but values left on the stack. -/
def Rests (kept : Nat → Option Value) (Γ : List Layer) (items : List Item) : Prop :=
  ∀ ⦃p : Program⦄ ⦃at? : String → Option Nat⦄ ⦃i : Nat⦄ ⦃g : Array Value⦄ ⦃env : Env⦄, Stand p.code [] at? i items →
    Agrees kept Γ env g → ∃ st, Goes p ⟨i, g, []⟩ ⟨i + sizes items, g, st⟩

/-- A program whose code is in place, behind that of `o`. The variables of the chunk were `L` and have become `L'`. -/
structure Built (o : Base) (n : Nat) (L L' : Layer) (M : Meaning) (c : CompileState) : Prop where
  named : Named o.lexicon o.symbols n [⟨mainScope, L'⟩] c.symbols
  slots : ∀ x a, L' x = some a → a.ty = .int ∨ a.ty = .bool
  entry : c.program.entry = o.program.entry
  size : o.program.data.size ≤ c.program.data.size
  code : ∃ items rest at?, Stand c.program.code [] at? o.program.code.size (items ++ rest) ∧
    c.program.code.size = o.program.code.size + sizes (items ++ rest) ∧
    Does c.program.data.size o.kept ⟨none, none⟩ L [] L' items M ∧ Rests o.kept [L'] rest

namespace Underway

variable {o : Base} {n : Nat} {L : Layer} {items : List Item} {s s' : CompileState} {r : Registry}

theorem echo {x : Option String} (hV : o.lexicon.Known o.symbols) (hu : Underway o n [⟨mainScope, L⟩] [] items s)
    (hx : ∀ y ∈ x, o.lexicon.name y) (h : Compiles r (x.map Act.ident).toList s s') : ∃ ops rest,
      Underway o n [⟨mainScope, L⟩] ops (items ++ rest) s' ∧ s'.program.data = s.program.data ∧
        Rests o.kept [L] rest := by
  cases x with
  | none =>
    obtain rfl := Compiles.nil h
    refine ⟨[], [], ?_, rfl, fun p at? i g env _ _ => ⟨[], .refl p _⟩⟩
    rw [append_nil]
    exact hu
  | some y =>
    obtain ⟨t, piece, -, hc, hct, hu', hq⟩ := hu.piece (e := .var y) hV _ _ trivial (fun z ty => hu.typeIn)
      (fun z hz => hu.resolves hV (hx z (mem_singleton.mp hz ▸ rfl))) h
    refine ⟨_, piece.items, hu', hq.data, fun p at? i g env hs ha => ?_⟩
    -- a variable that compiles is there, so it has a value
    obtain ⟨a, hf, -⟩ := Option.map_eq_some_iff.mp hct
    obtain ⟨v, hv, -⟩ := ha.find hf
    have hrun := (computes_of_code hc hct).runs [] hs ha
    simp only [Expr.eval, hv] at hrun
    exact ⟨_, hrun⟩

end Underway

/-- A chunk that writes a program compiles to code that does what it means. -/
theorem Built.of_chunk {o : Base} {r : Registry} {ss : List Step} {store : Store} {c : CompileState} {n : Nat}
    {L : Layer} {body : Block} {ts : List Token} {x : Option String} (hV : o.lexicon.Known o.symbols)
    (hf : Block.Forms o.lexicon false false body ts)
    (hu : Underway o n [⟨mainScope, L⟩] [] [] (start o.symbols o.program store))
    (hss : ss.map At.val = (body.stream .chunk n).1 ++ (x.map Act.ident).toList) (hx : ∀ y ∈ x, o.lexicon.name y)
    (h : chunk r ss (start o.symbols o.program store) = .ok () c) :
    ∃ L', Built o (body.stream .chunk n).2 L L' body.means c := by
  have hecho : Opens (x.map Act.ident).toList := by
    cases x with
    | none => exact .nil
    | some y => exact .cons (a := .ident y) trivial _
  have hopens := (Opens.block body .chunk n).append hecho
  rw [← hss] at hopens
  have hhead : ∀ y ∈ ss.head?, turn? y.val = none := by
    intro y hy
    refine (hopens y.val ?_).turn?
    rw [head?_map]
    exact Option.mem_map_of_mem _ hy
  rw [chunk_eq hhead] at h
  obtain ⟨_, s2, hsteps, hfin⟩ := seq_ok.mp h
  obtain ⟨s1, h1, h2⟩ := Compiles.append ⟨ss, hss, hsteps⟩ hecho
  obtain ⟨L', hl⟩ := body.lowers r hV hf ⟨nofun, nofun⟩ rfl hu h1
  obtain ⟨items, hu1, hdoes⟩ := hl.code
  obtain ⟨ops, rest, hu2, hdata, hrests⟩ := hu1.echo hV hx h2
  obtain ⟨code, rfl, hsize, hstand⟩ := finish_ok hu2.assembled hu2.funcs hfin
  refine ⟨L', hu2.named, fun x a hx => (hu2.slots _ (mem_singleton_self _) x a hx).2, hu2.entry, ?_,
    items, rest, _, hstand, hsize.trans hu2.assembled.size, hdoes _ ?_, hrests⟩
  · rw [show s2.program.data = s1.program.data from hdata]
    exact hl.size
  · exact Nat.le_of_eq (congrArg Array.size hdata.symm)

/-! ## A session -/

namespace Session

/-- The compiler accepts a chunk. -/
def accepts (s : Session) (text : String) : Bool :=
  (shape s.labels text).1.toOption.any fun stream => (s.load stream).1.isOk

/-- A variable of the top level holds an integer or boolean. One that is declared as a boolean holds one. -/
def Variable (s : Session) (x : String) (v : Scalar) : Prop :=
  x ≠ "_" ∧ ∃ i ty w, s.symbols.lookup? (qualify mainScope x) = some ⟨.var, .global i, ty, w⟩ ∧
    s.mem[i]? = some v.value ∧ (ty = .int ∨ ty = .bool ∧ v.ty = .bool)

/-- The names of a lexicon mean the variables of a scope, which hold what they do there, and nothing else. A variable of
the session may have a predeclared name. One that the program declares may not: before its declaration the name would
mean something else. -/
structure Shows (s : Session) (V : Lexicon) (scope : Scope) : Prop where
  vars : ∀ x v, scope x = some v → V.name x ∧ s.Variable x v
  others : ∀ x, V.name x → scope x = none →
    s.symbols.lookup? (qualify mainScope x) = none ∧ s.symbols.lookup? x = none

/-- No cell has changed but those of the variables of a scope, and new ones. -/
def Spares (s : Session) (scope : Scope) (t : Session) : Prop :=
  ∀ i < s.mem.size, (∀ x v, scope x = some v → s.slotOf x ≠ i) → t.mem[i]? = s.mem[i]?

/-- The variables of a scope as the compiler knows them. -/
def layer (s : Session) (scope : Scope) : Layer := fun x =>
  match scope x, s.symbols.lookup? (qualify mainScope x) with
  | some _, some ⟨_, .global i, ty, _⟩ => some ⟨i, ty⟩
  | _, _ => none

open Classical in
/-- What a program is compiled onto in a session. -/
noncomputable def base (s : Session) (V : Lexicon) (scope : Scope) : Base :=
  ⟨V, s.symbols, withoutExit s.program, fun k =>
    if ∃ x a, s.layer scope x = some a ∧ a.slot = k then none else s.mem[k]?⟩

end Session

namespace Built

variable {o : Base} {n : Nat} {L L' M : Layer} {N : Meaning} {c : CompileState} {t : Session} {after : Scope}

/-- What a program leaves in memory is what a session shows of the variables that are declared so far. -/
theorem vars (h : Built o n L L' N c) (ht : t.symbols = c.symbols) (hM : M.Le L') (ha : Agrees o.kept [M] [after] t.mem)
    (x : String) (v : Scalar) (hx : after x = some v) : o.lexicon.name x ∧ t.Variable x v := by
  cases ha.layers with
  | cons hl _ =>
    cases hm : M x with
    | none => cases (hl.absent x hm).symm.trans hx
    | some a =>
      obtain ⟨u, hu, hg, hb⟩ := hl.held x a hm
      cases hu.symm.trans hx
      obtain ⟨hn, hne, w, hw⟩ := h.named.held _ (mem_singleton_self _) x a (hM x a hm)
      refine ⟨hn, hne, a.slot, a.ty, w, ht ▸ hw, hg, ?_⟩
      exact (h.slots x a (hM x a hm)).imp_right fun hty => ⟨hty, hb hty⟩

theorem shows (h : Built o n L L' N c) (ht : t.symbols = c.symbols) (ha : Agrees o.kept [L'] [after] t.mem) :
    t.Shows o.lexicon after := by
  refine ⟨h.vars ht (.refl L') ha, fun x hx hnone => ?_⟩
  have hl : L' x = none := by
    cases ha.layers with
    | cons hl _ =>
      cases hm : L' x with
      | none => rfl
      | some a =>
        obtain ⟨u, hu, -⟩ := hl.held x a hm
        cases hu.symm.trans hnone
  rw [ht]
  refine ⟨h.named.free _ (mem_singleton_self _) x hx hl, h.named.root x hx fun l hm _ => ?_⟩
  rw [mem_singleton.mp hm]
  exact hl

theorem lands (h : Built o n L L' N c) (pos : Pos) {g : Array Value} {env env' : Env} {how : Completion}
    (hg : c.program.data.size ≤ g.size) (ha : Agrees o.kept [L] env g) (hm : N env how env') :
    (∃ j g' st after, how = .normal ∧ env' = [after] ∧ OpAt (c.program.emit .exit pos).code j .exit ∧
      Goes (c.program.emit .exit pos) ⟨o.program.code.size, g, []⟩ ⟨j, g', st⟩ ∧ Agrees o.kept [L'] [after] g') ∨
    ∃ t M g' after, how = .trap t ∧ env' = [after] ∧
      (∀ err, t.error? = some err → Fails (c.program.emit .exit pos) ⟨o.program.code.size, g, []⟩ (.value err) g') ∧
      M.Le L' ∧ Agrees o.kept [M] [after] g' := by
  obtain ⟨items, rest, at?, hstand, hsize, hdoes, hrests⟩ := h.code
  have hexit : OpAt (c.program.emit .exit pos).code (o.program.code.size + sizes (items ++ rest)) .exit :=
    ⟨pos, by rw [← hsize]; exact Array.getElem?_push_size⟩
  obtain ⟨hitems, hrest⟩ := stand_append.mp (Session.stand_exit hstand hsize)
  have single {M : Layer} {env : Env} {g : Array Value} (ha : Agrees o.kept [M] env g) : ∃ after, env = [after] := by
    cases ha.layers with
    | cons _ hl =>
      cases hl
      exact ⟨_, rfl⟩
  cases hdoes (p := c.program.emit .exit pos) [] hitems hg ha hm with
  | normal hgo ha' =>
    obtain ⟨after, rfl⟩ := single ha'
    obtain ⟨st, hst⟩ := hrests (p := c.program.emit .exit pos) hrest ha'
    refine .inl ⟨_, _, st, after, rfl, rfl, hexit, ?_, ha'⟩
    rw [Item.sizes_append, ← Nat.add_assoc]
    exact hgo.trans hst
  | brk hl => cases hl
  | cont hl => cases hl
  | @trap t g' M _ hf hM ha' =>
    obtain ⟨after, rfl⟩ := single ha'
    exact .inr ⟨t, M, g', after, rfl, rfl, hf, hM, ha'⟩

end Built

namespace Session

variable {s : Session} {V : Lexicon} {scope : Scope} {Γ : List Layer} {env : Env} {mem : Array Value} {how : Completion}
  {x : String}
  {t : Session}
  {fuel start : Nat}

theorem Shows.layer_some (h : s.Shows V scope) {a : Var} (hx : s.layer scope x = some a) :
    ∃ v w, scope x = some v ∧ V.name x ∧ x ≠ "_" ∧ s.symbols.lookup? (qualify mainScope x) = some (a.symbol w) ∧
      s.mem[a.slot]? = some v.value ∧ (a.ty = .int ∨ a.ty = .bool ∧ v.ty = .bool) := by
  unfold layer at hx
  cases hv : scope x with
  | none =>
    rw [hv] at hx
    cases hx
  | some v =>
    obtain ⟨hn, hb, i, ty, w, hl, hm, hty⟩ := h.vars x v hv
    rw [hv, hl] at hx
    cases hx
    exact ⟨v, w, rfl, hn, hb, hl, hm, hty⟩

theorem Shows.layer_none (h : s.Shows V scope) (hx : s.layer scope x = none) : scope x = none := by
  cases hv : scope x with
  | none => rfl
  | some v =>
    obtain ⟨-, -, i, ty, w, hl, -⟩ := h.vars x v hv
    unfold layer at hx
    rw [hv, hl] at hx
    cases hx

theorem Shows.agrees (h : s.Shows V scope) : Agrees (s.base V scope).kept [s.layer scope] [scope] s.mem := by
  refine ⟨fun k v hk => ?_, .cons ⟨fun x a hx => ?_, fun x => h.layer_none⟩ .nil⟩
  · unfold base at hk
    dsimp only at hk
    split at hk
    · cases hk
    · exact hk
  · obtain ⟨v, w, hv, -, -, -, hm, hty⟩ := h.layer_some hx
    refine ⟨v, hv, hm, fun hb => ?_⟩
    rcases hty with hi | ⟨-, hv⟩
    · cases hi.symm.trans hb
    · exact hv

theorem Shows.underway (h : s.Shows V scope) (hs : s.InOrder) (hn : Numbered s.labels s.symbols)
    (hV : V.Known s.symbols) :
    Underway (s.base V scope) s.labels [⟨Place.mainScope, s.layer scope⟩] [] []
      (Compile.start s.symbols (withoutExit s.program) s.store) where
  assembled := Compile.start_assembled
  scopes := rfl
  funcs := rfl
  named := by
    refine ⟨.main, fun l hl x a hx => ?_, fun l hl x hx hnone => ?_, fun x hx hnone => ?_, fun _ _ _ => ⟨rfl, rfl⟩,
      fun l hl hp => ?_, fun P k y hk hy => hn _ y ⟨P, k, hk, rfl⟩ hy⟩
    · obtain rfl := mem_singleton.mp hl
      obtain ⟨v, w, -, hx, hb, hlook, -⟩ := h.layer_some hx
      exact ⟨hx, hb, w, hlook⟩
    · obtain rfl := mem_singleton.mp hl
      exact (h.others x hx (h.layer_none hnone)).1
    · exact (h.others x hx (h.layer_none (hnone _ (mem_singleton_self _) rfl))).2
    · exact absurd (mem_singleton.mp hl ▸ rfl) hp
  labels := nofun
  apart := by
    refine ⟨fun x a hx => ⟨?_, nofun, fun y b hy hb => ?_⟩, trivial⟩
    · exact if_pos ⟨x, a, hx, rfl⟩
    · obtain ⟨-, w, -, hvx, -, hlx, -⟩ := h.layer_some hx
      obtain ⟨-, w', -, hvy, -, hly, -⟩ := h.layer_some hy
      have hkey := hs.tidy.apart _ _ _ _ a.slot hly hlx (congrArg Address.global hb) rfl
      exact (SymbolTable.qualify_inj (by decide) (by decide) (.inl (hV.words y hvy)) (.inl (hV.words x hvx)) hkey).2
  slots l hl x a hx := by
    obtain rfl := mem_singleton.mp hl
    obtain ⟨v, w, -, -, -, hlook, -, hty⟩ := h.layer_some hx
    refine ⟨?_, hty.imp_right And.left⟩
    exact (withoutExit_data s.program).symm ▸ (hs.tidy.slot _ _ a.slot hlook rfl).1
  kept k v hk := by
    have hm := h.agrees.kept k v hk
    have hlt := (Array.getElem?_eq_some_iff.mp hm).1
    show k < (withoutExit s.program).data.size
    rw [withoutExit_data, ← hs.mem]
    exact hlt
  stack := rfl
  entry := rfl

theorem Shows.spares (h : s.Shows V scope)
    (ha : Agrees (s.base V scope).kept Γ env t.mem) : s.Spares scope t := by
  intro i hi hx
  have hfree : ¬∃ x a, s.layer scope x = some a ∧ a.slot = i := by
    rintro ⟨x, a, hl, rfl⟩
    obtain ⟨v, w, hv, -, -, hlook, -⟩ := h.layer_some hl
    refine hx x v hv ?_
    unfold slotOf
    rw [hlook]
    rfl
  have hsome : s.mem[i]? = some s.mem[i] := Array.getElem?_eq_getElem hi
  rw [ha.kept i _ ((if_neg hfree).trans hsome), hsome]

/-- What evaluating a program may come to, where its statements end so in these scopes: it ends too or fails with the
error of the trap, or a limit was hit which is too low for `n` steps and `n` cells. Nothing is said where an operator
does not fit its operands. -/
inductive Follows (s : Session) (V : Lexicon) (scope : Scope) (limits : Limits) (n : Nat) (e : Evaluation) :
    Completion → Env → Prop
  | normal {v : Option Value} {after : Scope} (ha : e.answer = .value v) (hs : e.session.Shows V after)
      (hk : s.Spares scope e.session) : Follows s V scope limits n e .normal [after]
  | trap {t : Trap} {err : ValueError} {r : RuntimeError} {after : Scope} (ht : t.error? = some err)
      (ha : e.answer = .error (.runtime r)) (hr : r.fault = .value err)
      (hs : ∀ x v, after x = some v → V.name x ∧ e.session.Variable x v) (hk : s.Spares scope e.session) :
      Follows s V scope limits n e (.trap t) [after]
  | limit {how : Completion} {env : Env} {r : RuntimeError} (ha : e.answer = .error (.runtime r))
      (h : Machine.HitsLimit r) (hs : Machine.Short limits n n) : Follows s V scope limits n e how env
  | illTyped {env : Env} : Follows s V scope limits n e (.trap .illTyped) env

theorem runFrom_value {v : Option Value}
    (h : (Machine.run ⟨s.program, s.registry, s.limits⟩ fuel s.mem s.store start).ending = .value v) :
    (s.runFrom fuel start).answer = .value v := by
  simp only [runFrom, h]

theorem runFrom_error {r : RuntimeError}
    (h : (Machine.run ⟨s.program, s.registry, s.limits⟩ fuel s.mem s.store start).ending = .error r) :
    (s.runFrom fuel start).answer = .error (.runtime r) := by
  simp only [runFrom, h]

theorem getElem?_loadData (data : Array Value) {i : Nat} {v : Value} (h : mem[i]? = some v) :
    (Machine.loadData mem data mem.size)[i]? = some v := by
  have hi := (Array.getElem?_eq_some_iff.mp h).1
  simp only [Machine.loadData, Array.take_eq_extract, Array.extract_size]
  rw [Array.getElem?_append_left hi, h]

theorem size_loadData {data : Array Value} (h : mem.size ≤ data.size) :
    (Machine.loadData mem data mem.size).size = data.size := by
  simp only [Machine.loadData, Array.take_eq_extract, Array.extract_size, Array.size_append, Array.size_extract]
  omega

theorem agrees_of_le {kept : Nat → Option Value} {g g' : Array Value} (h : Agrees kept Γ env g)
    (hg : ∀ (i : Nat) v, g[i]? = some v → g'[i]? = some v) : Agrees kept Γ env g' := by
  refine ⟨fun k v hk => hg k v (h.kept k v hk), h.layers.imp fun L scope hl => ⟨fun x a hx => ?_, hl.absent⟩⟩
  obtain ⟨v, hv, hslot, hb⟩ := hl.held x a hx
  exact ⟨v, hv, hg _ _ hslot, hb⟩

/-- A session with the code of a program behind its own runs it as its statements mean. -/
theorem Shows.follows {n : Nat} {L' : Layer} {N : Meaning} {c : CompileState} {pos : Pos}
    (h : s.Shows V scope) (hb : Built (s.base V scope) n (s.layer scope) L' N c)
    (hp : t.program = c.program.emit .exit pos) (ht : t.symbols = c.symbols)
    (ha : Agrees (s.base V scope).kept [s.layer scope] [scope] t.mem) (hd : c.program.data.size ≤ t.mem.size)
    (hm : N [scope] how env) : ∃ n, ∀ limits fuel, n ≤ fuel →
      Follows s V scope limits n (runFrom { t with limits := limits } fuel s.nextStart) how env := by
  rcases hb.lands pos hd ha hm with
    ⟨j, g, st, after, rfl, rfl, hexit, hgo, ha'⟩ | ⟨trap, M, g, after, rfl, rfl, hfails, hM, ha'⟩
  · obtain ⟨n, hn⟩ := Goes.run hgo hexit
    refine ⟨n, fun limits fuel hfuel => ?_⟩
    rcases hn ⟨t.program, t.registry, limits⟩ hp t.store fuel hfuel with ⟨he, rfl⟩ | ⟨err, he, hl, hshort⟩
    · exact .normal (runFrom_value he) (hb.shows ht ha') (h.spares ha')
    · exact .limit (runFrom_error he) hl hshort
  · cases herr : trap.error? with
    | none =>
      obtain rfl : trap = .illTyped := by
        cases trap
        · cases herr
        · cases herr
        · rfl
      exact ⟨0, fun _ _ _ => .illTyped⟩
    | some err =>
      obtain ⟨n, hn⟩ := (hfails err herr).run
      refine ⟨n, fun limits fuel hfuel => ?_⟩
      rcases hn ⟨t.program, t.registry, limits⟩ hp t.store fuel hfuel with ⟨r, he, hr, rfl⟩ | ⟨r, he, hl, hshort⟩
      · exact .trap herr (runFrom_error he) hr (hb.vars ht hM ha') (h.spares ha')
      · exact .limit (runFrom_error he) hl hshort

/-- A session in order evaluates a program to what its statements mean. -/
theorem eval_follows {body : Block} {toks : List Token} {text : String} (hin : s.InOrder)
    (hn : Numbered s.labels s.symbols) (hV : V.Known s.symbols) (hscope : s.Shows V scope)
    (hscan : Token.scan text = .ok toks) (hf : Block.Forms V false false body toks) (hc : s.accepts text = true)
    (hm : body.means [scope] how env) : ∃ n, ∀ limits fuel, n ≤ fuel →
      Follows s V scope limits n (eval { s with limits := limits } fuel text) how env := by
  obtain ⟨stream, s', echo, hstream, hecho, hacts, -⟩ := Stream.chunkSteps_program hf s.labels
  have hshape : shape s.labels text = (.ok stream, s'.labels) := by
    simp only [shape, hscan, Stream.ofTokens, hstream]
  cases hchunk : chunk s.registry stream (start s.symbols (withoutExit s.program) s.store) with
  | error err c =>
    have hload : (s.load stream).1 = .error err := by simp only [load, Compiled.attempt, hchunk]
    have hno : s.accepts text = (s.load stream).1.isOk := by rw [accepts, hshape]; rfl
    rw [hno, hload] at hc
    cases hc
  | ok u c =>
    obtain ⟨L', hb⟩ := Built.of_chunk hV hf (hscope.underway hin hn hV) hacts hecho hchunk
    have hentry : c.program.entry ≤ s.nextStart := by
      rw [hb.entry]
      exact Nat.le_trans (Nat.le_of_eq (withoutExit_entry _)) hin.entry
    have hsize : s.mem.size ≤ c.program.data.size := by
      rw [hin.mem, ← withoutExit_data]
      exact hb.size
    have hloaded : s.loaded = s.mem.size := hin.loaded.trans hin.mem.symm
    -- the data of the program stand behind the cells there were
    have ha := agrees_of_le hscope.agrees fun i v hi => getElem?_loadData c.program.data hi
    have hd := Nat.le_of_eq (size_loadData hsize).symm
    rw [← hloaded] at ha hd
    obtain ⟨n, hn⟩ := hscope.follows (t := { s.grown stream c with labels := s'.labels }) hb rfl rfl ha hd hm
    refine ⟨n, fun limits fuel hfuel => ?_⟩
    rw [eval_eq_runFrom (s := { s with limits := limits }) fuel hshape hchunk hentry]
    exact hn limits fuel hfuel

/-- **Evaluating a program does what its statements mean.** Wherever the statements end, so does the evaluation:
normally, or with the error of a trap. The variables hold what they hold there, whatever they held before. How many
steps and cells that takes does not depend on the limits. -/
theorem eval_program {body : Block} {toks : List Token} {text : String} {mem : Array Value} {store : Store}
    {how : Completion} {env : Env} (hs : s.Reachable) (hr : PlainHosts s.registry) (hm : mem.size = s.mem.size)
    (hV : V.Known s.symbols) (hscope : Shows { s with mem := mem, store := store } V scope)
    (hscan : Token.scan text = .ok toks) (hf : Block.Forms V false false body toks)
    (hc : accepts { s with mem := mem, store := store } text = true) (hmeans : body.means [scope] how env) :
    ∃ n, ∀ limits fuel, n ≤ fuel → Follows { s with mem := mem, store := store } V scope limits n
      (eval { s with mem := mem, store := store, limits := limits } fuel text) how env := by
  have hin : InOrder { s with mem := mem, store := store } :=
    ⟨hm.trans hs.inOrder.mem, hs.inOrder.loaded, hs.inOrder.entry, hs.inOrder.tidy⟩
  exact eval_follows hin (hs.numbered hr) hV hscope hscan hf hc hmeans

/-! ### A program that traps -/

/-- A program with two variables. -/
def counters : Lexicon := ⟨fun x => x = "x" ∨ x = "y", fun _ => False⟩

/-- What the two variables hold. -/
def counts (x y : Int64) : Scope := fun z => if z = "x" then some (.int x) else if z = "y" then some (.int y) else none

/-- A loop that divides by what it counts down. -/
def countdown : Block :=
  .cons (.loop none (some (.binary .gtr (.var "x") (.int 0))) none
    (.cons (.store ⟨.assign, [("x", .binary .sub (.var "x") (.int 1))]⟩)
      (.cons (.store ⟨.assign, [("y", .binary .quo (.int 6) (.var "x"))]⟩) .nil))) .nil

theorem countdown_forms : ∃ toks, Token.scan "for x > 0 \x7b\n\tx--\n\ty = 6 / x\n\x7d" = .ok toks ∧
    Block.Forms counters false false countdown toks := by
  have hop : ∀ o p, Alphabet.tokens.op o (.atom (.op o) p) := fun o p => ⟨p, rfl⟩
  have hvar : ∀ p, Expr.Forms Alphabet.tokens 7 (.var "x") [.atom (.ident "x") p] := fun p => .leaf (.var "x" p)
  have hint : ∀ (k : Fin 7) p, Expr.Forms Alphabet.tokens 7 (.int k) [.atom (.int (Int64.ofNat k)) p] :=
    fun k p => .leaf (.int k (by omega) p)
  have hcond : ∀ p q r, counters.Writes (.binary .gtr (.var "x") (.int 0))
      [.atom (.ident "x") p, .atom (.op .gtr) q, .atom (.int 0) r] := by
    intro p q r
    refine ⟨.looser (.looser ?_), by simp [Expr.vars, counters]⟩
    exact .binary rfl (hop _ q) ((hvar p).loosened (by decide)) ((hint 0 r).loosened (by decide))
  have hquo : ∀ p q r, counters.Writes (.binary .quo (.int 6) (.var "x"))
      [.atom (.int 6) p, .atom (.op .quo) q, .atom (.ident "x") r] := by
    intro p q r
    refine ⟨.looser (.looser (.looser (.looser ?_))), by simp [Expr.vars, counters]⟩
    exact .binary rfl (hop _ q) ((hint 6 p).loosened (by decide)) ((hvar r).loosened (by decide))
  have hnone : Token.Semicolons [] := forall_mem_nil _
  have hsemi : ∀ p, Token.Semicolons [.atom .semicolon p] := by
    intro p t ht
    rw [mem_singleton.mp ht]
    rfl
  refine ⟨[.atom (.keyword .for) ⟨1, 1⟩, .atom (.ident "x") ⟨1, 5⟩, .atom (.op .gtr) ⟨1, 7⟩, .atom (.int 0) ⟨1, 9⟩,
    .group .brace [.atom (.ident "x") ⟨2, 2⟩, .atom (.op .dec) ⟨2, 3⟩, .atom .semicolon ⟨2, 5⟩,
      .atom (.ident "y") ⟨3, 2⟩, .atom (.op .assign) ⟨3, 4⟩, .atom (.int 6) ⟨3, 6⟩, .atom (.op .quo) ⟨3, 8⟩,
      .atom (.ident "x") ⟨3, 10⟩, .atom .semicolon ⟨3, 11⟩] ⟨1, 11⟩, .atom .semicolon ⟨4, 2⟩], rfl, ?_⟩
  refine .compound hnone (.loop (.cond (.some (hcond _ _ _))) ?_) (.nil (hsemi _))
  show Block.Forms counters true true _ ([] ++ ([_, _] ++ [_, _, _, _, _, _, _]))
  refine .line hnone (.store (.step (by decide) (.inl rfl))) (by simp [Token.is]) ?_
  show Block.Forms counters true true _ ([_] ++ ([_, _, _, _, _] ++ [_]))
  refine .line (hsemi _) (.store ?_) (by simp [Token.is]) (.nil (hsemi _))
  show Assignment.Simple counters _ ([_] ++ _ :: [_, _, _])
  exact .assign (.one (.inr rfl)) (.one (hquo _ _ _))

theorem countdown_means : countdown.means [counts 1 7] (.trap .divisionByZero) [counts 0 7] := by
  have hset : Scope.set (counts 1 7) "x" (.int 0) = counts 0 7 := by
    funext z
    simp only [Scope.set, counts]
    split <;> rfl
  have hstep : Assignment.means ⟨.assign, [("x", .binary .sub (.var "x") (.int 1))]⟩
      [fun _ => none, fun _ => none, counts 1 7] .normal [fun _ => none, fun _ => none, counts 0 7] :=
    ⟨rfl, by rw [← hset]; rfl⟩
  have htrap : Assignment.means ⟨.assign, [("y", .binary .quo (.int 6) (.var "x"))]⟩
      [fun _ => none, fun _ => none, counts 0 7] (.trap .divisionByZero) [fun _ => none, fun _ => none, counts 0 7] :=
    ⟨rfl, rfl⟩
  refine .inr ⟨(Completion.noConfusion ·), fun _ => none,
    .inl ⟨_, ⟨rfl, rfl⟩, .stop rfl ⟨fun _ => none, .inl ⟨_, hstep, ?_⟩⟩⟩⟩
  exact .inr ⟨(Completion.noConfusion ·), htrap⟩

/-- A session in which two variables were set. -/
def counted : Session := ((new .empty .standard).eval 100 "x := 5\ny := 7").session

/-- The loop in a session where `x` was set to 5 and holds 1 by now. -/
theorem eval_program_countdown : ∃ n, ∀ limits fuel, n ≤ fuel →
    Follows { counted with mem := #[.int 1, .int 7] } counters (counts 1 7) limits n
      (eval { counted with mem := #[.int 1, .int 7], limits := limits } fuel "for x > 0 \x7b\n\tx--\n\ty = 6 / x\n\x7d")
      (.trap .divisionByZero) [counts 0 7] := by
  have hr : counted.Reachable := by
    rw [counted]
    exact ⟨_, _, .eval 100 "x := 5\ny := 7" .now⟩
  have hreg : counted.registry = .empty := by
    rw [counted]
    exact eval_registry ..
  have hm : (#[.int 1, .int 7] : Array Value).size = counted.mem.size := by decide +kernel
  have hx : (counted.symbols.lookup? (qualify mainScope "x")).map (fun u => (u.kind, u.addr, u.ty)) =
      some (.var, .global 0, .int) := by decide +kernel
  have hy : (counted.symbols.lookup? (qualify mainScope "y")).map (fun u => (u.kind, u.addr, u.ty)) =
      some (.var, .global 1, .int) := by decide +kernel
  have hflag : ∀ b, (counted.symbols.resolve? (Act.flagText b) mainScope).map
      (fun u => (u.2.kind, u.2.ty, u.2.value.bind Value.truth?)) = some (.const, .bool, some b) := by decide +kernel
  have hc : accepts { counted with mem := #[.int 1, .int 7] } "for x > 0 \x7b\n\tx--\n\ty = 6 / x\n\x7d" = true := by
    decide +kernel
  generalize counted = s at hr hreg hm hx hy hflag hc ⊢
  obtain ⟨⟨kind, addr, ty, w⟩, hlx, heq⟩ := Option.map_eq_some_iff.mp hx
  cases heq
  obtain ⟨⟨kind, addr, ty, w'⟩, hly, heq⟩ := Option.map_eq_some_iff.mp hy
  cases heq
  have hV : counters.Known s.symbols := by
    refine ⟨?_, fun b => ⟨by cases b <;> simp [counters, Act.flagText], ?_⟩, fun _ h => h.elim⟩
    · rintro x (rfl | rfl)
      · exact ⟨'x', [], rfl, by decide, by simp⟩
      · exact ⟨'y', [], rfl, by decide, by simp⟩
    · obtain ⟨⟨key, kind, a, ty, value⟩, hres, heq⟩ := Option.map_eq_some_iff.mp (hflag b)
      simp only [Prod.mk.injEq, Option.bind_eq_some_iff] at heq
      obtain ⟨rfl, rfl, v, rfl, hv⟩ := heq
      cases v <;> cases hv
      exact ⟨key, a, hres⟩
  have hshows : Shows { s with mem := #[.int 1, .int 7] } counters (counts 1 7) := by
    refine ⟨fun z v hz => ?_, fun z hz hnone => ?_⟩
    · simp only [counts] at hz
      split at hz
      · cases hz
        subst z
        exact ⟨.inl rfl, by decide, 0, .int, w, hlx, rfl, .inl rfl⟩
      · split at hz
        · cases hz
          subst z
          exact ⟨.inr rfl, by decide, 1, .int, w', hly, rfl, .inl rfl⟩
        · cases hz
    · rcases hz with rfl | rfl <;> cases hnone
  obtain ⟨toks, hscan, hforms⟩ := countdown_forms
  have hh : PlainHosts s.registry := by
    rw [hreg]
    exact fun b hb => nomatch hb
  exact eval_program hr hh hm hV hshows hscan hforms hc countdown_means

end Session

end Goblet
