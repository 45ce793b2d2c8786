import Goblet.Proofs.Compile.Linking

/-!
# Runs of the compiler

A run goes from the steps that are left and a state to fewer steps and another state (`Run`). `Passes` says that a run
comes to a step, with the states before and behind it. Above the ground and with jumps in place (`Going`), every step is
a turn (`Passes.turn`), and what is there is kept to the end (`Run.going`).

The declarations at the head of a chunk add no code (`Declares.heading`), so the steps behind them start a run like that
(`Opening.going`).
-/

namespace Goblet

open List

namespace Compile

variable {r : Registry} {heads : String → Prop} {program : Program} {symbols : SymbolTable} {l : List Step}
  {c d : List Step × CompileState}

/-- One step, or a name with the store behind it. -/
def Advances (r : Registry) (c d : List Step × CompileState) : Prop := c.1 ≠ [] ∧ advance r c.1 c.2 = .ok d.1 d.2

/-- Steps one after the other. -/
abbrev Run (r : Registry) : List Step × CompileState → List Step × CompileState → Prop :=
  Relation.ReflTransGen (Advances r)

theorem run_of_steps {s t : CompileState} (h : steps r l s = .ok () t) : Run r (l, s) ([], t) := by
  -- by induction on the number of steps, for a store takes two of them
  induction hn : l.length using Nat.strongRecOn generalizing l s with
  | ind n ih =>
    by_cases hnil : l = []
    · subst hnil
      cases h
      exact .refl
    · rw [steps_eq_advance hnil] at h
      obtain ⟨l', u, hadv, h⟩ := seq_ok.mp h
      have hlt : l'.length < n := hn ▸ length_advance hnil hadv
      exact .head ⟨hnil, hadv⟩ (ih _ hlt h rfl)

theorem Advances.unique {e : List Step × CompileState} (h : Advances r c d) (h' : Advances r c e) : d = e := by
  have he := h.2.symm.trans h'.2
  exact Prod.ext (EStateM.Result.ok.inj he).1 (EStateM.Result.ok.inj he).2

theorem Run.rest {t : CompileState} (h : Run r c ([], t)) (h' : Run r c d) : Run r d ([], t) := by
  have hunique : Relator.RightUnique (Advances r) := fun _ _ _ => Advances.unique
  rcases Relation.ReflTransGen.total_of_right_unique hunique h' h with hd | hd
  · exact hd
  · rcases Relation.ReflTransGen.cases_head hd with he | ⟨e, hadv, -⟩
    · exact he ▸ .refl
    · exact absurd rfl hadv.1

/-! ## Above the ground -/

theorem Frame.scope_ne_main {f : Frame} (h : f.Formed) : f.scope ≠ Place.mainScope := by
  cases f with
  | func k => exact FuncKey.ne_main h
  | block s =>
    obtain ⟨outer, n, -, rfl⟩ := h
    intro he
    have := congrArg (fun s => '/' ∈ s.toList) he
    simp [String.toList_append, Place.mainScope, Frame.scope] at this

theorem Sound.placed {g : Ground} {s : CompileState} (h : Sound g s) : Placed s.setting := by
  have hfuncs : ∀ k ∈ Frame.funcs g.frames, FuncKey k := by
    have hformed := h.formed
    revert hformed
    generalize g.frames = frames
    intro hformed k hk
    induction frames with
    | nil => cases hk
    | cons f fs ih =>
      have ih := ih fun f hf => hformed f (.tail _ hf)
      cases f with
      | block s => exact ih hk
      | func key =>
        rcases mem_cons.mp hk with rfl | hk
        · exact hformed _ (.head _)
        · exact ih hk
  refine ⟨fun hs => ?_, fun f hf => ?_, fun key sym hs hk => (h.tidy.func key sym hs hk).1⟩
  · have hscopes : s.setting.scopes = g.frames.map Frame.scope ++ [Place.mainScope] := h.scopes
    rw [hscopes] at hs
    rw [Setting.scope, hscopes]
    cases hframes : g.frames with
    | nil =>
      rw [hframes] at hs
      exact absurd hs (Nat.lt_irrefl 1)
    | cons f fs => exact Frame.scope_ne_main (h.formed f (hframes ▸ (.head _)))
  · exact hfuncs f.key (h.keys ▸ mem_map_of_mem hf)

/-- What holds on the way: the steps walk above the ground, and jumps are in place. -/
structure Going (heads : String → Prop) (program : Program) (symbols : SymbolTable) (c : List Step × CompileState) :
    Prop where
  ground : ∃ g, At g .kept c.2 ∧ Walks heads g c.1 ∧ g.program = program ∧ g.symbols = symbols
  wired : Wired c.2

theorem Going.next {l' : List Step} {s t : CompileState} (h : Going heads program symbols (l, s))
    (hadv : Advances r (l, s) (l', t)) :
    (∃ act p, Next act p l l' ∧ Turn act p s t ∧ ∀ key sig, act = .body key sig → FuncKey key) ∧
      Going heads program symbols (l', t) ∧ Kept s t := by
  obtain ⟨g, hat, hwalks, hp, hs⟩ := h.ground
  obtain ⟨hnil, hadv⟩ := hadv
  have hplaced := hat.sound.placed
  have hscopes : g.frames ≠ [] → 1 < s.scopes.length := by
    intro hf
    rw [hat.sound.scopes, length_append, length_map]
    have := length_pos_iff.mpr hf
    simp only [length_cons, length_nil]
    omega
  obtain ⟨act, p, hnext, hturn⟩ := advance_turn hwalks.walk hscopes hnil hadv
  have hkey : ∀ key sig, act = .body key sig → FuncKey key := by
    rintro key sig rfl
    have hwalk := hwalks.walk
    rw [hnext.eq nofun nofun] at hwalk
    generalize g.frames = frames at hwalk
    cases hwalk with
    | plain hact => exact hact.elim
    | body hkey => exact hkey.elim .inl fun hk => (hwalks.heads key hk).1
  obtain ⟨hwt, hk⟩ := hturn.wired hplaced hkey h.wired
  have hadv' := advance_walks (r := r) hwalks s hat
  rw [hadv] at hadv'
  obtain ⟨g', hat', hwalks', hp', hs'⟩ := hadv'
  exact ⟨⟨act, p, hnext, hturn, hkey⟩, ⟨⟨g', hat', hwalks', hp'.trans hp, hs'.trans hs⟩, hwt⟩, hk⟩

/-- **What a run keeps.** -/
theorem Run.going (h : Run r c d) (hc : Going heads program symbols c) :
    Going heads program symbols d ∧ Kept c.2 d.2 := by
  induction h with
  | refl => exact ⟨hc, .refl⟩
  | tail _ hadv ih =>
    obtain ⟨-, hd, hk⟩ := ih.1.next hadv
    exact ⟨hd, ih.2.trans hk⟩

/-! ## Steps on the way -/

/-- A run over some steps comes to a step: before it the state is `u`, behind it `v`, and `post` is left. -/
structure Passes (r : Registry) (c : List Step × CompileState) (act : Act) (p : Pos) (post : List Step)
    (u v : CompileState) : Prop where
  before : Run r c (⟨act, p⟩ :: post, u)
  step : Advances r (⟨act, p⟩ :: post, u) (post, v)

namespace Passes

variable {c : List Step × CompileState} {act : Act} {p : Pos} {post : List Step} {u v w : CompileState}

theorem behind (h : Passes r c act p post u v) : Run r c (post, v) := h.before.tail h.step

theorem turn (h : Passes r c act p post u v) (hc : Going heads program symbols c) : Turn act p u v := by
  obtain ⟨⟨act', p', hnext, hturn, -⟩, -, -⟩ := (h.before.going hc).1.next h.step
  rcases hnext with hl | ⟨-, n, q, hl⟩
  · cases hl
    exact hturn
  · exact absurd (congrArg List.length hl) (by simp)

theorem kept (h : Passes r c act p post u v) (hc : Going heads program symbols c) (hw : Run r c ([], w)) :
    Wired u ∧ Wired v ∧ Kept v w ∧ Placed u.setting := by
  have hu := (h.before.going hc).1
  have hv := (h.behind.going hc).1
  obtain ⟨g, hat, -⟩ := hu.ground
  exact ⟨hu.wired, hv.wired, ((hw.rest h.behind).going hv).2, hat.sound.placed⟩

end Passes

/-! ## Heads of chunks -/

/-- Declarations at the head of a chunk change names and data, and give no function an entry and no variable a cell. -/
structure Heading (s t : CompileState) : Prop where
  stack : t.stack = s.stack
  ops : t.ops = s.ops
  setting : t.setting = { s.setting with
    symbols := t.symbols, data := t.program.data, constants := t.program.constants, store := t.store }
  entries : ∀ key i, t.setting.Knows (.func key) i → s.setting.Knows (.func key) i
  cells : ∀ key k, IsLocal t.symbols key k → IsLocal s.symbols key k

namespace Heading

variable {s t u : CompileState} {p : Pos} {name key : String}

theorem refl : Heading s s := ⟨rfl, rfl, rfl, fun _ _ h => h, fun _ _ h => h⟩

theorem trans (h : Heading s t) (h' : Heading t u) : Heading s u :=
  ⟨h'.stack.trans h.stack, h'.ops.trans h.ops, by rw [h'.setting, h.setting],
    fun key i hk => h.entries key i (h'.entries key i hk), fun key k hl => h.cells key k (h'.cells key k hl)⟩

theorem of_add {sym : Symbol} (h : addSymbol key sym s = .ok () t) (hs : sym.kind ≠ .func ∨ sym.value = none)
    (hvar : sym.kind ≠ .var) : Heading s t := by
  have ht := addSymbol_ok h
  subst ht
  refine ⟨rfl, rfl, rfl, fun k i ⟨sym', hsym, hk, hv⟩ => ?_, fun k c hl => hl.of_add.resolve_right fun h => hvar h.2.1⟩
  have hsym : (s.symbols.add key sym).lookup? k = some sym' := hsym
  rw [SymbolTable.lookup?_add] at hsym
  split at hsym
  · cases hsym
    exact hs.elim (absurd hk) fun hn => nomatch hn.symm.trans hv
  · exact ⟨sym', hsym, hk, hv⟩

theorem of_codes (h : Codes [] s t []) (hf : s.funcs = []) : Heading s t := by
  have hft : t.funcs = [] := by
    have hfuncs := h.names.funcs
    rw [show s.setting.funcs = [] from hf] at hfuncs
    exact map_eq_nil_iff.mp hfuncs
  obtain ⟨base, hfl, hops⟩ := h.code
  refine ⟨h.stack, ?_, ?_, fun key i hk => h.names.knows_func hk, fun key k => h.names.isLocal hf⟩
  · rw [hops, append_nil, hfl.eq_of_nil]
  · have hrest := h.names.rest
    rw [show t.setting.funcs = s.setting.funcs from hft.trans hf.symm] at hrest
    exact hrest

end Heading

variable {s t : CompileState}

/-- What declarations at the head of a chunk do. The values of constants leave no code behind, and what is added is no
variable and no function with an entry: the key of a function, or a name in the scope or in the outermost one. -/
inductive Declares : CompileState → CompileState → Prop
  | refl {s : CompileState} : Declares s s
  | trans {s t u : CompileState} : Declares s t → Declares t u → Declares s u
  | codes {s t : CompileState} : Codes [] s t [] → Declares s t
  | func {s t : CompileState} {key : String} {sym : Symbol} : addSymbol key sym s = .ok () t → FuncKey key →
      sym.value = none → sym.kind ≠ .var → Declares s t
  | name {s t : CompileState} {sc n : String} {sym : Symbol} : addSymbol (SymbolTable.qualify sc n) sym s = .ok () t →
      sc = s.setting.scope ∨ sc = Place.mainScope → '/' ∉ n.toList → sym.kind ≠ .func → sym.kind ≠ .var → Declares s t

theorem Declares.heading (h : Declares s t) (hf : s.funcs = []) : Heading s t := by
  induction h with
  | refl => exact .refl
  | trans _ _ ih ih' =>
    have hh := ih hf
    exact hh.trans (ih' ((congrArg Setting.funcs hh.setting).trans hf))
  | codes hc => exact .of_codes hc hf
  | func h _ hv hvar => exact .of_add h (.inr hv) hvar
  | name h _ _ hk hvar => exact .of_add h (.inl hk) hvar

theorem step_declares {act : Act} {p : Pos} {called : Bool} (hact : act.Decl)
    (h : step r called ⟨act, p⟩ s = .ok () t) :
    Declares s t := by
  cases act with
  | imports n path =>
    replace h := ran h
    unfold step imports at h
    dsimp only at h
    split at h
    · exact .name h (.inr rfl) hact nofun nofun
    · cases h
  | typeDef n e =>
    replace h := scope_seq h
    obtain ⟨_, u, hadd, h⟩ := seq_ok.mp h
    obtain ⟨ty, v, ⟨-, rfl⟩, h⟩ := seq_by resolveType_ok h
    have hscope : s.setting.scope = u.setting.scope := by rw [addSymbol_ok hadd]; rfl
    have hn := VarName.noSlash hact
    exact .trans (.name hadd (.inl rfl) hn nofun nofun) (.name h (.inl hscope) hn nofun nofun)
  | constant n e steps iota =>
    obtain ⟨⟨v, ty⟩, u, hval, h⟩ := seq_ok.mp h
    refine .trans (.codes (constValue_codes hval)) ?_
    dsimp only at h
    split at h
    · cases h
      exact .refl
    · replace h := scope_seq h
      replace h := lookup_seq h
      split at h
      · exact .name h (.inl rfl) (VarName.noSlash hact) nofun nofun
      · cases h
  | header key sig =>
    obtain ⟨f, u, ⟨rfl, -⟩, h⟩ := seq_by resolveSig_ok h
    replace h := ran (lookup_seq h)
    split at h
    · exact .func h (.inr hact.1) rfl nofun
    · exact .func h (.inr hact.1) rfl nofun
    · cases h
  | _ => exact hact.elim

theorem steps_declares (hl : ∀ x ∈ l, x.val.Decl) (h : steps r l s = .ok () t) : Declares s t := by
  induction l generalizing s with
  | nil =>
    cases h
    exact .refl
  | cons x l ih =>
    obtain ⟨act, p⟩ := x
    have hact : act.Decl := hl _ (.head _)
    rw [steps_cons fun n he => by subst he; exact hact.elim] at h
    obtain ⟨_, u, hstep, h⟩ := seq_ok.mp h
    exact .trans (step_declares hact hstep) (ih (fun x hx => hl x (.tail _ hx)) h)

/-- Functions begin with the instruction that makes room. -/
def Entered (program : Program) (symbols : SymbolTable) : Prop :=
  ∀ key sym i, symbols.lookup? key = some sym → sym.kind = .func → sym.value = some (.func i) →
    ∃ n, (program.code[i]?).map (·.op) = some (.grow n)

theorem Heading.wired {store : Store} (he : Entered program symbols) (h : Heading (start symbols program store) s) :
    Wired s := by
  have hset := h.setting
  have hjumps : s.jumps = [] := congrArg Setting.jumps hset
  have hlabels : s.labels = [] := congrArg Setting.labels hset
  have hlast : s.lastLabel = none := congrArg Setting.lastLabel hset
  have hfuncs : s.setting.bodies = [] := by rw [hset]; rfl
  have hitems : s.stack.items = [] := by rw [h.stack]; rfl
  refine ⟨?_, fun _ _ hm => ?_, fun j hj => ?_, fun l hl => ?_, fun key i hk => ?_, fun j hj => ?_, fun j hj => ?_, ?_,
    fun f hf => ?_, ?_⟩
  · rw [hitems]
    exact .nil
  · rw [hitems] at hm
    cases hm
  · rw [hlast] at hj
    cases hj
  · rw [hlabels] at hl
    cases hl
  · obtain ⟨sym, hs, hkind, hv⟩ := h.entries key i hk
    obtain ⟨n, hn⟩ := he key sym i hs hkind hv
    refine ⟨n, ?_⟩
    rw [h.ops, CompileState.ops, getElem?_map, Array.getElem?_toList]
    exact hn
  · rw [hjumps] at hj
    cases hj
  · rw [hjumps] at hj
    cases hj
  · rw [hjumps]
    exact .nil
  · rw [hfuncs] at hf
    cases hf
  · rw [hfuncs]
    exact .nil

/-- A chunk with a head, behind what was compiled before. -/
structure Opening (program : Program) (symbols : SymbolTable) (store : Store) (lo hi : Nat) (head rest : List Step) :
    Prop where
  shaped : Stream.Shaped lo hi head rest
  ground : ∃ e, At ⟨program, symbols, [], fun _ => False, e⟩ .kept (start symbols program store)
  entered : Entered program symbols

namespace Opening

variable {lo hi : Nat} {head rest : List Step} {store : Store} (ho : Opening program symbols store lo hi head rest)
include ho

/-- **Behind the head of a chunk a run starts.** -/
theorem going (h : steps r (ordered head) (start symbols program store) = .ok () s) :
    Going (Shape.Heads head) program symbols (rest, s) ∧ s.ops = program.code.toList.map (·.op) ∧ s.labels = [] := by
  obtain ⟨_, hat⟩ := ho.ground
  have hg := head_grounded (r := r) ho.shaped _ hat
  rw [h] at hg
  have hh := (steps_declares (decl_ordered ho.shaped.decl) h).heading rfl
  exact ⟨⟨⟨_, hg.1, hg.2, rfl, rfl⟩, hh.wired ho.entered⟩, hh.ops, congrArg Setting.labels hh.setting⟩

/-- A chunk that compiles is a head, a run and the end of it. -/
theorem runs (h : chunk r (head ++ rest) (start symbols program store) = .ok () t) :
    ∃ s w, steps r (ordered head) (start symbols program store) = .ok () s ∧ Run r (rest, s) ([], w) ∧
      finish w = .ok () t := by
  rw [chunk_of_shaped ho.shaped] at h
  obtain ⟨_, s, hhead, h⟩ := seq_ok.mp h
  obtain ⟨_, w, hrest, hfin⟩ := seq_ok.mp h
  exact ⟨s, w, hhead, run_of_steps hrest, hfin⟩

end Opening

end Compile

end Goblet
