import Mathlib.Data.List.Forall2
import Goblet.Proofs.Compile.Linked
import Goblet.Proofs.Symbol.Scope

/-!
# The variables of functions

A variable of a function has a cell in the frame of the function, and its key stands in the scope of the function or of
a block in it (`LocalKey`). A scope belongs to one function (`Under.unique`). A name is looked up in the scopes around,
but only what has the path of the innermost function before it may be a cell, and that is a variable of this function
(`Under.of_enclosing`). So every cell that code can name is one of the frame it runs in, and there is none outside of
functions (`Housed.reach`).

`Housed` is what a step has to keep for that (`Turn.housed`), and so does a run (`Run.housed`). Functions of earlier
chunks may have left variables behind, but no function that is opened is one of those.
-/

namespace Goblet

open List SymbolTable

/-! ## Scopes -/

/-- The scope with this path, or that of a block in it. -/
inductive Under (root : String) : String → Prop
  | self : Under root root
  | block {sc n : String} : Under root sc → Fresh "b" n → Under root (sc ++ "/" ++ n)

/-- The scope of a chunk or of a function. -/
def IsRoot (sc : String) : Prop := sc = Place.mainScope ∨ FuncKey sc

variable {sc f name : String} {σ τ : Setting}

theorem IsRoot.not_block {n : String} (hn : Fresh "b" n) : ¬IsRoot (sc ++ "/" ++ n) := by
  rintro (h | h)
  · have := congrArg (fun s => '/' ∈ s.toList) h
    simp [String.toList_append, Place.mainScope] at this
  · exact FuncKey.not_block hn h

/-- A scope lies under one root. -/
theorem Under.unique {a b : String} (ha : IsRoot a) (hb : IsRoot b) (h : Under a sc) (h' : Under b sc) : a = b := by
  induction h with
  | self =>
    cases h' with
    | self => rfl
    | block _ hn => exact absurd ha (IsRoot.not_block hn)
  | @block sc n _ hn ih =>
    generalize hpath : sc ++ "/" ++ n = path at h'
    cases h' with
    | self => exact absurd (hpath ▸ hb) (IsRoot.not_block hn)
    | block h' hm => exact ih ((last_part_inj hpath hn.noSlash_block hm.noSlash_block).1 ▸ h')

theorem Under.ne_empty {a : String} (ha : IsRoot a) (h : Under a sc) : sc ≠ "" := by
  cases h with
  | self => exact ha.elim (fun h => by rw [h]; decide) FuncKey.ne_empty
  | block => exact fun he => by simpa using congrArg String.length he

theorem Frame.under : ∀ {frames : List Frame}, Frame.Nests frames → Under (Frame.owner frames) (Frame.scopeOf frames)
  | [], _ => .self
  | .func _ :: _, _ => .self
  | .block _ :: fs, ⟨⟨_, hn, hs⟩, h⟩ => by
    rw [show Frame.scopeOf (.block _ :: fs) = _ from hs]
    exact (Frame.under h).block hn

namespace SymbolTable

/-- A scope around is the scope, a part of its path, or the one without a name. -/
theorem mem_enclosing {o sc : String} (h : o ∈ enclosing sc) : o = "" ∨ o = sc ∨ ∃ rest, sc = o ++ "/" ++ rest := by
  have hout : ∀ cs : List Char, o ∈ outward cs → o = "" ∨ ∃ a, cs = a ++ '/' :: o.toList.reverse := by
    intro cs
    induction cs with
    | nil => exact fun h => .inl (mem_singleton.mp h)
    | cons c cs ih =>
      intro h
      have tail (h : o ∈ outward cs) : o = "" ∨ ∃ a, c :: cs = a ++ '/' :: o.toList.reverse := by
        refine (ih h).imp_right ?_
        rintro ⟨a, ha⟩
        exact ⟨c :: a, by rw [ha, cons_append]⟩
      unfold outward at h
      split at h
      · rename_i hc
        subst hc
        split at h
        · exact .inl (mem_singleton.mp h)
        · rcases mem_cons.mp h with rfl | h
          · exact .inr ⟨[], by simp⟩
          · exact tail h
      · exact tail h
  unfold enclosing at h
  split at h
  · exact .inl (mem_singleton.mp h)
  · rcases mem_cons.mp h with rfl | h
    · exact .inr (.inl rfl)
    · refine (hout _ h).imp_right ?_
      rintro ⟨a, ha⟩
      refine .inr ⟨String.ofList a.reverse, String.toList_inj.mp ?_⟩
      rw [← reverse_reverse sc.toList, ha]
      simp [String.toList_append]

end SymbolTable

/-- A scope around belongs to a function as well, if the path of the function stands before a name there. -/
theorem Under.of_enclosing {o : String} (h : Under f sc) (ho : o ∈ enclosing sc) (hne : o ≠ "")
    (hn : IsPart name) (hp : (f ++ "/").toList.isPrefixOf (o ++ "/" ++ name).toList) : Under f o := by
  induction h with
  | self =>
    rcases mem_enclosing ho with rfl | rfl | ⟨rest, rfl⟩
    · exact absurd rfl hne
    · exact .self
    · -- the name would have a slash
      have hp := isPrefixOf_iff_prefix.mp hp
      simp only [String.toList_append, append_assoc] at hp
      have hp := (prefix_append_right_inj _).mp ((prefix_append_right_inj _).mp hp)
      exact absurd (hp.subset (mem_append_right _ (.head _))) hn
  | block h hb ih =>
    rw [enclosing_append hb.noSlash_block] at ho
    rcases mem_cons.mp ho with rfl | ho
    · exact h.block hb
    · exact ih ho

/-- The key of a variable of a function. -/
def LocalKey (f key : String) : Prop := ∃ sc n, Under f sc ∧ VarName n ∧ key = sc ++ "/" ++ n

theorem LocalKey.under (h : LocalKey f (sc ++ "/" ++ name)) (hn : IsPart name) : Under f sc := by
  obtain ⟨sc', n, hu, hv, he⟩ := h
  exact (last_part_inj he hn hv.noSlash).1 ▸ hu

theorem LocalKey.ne_empty (h : LocalKey f (qualify sc name)) (hn : IsPart name) : sc ≠ "" := by
  rintro rfl
  obtain ⟨sc', n, -, -, he⟩ := h
  have he : name = sc' ++ "/" ++ n := he
  exact hn (by rw [he]; simp [String.toList_append])

/-! ## Frames -/

/-- How many values a function takes and returns, and how many variables it has. -/
structure FrameSize where
  params : Nat
  results : Nat
  locals : Nat
deriving DecidableEq

/-- The cell of a parameter or of a variable. Between them are the return address and the frame of the caller. -/
def FrameSize.Has (f : FrameSize) (k : Int) : Prop := -((f.params : Int) + 2) ≤ k ∧ k ≤ -3 ∨ 0 ≤ k ∧ k < f.locals

instance (f : FrameSize) (k : Int) : Decidable (f.Has k) := inferInstanceAs (Decidable (_ ∨ _))

/-- The frame of a function whose body is open, so far. -/
def OpenFunc.size (f : OpenFunc) : FrameSize := ⟨f.sig.params.length, f.sig.results.length, f.locals⟩

namespace Compile

/-- A function gets more variables. -/
def Widens (f g : OpenFunc) : Prop := f.locals ≤ g.locals ∧ g = { f with locals := g.locals }

/-- The same functions are open. -/
abbrev Grown : List OpenFunc → List OpenFunc → Prop := List.Forall₂ Widens

variable {f g : OpenFunc} {fs gs hs : List OpenFunc}

theorem Widens.key (h : Widens f g) : g.key = f.key := by
  rw [h.2]

theorem Widens.sig (h : Widens f g) : g.sig = f.sig := by
  rw [h.2]

theorem Widens.growSite (h : Widens f g) : g.growSite = f.growSite := by
  rw [h.2]

theorem Widens.has (h : Widens f g) {k : Int} (hk : f.size.Has k) : g.size.Has k := by
  have hle := h.1
  unfold OpenFunc.size FrameSize.Has at hk ⊢
  rw [h.sig]
  dsimp only at hk ⊢
  omega

theorem Widens.refl (f : OpenFunc) : Widens f f := ⟨Nat.le_refl _, rfl⟩

theorem Widens.trans {h : OpenFunc} (hfg : Widens f g) (hgh : Widens g h) : Widens f h :=
  ⟨Nat.le_trans hfg.1 hgh.1, by rw [hgh.2, hfg.2]⟩

theorem Grown.refl (fs : List OpenFunc) : Grown fs fs := forall₂_same.mpr fun f _ => .refl f

/-- Growth composes. -/
theorem Grown.trans (h : Grown fs gs) (h' : Grown gs hs) : Grown fs hs := by
  induction h generalizing hs with
  | nil =>
    cases h'
    exact .nil
  | cons hw _ ih =>
    cases h' with
    | cons hw' h' => exact .cons (hw.trans hw') (ih h')

theorem Grown.keys (h : Grown fs gs) : gs.map (·.key) = fs.map (·.key) := by
  induction h with
  | nil => rfl
  | cons hw _ ih => rw [map_cons, map_cons, hw.key, ih]

theorem Grown.mem (h : Grown fs gs) (hg : g ∈ gs) : ∃ f ∈ fs, Widens f g := by
  obtain ⟨i, hi, rfl⟩ := getElem_of_mem hg
  have hi' := h.length_eq ▸ hi
  exact ⟨_, getElem_mem hi', h.get hi' hi⟩

theorem Naming.grown (h : Naming σ τ) : Grown σ.funcs τ.funcs := by
  have more (f : OpenFunc) (fs : List OpenFunc) : Grown (f :: fs) ({ f with locals := f.locals + 1 } :: fs) :=
    .cons ⟨Nat.le_succ _, rfl⟩ (Grown.refl fs)
  cases h with
  | «local» hf _ _ | result hf _ _ | blank hf => rw [hf]; exact more _ _
  | _ => exact .refl _

theorem Names.grown (h : Names σ τ) : Grown σ.funcs τ.funcs := by
  induction h with
  | refl => exact .refl _
  | tail _ h ih => exact ih.trans h.grown

/-! ## Variables -/

/-- The innermost function, or the chunk. -/
def Setting.home (σ : Setting) : String := (σ.funcs.head?.map (·.key)).getD Place.mainScope

/-- The innermost scope is one of the innermost function. -/
def Setting.Scoped (σ : Setting) : Prop := Under σ.home σ.scope

/-- The cells of variables lie in the frames of their functions. A function that has variables was there before, or has
an entry. -/
structure Housed (old : SymbolTable) (σ : Setting) : Prop where
  vars : ∀ key k, IsLocal σ.symbols key k → ∃ f, FuncKey f ∧ LocalKey f key ∧
    (old.lookup? f ≠ none ∨ ∃ i, σ.Knows (.func f) i) ∧ ∀ g ∈ σ.funcs, g.key = f → g.size.Has k
  begun : ∀ g ∈ σ.funcs, ∃ i, σ.Knows (.func g.key) i
  apart : (σ.funcs.map (·.key)).Nodup

variable {old : SymbolTable} {σ τ : Setting} {k : Int}

theorem Placed.isRoot (h : Placed σ) : IsRoot σ.home := by
  unfold Setting.home
  cases hf : σ.funcs with
  | nil => exact .inl rfl
  | cons f fs => exact .inr (h.funcs f (hf ▸ (.head _)))

/-- **Every cell that code can name is one of the frame it runs in.** -/
theorem Housed.reach (h : Housed old σ) (hp : Placed σ) (hs : σ.Scoped) (hr : σ.Reach (.local k)) :
    ∃ f fs, σ.funcs = f :: fs ∧ f.size.Has k := by
  rcases hr with ⟨f, fs, hf, hk, hlt⟩ | ⟨sc, name, sym, hn, hlook, hkind, haddr, hsc⟩
  · exact ⟨f, fs, hf, .inr ⟨hk, hlt⟩⟩
  obtain ⟨owner, howner, hkey, -, hhas⟩ := h.vars _ k ⟨sym, hlook, hkind, haddr⟩
  have hne := hkey.ne_empty hn
  rw [qualify_eq hne] at hkey hsc
  have hunder := hkey.under hn
  have hroot := hp.isRoot
  have howns : owner = σ.home := by
    rcases hsc with rfl | ⟨henc, f, fs, hf, hpre⟩
    · exact hunder.unique (.inr howner) hroot hs
    · have hhome : σ.home = f.key := by
        unfold Setting.home
        rw [hf]
        rfl
      rw [hhome]
      unfold Setting.Scoped at hs
      rw [hhome] at hs hroot
      exact hunder.unique (.inr howner) hroot (hs.of_enclosing henc hne hn hpre)
  unfold Setting.home at howns
  cases hf : σ.funcs with
  | nil =>
    rw [hf] at howns
    exact absurd howns howner.ne_main
  | cons f fs =>
    rw [hf] at howns hhas
    exact ⟨f, fs, rfl, hhas f (.head _) howns.symm⟩

/-! ## What changes of names keep -/

theorem Names.scoped (h : Names σ τ) (hs : σ.Scoped) : τ.Scoped := by
  have hkeys := congrArg List.head? h.grown.keys
  rw [head?_map, head?_map] at hkeys
  unfold Setting.Scoped Setting.home at hs ⊢
  rw [hkeys, h.rest]
  exact hs

theorem Housed.same (h : Housed old σ) (hs : τ.symbols = σ.symbols) (hf : τ.funcs = σ.funcs) : Housed old τ := by
  have hknows : ∀ f i, σ.Knows (.func f) i → τ.Knows (.func f) i := by
    intro f i hk
    unfold Setting.Knows
    rw [hs]
    exact hk
  refine ⟨fun key k hl => ?_, fun g hg => ?_, hf ▸ h.apart⟩
  · obtain ⟨f, hfk, hkey, hold, hhas⟩ := h.vars key k (hs ▸ hl)
    exact ⟨f, hfk, hkey, hold.imp_right fun ⟨i, hi⟩ => ⟨i, hknows f i hi⟩, fun g hg => hhas g (hf ▸ hg)⟩
  · obtain ⟨i, hi⟩ := h.begun g (hf ▸ hg)
    exact ⟨i, hknows _ i hi⟩

/-- Names are changed: a variable of a function was there, or is one of the innermost function. -/
theorem Housed.grows (h : Housed old σ) (hp : Placed τ) (hknows : ∀ f i, σ.Knows (.func f) i → τ.Knows (.func f) i)
    (hgrown : Grown σ.funcs τ.funcs) (hvars : ∀ key k, IsLocal τ.symbols key k → IsLocal σ.symbols key k ∨
      ∃ f fs, τ.funcs = f :: fs ∧ LocalKey f.key key ∧ f.size.Has k) : Housed old τ := by
  have hapart : (τ.funcs.map (·.key)).Nodup := hgrown.keys ▸ h.apart
  have hbegun : ∀ g ∈ τ.funcs, ∃ i, τ.Knows (.func g.key) i := by
    intro g hg
    obtain ⟨f, hf, hfg⟩ := hgrown.mem hg
    obtain ⟨i, hi⟩ := h.begun f hf
    exact ⟨i, hfg.key ▸ hknows _ i hi⟩
  refine ⟨fun key k hl => ?_, hbegun, hapart⟩
  rcases hvars key k hl with hl | ⟨f, fs, hf, hkey, hhas⟩
  · obtain ⟨f, hfk, hkey, hold, hhas⟩ := h.vars key k hl
    refine ⟨f, hfk, hkey, hold.imp_right fun ⟨i, hi⟩ => ⟨i, hknows f i hi⟩, fun g hg he => ?_⟩
    obtain ⟨f', hf', hw⟩ := hgrown.mem hg
    exact hw.has (hhas f' hf' (hw.key.symm.trans he))
  · have hmem : f ∈ τ.funcs := hf ▸ (.head _)
    refine ⟨f.key, hp.funcs f hmem, hkey, .inr (hbegun f hmem), fun g hg he => ?_⟩
    rw [hf] at hg hapart
    rcases mem_cons.mp hg with rfl | hg
    · exact hhas
    · rw [map_cons, nodup_cons] at hapart
      exact absurd (he ▸ mem_map_of_mem hg) hapart.1

/-- A declaration gives its local a cell of the frame. -/
theorem Naming.housed (hn : Naming σ τ) (hp : Placed σ) (hs : σ.Scoped) (h : Housed old σ) : Housed old τ := by
  refine h.grows (hn.placed hp) (fun f i => Names.knows (.single hn) hp) hn.grown fun key k hl => ?_
  refine (hn.isLocal hl).imp_right fun ⟨f, fs, name, hf, hv, hkey, hk, hfuncs⟩ => ⟨_, fs, hfuncs, ?_, ?_⟩
  · have hhome : σ.home = f.key := by
      unfold Setting.home
      rw [hf]
      rfl
    exact ⟨σ.scope, name, hhome ▸ hs, hv, hkey.trans (qualify_eq (Under.ne_empty hp.isRoot hs) name)⟩
  · subst hk
    refine .inr ⟨Int.natCast_nonneg _, ?_⟩
    show ((f.locals : Nat) : Int) < ((f.locals + 1 : Nat) : Int)
    omega

/-- So does a series of them. -/
theorem Names.housed (hn : Names σ τ) (hp : Placed σ) (hs : σ.Scoped) (h : Housed old σ) : Housed old τ := by
  induction hn with
  | refl => exact h
  | tail hn hstep ih => exact hstep.housed (Names.placed hn hp) (Names.scoped hn hs) ih

/-! ## What steps keep -/

variable {s t u : CompileState} {p : Pos} {act : Act} {key : String}

theorem local_withParams {key' : String} {offset : Int} {params : List (Option String × Ty)} {symbols : SymbolTable}
    (hn : ∀ n ty, (some n, ty) ∈ params → IsWord n) (h : IsLocal (withParams key offset params symbols) key' k) :
    IsLocal symbols key' k ∨ (∃ n, IsWord n ∧ key' = qualify key n) ∧ offset - params.length < k ∧ k ≤ offset := by
  induction params generalizing offset with
  | nil => exact .inl h
  | cons param params ih =>
    obtain ⟨name, ty⟩ := param
    have ih (h : IsLocal (withParams key (offset - 1) params symbols) key' k) :
        IsLocal symbols key' k ∨ (∃ n, IsWord n ∧ key' = qualify key n) ∧
          offset - ((some "", ty) :: params).length < k ∧ k ≤ offset := by
      refine (ih (fun n ty hm => hn n ty (.tail _ hm)) h).imp_right fun ⟨hkey, hlo, hhi⟩ => ⟨hkey, ?_, ?_⟩
      · rw [length_cons]
        omega
      · omega
    unfold withParams at h
    cases name with
    | none => exact ih h
    | some n =>
      dsimp only at h
      split at h
      · rcases h.of_add with h | ⟨hkey, -, haddr⟩
        · exact ih h
        · cases haddr
          refine .inr ⟨⟨n, hn n ty (.head _), hkey⟩, ?_, Int.le_refl _⟩
          rw [length_cons]
          omega
      · exact ih h

theorem Opens.housed {sig : Signature} {f : FuncType} {skip : Option Nat} (ho : Opens key sig p s u f skip)
    (hn : sig.Named) (hkey : FuncKey key) (hp : Placed s.setting) (hw : Wired s)
    (hold : old.lookup? key ≠ none → ∃ sym, s.symbols.lookup? key = some sym ∧ sym.value.isSome)
    (h : Housed old s.setting) : Housed old u.setting := by
  obtain ⟨data, slot, -, hset⟩ := ho.setting
  have hfuncs : u.setting.funcs =
      ⟨key, f, 0, s.ops.length + skip.toList.length, skip, s.stack.size, s.marks.length⟩ :: s.funcs := by rw [hset]
  have hknows := (ho.wired hn hkey hp hw).2.knows
  -- the function has no entry and was not there before
  have hfresh : ∀ i, ¬s.setting.Knows (.func key) i := by
    rintro i ⟨sym, hs, -, hv⟩
    have hf := ho.fresh
    rw [show s.symbols.lookup? key = some sym from hs, Option.bind_some, hv] at hf
    cases hf
  have hnew : old.lookup? key = none := by
    by_contra hne
    obtain ⟨sym, hs, hv⟩ := hold hne
    have hf := ho.fresh
    rw [hs, Option.bind_some] at hf
    rw [hf] at hv
    cases hv
  have hentry := ho.knows hn hkey
  refine ⟨fun key' k hl => ?_, fun g hg => ?_, ?_⟩
  · have hsymbols : u.symbols = _ := congrArg Setting.symbols hset
    have hl : IsLocal u.symbols key' k := hl
    rw [hsymbols] at hl
    rcases local_withParams (hn.params f.params) hl with hl | ⟨⟨n, hword, rfl⟩, hlo, hhi⟩
    · obtain ⟨owner, howner, hlocal, hold, hhas⟩ := h.vars key' k (hl.of_add.resolve_right fun ⟨_, hv, _⟩ => nomatch hv)
      refine ⟨owner, howner, hlocal, hold.imp_right fun ⟨i, hi⟩ => ⟨i, hknows _ i hi⟩, fun g hg he => ?_⟩
      rw [hfuncs] at hg
      rcases mem_cons.mp hg with rfl | hg
      · have he : key = owner := he
        subst he
        exact hold.elim (absurd hnew) fun ⟨i, hi⟩ => absurd hi (hfresh i)
      · exact hhas g hg he
    · refine ⟨key, hkey, ⟨key, n, .self, .inl hword, qualify_funcKey hkey⟩, .inr ⟨_, hentry⟩, fun g hg he => ?_⟩
      rw [hfuncs] at hg
      rcases mem_cons.mp hg with rfl | hg
      · refine .inl ⟨?_, hhi⟩
        have hlen : ((sig.params.map (·.1)).zip f.params).reverse.length ≤ f.params.length := by
          rw [length_reverse, length_zip]
          exact Nat.min_le_right _ _
        show -((f.params.length : Int) + 2) ≤ k
        omega
      · obtain ⟨i, hi⟩ := h.begun g hg
        exact absurd (he ▸ hi) (hfresh i)
  · rw [hfuncs] at hg
    rcases mem_cons.mp hg with rfl | hg
    · exact ⟨_, hentry⟩
    · obtain ⟨i, hi⟩ := h.begun g hg
      exact ⟨i, hknows _ i hi⟩
  · rw [hfuncs, map_cons, nodup_cons]
    refine ⟨fun hm => ?_, h.apart⟩
    obtain ⟨g, hg, he⟩ := mem_map.mp hm
    obtain ⟨i, hi⟩ := h.begun g hg
    have he : g.key = key := he
    exact hfresh i (he ▸ hi)

/-- **One step keeps variables in their frames.** A function that is opened is none that there was. -/
theorem Sets.housed (h : Sets act p s t) (hp : Placed s.setting) (hw : Wired s) (hs : s.setting.Scoped)
    (hbody : ∀ key sig, act = .body key sig → FuncKey key ∧
      (old.lookup? key ≠ none → ∃ sym, s.symbols.lookup? key = some sym ∧ sym.value.isSome))
    (hh : Housed old s.setting) : Housed old t.setting := by
  cases h with
  | names hn hset =>
    rw [hset]
    exact (hn.housed hp hs hh).same rfl rfl
  | @label l _ _ hnew hstack hops hset =>
    have hkept := (hw.label hp hnew hstack hops hset).2.1
    refine hh.grows ?_ (fun f i => hkept.knows _ i) ?_ fun key k hl => ?_
    · rw [hset]
      refine ⟨hp.scope, hp.funcs, fun key sym hsym hkind => ?_⟩
      have hsym : (s.symbols.add _ _).lookup? key = some sym := hsym
      rw [lookup?_add] at hsym
      split at hsym
      · cases hsym
        cases hkind
      · exact hp.keys key sym hsym hkind
    · rw [hset]
      exact .refl _
    · rw [hset] at hl
      have hl : IsLocal (s.symbols.add _ ⟨.label, .code s.ops.length, .unknown, none⟩) key k := hl
      exact .inl (hl.of_add.resolve_right fun ⟨_, hv, _⟩ => nomatch hv)
  | @body key sig f skip u hact hnamed ho hn =>
    obtain ⟨hkey, hold⟩ := hbody key sig hact
    obtain ⟨data, slot, -, hset⟩ := ho.setting
    refine hn.housed (ho.placed hnamed hkey hp) ?_ (ho.housed hnamed hkey hp hw hold hh)
    rw [hset]
    exact .self
  | @close f fs _ he =>
    have hfuncs : s.setting.funcs = f :: fs := he.funcs
    rw [he.setting]
    refine ⟨fun key k hl => ?_, fun g hg => ?_, ?_⟩
    · obtain ⟨owner, howner, hkey, hold, hhas⟩ := hh.vars key k hl
      exact ⟨owner, howner, hkey, hold, fun g hg => hhas g (hfuncs ▸ .tail _ hg)⟩
    · exact hh.begun g (hfuncs ▸ .tail _ hg)
    · have hapart := hh.apart
      rw [hfuncs, map_cons, nodup_cons] at hapart
      exact hapart.2

variable {r : Registry} {heads : String → Prop} {program : Program} {symbols : SymbolTable}
  {c d : List Step × CompileState}

theorem Going.scoped (h : Going heads program symbols c) : c.2.setting.Scoped := by
  obtain ⟨g, hat, hwalks, -⟩ := h.ground
  have hunder := Frame.under hwalks.nests
  have hhome : c.2.setting.home = Frame.owner g.frames := by
    unfold Setting.home Frame.owner
    rw [← hat.sound.within?]
    rfl
  have hscope : c.2.setting.scope = Frame.scopeOf g.frames := by
    rw [Setting.scope, show c.2.setting.scopes = _ from hat.sound.scopes]
    cases g.frames <;> rfl
  rw [Setting.Scoped, hhome, hscope]
  exact hunder

theorem Going.opened {sig : Signature} {post : List Step}
    (h : Going heads program symbols (⟨.body key sig, p⟩ :: post, s)) : FuncKey key ∧
      (symbols.lookup? key ≠ none → ∃ sym, s.symbols.lookup? key = some sym ∧ sym.value.isSome) := by
  obtain ⟨g, hat, hwalks, -, rfl⟩ := h.ground
  have hwalk := hwalks.walk
  generalize g.frames = frames at hwalk
  cases hwalk with
  | plain hact => exact hact.elim
  | body hkey =>
    rcases hkey with hlit | hhead
    · refine ⟨.inl hlit, fun hne => ?_⟩
      obtain ⟨s0, hs0⟩ := Option.ne_none_iff_exists'.mp hne
      obtain ⟨sym, hsym, -⟩ := hat.sound.since.old key s0 hs0
      exact ⟨sym, hsym, hat.sound.tidy.lit key sym hsym hlit⟩
    · obtain ⟨hkey, hnone⟩ := hwalks.heads key hhead
      exact ⟨hkey, absurd hnone⟩

theorem Going.housed (hc : Going heads program symbols c) (hadv : Advances r c d) (h : Housed symbols c.2.setting) :
    Housed symbols d.2.setting := by
  obtain ⟨⟨act, p, hnext, hturn, -⟩, -, -⟩ := hc.next hadv
  obtain ⟨g, hat, -⟩ := hc.ground
  refine (hturn.sets hc.wired).housed hat.sound.placed hc.wired hc.scoped (fun key sig hact => ?_) h
  subst hact
  obtain ⟨steps, x⟩ := c
  cases hnext.eq nofun nofun
  exact hc.opened

/-- **A run keeps variables in their frames.** -/
theorem Run.housed (h : Run r c d) (hc : Going heads program symbols c) (hh : Housed symbols c.2.setting) :
    Housed symbols d.2.setting := by
  induction h with
  | refl => exact hh
  | tail hrun hadv ih => exact (Run.going hrun hc).1.housed hadv ih

end Compile

end Goblet
