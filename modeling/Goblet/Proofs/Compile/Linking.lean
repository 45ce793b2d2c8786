import Goblet.Proofs.Compile.Wiring

/-!
# Linking

`Wired` is what holds of jumps, labels and bodies while a chunk is compiled: where jumps and bodies wait for a distance
there are instructions that can take it, every label of the chunk lies where its name says and every function begins
with the instruction that makes room. `Kept s t` says what of `s` is there in `t`: instructions that stay, labels and
entries of functions, and open jumps.

One turn keeps `Wired` and is `Kept` (`Turn.wired`), and so is a run of the compiler.
-/

namespace Goblet

open List SymbolTable

theorem not_funcKey_labelKey {l : String} : ¬FuncKey (labelKey l) := by
  rintro (h | ⟨n, hn, he⟩)
  · exact LitKey.ne_label h
  · have hlast : (Place.mainScope ++ "/" ++ n).toList.getLast? = some ':' := by
      rw [← he, labelKey, String.toList_append, getLast?_append]
      rfl
    rw [String.toList_append, getLast?_append] at hlast
    cases hname : n.toList.getLast? with
    | some c =>
      rw [hname] at hlast
      cases hlast
      exact hn.notMem (by decide) (mem_of_getLast? hname)
    | none =>
      rw [hname] at hlast
      exact absurd hlast (by decide)

theorem Signature.Named.params {sig : Signature} (h : sig.Named) (types : List Ty) :
    ∀ n ty, (some n, ty) ∈ ((sig.params.map (·.1)).zip types).reverse → IsWord n := by
  intro n ty hm
  obtain ⟨⟨name, e⟩, hp, he⟩ := mem_map.mp (of_mem_zip (mem_reverse.mp hm)).1
  subst he
  exact h n e (mem_append_left _ hp)

namespace Compile

variable {s t u : CompileState} {σ : Setting} {p : Pos} {i : Nat} {op : Op} {n : String} {j : OpenJump}
variable {f : OpenFunc} {key : String} {sig : Signature} {skip : Option Nat} {fs : List OpenFunc} {os : List Operand}

/-- A key means a function. -/
def Setting.Declares (σ : Setting) (key : String) : Prop := ∃ sym, σ.symbols.lookup? key = some sym ∧ sym.kind = .func

/-- Jumps, labels and bodies are in place. -/
structure Wired (s : CompileState) : Prop where
  loaded : Loaded s.ops s.lastLabel (knowns s.stack.items)
  names : ∀ key sig, .func key sig ∈ s.stack.items → s.setting.Declares key
  inside : ∀ j, s.lastLabel = some j → j ≤ s.ops.length
  labels : ∀ l ∈ s.labels, ∃ i j, s.setting.Knows (.label l) i ∧ s.lastLabel = some j ∧ i ≤ j
  entries : ∀ key i, s.setting.Knows (.func key) i → ∃ n, s.ops[i]? = some (.grow n)
  jumps : ∀ j ∈ s.jumps, ∃ op, s.ops[j.site]? = some op ∧ op.withOffset? 0 = some op
  callees : ∀ j ∈ s.jumps, ∀ key, j.target = .func key → s.setting.Declares key
  apart : s.jumps.Pairwise (·.site ≠ ·.site)
  /-- A body has an instruction that makes room, and maybe one that jumps over it, which is no open jump. -/
  bodies : ∀ f ∈ s.setting.bodies, s.ops[f.growSite]? = some (.grow 0) ∧
    ∀ i, f.skipSite = some i → s.ops[i]? = some (.jump 0) ∧ ∀ j ∈ s.jumps, j.site ≠ i
  nested : s.setting.bodies.Pairwise fun f g => f.growSite ≠ g.growSite ∧ ∀ i, f.skipSite = some i → g.skipSite ≠ some i

/-- No open body waits for the instruction at an index. -/
def Unhooked (s : CompileState) (i : Nat) : Prop := ∀ f ∈ s.setting.bodies, f.growSite ≠ i ∧ f.skipSite ≠ some i

/-- What is there in a later state. -/
structure Kept (s t : CompileState) : Prop where
  alike : ∀ i op, Stays s i op → ∃ op', Stays t i op' ∧ op'.unlinked = op.unlinked
  stays : ∀ i op, Stays s i op → Unhooked s i → Stays t i op ∧ Unhooked t i
  fresh : ∀ i op, Stays s i op → (∀ j ∈ s.jumps, j.site ≠ i) → ∀ j ∈ t.jumps, j.site ≠ i
  jumps : ∀ j ∈ s.jumps, j ∈ t.jumps
  knows : ∀ j i, s.setting.Knows j i → t.setting.Knows j i
  declares : ∀ key, s.setting.Declares key → t.setting.Declares key

theorem Kept.refl : Kept s s :=
  ⟨fun _ op h => ⟨op, h, rfl⟩, fun _ _ h hu => ⟨h, hu⟩, fun _ _ _ h => h, fun _ h => h, fun _ _ h => h, fun _ h => h⟩

theorem Kept.trans (h : Kept s t) (h' : Kept t u) : Kept s u where
  alike i op hi := by
    obtain ⟨op', ho, he⟩ := h.alike i op hi
    obtain ⟨op'', ho', he'⟩ := h'.alike i op' ho
    exact ⟨op'', ho', he'.trans he⟩
  stays i op hi hu := by
    obtain ⟨hi', hu'⟩ := h.stays i op hi hu
    exact h'.stays i op hi' hu'
  fresh i op hi hj := by
    obtain ⟨op', hi', -⟩ := h.alike i op hi
    exact h'.fresh i op' hi' (h.fresh i op hi hj)
  jumps j hj := h'.jumps j (h.jumps j hj)
  knows j i hk := h'.knows j i (h.knows j i hk)
  declares key hk := h'.declares key (h.declares key hk)

/-! ## Moves -/

theorem Stays.lt (h : Stays s i op) : i < s.ops.length := (List.getElem?_eq_some_iff.mp h.1).1

theorem Wired.site_lt (hw : Wired s) (hj : j ∈ s.jumps) : j.site < s.ops.length := by
  obtain ⟨op, hop, -⟩ := hw.jumps j hj
  exact (List.getElem?_eq_some_iff.mp hop).1

/-- Operands and code are changed, names are, and scopes and marks may be. -/
theorem Wired.recode (hw : Wired s) (hp : Placed s.setting) (hn : Names s.setting σ) {scopes : List String}
    {marks : List Nat} (ht : t.setting = { σ with scopes := scopes, marks := marks }) (hr : Recodes s t.ops)
    (hl : Loaded t.ops s.lastLabel (knowns t.stack.items))
    (hf : ∀ key sig, .func key sig ∈ t.stack.items → s.setting.Declares key) : Wired t ∧ Kept s t := by
  have hrest := hn.rest
  have hlabels : t.labels = s.labels := (congrArg Setting.labels ht).trans (congrArg Setting.labels hrest)
  have hjumps : t.jumps = s.jumps := (congrArg Setting.jumps ht).trans (congrArg Setting.jumps hrest)
  have hlast : t.lastLabel = s.lastLabel := (congrArg Setting.lastLabel ht).trans (congrArg Setting.lastLabel hrest)
  have hbodies : t.setting.bodies = s.setting.bodies := (congrArg Setting.bodies ht).trans hn.bodies
  have hdeclares : ∀ key, s.setting.Declares key → t.setting.Declares key := by
    rintro key ⟨sym, hs, hk⟩
    obtain ⟨addr, hs'⟩ := hn.func hp hs hk
    rw [ht]
    exact ⟨_, hs', hk⟩
  have hknows {j : JumpTarget} {i : Nat} : t.setting.Knows j i ↔ σ.Knows j i := by
    rw [ht]
    cases j <;> exact Iff.rfl
  have hfirm {i : Nat} {op : Op} (ho : s.ops[i]? = some op) (hop : op.isSoft = false) : t.ops[i]? = some op :=
    hr i op ⟨ho, .inl hop⟩
  have hstays {i : Nat} {op : Op} (h : Stays s i op) : Stays t i op := ⟨hr i op h, by rw [hlast]; exact h.2⟩
  refine ⟨⟨by rw [hlast]; exact hl, fun key sig hm => hdeclares key (hf key sig hm), fun j hj => ?_, fun l hm => ?_,
    fun key i hk => ?_, fun j hj => ?_, fun j hj key he => ?_, ?_, fun f hf => ?_, ?_⟩,
      ⟨fun i op h => ⟨op, hstays h, rfl⟩,
    fun i op h hu => ⟨hstays h, ?_⟩, fun i op _ h => ?_, fun j hj => ?_, fun j i hk => ?_, hdeclares⟩⟩
  · exact hr.le_length hw.inside (hlast ▸ hj)
  · obtain ⟨i, j, hk, hj, hij⟩ := hw.labels l (hlabels ▸ hm)
    exact ⟨i, j, hknows.mpr (hn.knows hp hk), hlast ▸ hj, hij⟩
  · obtain ⟨n, hop⟩ := hw.entries key i (hn.knows_func (hknows.mp hk))
    exact ⟨n, hfirm hop rfl⟩
  · obtain ⟨op, hop, hoff⟩ := hw.jumps j (hjumps ▸ hj)
    exact ⟨op, hfirm hop (Op.isSoft_withOffset? hoff), hoff⟩
  · exact hdeclares key (hw.callees j (hjumps ▸ hj) key he)
  · rw [hjumps]
    exact hw.apart
  · obtain ⟨hgrow, hskip⟩ := hw.bodies f (hbodies ▸ hf)
    refine ⟨hfirm hgrow rfl, fun i hi => ?_⟩
    rw [hjumps]
    exact ⟨hfirm (hskip i hi).1 rfl, (hskip i hi).2⟩
  · rw [hbodies]
    exact hw.nested
  · rw [Unhooked, hbodies]
    exact hu
  · rw [hjumps]
    exact h
  · rw [hjumps]
    exact hj
  · exact hknows.mpr (hn.knows hp hk)

/-- A move keeps every jump wired. -/
theorem Move.wired {n m : Nat} (h : Move n m s t) (hw : Wired s) (hp : Placed s.setting) : Wired t ∧ Kept s t := by
  obtain ⟨hn, hr, hl⟩ := h.recodes hw.loaded hw.inside
  exact hw.recode hp hn rfl hr hl fun key sig hm => (h.names_func hm).elim (hw.names key sig) id

/-! ## Jumps -/

theorem Wired.late (hw : Wired u) (hop : u.ops[j.site]? = some op) (hoff : op.withOffset? 0 = some op)
    (hjumps : ∀ j' ∈ u.jumps, j'.site ≠ j.site) (hskips : ∀ f ∈ u.setting.bodies, f.skipSite ≠ some j.site)
    (hcallee : ∀ key, j.target = .func key → u.setting.Declares key) : Wired { u with jumps := u.jumps ++ [j] } where
  loaded := hw.loaded
  names := hw.names
  inside := hw.inside
  labels := hw.labels
  entries := hw.entries
  jumps j' hj' := by
    rcases mem_append.mp hj' with hj' | hj'
    · exact hw.jumps j' hj'
    · rw [mem_singleton.mp hj']
      exact ⟨op, hop, hoff⟩
  callees j' hj' key he := by
    rcases mem_append.mp hj' with hj' | hj'
    · exact hw.callees j' hj' key he
    · rw [mem_singleton.mp hj'] at he
      exact hcallee key he
  apart := pairwise_append.mpr ⟨hw.apart, pairwise_singleton _ _, fun a ha b hb => by
    rw [mem_singleton.mp hb]
    exact hjumps a ha⟩
  bodies f hf := by
    obtain ⟨hgrow, hskip⟩ := hw.bodies f hf
    refine ⟨hgrow, fun i hi => ⟨(hskip i hi).1, fun j' hj' => ?_⟩⟩
    rcases mem_append.mp hj' with hj' | hj'
    · exact (hskip i hi).2 j' hj'
    · rw [mem_singleton.mp hj']
      exact fun he => hskips f hf (he ▸ hi)
  nested := hw.nested

theorem Wired.hook_lt (hw : Wired s) (hf : f ∈ s.setting.bodies) :
    f.growSite < s.ops.length ∧ ∀ i, f.skipSite = some i → i < s.ops.length := by
  obtain ⟨hgrow, hskip⟩ := hw.bodies f hf
  exact ⟨(List.getElem?_eq_some_iff.mp hgrow).1, fun i hi => (List.getElem?_eq_some_iff.mp (hskip i hi).1).1⟩

/-- So does a jump, taken or left open. -/
theorem Wired.leads (hw : Wired s) (hp : Placed s.setting) (hn : Names s.setting σ) {base : List Op}
    (hr : Recodes s base) (hlen : s.ops.length ≤ base.length) (hops : t.ops = base ++ [op]) {rel : Int}
    (hoff : op.withOffset? rel = some op) (hl : Loaded base s.lastLabel (knowns t.stack.items)) {target : JumpTarget}
    (hf : ∀ key sig, .func key sig ∈ t.stack.items → s.setting.Declares key)
    (hleads : Leads base.length target p σ t.setting rel)
    (hcallee : ∀ key, target = .func key → s.setting.Declares key) :
    Wired t ∧ Kept s t := by
  have hrt : Recodes s t.ops := by
    rw [hops]
    exact hr.append _
  have hlt : Loaded t.ops s.lastLabel (knowns t.stack.items) := by
    rw [hops]
    exact hl.append _
  cases hleads with
  | now _ hset => exact hw.recode hp hn hset hrt hlt hf
  | late _ hset =>
    -- the same state without the jump
    have hu : CompileState.setting { t with jumps := σ.jumps } = σ := by
      show ({ t.setting with jumps := σ.jumps } : Setting) = σ
      rw [hset]
    have ht : t = { ({ t with jumps := σ.jumps } : CompileState) with
        jumps := σ.jumps ++ [⟨base.length, target, p⟩] } := by
      have hjumps : t.jumps = _ := congrArg Setting.jumps hset
      dsimp only at hjumps ⊢
      rw [← hjumps]
    obtain ⟨hwu, hku⟩ := hw.recode hp hn hu hrt hlt hf
    have hjumps : σ.jumps = s.jumps := congrArg Setting.jumps hn.rest
    have hbodies : (CompileState.setting { t with jumps := σ.jumps }).bodies = s.setting.bodies := by rw [hu, hn.bodies]
    have hat : t.ops[base.length]? = some op := by rw [hops, getElem?_concat_length]
    rw [ht]
    refine ⟨hwu.late hat hoff (fun j hj => ?_) (fun f hf he => ?_) fun key he => hku.declares key (hcallee key he),
      ⟨hku.alike, hku.stays, fun i op hi hj j hm => ?_, fun j hj => mem_append_left _ (hku.jumps j hj), hku.knows,
        hku.declares⟩⟩
    · have := hw.site_lt (show j ∈ s.jumps from hjumps ▸ hj)
      dsimp only
      omega
    · have := (hw.hook_lt (hbodies ▸ hf)).2 _ he
      dsimp only at this
      omega
    · rcases mem_append.mp hm with hm | hm
      · exact hku.fresh i op hi hj j hm
      · rw [mem_singleton.mp hm]
        have := hi.lt
        dsimp only
        omega

/-! ## Labels -/

theorem knowns_forget (os : List Operand) : knowns (os.map Operand.forget) = [] := by
  refine filterMap_eq_nil_iff.mpr fun o ho => ?_
  obtain ⟨o, -, rfl⟩ := mem_map.mp ho
  cases o <;> rfl

theorem mem_forget_func {sig : FuncType} (h : .func key sig ∈ os.map Operand.forget) : .func key sig ∈ os := by
  obtain ⟨o, ho, he⟩ := mem_map.mp h
  cases o with
  | func k g =>
    cases he
    exact ho
  | _ => cases he

/-- Another key, whose meaning is no function and which is none of a label, means something. -/
theorem Setting.Knows.add {τ : Setting} {sym : Symbol} (hl : ∀ l ∈ σ.labels, l ∈ τ.labels)
    (hs : τ.symbols = σ.symbols.add key sym) (hkey : ∀ l ∈ σ.labels, labelKey l ≠ key)
    (hfunc : ∀ sym, σ.symbols.lookup? key = some sym → sym.kind = .func → sym.value = none) {j : JumpTarget}
    (h : σ.Knows j i) :
    τ.Knows j i := by
  cases j with
  | label l =>
    refine ⟨hl l h.1, ?_⟩
    rw [hs, lookup?_add, if_neg (hkey l h.1)]
    exact h.2
  | func k =>
    obtain ⟨sym, hsym, hk, hv⟩ := h
    refine ⟨sym, ?_, hk, hv⟩
    rw [hs, lookup?_add, if_neg]
    · exact hsym
    · rintro rfl
      rw [hfunc sym hsym hk] at hv
      cases hv

/-- So does a label. -/
theorem Wired.label (hw : Wired s) (hp : Placed s.setting) {l : String} (hnew : l ∉ s.labels)
    (hstack : t.stack = s.stack.forget) (hops : t.ops = s.ops) (hset : t.setting = { s.setting with
      labels := l :: s.labels
      symbols := s.symbols.addLabel l s.ops.length
      lastLabel := some s.ops.length }) :
    Wired t ∧ Kept s t ∧ t.setting.Knows (.label l) s.ops.length := by
  have hlabels : t.labels = l :: s.labels := congrArg Setting.labels hset
  have hjumps : t.jumps = s.jumps := congrArg Setting.jumps hset
  have hlast : t.lastLabel = some s.ops.length := congrArg Setting.lastLabel hset
  have hbodies : t.setting.bodies = s.setting.bodies := by rw [hset]; rfl
  have hsymbols : t.symbols = s.symbols.add (labelKey l) ⟨.label, .code s.ops.length, .unknown, none⟩ :=
    congrArg Setting.symbols hset
  have hkey : ∀ key sym, s.symbols.lookup? key = some sym → sym.kind = .func → key ≠ labelKey l :=
    fun key sym hsym hk he => not_funcKey_labelKey (he ▸ hp.keys key sym hsym hk)
  have hknows : ∀ j i, s.setting.Knows j i → t.setting.Knows j i := by
    refine fun j i => Setting.Knows.add (fun l' hl' => ?_) hsymbols (fun l' hl' he => ?_) fun sym hsym hk => ?_
    · rw [show t.setting.labels = _ from hlabels]
      exact .tail _ hl'
    · exact hnew (labelKey_inj he ▸ hl')
    · exact absurd rfl (hkey _ sym hsym hk)
  have hdeclares : ∀ key, s.setting.Declares key → t.setting.Declares key := by
    rintro key ⟨sym, hsym, hk⟩
    refine ⟨sym, ?_, hk⟩
    rw [show t.setting.symbols = _ from hsymbols, lookup?_add, if_neg (hkey key sym hsym hk)]
    exact hsym
  have hhere : t.setting.Knows (.label l) s.ops.length := by
    refine ⟨?_, ?_⟩
    · rw [show t.setting.labels = _ from hlabels]
      exact .head _
    · rw [show t.setting.symbols = _ from hsymbols, lookup?_add, if_pos rfl]
  have hstays {i : Nat} {op : Op} (h : Stays s i op) : Stays t i op :=
    ⟨by rw [hops]; exact h.1, .inr ⟨_, hlast, h.lt⟩⟩
  refine ⟨⟨?_, fun key sig hm => ?_, fun j hj => ?_, fun l' hl' => ?_, fun key i hk => ?_, fun j hj => ?_,
    fun j hj key he => ?_, ?_, fun f hf => ?_, ?_⟩, ⟨fun i op h => ⟨op, hstays h, rfl⟩, fun i op h hu => ⟨hstays h, ?_⟩,
    fun i op _ h => ?_, fun j hj => ?_, hknows, hdeclares⟩, hhere⟩
  · rw [hstack, OperandStack.forget, knowns_forget]
    exact .nil
  · rw [hstack] at hm
    exact hdeclares key (hw.names key sig (mem_forget_func hm))
  · rw [hlast] at hj
    cases hj
    exact Nat.le_of_eq (congrArg List.length hops.symm)
  · rw [hlabels] at hl'
    rcases mem_cons.mp hl' with rfl | hl'
    · exact ⟨_, _, hhere, hlast, Nat.le_refl _⟩
    · obtain ⟨i, j, hk, hj, hij⟩ := hw.labels l' hl'
      exact ⟨i, _, hknows _ _ hk, hlast, Nat.le_trans hij (hw.inside j hj)⟩
  · rw [hops]
    refine hw.entries key i ?_
    obtain ⟨sym, hsym, hk, hv⟩ := hk
    rw [show t.setting.symbols = _ from hsymbols, lookup?_add] at hsym
    split at hsym
    · cases hsym
      cases hk
    · exact ⟨sym, hsym, hk, hv⟩
  · rw [hops]
    exact hw.jumps j (hjumps ▸ hj)
  · exact hdeclares key (hw.callees j (hjumps ▸ hj) key he)
  · rw [hjumps]
    exact hw.apart
  · rw [hops, hjumps]
    exact hw.bodies f (hbodies ▸ hf)
  · rw [hbodies]
    exact hw.nested
  · rw [Unhooked, hbodies]
    exact hu
  · rw [hjumps]
    exact h
  · rw [hjumps]
    exact hj

/-! ## Bodies -/

theorem lookup?_withParams (key : String) (offset : Int) {params : List (Option String × Ty)}
    (hn : ∀ n ty, (some n, ty) ∈ params → IsWord n) (symbols : SymbolTable) (k : String) :
    (withParams key offset params symbols).lookup? k = symbols.lookup? k ∨
      ∃ n sym, IsWord n ∧ k = qualify key n ∧ sym.kind = .var ∧
        (withParams key offset params symbols).lookup? k = some sym := by
  induction params generalizing offset with
  | nil => exact .inl rfl
  | cons param params ih =>
    obtain ⟨name, ty⟩ := param
    have ih := ih (offset - 1) fun n ty hm => hn n ty (.tail _ hm)
    unfold withParams
    cases name with
    | none => exact ih
    | some n =>
      dsimp only
      split
      · rw [lookup?_add]
        split
        · exact .inr ⟨n, _, hn n ty (.head _), ‹_›, rfl, rfl⟩
        · exact ih
      · exact ih

theorem qualify_funcKey (hk : FuncKey key) : qualify key n = key ++ "/" ++ n :=
  qualify_eq hk.ne_empty n

/-- The parameters and the entry of a function make no other name lead elsewhere. -/
theorem Opens.lookup? {f : FuncType} (ho : Opens key sig p s u f skip) (hn : sig.Named) (k : String) :
    k ≠ key ∧ u.symbols.lookup? k = s.symbols.lookup? k ∨
    (∃ sym, k = key ∧ u.symbols.lookup? k = some sym ∧ sym.kind = .func ∧
      sym.value = some (.func (s.ops.length + skip.toList.length))) ∨
    ∃ n sym, IsWord n ∧ k = qualify key n ∧ sym.kind = .var ∧ u.symbols.lookup? k = some sym := by
  obtain ⟨data, slot, -, hset⟩ := ho.setting
  have hsymbols : u.symbols = _ := congrArg Setting.symbols hset
  rw [hsymbols]
  rcases lookup?_withParams key (-3) (hn.params f.params) (s.symbols.add key ⟨.func, .global slot, f.ty,
    some (.func (s.ops.length + skip.toList.length))⟩) k with he | hparam
  · dsimp only
    rw [he, lookup?_add]
    split
    · exact .inr (.inl ⟨_, ‹_›, rfl, rfl, rfl⟩)
    · exact .inl ⟨‹_›, rfl⟩
  · exact .inr (.inr hparam)

theorem param_key (hk : FuncKey key) (hn : IsWord n) :
    ¬FuncKey (qualify key n) ∧ ∀ l, labelKey l ≠ qualify key n := by
  refine ⟨?_, fun l he => qualify_ne_labelKey (.inl hn) he.symm⟩
  rw [qualify_funcKey hk]
  exact (FuncKey.param hk (.inl hn)).2

theorem Opens.knows {f : FuncType} (ho : Opens key sig p s u f skip)
    (hn : sig.Named) (hkey : FuncKey key) : u.setting.Knows (.func key) (s.ops.length + skip.toList.length) := by
  rcases ho.lookup? hn key with ⟨hne, -⟩ | ⟨sym, -, hs, hk, hv⟩ | ⟨n, -, hword, he, -⟩
  · exact absurd rfl hne
  · exact ⟨sym, hs, hk, hv⟩
  · exact absurd (he ▸ hkey) (param_key hkey hword).1

/-- A function's head keeps every symbol in its place. -/
theorem Opens.placed {f : FuncType} (ho : Opens key sig p s u f skip)
    (hn : sig.Named) (hkey : FuncKey key) (hp : Placed s.setting) : Placed u.setting := by
  obtain ⟨data, slot, -, hset⟩ := ho.setting
  refine ⟨fun _ => ?_, fun g hg => ?_, fun k sym hs hk => ?_⟩
  · rw [hset]
    exact hkey.ne_main
  · rw [hset] at hg
    rcases mem_cons.mp hg with rfl | hg
    · exact hkey
    · exact hp.funcs g hg
  · rcases ho.lookup? hn k with ⟨-, he⟩ | ⟨sym', rfl, -, -, -⟩ | ⟨n, sym', hw, rfl, hvar, hs'⟩
    · exact hp.keys k sym (he ▸ hs) hk
    · exact hkey
    · cases hs.symm.trans hs'
      exact absurd (hvar.symm.trans hk) nofun

/-- **A body begins.** -/
theorem Opens.wired {f : FuncType} (ho : Opens key sig p s u f skip)
    (hn : sig.Named) (hkey : FuncKey key) (hp : Placed s.setting) (hw : Wired s) : Wired u ∧ Kept s u := by
  obtain ⟨data, slot, -, hset⟩ := ho.setting
  have hlabels : u.labels = s.labels := congrArg Setting.labels hset
  have hjumps : u.jumps = s.jumps := congrArg Setting.jumps hset
  have hlast : u.lastLabel = s.lastLabel := congrArg Setting.lastLabel hset
  have hbodies : u.setting.bodies =
      ⟨key, f, 0, s.ops.length + skip.toList.length, skip, s.stack.size, s.marks.length⟩ :: s.setting.bodies := by
    rw [hset]
    rfl
  -- the instructions added: a jump, maybe, and one that makes room
  have hops : u.ops = s.ops ++ ((skip.map fun _ => .jump 0).toList ++ [.grow 0]) := by
    rw [ho.ops, append_assoc]
  have hold {i : Nat} {op : Op} (h : s.ops[i]? = some op) : u.ops[i]? = some op := by
    rw [hops, getElem?_append_left (List.getElem?_eq_some_iff.mp h).1, h]
  have hgrow : u.ops[s.ops.length + skip.toList.length]? = some (.grow 0) := by
    rw [hops, getElem?_append_right (Nat.le_add_right _ _), Nat.add_sub_cancel_left]
    cases skip <;> rfl
  have hskip : ∀ i, skip = some i → i = s.ops.length ∧ u.ops[i]? = some (.jump 0) := by
    rintro i rfl
    have hi : i = s.ops.length := by
      have := ho.skips
      split at this
      · cases this
      · exact Option.some.inj this
    refine ⟨hi, ?_⟩
    rw [hops, hi, getElem?_append_right (Nat.le_refl _), Nat.sub_self]
    rfl
  have hfunc : ∀ sym, s.symbols.lookup? key = some sym → sym.kind = .func → sym.value = none := by
    intro sym hs _
    have := ho.fresh
    rwa [hs, Option.bind_some] at this
  have hknows : ∀ j i, s.setting.Knows j i → u.setting.Knows j i := by
    intro j i h
    cases j with
    | label l =>
      refine ⟨(congrArg (l ∈ ·) hlabels).mpr h.1, ?_⟩
      rcases ho.lookup? hn (labelKey l) with ⟨-, he⟩ | ⟨-, he, -⟩ | ⟨n, -, hword, he, -⟩
      · exact he.trans h.2
      · exact absurd (he ▸ hkey) not_funcKey_labelKey
      · exact absurd he ((param_key hkey hword).2 l)
    | func k =>
      obtain ⟨sym, hsym, hk, hv⟩ := h
      rcases ho.lookup? hn k with ⟨-, he⟩ | ⟨-, rfl, -⟩ | ⟨n, -, hword, rfl, -⟩
      · exact ⟨sym, he.trans hsym, hk, hv⟩
      · rw [hfunc sym hsym hk] at hv
        cases hv
      · exact absurd (hp.keys _ sym hsym hk) (param_key hkey hword).1
  have hdeclares : ∀ k, s.setting.Declares k → u.setting.Declares k := by
    rintro k ⟨sym, hsym, hkind⟩
    rcases ho.lookup? hn k with ⟨-, he⟩ | ⟨sym', -, hs', hkind', -⟩ | ⟨n, -, hword, rfl, -⟩
    · exact ⟨sym, he.trans hsym, hkind⟩
    · exact ⟨sym', hs', hkind'⟩
    · exact absurd (hp.keys _ sym hsym hkind) (param_key hkey hword).1
  have hstays {i : Nat} {op : Op} (h : Stays s i op) : Stays u i op := ⟨hold h.1, by rw [hlast]; exact h.2⟩
  refine ⟨⟨?_, fun k g hm => hdeclares k (hw.names k g (ho.stack ▸ hm)), fun j hj => ?_, fun l hl => ?_,
    fun k i hk => ?_,
    fun j hj => ?_, fun j hj k he => hdeclares k (hw.callees j (hjumps ▸ hj) k he), ?_, fun g hg => ?_, ?_⟩,
    ⟨fun i op h => ⟨op, hstays h, rfl⟩, fun i op h hu => ⟨hstays h, ?_⟩, fun i op _ h => ?_, fun j hj => ?_, hknows,
      hdeclares⟩⟩
  · rw [hops, hlast, ho.stack]
    exact hw.loaded.append _
  · have := hw.inside j (hlast ▸ hj)
    rw [hops, length_append]
    omega
  · obtain ⟨i, j, hk, hj, hij⟩ := hw.labels l (hlabels ▸ hl)
    exact ⟨i, j, hknows _ _ hk, hlast ▸ hj, hij⟩
  · obtain ⟨sym, hsym, hkind, hv⟩ := hk
    rcases ho.lookup? hn k with ⟨-, he⟩ | ⟨sym', -, hs', -, hv'⟩ | ⟨n, sym', -, -, hvar, hs'⟩
    · obtain ⟨n, hop⟩ := hw.entries k i ⟨sym, he ▸ hsym, hkind, hv⟩
      exact ⟨n, hold hop⟩
    · cases hsym.symm.trans hs'
      cases hv.symm.trans hv'
      exact ⟨0, hgrow⟩
    · cases hsym.symm.trans hs'
      exact absurd (hvar.symm.trans hkind) nofun
  · obtain ⟨op, hop, hoff⟩ := hw.jumps j (hjumps ▸ hj)
    exact ⟨op, hold hop, hoff⟩
  · rw [hjumps]
    exact hw.apart
  · rw [hjumps]
    rcases mem_cons.mp (hbodies ▸ hg) with rfl | hg
    · refine ⟨hgrow, fun i hi => ⟨(hskip i hi).2, fun j hj => ?_⟩⟩
      have := hw.site_lt hj
      have := (hskip i hi).1
      omega
    · obtain ⟨hg', hs'⟩ := hw.bodies g hg
      exact ⟨hold hg', fun i hi => ⟨hold (hs' i hi).1, (hs' i hi).2⟩⟩
  · rw [hbodies]
    refine pairwise_cons.mpr ⟨fun g hg => ⟨?_, fun i hi he => ?_⟩, hw.nested⟩
    · have := (hw.hook_lt hg).1
      dsimp only
      omega
    · have := (hw.hook_lt hg).2 i he
      have := (hskip i hi).1
      omega
  · rw [Unhooked, hbodies]
    refine fun g hg => ?_
    rcases mem_cons.mp hg with rfl | hg
    · have := h.lt
      refine ⟨by dsimp only; omega, fun he => ?_⟩
      have := (hskip i he).1
      omega
    · exact hu g hg
  · rw [hjumps]
    exact h
  · rw [hjumps]
    exact hj

theorem Ends.bodies (he : Ends s t f fs) : s.setting.bodies = { f with locals := 0 } :: t.setting.bodies := by
  rw [he.setting]
  show s.funcs.map _ = _ :: fs.map _
  rw [he.funcs, map_cons]

/-- The code where a body ends: what makes room and what jumps over it are filled in. -/
theorem Ends.code (he : Ends s t f fs) (hw : Wired s) : t.ops.length = s.ops.length + 1 ∧
      ∀ i, t.ops[i]? = if f.skipSite = some i then some (.jump (((s.ops.length + 1 : Nat) : Int) - i))
        else if f.growSite = i then some (.grow f.locals) else (s.ops ++ [lastOp f])[i]? := by
  obtain ⟨hgrow, hskip⟩ := hw.bodies { f with locals := 0 } (he.bodies ▸ (.head _))
  have hlt : f.growSite < s.ops.length := (List.getElem?_eq_some_iff.mp hgrow).1
  have hgrown : ∀ i, ((s.ops ++ [lastOp f]).set f.growSite (.grow f.locals))[i]? =
      if f.growSite = i then some (.grow f.locals) else (s.ops ++ [lastOp f])[i]? := by
    intro i
    have hin : f.growSite < (s.ops ++ [lastOp f]).length := by
      rw [length_append]
      omega
    rw [getElem?_set, if_pos hin]
  cases hs : f.skipSite with
  | none =>
    rw [he.here hs]
    refine ⟨by rw [length_set, length_append, length_singleton], fun i => ?_⟩
    rw [if_neg nofun, hgrown]
  | some k =>
    have hk := (hskip k hs).1
    have hklt := (List.getElem?_eq_some_iff.mp hk).1
    have hne : f.growSite ≠ k := by
      rintro rfl
      cases hgrow.symm.trans hk
    rw [he.skips k hs 0 (by rw [hgrown, if_neg hne, getElem?_append_left hklt]; exact hk)]
    refine ⟨by rw [length_set, length_set, length_append, length_singleton], fun i => ?_⟩
    have hkin : k < ((s.ops ++ [lastOp f]).set f.growSite (.grow f.locals)).length := by
      rw [length_set, length_append]
      omega
    rw [getElem?_set, if_pos hkin, hgrown]
    by_cases hki : k = i
    · subst hki
      rw [if_pos rfl, if_pos rfl]
    · rw [if_neg hki, if_neg fun h => hki (Option.some.inj h)]

/-- **A body ends.** -/
theorem Ends.wired (he : Ends s t f fs) (hw : Wired s) :
    Wired t ∧ Kept s t ∧ t.ops[f.growSite]? = some (.grow f.locals) := by
  have hset := he.setting
  have hlabels : t.labels = s.labels := congrArg Setting.labels hset
  have hjumps : t.jumps = s.jumps := congrArg Setting.jumps hset
  have hdeclares : ∀ key, s.setting.Declares key → t.setting.Declares key := by
    rw [hset]
    exact fun _ h => h
  have hlast : t.lastLabel = some (s.ops.length + 1) := congrArg Setting.lastLabel hset
  have hbodies := he.bodies
  have hknows {j : JumpTarget} {i : Nat} : t.setting.Knows j i ↔ s.setting.Knows j i := by
    rw [hset]
    cases j <;> exact Iff.rfl
  obtain ⟨hgrow, hskip⟩ := hw.bodies { f with locals := 0 } (hbodies ▸ (.head _))
  obtain ⟨hlen, hcode⟩ := he.code hw
  have hold {i : Nat} {op : Op} (ho : s.ops[i]? = some op) (hg : f.growSite ≠ i) (hs : f.skipSite ≠ some i) :
      t.ops[i]? = some op := by
    rw [hcode, if_neg hs, if_neg hg, getElem?_append_left (List.getElem?_eq_some_iff.mp ho).1, ho]
  have hfilled : t.ops[f.growSite]? = some (.grow f.locals) := by
    rw [hcode, if_neg, if_pos rfl]
    exact fun hs => nomatch hgrow.symm.trans (hskip _ hs).1
  have hstays {i : Nat} {op : Op} (h : Stays s i op) {op' : Op} (ho : t.ops[i]? = some op') : Stays t i op' :=
    ⟨ho, .inr ⟨_, hlast, Nat.lt_succ_of_lt h.lt⟩⟩
  have hinner := pairwise_cons.mp (hbodies ▸ hw.nested)
  refine ⟨⟨?_, fun k g hm => ?_, fun j hj => ?_, fun l hl => ?_, fun k i hk => ?_, fun j hj => ?_,
    fun j hj k hk => hdeclares k (hw.callees j (hjumps ▸ hj) k hk), ?_, fun g hg => ?_, hinner.2⟩,
    ⟨fun i op h => ?_, fun i op h hu => ?_, fun i op _ h => ?_, fun j hj => ?_, fun j i hk => ?_, hdeclares⟩, hfilled⟩
  · rw [he.stack, OperandStack.forget, knowns_forget]
    exact .nil
  · rw [he.stack] at hm
    exact hdeclares k (hw.names k g (mem_of_mem_drop (mem_forget_func hm)))
  · rw [hlast] at hj
    cases hj
    exact Nat.le_of_eq hlen.symm
  · obtain ⟨i, j, hk, hj, hij⟩ := hw.labels l (hlabels ▸ hl)
    have := hw.inside j hj
    exact ⟨i, _, hknows.mpr hk, hlast, by omega⟩
  · obtain ⟨n, hop⟩ := hw.entries k i (hknows.mp hk)
    by_cases hg : f.growSite = i
    · exact ⟨_, hg ▸ hfilled⟩
    · exact ⟨n, hold hop hg fun hs => nomatch hop.symm.trans (hskip i hs).1⟩
  · obtain ⟨op, hop, hoff⟩ := hw.jumps j (hjumps ▸ hj)
    refine ⟨op, hold hop (fun hg => ?_) fun hs => (hskip _ hs).2 j (hjumps ▸ hj) rfl, hoff⟩
    rw [← hg] at hop
    cases hgrow.symm.trans hop
    cases hoff
  · rw [hjumps]
    exact hw.apart
  · obtain ⟨hg', hs'⟩ := hw.bodies g (hbodies ▸ .tail _ hg)
    obtain ⟨hapart, hapart'⟩ := hinner.1 g hg
    refine ⟨hold hg' hapart fun hs => (nomatch hg'.symm.trans (hskip _ hs).1), fun i hi => ⟨?_, ?_⟩⟩
    · have hjump := (hs' i hi).1
      refine hold hjump (fun hg => ?_) fun hs => hapart' i hs hi
      rw [← hg] at hjump
      cases hgrow.symm.trans hjump
    · rw [hjumps]
      exact (hs' i hi).2
  · by_cases hs : f.skipSite = some i
    · refine ⟨_, hstays h (by rw [hcode, if_pos hs]), ?_⟩
      cases h.1.symm.trans (hskip i hs).1
      rfl
    · by_cases hg : f.growSite = i
      · subst hg
        refine ⟨_, hstays h hfilled, ?_⟩
        cases h.1.symm.trans hgrow
        rfl
      · exact ⟨op, hstays h (hold h.1 hg hs), rfl⟩
  · have hf := hu { f with locals := 0 } (hbodies ▸ (.head _))
    exact ⟨hstays h (hold h.1 hf.1 hf.2), fun g hg => hu g (hbodies ▸ .tail _ hg)⟩
  · rw [hjumps]
    exact h
  · rw [hjumps]
    exact hj
  · exact hknows.mpr hk

/-! ## Turns -/

theorem Loaded.tail {ops : List Op} {last : Option Nat} {o : Operand}
    (h : Loaded ops last (knowns (o :: os))) : Loaded ops last (knowns os) :=
  h.sublist ((sublist_cons_self _ _).filterMap _)

/-- **What one step keeps.** -/
theorem Turn.wired {act : Act} (h : Turn act p s t) (hp : Placed s.setting)
    (hkey : ∀ key sig, act = .body key sig → FuncKey key) (hw : Wired s) : Wired t ∧ Kept s t := by
  cases h with
  | move _ hm => exact hm.wired hw hp
  | call hc =>
    rcases hc with hc | ⟨hm, -⟩
    · obtain @⟨s, t, σ, key, sig, os, rs, rest, base, ops, rel, hs, -, ht, -, -, hq, hn, hf, hops, -, -, -,
        hleads⟩ := hc
      have hl := hw.loaded
      rw [hs, cons_append] at hl
      have hl := hl.tail
      rw [knowns_append] at hl
      have hbase := Recodes.floats (hl.sublist (sublist_append_left _ _)) hf
      have hdeclared : s.setting.Declares key := hw.names key sig (by rw [hs]; exact .head _)
      refine hw.leads hp hn (hbase.append ops) ?_ hops rfl ?_ (fun k g hm => ?_) hleads fun k he => ?_
      · rw [length_append, hf.length]
        omega
      · rw [ht, knowns_append, knowns_of_quiet hq]
        exact ((hl.sublist (sublist_append_right _ _)).floats hf).append ops
      · rw [ht] at hm
        rcases mem_append.mp hm with hr | hr
        · exact nomatch (all_eq_true.mp hq _ hr : isQuiet (.func k g) = true)
        · exact hw.names k g (by rw [hs]; exact mem_append_right _ hr)
      · cases he
        exact hdeclared
    · exact hm.wired hw hp
  | goto hstack hops hleads =>
    refine hw.leads hp .refl .refl (Nat.le_refl _) hops rfl ?_ ?_ hleads nofun <;> rw [hstack]
    · exact hw.loaded
    · exact hw.names
  | test htest hs hops hleads =>
    have hl := hw.loaded
    rw [hs] at hl
    refine hw.leads hp .refl .refl (Nat.le_refl _) hops (by cases htest <;> rfl) hl.tail (fun key sig hm => ?_) hleads
      nofun
    exact hw.names key sig (by rw [hs]; exact .tail _ hm)
  | next _ hstack hn hn' _ _ hops hleads =>
    refine hw.leads hp (hn.trans hn') .refl (Nat.le_refl _) hops rfl ?_ ?_ hleads nofun <;> rw [hstack]
    · exact hw.loaded
    · exact hw.names
  | label _ hnew hstack hops hset =>
    obtain ⟨hwt, hk, -⟩ := hw.label hp hnew hstack hops hset
    exact ⟨hwt, hk⟩
  | enter | leave | mark => exact hw.recode hp .refl rfl .refl hw.loaded hw.names
  | @discard _ _ _ os _ _ _ hs _ hset hops =>
    have hl := hw.loaded
    rw [hs, knowns_append] at hl
    refine hw.recode hp .refl hset ?_ ?_ fun key sig hm => hw.names key sig (by rw [hs]; exact mem_append_right _ hm)
    · rw [hops]
      exact Recodes.refl.append _
    · rw [hops]
      exact (hl.sublist (sublist_append_right _ _)).append _
  | @body _ _ _ _ _ ops _ _ u _ hn ho hc _ _ _ =>
    have hkey := hkey _ _ rfl
    obtain ⟨hwu, hku⟩ := ho.wired hn hkey hp hw
    obtain ⟨base, hf, hops⟩ := hc.code
    rw [hf.eq_of_nil] at hops
    have ⟨hwt, hkt⟩ : Wired t ∧ Kept u t := by
      refine hwu.recode (ho.placed hn hkey hp) hc.names rfl ?_ ?_ ?_
      · rw [hops]
        exact Recodes.refl.append _
      · rw [hops, hc.stack]
        exact hwu.loaded.append _
      · rw [hc.stack]
        exact hwu.names
    exact ⟨hwt, hku.trans hkt⟩
  | close _ he =>
    obtain ⟨hwt, hk, -⟩ := he.wired hw
    exact ⟨hwt, hk⟩

end Compile

end Goblet
