import Goblet.Proofs.Compile.Run

/-!
# Linked chunks

What a chunk that compiles has in its code (`Linked`): every jump leads to where the steps behind its label begin, every
call of a function by name to the instruction that opens its body, and every jump over a body just behind it. A chunk
whose steps compile and that still fails has a jump to a label that is missing (`finish_error`), and a jump that is
written finds its label in the same function only.
-/

namespace Goblet

open List

/-- The label that a step leads to. -/
def Act.leadsTo? : Act → Option String
  | .goto l | .jumpTrue l | .jumpFalse l | .jumpSetTrue l | .jumpSetFalse l | .next l .. => some l
  | _ => none

namespace Compile

variable {r : Registry} {heads : String → Prop} {program : Program} {symbols : SymbolTable} {s t u v w : CompileState}
  {σ : Setting} {p : Pos} {act : Act} {l : String} {op : Op} {rel : Int} {i site : Nat}
variable {target : JumpTarget} {key : String}

/-- The instruction of a jump over so many instructions. -/
inductive Jumps (rel : Int) : Act → Op → Prop
  | goto {l : String} : Jumps rel (.goto l) (.jump rel)
  | test {act : Act} {l : String} {op : Int → Op} : Tests act l op → Jumps rel act (op rel)
  | next {l : String} {key value : Option String} {define : Bool} {k v : Option Slot} :
      Jumps rel (.next l key value define) (.next k v rel)

theorem Jumps.withOffset? (h : Jumps rel act op) : op.withOffset? rel = some op := by
  cases h with
  | goto => rfl
  | test ht => cases ht <;> rfl
  | next => rfl

theorem Jumps.again {rel' : Int} {op' : Op} (h : Jumps rel act op) (hop : op.withOffset? rel' = some op') :
    Jumps rel' act op' := by
  cases h with
  | goto =>
    cases hop
    exact .goto
  | test ht => cases ht <;> cases hop <;> exact .test (by constructor)
  | next =>
    cases hop
    exact .next

/-! ## What turns do -/

theorem Turn.leads (h : Turn act p s t) (hact : act.leadsTo? = some l) :
    ∃ rel op σ, Jumps rel act op ∧ t.ops = s.ops ++ [op] ∧ Names s.setting σ ∧
      Leads s.ops.length (.label l) p σ t.setting rel := by
  cases h with
  | move hm _ =>
    have hnone : act.moves? = none := by cases act <;> first | rfl | cases hact
    cases hm.symm.trans hnone
  | goto _ hops hleads =>
    cases hact
    exact ⟨_, _, _, .goto, hops, .refl, hleads⟩
  | @test _ l' _ _ _ _ _ _ ht _ hops hleads =>
    obtain rfl : l' = l := by cases ht <;> exact Option.some.inj hact
    exact ⟨_, _, _, .test ht, hops, .refl, hleads⟩
  | next _ _ hn hn' _ _ hops hleads =>
    cases hact
    exact ⟨_, _, _, .next, hops, hn.trans hn', hleads⟩
  | _ => cases hact

/-- What a turn does to all but code and operands. -/
inductive Sets (act : Act) (p : Pos) (s t : CompileState) : Prop
  | names {σ : Setting} {scopes : List String} {marks : List Nat} {jumps : List OpenJump} : Names s.setting σ →
      t.setting = { σ with scopes := scopes, marks := marks, jumps := jumps } → Sets act p s t
  | label {l : String} : act = .label l → closes l s.funcs = false → l ∉ s.labels → t.stack = s.stack.forget →
      t.ops = s.ops →
      t.setting = { s.setting with
        labels := l :: s.labels
        symbols := s.symbols.addLabel l s.ops.length
        lastLabel := some s.ops.length } → Sets act p s t
  | body {key : String} {sig : Signature} {f : FuncType} {skip : Option Nat} {u : CompileState} : act = .body key sig →
      sig.Named → Opens key sig p s u f skip → Names u.setting t.setting → Sets act p s t
  | close {f : OpenFunc} {fs : List OpenFunc} : act = .label (f.key ++ "_end") → Ends s t f fs → Sets act p s t

theorem Sets.of_leads (hn : Names s.setting σ) (h : Leads site target p σ t.setting rel) : Sets act p s t := by
  cases h with
  | now _ hset | late _ hset => exact .names hn hset

/-- A step places at most one label. -/
theorem Turn.sets (h : Turn act p s t) (hw : Wired s) : Sets act p s t := by
  cases h with
  | move _ hm => exact .names (hm.recodes hw.loaded hw.inside).1 rfl
  | call hc =>
    rcases hc with ⟨_, _, _, _, _, _, hn, _, _, _, _, _, hleads⟩ | ⟨hm, -⟩
    · exact .of_leads hn hleads
    · exact .names (hm.recodes hw.loaded hw.inside).1 rfl
  | goto _ _ hleads | test _ _ _ hleads => exact .of_leads .refl hleads
  | next _ _ hn hn' _ _ _ hleads => exact .of_leads (hn.trans hn') hleads
  | label hcloses hnew hstack hops hset => exact .label rfl hcloses hnew hstack hops hset
  | enter | leave | mark => exact .names .refl rfl
  | discard _ _ _ hset _ => exact .names .refl hset
  | body hn ho hc _ _ _ => exact .body rfl hn ho hc.names
  | close hl he => exact .close (by rw [hl]) he

theorem Sets.labels (h : Sets act p s t) (hp : Placed s.setting) (hw : Wired s) : t.labels = s.labels ∨
    ∃ l, act = .label l ∧ closes l s.funcs = false ∧ t.labels = l :: s.labels ∧ t.ops = s.ops ∧
      t.lastLabel = some s.ops.length ∧ t.setting.Knows (.label l) s.ops.length := by
  cases h with
  | names hn hset => exact .inl ((congrArg Setting.labels hset).trans (congrArg Setting.labels hn.rest))
  | label hact hcloses hnew hstack hops hset =>
    exact .inr ⟨_, hact, hcloses, congrArg Setting.labels hset, hops, congrArg Setting.lastLabel hset,
      (hw.label hp hnew hstack hops hset).2.2⟩
  | body _ _ ho hn =>
    obtain ⟨_, _, _, hset⟩ := ho.setting
    exact .inl ((congrArg Setting.labels hn.rest).trans (congrArg Setting.labels hset))
  | close _ he => exact .inl (congrArg Setting.labels he.setting)

theorem Sets.entries (h : Sets act p s t) (hk : t.setting.Knows (.func key) i) : s.setting.Knows (.func key) i ∨
    ∃ sig f, act = .body key sig ∧ t.setting.bodies = f :: s.setting.bodies ∧ f.key = key ∧ f.growSite = i := by
  cases h with
  | names hn hset =>
    rw [hset] at hk
    exact .inl (hn.knows_func hk)
  | label _ _ _ _ _ hset =>
    rw [hset] at hk
    obtain ⟨sym, hs, hkind, hv⟩ := hk
    have hs : (s.symbols.add _ _).lookup? key = some sym := hs
    rw [SymbolTable.lookup?_add] at hs
    split at hs
    · cases hs
      cases hkind
    · exact .inl ⟨sym, hs, hkind, hv⟩
  | @body key' sig f skip u hact hnamed ho hn =>
    obtain ⟨sym, hs, hkind, hv⟩ := hn.knows_func hk
    rcases ho.lookup? hnamed key with ⟨-, he⟩ | ⟨sym', rfl, hs', -, hv'⟩ | ⟨_, sym', -, -, hvar, hs'⟩
    · exact .inl ⟨sym, he ▸ hs, hkind, hv⟩
    · cases hs.symm.trans hs'
      cases hv.symm.trans hv'
      obtain ⟨_, _, _, hset⟩ := ho.setting
      refine .inr ⟨sig, ⟨key, f, 0, s.ops.length + skip.toList.length, skip, s.stack.size, s.marks.length⟩, hact, ?_,
        rfl, rfl⟩
      rw [hn.bodies, hset]
      rfl
    · cases hs.symm.trans hs'
      exact absurd (hvar.symm.trans hkind) nofun
  | close _ he =>
    rw [he.setting] at hk
    exact .inl hk

theorem Opens.bodies {sig : Signature} {f : FuncType} {skip : Option Nat} {τ : Setting}
    (h : Opens key sig p s u f skip) (hn : Names u.setting τ) : ∃ f, τ.bodies = f :: s.setting.bodies ∧ f.key = key ∧
      f.growSite = s.ops.length + f.skipSite.toList.length ∧ ∀ i, f.skipSite = some i → i = s.ops.length := by
  obtain ⟨_, _, _, hset⟩ := h.setting
  refine ⟨⟨key, f, 0, s.ops.length + skip.toList.length, skip, s.stack.size, s.marks.length⟩, ?_, rfl, rfl,
    fun i hi => ?_⟩
  · rw [hn.bodies, hset]
    rfl
  · have hskips := h.skips
    dsimp only at hi
    rw [hi] at hskips
    split at hskips
    · cases hskips
    · exact Option.some.inj hskips

theorem Sets.bodies (h : Sets act p s t) : t.setting.bodies = s.setting.bodies ∨
    (∃ f, t.setting.bodies = f :: s.setting.bodies) ∨ ∃ f fs, act = .label (f.key ++ "_end") ∧ Ends s t f fs := by
  cases h with
  | names hn hset =>
    refine .inl ?_
    rw [hset]
    exact hn.bodies
  | label _ _ _ _ _ hset =>
    refine .inl ?_
    rw [hset]
    rfl
  | body _ _ ho hn =>
    obtain ⟨f, hf, -⟩ := ho.bodies hn
    exact .inr (.inl ⟨f, hf⟩)
  | close hact he => exact .inr (.inr ⟨_, _, hact, he⟩)

/-! ## What the end does -/

theorem Wired.knows (hw : Wired s) (hd : ∀ key, target = .func key → s.setting.Declares key)
    (h : s.setting.target? target = some i) : s.setting.Knows target i := by
  cases target with
  | label l =>
    have hl : l ∈ s.labels := by
      simp only [Setting.target?] at h
      split at h
      · exact contains_iff_mem.mp ‹_›
      · cases h
    obtain ⟨i', _, hk, -, -⟩ := hw.labels l hl
    cases h.symm.trans hk.target?
    exact hk
  | func key =>
    obtain ⟨sym, hs, hkind⟩ := hd key rfl
    simp only [Setting.target?, SymbolTable.entry?, hs, Option.bind_some] at h
    split at h
    · cases h
      exact ⟨sym, hs, hkind, ‹_›⟩
    · cases h

/-- Closing the jumps changes only offsets. -/
theorem finish_alike (hw : Wired w) (h : finish w = .ok () t) (ho : w.ops[i]? = some op) :
    ∃ op', t.ops[i]? = some op' ∧ op'.unlinked = op.unlinked := by
  obtain ⟨-, -, helse, hsites⟩ := finish_patches hw.apart h
  by_cases hi : ∃ j ∈ w.jumps, i = j.site
  · obtain ⟨j, hj, rfl⟩ := hi
    obtain ⟨k, -, hpatch⟩ := hsites j hj
    obtain ⟨op', hop', hoff⟩ := hw.jumps j hj
    cases ho.symm.trans hop'
    obtain ⟨op'', hoff'⟩ : ∃ op'', op.withOffset? ((k : Int) - j.site) = some op'' := by
      cases op <;> first | exact ⟨_, rfl⟩ | cases hoff
    exact ⟨op'', hpatch op op'' ho hoff', Op.unlinked_withOffset? hoff'⟩
  · exact ⟨op, (helse i fun j hj he => hi ⟨j, hj, he⟩).trans ho, rfl⟩

/-- **A jump has its distance in the end.** -/
theorem Leads.linked (h : Leads site target p σ v.setting rel) (hn : Names u.setting σ)
    (hu : Wired u) (hv : Wired v) (hk : Kept v w) (hw : Wired w) (hsite : u.ops.length ≤ site)
    (hop : v.ops[site]? = some op) (hoff : op.withOffset? rel = some op)
    (hd : ∀ key, target = .func key → v.setting.Declares key) (hfin : finish w = .ok () t) :
    ∃ i op', w.setting.Knows target i ∧ op.withOffset? ((i : Int) - site) = some op' ∧ t.ops[site]? = some op' := by
  obtain ⟨-, -, helse, hsites⟩ := finish_patches hw.apart hfin
  have hstays : Stays v site op := ⟨hop, .inl (Op.isSoft_withOffset? hoff)⟩
  have hbodies : v.setting.bodies = u.setting.bodies := by
    cases h with
    | now _ hset => rw [hset, hn.bodies]
    | late _ hset => rw [hset]; exact hn.bodies
  have hfree : Unhooked v site := by
    intro f hf
    obtain ⟨hgrow, hskip⟩ := hu.hook_lt (hbodies ▸ hf)
    exact ⟨by omega, fun hs => by have := hskip site hs; omega⟩
  have hjumps : σ.jumps = u.jumps := congrArg Setting.jumps hn.rest
  cases h with
  | @now i htarget hset =>
    have hknows := hv.knows hd (hset ▸ htarget)
    have hfresh : ∀ j ∈ v.jumps, j.site ≠ site := by
      intro j hj
      have hsame : v.jumps = u.jumps := (congrArg Setting.jumps hset).trans hjumps
      have := hu.site_lt (hsame ▸ hj)
      omega
    refine ⟨i, op, hk.knows _ _ hknows, hoff, ?_⟩
    rw [helse site fun j hj he => hk.fresh site op hstays hfresh j hj he.symm]
    exact (hk.stays site op hstays hfree).1.1
  | late _ hset =>
    have hmem : ⟨site, target, p⟩ ∈ v.jumps := by
      rw [show v.jumps = _ from congrArg Setting.jumps hset]
      exact mem_append_right _ (.head _)
    obtain ⟨i, htarget, hpatch⟩ := hsites _ (hk.jumps _ hmem)
    obtain ⟨op', hoff'⟩ : ∃ op', op.withOffset? ((i : Int) - site) = some op' := by
      cases op <;> first | exact ⟨_, rfl⟩ | cases hoff
    refine ⟨i, op', hw.knows (fun key he => hk.declares key (hd key he)) htarget, hoff', ?_⟩
    exact hpatch op op' (hk.stays site op hstays hfree).1.1 hoff'

/-! ## What runs pass -/

variable {c d : List Step × CompileState}

/-- A label placed was passed on the way. -/
theorem Run.passed_label (h : Run r c d) (hc : Going heads program symbols c) (hl : l ∈ d.2.labels) : l ∈ c.2.labels ∨
    ∃ q post u v, Passes r c (.label l) q post u v ∧ closes l u.funcs = false ∧ v.ops = u.ops ∧
      v.lastLabel = some u.ops.length ∧ v.setting.Knows (.label l) u.ops.length := by
  induction h with
  | refl => exact .inl hl
  | @tail d e hrun hadv ih =>
    have hd := (Run.going hrun hc).1
    obtain ⟨⟨act, p, hnext, hturn, -⟩, -, -⟩ := hd.next hadv
    obtain ⟨g, hat, -⟩ := hd.ground
    rcases (hturn.sets hd.wired).labels hat.sound.placed hd.wired with he | ⟨l', rfl, hcloses, he, hops, hlast, hknows⟩
    · exact ih (he ▸ hl)
    · rw [he] at hl
      rcases mem_cons.mp hl with rfl | hl
      · obtain ⟨steps, x⟩ := d
        cases hnext.eq nofun nofun
        exact .inr ⟨p, e.1, x, e.2, ⟨hrun, hadv⟩, hcloses, hops, hlast, hknows⟩
      · exact ih hl

/-- The body of a function with an entry was passed, or the function was there. -/
theorem Run.passed_body (h : Run r c d) (hc : Going heads program symbols c)
    (hk : d.2.setting.Knows (.func key) i) : c.2.setting.Knows (.func key) i ∨
    ∃ sig q post u v f, Passes r c (.body key sig) q post u v ∧ v.setting.bodies = f :: u.setting.bodies ∧ f.key = key ∧
      f.growSite = i := by
  induction h with
  | refl => exact .inl hk
  | @tail d e hrun hadv ih =>
    have hd := (Run.going hrun hc).1
    obtain ⟨⟨act, p, hnext, hturn, -⟩, -, -⟩ := hd.next hadv
    rcases (hturn.sets hd.wired).entries hk with hk | ⟨sig, f, rfl, hbodies, hkey, hgrow⟩
    · exact ih hk
    · obtain ⟨steps, x⟩ := d
      cases hnext.eq nofun nofun
      exact .inr ⟨sig, p, e.1, x, e.2, f, ⟨hrun, hadv⟩, hbodies, hkey, hgrow⟩

theorem Run.passed_close (h : Run r c d) (hc : Going heads program symbols c) {f : OpenFunc} (outer : List OpenFunc)
    {fs : List OpenFunc} (hbodies : c.2.setting.bodies = outer ++ f :: fs) (hend : d.2.setting.bodies = []) :
    ∃ q post x y f' fs', Passes r c (.label (f.key ++ "_end")) q post x y ∧ Ends x y f' fs' ∧
    { f' with locals := 0 } = f ∧
      x.setting.bodies = f :: fs := by
  induction h using Relation.ReflTransGen.head_induction_on generalizing outer with
  | refl =>
    rw [hbodies] at hend
    exact absurd hend (append_ne_nil_of_right_ne_nil _ nofun)
  | @head c e hadv hrun ih =>
    obtain ⟨⟨act, p, hnext, hturn, -⟩, he, -⟩ := hc.next hadv
    have later (outer' : List OpenFunc) (hb : e.2.setting.bodies = outer' ++ f :: fs) :
        ∃ q post x y f' fs', Passes r c (.label (f.key ++ "_end")) q post x y ∧ Ends x y f' fs' ∧
          { f' with locals := 0 } = f ∧ x.setting.bodies = f :: fs := by
      obtain ⟨q, post, x, y, f', fs', hpass, hrest⟩ := ih he outer' hb
      exact ⟨q, post, x, y, f', fs', ⟨.head hadv hpass.before, hpass.step⟩, hrest⟩
    rcases (hturn.sets hc.wired).bodies with hsame | ⟨g, hopen⟩ | ⟨g, gs, rfl, hends⟩
    · exact later outer (hsame.trans hbodies)
    · exact later (g :: outer) (by rw [hopen, hbodies]; rfl)
    · have hhead := hends.bodies
      rw [hbodies] at hhead
      cases outer with
      | nil =>
        obtain ⟨rfl, hfs⟩ := List.cons.inj hhead
        obtain ⟨steps, x⟩ := c
        cases hnext.eq nofun nofun
        exact ⟨p, e.1, x, e.2, g, gs, ⟨.refl, hadv⟩, hends, rfl, hbodies⟩
      | cons o outer => exact later outer (List.cons.inj hhead).2.symm

/-! ## Labels that are written -/

end Compile

/-- The function whose body is open innermost. -/
def CompileState.within? (s : CompileState) : Option String := s.funcs.head?.map (·.key)

namespace Compile

variable {r : Registry} {heads : String → Prop} {program : Program} {symbols : SymbolTable} {s t u v w : CompileState}
  {p : Pos} {act : Act} {l : String} {op : Op} {i : Nat} {c : List Step × CompileState} {post : List Step}
  {lo hi : Nat}
  {store : Store}
  {scope word : String}
  {head rest : List Step}
variable {e : CompileError}

theorem Sound.within? {g : Ground} (h : Sound g s) : s.within? = Frame.funcOf g.frames := by
  rw [← Frame.head?_funcs, ← h.keys, head?_map]
  rfl

theorem Sound.within?_eq {g g' : Ground} (h : Sound g s) (h' : Sound g' t)
    (he : Frame.owner g.frames = Frame.owner g'.frames) :
    s.within? = t.within? := by
  have hfunc {g : Ground} {s : CompileState} (h : Sound g s) {k : String} (hk : Frame.funcOf g.frames = some k) :
      k ≠ Place.mainScope := by
    rw [← h.within?] at hk
    obtain ⟨f, hf, rfl⟩ := Option.map_eq_some_iff.mp hk
    exact (h.placed.funcs f (mem_of_head? hf)).ne_main
  rw [h.within?, h'.within?]
  unfold Frame.owner at he
  cases hs : Frame.funcOf g.frames with
  | none =>
    cases ht : Frame.funcOf g'.frames with
    | none => rfl
    | some k =>
      rw [hs, ht] at he
      exact absurd he.symm (hfunc h' ht)
  | some k =>
    cases ht : Frame.funcOf g'.frames with
    | none =>
      rw [hs, ht] at he
      exact absurd he (hfunc h hs)
    | some k' =>
      rw [hs, ht] at he
      exact congrArg some he

/-- A jump that is written leads to a label in the same function. -/
theorem within?_of_goto (hu : Going heads program symbols (⟨.goto l, p⟩ :: post, u)) {q : Pos} {post' : List Step}
    (hv : Going heads program symbols (⟨.label l, q⟩ :: post', v)) (hcloses : closes l v.funcs = false)
    (hword : IsWord word) (hl : l = scope ++ "/" ++ word) : v.within? = u.within? := by
  obtain ⟨g, hat, hwalks, -⟩ := hu.ground
  obtain ⟨g', hat', hwalks', -⟩ := hv.ground
  have howns : Frame.Owns g.frames l := by
    have hwalk := hwalks.walk
    generalize g.frames = frames at hwalk
    cases hwalk with
    | plain hact => exact hact
  have howns' : Frame.Owns g'.frames l := by
    have hwalk := hwalks'.walk
    have hkeys := hat'.sound.keys
    generalize g'.frames = frames at hwalk hkeys
    cases hwalk with
    | plain hact => exact hact.elim
    | @close frames _ key =>
      -- such a label would close the function
      cases hf : v.funcs with
      | nil => rw [hf] at hkeys; cases hkeys
      | cons f fs =>
        rw [hf] at hkeys
        rw [hf, closes, ← (List.cons.inj hkeys).1, beq_self_eq_true] at hcloses
        cases hcloses
    | label _ howns => exact howns
  exact hat'.sound.within?_eq hat.sound ((howns' scope word hword hl).symm.trans (howns scope word hword hl))

/-! ## The end of a chunk -/

theorem Going.closed (h : Going heads program symbols ([], w)) : w.funcs = [] := by
  obtain ⟨g, hat, hwalks, -⟩ := h.ground
  have hkeys := hat.sound.keys
  have hwalk := hwalks.walk
  generalize g.frames = frames at hkeys hwalk
  cases hwalk
  exact map_eq_nil_iff.mp hkeys

/-- Code up to the last label is there in the end, but for what is filled in. -/
theorem Kept.take (hk : Kept v w) (hw : Wired w) (hfin : finish w = .ok () t)
    (hlast : v.lastLabel = some v.ops.length) :
    (t.ops.take v.ops.length).map Op.unlinked = v.ops.map Op.unlinked := by
  refine ext_getElem? fun i => ?_
  rw [getElem?_map, getElem?_map]
  by_cases hi : i < v.ops.length
  · have ho : v.ops[i]? = some v.ops[i] := getElem?_eq_getElem hi
    obtain ⟨op', ⟨ho', -⟩, he'⟩ := hk.alike i _ ⟨ho, .inr ⟨_, hlast, hi⟩⟩
    obtain ⟨op'', ho'', he''⟩ := finish_alike hw hfin ho'
    rw [getElem?_take_of_lt hi, ho, ho'', Option.map_some, Option.map_some, he'', he']
  · rw [getElem?_eq_none (Nat.not_lt.mp hi), getElem?_eq_none (by rw [length_take]; omega)]

theorem Op.eq_grow (h : op.unlinked = .grow 0) : ∃ n, op = .grow n := by
  cases op <;> first | exact ⟨_, rfl⟩ | cases h

theorem finish_grow (hw : Wired w) (hfin : finish w = .ok () t) {n : Nat} (ho : w.ops[i]? = some (.grow n)) :
    ∃ n, t.ops[i]? = some (.grow n) := by
  obtain ⟨op, hop, he⟩ := finish_alike hw hfin ho
  obtain ⟨n, rfl⟩ := Op.eq_grow he
  exact ⟨n, hop⟩

theorem Ends.skip {x y : CompileState} {f : OpenFunc} {fs : List OpenFunc} (he : Ends x y f fs) (hx : Wired x)
    (hk : Kept y w) (hw : Wired w) (hfin : finish w = .ok () t) (hi : f.skipSite = some i) :
    t.ops[i]? = some (.jump ((y.ops.length : Int) - i)) := by
  obtain ⟨hlen, hcode⟩ := he.code hx
  have hbodies := he.bodies
  have hjumps : y.jumps = x.jumps := congrArg Setting.jumps he.setting
  obtain ⟨-, hskip⟩ := hx.bodies { f with locals := 0 } (hbodies ▸ (.head _))
  have hop : y.ops[i]? = some (.jump ((y.ops.length : Int) - i)) := by rw [hcode, if_pos hi, hlen]
  have hstays : Stays y i _ := ⟨hop, .inl rfl⟩
  have hfree : Unhooked y i := by
    intro g hg
    have hnested := hx.nested
    rw [hbodies] at hnested
    refine ⟨fun hgi => ?_, ((pairwise_cons.mp hnested).1 g hg).2 i hi⟩
    have hgrow := (hx.bodies g (hbodies ▸ .tail _ hg)).1
    rw [hgi] at hgrow
    cases hgrow.symm.trans (hskip i hi).1
  have hfresh := hk.fresh i _ hstays fun j hj => (hskip i hi).2 j (hjumps ▸ hj)
  obtain ⟨-, -, helse, -⟩ := finish_patches hw.apart hfin
  rw [helse i fun j hj he => hfresh j hj he.symm]
  exact (hk.stays i _ hstays hfree).1.1

/-- What a chunk that compiles has in its code. -/
structure Linked (r : Registry) (c : List Step × CompileState) (first : Nat) (t : CompileState) : Prop where
  /-- A jump leads to where the steps behind its label begin: what was compiled before them is the code before that. A
  label that is written is one of the same function. -/
  jumps : ∀ {act l p post u v}, Passes r c act p post u v → act.leadsTo? = some l → ∃ q post' u' v' rel op,
    Passes r c (.label l) q post' u' v' ∧ v.ops.length = u.ops.length + 1 ∧ Jumps rel act op ∧
    t.ops[u.ops.length]? = some op ∧ (u.ops.length : Int) + rel = u'.ops.length ∧
    (t.ops.take u'.ops.length).map Op.unlinked = u'.ops.map Op.unlinked ∧ first ≤ u'.ops.length ∧
    u'.ops.length ≤ t.ops.length ∧
    ∀ label scope word, act = .goto label → IsWord word → label = scope ++ "/" ++ word → u'.within? = u.within?
  /-- A call of a function by name leads to the instruction that makes room for its variables, in this chunk or one
  before. -/
  calls : ∀ {argc spread p post u v key sig}, Passes r c (.call argc spread) p post u v →
    u.stack.items.head? = some (.func key sig) → ∃ site rel entry n,
    v.ops.length = site + 1 ∧ t.ops[site]? = some (.call rel) ∧ (site : Int) + rel = (entry : Nat) ∧
    t.ops[entry]? = some (.grow n) ∧ (c.2.setting.Knows (.func key) entry ∨ ∃ sig q post' u' v' f,
      Passes r c (.body key sig) q post' u' v' ∧ v'.setting.bodies = f :: u'.setting.bodies ∧ f.growSite = entry)
  /-- A body begins with that instruction and ends where its own end is compiled. A jump over it leads there. -/
  bodies : ∀ {key sig p post u v}, Passes r c (.body key sig) p post u v → ∃ f q post' x y n,
    v.setting.bodies = f :: u.setting.bodies ∧ f.growSite = u.ops.length + f.skipSite.toList.length ∧
    Passes r (post, v) (.label (key ++ "_end")) q post' x y ∧ x.setting.bodies = v.setting.bodies ∧
    t.ops[f.growSite]? = some (.grow n) ∧ (t.ops.take y.ops.length).map Op.unlinked = y.ops.map Op.unlinked ∧
    ∀ i, f.skipSite = some i → i = u.ops.length ∧ ∃ rel, t.ops[i]? = some (.jump rel) ∧ (i : Int) + rel = y.ops.length

/-- **Every jump of a chunk that compiles leads where it should.** -/
theorem linked_of_finish (hc : Going heads program symbols c) (hl : c.2.labels = []) (hw : Run r c ([], w))
    (hfin : finish w = .ok () t) : Linked r c program.code.size t where
  jumps := by
    intro act l p post u v hpass hact
    obtain ⟨hwu, hwv, hkept, -⟩ := hpass.kept hc hw
    have hend := (hw.going hc).1
    obtain ⟨rel0, op0, σ, hjumps, hops, hn, hleads⟩ := (hpass.turn hc).leads hact
    have hat : v.ops[u.ops.length]? = some op0 := by rw [hops, getElem?_concat_length]
    obtain ⟨i, op, hknows, hoff, hop⟩ :=
      hleads.linked hn hwu hwv hkept hend.wired (Nat.le_refl _) hat hjumps.withOffset? nofun hfin
    obtain ⟨q, post', u', v', hpass', hcloses, hops', hlast, hknows'⟩ :=
      (hw.passed_label hc hknows.1).resolve_left (by rw [hl]; nofun)
    obtain ⟨-, -, hkept', -⟩ := hpass'.kept hc hw
    obtain rfl := hknows.unique (hkept'.knows _ _ hknows')
    have htake := hkept'.take hend.wired hfin (by rw [hops']; exact hlast)
    rw [hops'] at htake
    have hle : u'.ops.length ≤ t.ops.length := by
      have := congrArg List.length htake
      rw [length_map, length_map, length_take] at this
      omega
    refine ⟨q, post', u', v', _, op, hpass', ?_, hjumps.again hoff, hop, by omega, htake, ?_, hle, ?_⟩
    · rw [hops, length_append, length_singleton]
    · obtain ⟨g, hat, -, rfl, -⟩ := (hpass'.before.going hc).1.ground
      rw [length_ops]
      exact hat.sound.program.codeSize
    · rintro label scope word rfl hword rfl
      cases hact
      exact within?_of_goto (hpass.before.going hc).1 (hpass'.before.going hc).1 hcloses hword rfl
  calls := by
    intro argc spread p post u v key sig hpass hhead
    obtain ⟨hwu, hwv, hkept, -⟩ := hpass.kept hc hw
    have hend := (hw.going hc).1
    have hkuv := ((hpass.before.going hc).1.next hpass.step).2.2
    cases hpass.turn hc with
    | move hm => cases hm
    | test ht => cases ht
    | call hcall =>
      rcases hcall with hcall | ⟨-, hno⟩
      · obtain @⟨u, v, σ, key', sig', os, rs, rest, base, ops, rel0, hs, -, -, -, -, -, hn, hf, hops, -, -, -,
          hleads⟩ := hcall
        rw [hs] at hhead
        cases hhead
        have hdeclares : v.setting.Declares key := hkuv.declares key (hwu.names key sig (by rw [hs]; exact .head _))
        have hat : v.ops[(base ++ ops).length]? = some (.call rel0) := by rw [hops, getElem?_concat_length]
        have hle : u.ops.length ≤ (base ++ ops).length := by
          rw [length_append, hf.length]
          omega
        obtain ⟨i, op, hknows, hoff, hop⟩ := hleads.linked hn hwu hwv hkept hend.wired hle hat rfl
          (fun k he => by cases he; exact hdeclares) hfin
        cases hoff
        obtain ⟨n, hgrow⟩ := hend.wired.entries key i hknows
        obtain ⟨n, hgrow⟩ := finish_grow hend.wired hfin hgrow
        refine ⟨_, _, i, n, ?_, hop, by omega, hgrow, ?_⟩
        · rw [hops, length_append, length_singleton]
        · refine (hw.passed_body hc hknows).imp_right ?_
          rintro ⟨sig', q, post', u', v', f, hpass', hbodies, -, hentry⟩
          exact ⟨sig', q, post', u', v', f, hpass', hbodies, hentry⟩
      · exact absurd hhead (hno key sig)
  bodies := by
    intro key sig p post u v hpass
    have hend := (hw.going hc).1
    have hv := (hpass.behind.going hc).1
    have hrest := hw.rest hpass.behind
    obtain ⟨f, hbodies, hkey, hgrow, hskip⟩ : ∃ f, v.setting.bodies = f :: u.setting.bodies ∧ f.key = key ∧
        f.growSite = u.ops.length + f.skipSite.toList.length ∧ ∀ i, f.skipSite = some i → i = u.ops.length := by
      cases hpass.turn hc with
      | move hm => cases hm
      | test ht => cases ht
      | body _ ho hcodes _ _ _ => exact ho.bodies hcodes.names
    have hclosed : w.setting.bodies = [] := by
      rw [Setting.bodies, show w.setting.funcs = [] from hend.closed]
      rfl
    obtain ⟨q, post', x, y, f', fs', hpass', hends, rfl, hx⟩ := hrest.passed_close hv [] hbodies hclosed
    have hwx := (hpass'.before.going hv).1.wired
    obtain ⟨-, hwy, hkept, -⟩ := hpass'.kept hv hrest
    obtain ⟨hlen, -⟩ := hends.code hwx
    obtain ⟨op, ⟨hop, -⟩, he⟩ := hkept.alike f'.growSite (.grow f'.locals) ⟨(hends.wired hwx).2.2, .inl rfl⟩
    obtain ⟨n, rfl⟩ := Op.eq_grow he
    obtain ⟨n, hgrown⟩ := finish_grow hend.wired hfin hop
    refine ⟨_, q, post', x, y, n, hbodies, hgrow, hkey ▸ hpass', hx.trans hbodies.symm, hgrown, ?_, fun i hi =>
      ⟨hskip i hi, _,
      hends.skip hwx hkept hend.wired hfin hi, by omega⟩⟩
    refine hkept.take hend.wired hfin ?_
    rw [hlen]
    exact congrArg Setting.lastLabel hends.setting

/-! ## Chunks that fail in the end -/

theorem destination_error {j : OpenJump} (h : destination j s = .error e t) :
    s.setting.target? j.target = none ∧ ((∃ name, j.target = .label name ∧
      e.cause = .unresolvedLabel (shortName name)) ∨
      ∃ key, j.target = .func key) := by
  obtain ⟨site, target, pos⟩ := j
  cases target with
  | label name =>
    have hl : labelAt? name s = .ok (s.setting.target? (.label name)) s := rfl
    replace h := (seq_eq hl).symm.trans h
    cases ht : s.setting.target? (.label name) with
    | none =>
      rw [ht] at h
      cases h
      exact ⟨rfl, .inl ⟨name, rfl, rfl⟩⟩
    | some i =>
      rw [ht] at h
      cases h
  | func key =>
    have he : entryOf? key s = .ok (s.setting.target? (.func key)) s := by
      have hl : Compile.lookup key s = .ok (s.symbols.lookup? key) s := rfl
      rw [entryOf?, seq_eq hl]
      have hs : s.setting.symbols = s.symbols := rfl
      simp only [Setting.target?, SymbolTable.entry?, hs]
      rcases (s.symbols.lookup? key).bind (·.value) with _ | v
      · rfl
      · cases v <;> rfl
    replace h := (seq_eq he).symm.trans h
    cases ht : s.setting.target? (.func key) with
    | none => exact ⟨rfl, .inr ⟨key, rfl⟩⟩
    | some i =>
      rw [ht] at h
      cases h

/-- Only a jump with no target fails. -/
theorem closeJumps_error {js : List OpenJump} (h : closeJumps js s = .error e t) :
    ∃ j ∈ js, s.setting.target? j.target = none ∧
    ((∃ name, j.target = .label name ∧ e.cause = .unresolvedLabel (shortName name)) ∨
      ∃ key, j.target = .func key) := by
  induction js generalizing s with
  | nil => cases h
  | cons j js ih =>
    cases hd : destination j s with
    | error e' u =>
      have h' : closeJumps (j :: js) s = .error e' u := seq_error hd
      cases h.symm.trans h'
      exact ⟨j, (.head _), destination_error hd⟩
    | ok i u =>
      obtain ⟨-, rfl⟩ := target_of_destination hd
      have h' : (do patch j.site i; closeJumps js) s = .error e t := (seq_eq hd).symm.trans h
      cases hp : patch j.site i s with
      | error e' u => cases hp
      | ok _ u =>
        obtain ⟨-, hset, -⟩ := patch_ok hp
        obtain ⟨j', hj', hrest⟩ := ih ((seq_eq hp).symm.trans h')
        exact ⟨j', .tail _ hj', hset ▸ hrest⟩

/-- **A chunk that fails in the end lacks a label.** No body is open then, and every function that is called has one. -/
theorem finish_error (hc : Going heads program symbols ([], w)) (h : finish w = .error e t) :
    ∃ name, e.cause = .unresolvedLabel (shortName name) ∧ name ∉ w.labels := by
  have hfinish : finish w = closeJumps w.jumps { w with jumps := [] } := by
    unfold finish
    rw [get_seq, hc.closed]
    rfl
  obtain ⟨j, hj, htarget, hcause⟩ := closeJumps_error (hfinish.symm.trans h)
  have htarget : w.setting.target? j.target = none := htarget
  rcases hcause with ⟨name, hname, hcause⟩ | ⟨key, hkey⟩
  · refine ⟨name, hcause, fun hl => ?_⟩
    obtain ⟨i, _, hk, -⟩ := hc.wired.labels name hl
    rw [hname, hk.target?] at htarget
    cases htarget
  · obtain ⟨sym, hs, hkind⟩ := hc.wired.callees j hj key hkey
    obtain ⟨g, hat, hwalks, -⟩ := hc.ground
    rcases (hat.sound.tidy.func key sym hs hkind).2 with ⟨-, howed⟩ | ⟨i, _, hv, -⟩
    · obtain ⟨_, _, hm⟩ := hwalks.owed key howed
      cases hm
    · have hk : w.setting.Knows (.func key) i := ⟨sym, hs, hkind, hv⟩
      rw [hkey, hk.target?] at htarget
      cases htarget

/-! ## Chunks -/

/-- The functions of a chunk that compiles begin with the instruction that makes room, and so do those there were. -/
theorem entered_of_finish (hw : Wired w) (hfin : finish w = .ok () t) : Entered t.program t.symbols := by
  intro key sym i hs hkind hv
  obtain ⟨-, hset, -, -⟩ := finish_patches hw.apart hfin
  rw [show t.symbols = w.symbols from congrArg Setting.symbols hset] at hs
  obtain ⟨n, hgrow⟩ := hw.entries key i ⟨sym, hs, hkind, hv⟩
  obtain ⟨n, hgrow⟩ := finish_grow hw hfin hgrow
  rw [CompileState.ops, getElem?_map, Array.getElem?_toList] at hgrow
  exact ⟨n, hgrow⟩

/-- **A chunk that compiles is linked.** -/
theorem Opening.linked
    (ho : Opening program symbols store lo hi head rest)
    (h : chunk r (head ++ rest) (start symbols program store) = .ok () t) :
    Entered t.program t.symbols ∧ ∃ s, steps r (ordered head) (start symbols program store) = .ok () s ∧
      Linked r (rest, s) program.code.size t := by
  obtain ⟨s, w, hhead, hrun, hfin⟩ := ho.runs h
  obtain ⟨hgoing, -, hlabels⟩ := ho.going hhead
  exact ⟨entered_of_finish (hrun.going hgoing).1.wired hfin, s, hhead, linked_of_finish hgoing hlabels hrun hfin⟩

/-- **A jump to a label that is not in its function is an error**, once all else compiles. -/
theorem Opening.unresolved
    (ho : Opening program symbols store lo hi head rest)
    (hhead : steps r (ordered head) (start symbols program store) = .ok () s) (hrest : steps r rest s = .ok () w)
    (hword : IsWord word) (hpass : Passes r (rest, s) (.goto (scope ++ "/" ++ word)) p post u v)
    (hno : ∀ {q post' u' v'}, Passes r (rest, s) (.label (scope ++ "/" ++ word)) q post' u' v' →
    u'.within? ≠ u.within?) :
    ∃ e t name, chunk r (head ++ rest) (start symbols program store) = .error e t ∧
    e.cause = .unresolvedLabel name := by
  obtain ⟨hgoing, -, hlabels⟩ := ho.going hhead
  have hrun := run_of_steps hrest
  have hchunk : chunk r (head ++ rest) (start symbols program store) = finish w := by
    rw [chunk_of_shaped ho.shaped, seq_eq hhead, seq_eq hrest]
  cases hfin : finish w with
  | ok _ t =>
    obtain ⟨q, post', u', v', _, _, hpass', -, -, -, -, -, -, -, hsame⟩ :=
      (linked_of_finish hgoing hlabels hrun hfin).jumps hpass rfl
    exact absurd (hsame _ _ _ rfl hword rfl) (hno hpass')
  | error e t =>
    obtain ⟨name, hcause, -⟩ := finish_error (hrun.going hgoing).1 hfin
    exact ⟨e, t, shortName name, hchunk.trans hfin, hcause⟩

end Compile

end Goblet
