import Goblet.Proofs.Session.Linking
import Goblet.Proofs.Statement.Levels

/-!
# Numbers of blocks

Every block of a session gets a number of its own, and nothing is declared in a block whose number has not been given
yet (`Numbered`). The blocks that a chunk enters have numbers below the next one (`WholePhrase.enters`), one step of the
compiler declares names only in the innermost scope (`Compile.Turn.early`), and so evaluating a chunk keeps this
(`Session.Reachable.numbered`).
-/

namespace Goblet

open List SymbolTable

open SymbolTable (qualify qualify_eq qualify_inj qualify_ne_word)

/-! ## Scopes that are still to come -/

/-- The scope of a block with a number from `n` on. -/
def Late (n : Nat) (scope : String) : Prop := ∃ P k, n ≤ k ∧ scope = freshIn P "b" k

namespace Late

variable {n : Nat} {scope y : String} {key : String}

theorem mono {n' : Nat} (h : Late n' scope) (hn : n ≤ n') : Late n scope := by
  obtain ⟨P, k, hk, he⟩ := h
  exact ⟨P, k, Nat.le_trans hn hk, he⟩

theorem ne_empty (h : Late n scope) : scope ≠ "" := by
  obtain ⟨P, k, -, rfl⟩ := h
  exact freshIn_ne_empty

theorem ne_main (h : Late n scope) : scope ≠ Place.mainScope := by
  obtain ⟨P, k, -, rfl⟩ := h
  exact Nested.freshIn_ne_main P "b" k

theorem not_of_lt {P : String} {k : Nat} (hk : k < n) : ¬Late n (freshIn P "b" k) := by
  rintro ⟨Q, j, hj, he⟩
  have := (freshIn_block_inj he).2
  omega

theorem not_of_funcKey (hk : FuncKey key) : ¬Late n key := by
  rintro ⟨P, k, -, rfl⟩
  exact FuncKey.not_block (fresh_freshText "b" k) hk

/-- A later scope's key is no earlier one. -/
theorem key_ne {scope' name : String} (h : Late n scope) (hy : VarName y) (hs : ¬Late n scope')
    (hn : '/' ∉ name.toList) :
    qualify scope y ≠ qualify scope' name := by
  rw [qualify_eq h.ne_empty]
  unfold qualify
  split
  · rintro rfl
    exact hn (by simp [String.toList_append])
  · intro he
    exact hs ((last_part_inj he hy.noSlash hn).1 ▸ h)

theorem key_ne_func (h : Late n scope) (hy : VarName y) (hk : FuncKey key) : qualify scope y ≠ key := by
  rw [qualify_eq h.ne_empty]
  rintro rfl
  rcases hk with hk | ⟨w, hw, he⟩
  · exact LitKey.ne_var hy hk
  · exact h.ne_main (last_part_inj he hy.noSlash (hw.notMem (by decide))).1

theorem key_ne_member {path name : String} (h : Late n scope) (hy : VarName y) (hn : IsWord name) :
    qualify scope y ≠ path ++ "." ++ name := by
  rw [qualify_eq h.ne_empty]
  intro he
  have hdot : ∀ c ∈ y.toList.reverse, (c != '/' && c != '.') = true := by
    intro c hc
    have hs := hy.noSlash
    have hd : '.' ∉ y.toList := hy.elim (fun h => h.notMem (by decide)) fun h => h.notMem (by decide) (by decide)
      (by decide)
    rw [mem_reverse] at hc
    simp only [Bool.and_eq_true, bne_iff_ne, ne_eq]
    exact ⟨fun he => hs (he ▸ hc), fun he => hd (he ▸ hc)⟩
  have hword : ∀ c ∈ name.toList.reverse, (c != '/' && c != '.') = true := by
    intro c hc
    rw [mem_reverse] at hc
    have hw := hn.wordChar hc
    simp only [Bool.and_eq_true, bne_iff_ne, ne_eq]
    constructor <;> (rintro rfl; exact absurd hw (by decide))
  -- what stands before the last part tells the two apart
  have hl := congrArg (fun s : String => (s.toList.reverse.dropWhile fun c => c != '/' && c != '.').head?) he
  simp only [String.toList_append, reverse_append, dropWhile_append_of_pos hdot,
    dropWhile_append_of_pos hword] at hl
  cases hl

end Late

/-! ## Symbol tables -/

/-- Nothing is declared in blocks with numbers from `n` on. -/
def Numbered (n : Nat) (t : SymbolTable) : Prop :=
  ∀ scope y, Late n scope → VarName y → t.lookup? (qualify scope y) = none

namespace Numbered

variable {n : Nat} {t : SymbolTable} {key : String} {sym : Symbol}

theorem mono {n' : Nat} (h : Numbered n t) (hn : n ≤ n') : Numbered n' t := fun scope y hs => h scope y (hs.mono hn)

theorem add (h : Numbered n t) (hk : ∀ scope y, Late n scope → VarName y → qualify scope y ≠ key) :
    Numbered n (t.add key sym) := by
  intro scope y hs hy
  rw [lookup?_add, if_neg (hk scope y hs hy)]
  exact h scope y hs hy

theorem modify (h : Numbered n t) (f : Symbol → Symbol) : Numbered n (t.modify key f) := by
  intro scope y hs hy
  rw [lookup?_modify, h scope y hs hy]
  split <;> rfl

end Numbered

/-! ## Blocks of a chunk -/

/-- Steps enter no block with a number from `n` on. -/
def Enters (n : Nat) (s : List Step) : Prop := ∀ x ∈ s, ∀ scope, x.val = .enter scope → ¬Late n scope

namespace Enters

variable {n n' : Nat} {s t : List Step}

theorem nil : Enters n [] := nofun

theorem mono (h : Enters n s) (hn : n ≤ n') : Enters n' s := fun x hx scope he hl => h x hx scope he (hl.mono hn)

theorem append (hs : Enters n s) (ht : Enters n t) : Enters n (s ++ t) := fun x hx =>
  (mem_append.mp hx).elim (hs x) (ht x)

theorem cons {x : Step} (hx : ∀ scope, x.val = .enter scope → ¬Late n scope) (hs : Enters n s) : Enters n (x :: s) := by
  intro y hy
  rcases mem_cons.mp hy with rfl | hy
  · exact hx
  · exact hs y hy

theorem stores {k : Nat} (h : Stores k s) : Enters n s := by
  induction h with
  | none => exact .nil
  | define _ _ ih | assign _ _ ih => exact .cons nofun (.cons nofun ih)
  | declare _ _ ih => exact .cons nofun ih

end Enters

section Phrases

variable {rules : Rules} {heads : String → Prop} {lo hi : Nat} {s : List Step}

/-- A phrase enters no scope numbered past its end. -/
theorem Phrase.enters {fs : List Frame} {role : Role} {links : List Link}
    (h : Phrase rules heads fs role lo hi links s) : Enters hi s := by
  induction h with
  | wide _ hb _ ih => exact ih.mono hb
  | atom | typeRef | writtenGoto | writtenLabel | goto | label | next => exact .cons nofun .nil
  | none | empty => exact .nil
  | more _ _ _ ih ih' => exact (ih.mono (Nat.le_max_left _ _)).append (ih'.mono (Nat.le_max_right _ _))
  | apply hact _ _ _ ih =>
    refine ih.append (.cons (fun scope he => ?_) .nil)
    subst he
    cases hact
  | logic hact _ _ h' ih ih' =>
    refine ((ih.mono h'.le).append (.cons (fun scope he => ?_) ih')).append (.cons nofun .nil)
    dsimp only at he
    subst he
    rcases hact with hact | hact <;> cases hact
  | literal _ _ _ _ ih => exact .append (.cons nofun ih) (.cons nofun (.cons nofun .nil))
  | seq _ h' ih ih' => exact (ih.mono h'.le).append ih'
  | value _ ih => exact .append (.cons nofun ih) (.cons nofun .nil)
  | call _ _ ih => exact .append (.cons nofun ih) (.cons nofun (.cons nofun .nil))
  | store ht _ _ ih => exact ih.append (.stores ht)
  | storeCall ht _ _ ih => exact ih.append (.cons nofun (.stores ht))
  | settle hact _ ih =>
    refine ih.append (.cons (fun scope he => ?_) .nil)
    subst he
    cases hact
  | setField _ _ ih => exact .append (.cons nofun ih) (.cons nofun .nil)
  | declare hact =>
    refine .cons (fun scope he => ?_) .nil
    dsimp only at he
    subst he
    exact hact.elim
  | @block fs d k hi scope links p q s hscope h ih =>
    refine .append (.cons (fun sc he => ?_) ih) (.cons nofun .nil)
    cases he
    subst hscope
    exact Late.not_of_lt h.le
  | func _ _ _ _ ih => exact .append (.cons nofun ih) (.cons nofun .nil)
  | test hact _ ih =>
    refine ih.append (.cons (fun scope he => ?_) .nil)
    subst he
    rcases hact with hact | hact <;> cases hact
  | range _ _ h' ih ih' =>
    refine ((ih.mono h'.le).append (.cons ?_ ih')).append (.cons nofun .nil)
    exact nofun

theorem WholePhrase.enters (h : WholePhrase rules heads lo hi s) : lo ≤ hi ∧ Enters hi s := by
  cases h with
  | done _ hs => exact ⟨hs.le, hs.enters⟩
  | value _ hs ht => exact ⟨Nat.le_trans hs.le ht.le, (hs.enters.mono ht.le).append ht.enters⟩
  | call _ hs _ ht =>
    exact ⟨Nat.le_trans hs.le ht.le, (hs.enters.mono ht.le).append (ht.enters.append (.cons nofun .nil))⟩

end Phrases

/-! ## Steps of the compiler -/

namespace Compile

/-- The scopes that are open have numbers below `n`, and nothing is declared in blocks from `n` on. -/
structure Early (n : Nat) (σ : Setting) : Prop where
  scopes : ∀ scope ∈ σ.scopes, ¬Late n scope
  names : Numbered n σ.symbols

variable {n : Nat} {σ τ : Setting} {r : Registry} {s t : CompileState} {p : Pos} {key : String}

theorem Early.scope (h : Early n σ) : ¬Late n σ.scope := by
  unfold Setting.scope
  cases hs : σ.scopes with
  | nil => exact fun hl => hl.ne_main rfl
  | cons sc scs => exact h.scopes sc (hs ▸ (.head _))

theorem Early.add (h : Early n σ) {name : String} (hn : '/' ∉ name.toList) (sym : Symbol) :
    Numbered n (σ.symbols.add (σ.key name) sym) :=
  h.names.add fun _ _ hs hy => hs.key_ne hy h.scope hn

/-- Declaring keeps later scopes unused. -/
theorem Naming.early (h : Naming σ τ) (hσ : Early n σ) : Early n τ := by
  cases h with
  | data | text | store | blank => exact ⟨hσ.scopes, hσ.names⟩
  | load | retype => exact ⟨hσ.scopes, hσ.names.modify _⟩
  | member hn => exact ⟨hσ.scopes, hσ.names.add fun _ _ hs hy => hs.key_ne_member hy hn⟩
  | global _ hn | «local» _ hn => exact ⟨hσ.scopes, hσ.add hn.noSlash _⟩
  | result _ hn => exact ⟨hσ.scopes, hσ.add (hn.notMem (by decide)) _⟩
  | meaning hn => exact ⟨hσ.scopes, hσ.add hn.noSlash _⟩

theorem Names.early (h : Names σ τ) (hσ : Early n σ) : Early n τ := by
  induction h with
  | refl => exact hσ
  | tail _ hn ih => exact hn.early ih

theorem Leads.early {site : Nat} {target : JumpTarget} {rel : Int} (h : Leads site target p σ τ rel) (hσ : Early n σ) :
    Early n τ := by
  cases h with
  | now _ ht => exact ht ▸ hσ
  | late _ ht => exact ht ▸ ⟨hσ.scopes, hσ.names⟩

theorem Move.early {i j : Nat} (h : Move i j s t) (hs : Early n s.setting) : Early n t.setting := by
  induction h with
  | emits _ _ hn => exact hn.early hs
  | names _ _ _ ht => exact ht ▸ ⟨hs.scopes, hs.names⟩
  | keeps => exact hs
  | loads _ hn | folds _ _ _ hn => exact hn.early hs
  | shortens _ _ _ _ hset | addresses _ _ _ _ hset => exact hset ▸ hs
  | @beneath n m s t u o _ _ hu _ ih =>
    refine ih ?_
    rw [hu]
    exact ⟨hs.scopes, hs.names⟩

theorem numbered_withParams (hk : FuncKey key) {symbols : SymbolTable} (h : Numbered n symbols) :
    ∀ (params : List (Option String × Ty)) (offset : Int), (∀ name ty, (some name, ty) ∈ params → IsWord name) →
    Numbered n (withParams key offset params symbols)
  | [], _, _ => h
  | (none, t) :: rest, offset, hn =>
    numbered_withParams hk h rest _ fun name ty hm => hn name ty (.tail _ hm)
  | (some name, t) :: rest, offset, hn => by
    have ih := numbered_withParams hk h rest (offset - 1)
      fun name ty hm => hn name ty (.tail _ hm)
    have hw := hn name t (.head _)
    unfold withParams
    dsimp only
    split
    · exact ih.add fun _ _ hs hy => hs.key_ne hy (Late.not_of_funcKey hk) (hw.notMem (by decide))
    · exact ih

theorem Opens.early {sig : Signature} {f : FuncType} {skip : Option Nat} (h : Opens key sig p s t f skip)
    (hn : sig.Named) (hk : FuncKey key) (hs : Early n s.setting) : Early n t.setting := by
  obtain ⟨data, slot, -, hset⟩ := h.setting
  rw [hset]
  refine ⟨fun sc hsc => ?_, ?_⟩
  · rcases mem_cons.mp hsc with rfl | hsc
    · exact Late.not_of_funcKey hk
    · exact hs.scopes sc hsc
  · exact numbered_withParams hk (hs.names.add fun _ _ hl hy => hl.key_ne_func hy hk) _ _ (hn.params f.params)

/-- **One step declares nothing in blocks that are still to come.** -/
theorem Turn.early {act : Act} (h : Turn act p s t) (hkey : ∀ key sig, act = .body key sig → FuncKey key)
    (henter : ∀ scope, act = .enter scope → ¬Late n scope) (hs : Early n s.setting) : Early n t.setting := by
  cases h with
  | move _ hm => exact hm.early hs
  | call hc =>
    rcases hc with hc | ⟨hm, -⟩
    · obtain @⟨s, t, σ, key, sig, os, rs, rest, base, ops, rel, -, -, -, -, -, -, hn, -, -, -, -, -, hleads⟩ := hc
      exact hleads.early (hn.early hs)
    · exact hm.early hs
  | goto _ _ hleads | test _ _ _ hleads => exact hleads.early hs
  | next _ _ hn hn' _ _ _ hleads => exact hleads.early (hn'.early (hn.early hs))
  | label _ _ _ _ hset =>
    rw [hset]
    exact ⟨hs.scopes, hs.names.add fun _ _ _ hy => qualify_ne_labelKey hy⟩
  | @enter scope =>
    refine ⟨fun sc hsc => ?_, hs.names⟩
    rcases mem_cons.mp hsc with rfl | hsc
    · exact henter _ rfl
    · exact hs.scopes sc hsc
  | leave => exact ⟨fun sc hsc => hs.scopes sc (mem_of_mem_drop hsc), hs.names⟩
  | mark => exact ⟨hs.scopes, hs.names⟩
  | discard _ _ _ hset => exact hset ▸ ⟨hs.scopes, hs.names⟩
  | body hn ho hc => exact hc.names.early (ho.early hn (hkey _ _ rfl) hs)
  | close _ he =>
    rw [he.setting]
    exact ⟨fun sc hsc => hs.scopes sc (mem_of_mem_drop hsc), hs.names⟩

theorem addSymbol_early {sym : Symbol} (h : addSymbol key sym s = .ok () t) (hs : Early n s.setting)
    (hk : ∀ scope y, Late n scope → VarName y → qualify scope y ≠ key) : Early n t.setting := by
  have ht := addSymbol_ok h
  subst ht
  exact ⟨hs.scopes, hs.names.add hk⟩

theorem Declares.early (h : Declares s t) (hs : Early n s.setting) : Early n t.setting := by
  induction h with
  | refl => exact hs
  | trans _ _ ih ih' => exact ih' (ih hs)
  | codes hc => exact hc.names.early hs
  | func h hk => exact addSymbol_early h hs fun _ _ hl hy => hl.key_ne_func hy hk
  | name h hsc hn =>
    refine addSymbol_early h hs fun _ _ hl hy => hl.key_ne hy ?_ hn
    rcases hsc with rfl | rfl
    · exact hs.scope
    · exact fun hm => hm.ne_main rfl

variable {heads : String → Prop} {program : Program} {symbols : SymbolTable}

/-- So does a whole compilation. -/
theorem Run.early {c d : List Step × CompileState} (h : Run r c d) (hc : Going heads program symbols c)
    (he : Enters n c.1) (hs : Early n c.2.setting) : Early n d.2.setting := by
  induction h using Relation.ReflTransGen.head_induction_on with
  | refl => exact hs
  | @head c e hadv _ ih =>
    obtain ⟨l, s⟩ := c
    obtain ⟨l', t⟩ := e
    obtain ⟨⟨act, p, hnext, hturn, hkey⟩, hgoing, -⟩ := hc.next hadv
    have hrest : Enters n (⟨act, p⟩ :: l') := by
      rcases hnext with hl | ⟨-, x, q, hl⟩
      · exact hl ▸ he
      · exact fun y hy => he y (hl ▸ .tail _ hy)
    exact ih hgoing (fun x hx => hrest x (.tail _ hx)) (hturn.early hkey (hrest _ (.head _)) hs)

/-- **A chunk declares nothing in blocks that are still to come.** -/
theorem Opening.numbered {lo hi : Nat} {head rest : List Step} {store : Store}
    (ho : Opening program symbols store lo hi head rest) (hn : Numbered lo symbols)
    (h : chunk r (head ++ rest) (start symbols program store) = .ok () t) :
    Numbered hi t.symbols := by
  obtain ⟨hle, henters⟩ := ho.shaped.phrase.enters
  obtain ⟨s, w, hhead, hrun, hfin⟩ := ho.runs h
  obtain ⟨hgoing, -, -⟩ := ho.going hhead
  have hstart : Early hi (start symbols program store).setting := by
    refine ⟨fun scope hs => ?_, hn.mono hle⟩
    rw [mem_singleton.mp hs]
    exact fun hl => hl.ne_main rfl
  have hw := hrun.early hgoing henters ((steps_declares (decl_ordered ho.shaped.decl) hhead).early hstart)
  obtain ⟨-, hset, -, -⟩ := finish_patches (hrun.going hgoing).1.wired.apart hfin
  rw [show t.symbols = w.symbols from congrArg Setting.symbols hset]
  exact hw.names

end Compile

/-! ## Sessions -/

namespace Session

/-- The names of the functions that are known everywhere are no paths. -/
def PlainHosts (r : Registry) : Prop := ∀ b ∈ r.everywhere, '/' ∉ b.name.toList

theorem new_numbered {r : Registry} (hr : PlainHosts r) (l : Limits) : Numbered 0 (new r l).symbols := by
  have types : ∀ x ∈ basicTypes, '/' ∉ x.1.toList := by decide
  have constants : ∀ x ∈ basicConstants, '/' ∉ x.1.toList := by decide
  have builtins : ∀ b ∈ Builtin.all, '/' ∉ b.name.toList := by decide
  have hplain : ∀ k sym, (predeclared r).lookup? k = some sym → '/' ∉ k.toList := by
    refine (foldl_add (t := empty) nodup_nil
      (nofun) fun e he => ?_).2
    simp only [mem_append, mem_map, mem_reverse, or_assoc] at he
    rcases he with ⟨x, hx, rfl⟩ | ⟨x, hx, rfl⟩ | ⟨b, hb, rfl⟩ | ⟨b, hb, rfl⟩
    · exact types x hx
    · exact constants x hx
    · exact builtins b hb
    · exact hr b hb
  intro scope y hs _
  cases hl : (new r l).symbols.lookup? (qualify scope y) with
  | none => rfl
  | some sym =>
    refine absurd ?_ (hplain _ sym hl)
    rw [qualify_eq hs.ne_empty]
    simp [String.toList_append]

/-- After an evaluation the numbers ahead are still unused. -/
theorem eval_numbered {s : Session} (hs : s.InOrder) (he : s.HasEntries) (hn : Numbered s.labels s.symbols) (fuel : Nat)
    (source : String) : Numbered (s.eval fuel source).session.labels (s.eval fuel source).session.symbols := by
  unfold eval
  split
  · rename_i e n hshape
    refine hn.mono ?_
    unfold shape at hshape
    split at hshape
    · cases hshape
      exact Nat.le_refl _
    · rename_i toks hscan
      have hle : s.labels ≤ (Stream.ofTokens s.labels toks).2 := Stream.labels_le_ofTokens (Token.named_of_scan hscan)
      split at hshape
      · rename_i hof
        cases hshape
        rwa [hof] at hle
      · cases hshape
  · rename_i stream n hshape
    obtain ⟨head, rest, rfl, hshaped⟩ := shape_shaped hshape
    have hs' : { s with labels := n }.InOrder := ⟨hs.mem, hs.loaded, hs.entry, hs.tidy⟩
    dsimp only
    split
    · rename_i e t ht
      rw [load_error hs' hshaped ht]
      exact hn.mono hshaped.phrase.enters.1
    · rename_i t ht
      obtain ⟨c, rfl, hr⟩ := chunk_of_load ht
      exact Compile.Opening.numbered ⟨hshaped, ⟨_, hs.start⟩, he⟩ hn hr

theorem eval_registry (s : Session) (fuel : Nat) (source : String) :
    (s.eval fuel source).session.registry = s.registry := by
  have hload : ∀ (s : Session) stream, (s.load stream).2.registry = s.registry := by
    intro s stream
    unfold load
    dsimp only
    split <;> rfl
  unfold eval
  split
  · rfl
  · rename_i stream n hshape
    have := hload { s with labels := n } stream
    dsimp only at this ⊢
    split
    · rename_i ht
      rwa [ht] at this
    · rename_i ht
      rwa [ht] at this

/-- **Nothing is declared in blocks that are still to come**, after any evaluations. -/
theorem Reachable.numbered {s : Session} (h : s.Reachable) (hr : PlainHosts s.registry) :
    Numbered s.labels s.symbols := by
  obtain ⟨registry, limits, h⟩ := h
  induction h with
  | now => exact new_numbered hr limits
  | @eval t fuel source h ih =>
    have ht : t.Reachable := ⟨registry, limits, h⟩
    rw [eval_registry] at hr
    exact eval_numbered ht.inOrder ht.hasEntries (ih hr) fuel source

end Session

end Goblet
