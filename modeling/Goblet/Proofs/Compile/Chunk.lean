import Goblet.Proofs.Compile.Declaration
import Goblet.Proofs.Stream.Chunk

/-!
# Chunks are compiled above the ground

`advance` carries out the first of some steps. What it keeps (`advance_walks`) a stream that walks keeps, with the
ground moving into and out of blocks and functions (`steps_walks`). So compiling a chunk leaves what there was in place,
however it ends, and when it succeeds the symbols are in order again (`chunk_grounded`).
-/

namespace Goblet

open List Triple

theorem Shape.Heads.cons {s : Step} {l : List Step} {k : String} (h : Shape.Heads (s :: l) k) :
    (∃ sig, s.val = .header k sig) ∨ Shape.Heads l k := by
  obtain ⟨sig, p, hm⟩ := h
  rcases mem_cons.mp hm with rfl | hm
  · exact .inl ⟨sig, rfl⟩
  · exact .inr ⟨sig, p, hm⟩

theorem Walk.ne_store {heads : String → Prop} {frames : List Frame} {rest : List Step} (h : Walk heads frames rest)
    (q : Pos) (tl : List Step) : rest ≠ ⟨.define, q⟩ :: tl ∧ rest ≠ ⟨.assign, q⟩ :: tl := by
  constructor
  · rintro rfl
    cases h with
    | plain h _ => exact h
  · rintro rfl
    cases h with
    | plain h _ => exact h

namespace Compile

variable {g : Ground} {r : Registry} {called : Bool} {p : Pos} {act : Act} {k : String} {program : Program}
variable {frames : List Frame} {l rest head : List Step} {s : Step} {heads : String → Prop} {m : Stage} {lo hi : Nat}
  {symbols : SymbolTable}

/-- Each plain step stays above the ground. -/
theorem step_gives (h : act.Plain frames) : Gives g .kept .kept (step r called ⟨act, p⟩) := by
  unfold step
  dsimp only
  split
  · exact constant_gives.done
  · exact constant_gives.done
  · exact constant_gives.done
  · exact identifier_gives
  · exact binary_gives
  · exact unary_gives
  · exact call_gives
  · exact index_gives
  · exact slice_gives
  · exact field_gives
  · exact composite_gives
  · exact resolveType_keeps.gives.next (pushOperand_gives rfl)
  · exact declare_gives h
  · exact place_gives
  · exact indexAssign_gives
  · exact fieldAssign_gives
  · exact derefAssign_gives
  · exact constDecl_gives
  · exact typeDef_gives h.1
  iterate 3 cases h
  · exact ret_gives
  · cases h
  · exact jump_gives.done
  iterate 4 exact .done (popCondition_gives.next jump_gives)
  · exact range_gives
  · exact next_gives h.1 h.2
  · cases h
  · cases h
  · refine update fun s hs => ⟨trivial, hs.change ?_ (Nat.le_refl _) id⟩
    have h := hs.sound
    exact ⟨h.program, h.entry, h.inside, h.known, h.jumps, h.funcs, h.tidy, h.since, h.scopes, h.keys, h.formed⟩
  · exact discard_gives
  · exact dropRange_gives
  iterate 3 exact fail_gives

/-- The first of some steps, a name together with the store behind it; gives the steps that are left. -/
def advance (r : Registry) : List Step → Compile (List Step)
  | [] => return []
  | ⟨.atom (.ident name), p⟩ :: ⟨.define, _⟩ :: rest => do
    define name p
    return rest
  | ⟨.atom (.ident name), p⟩ :: ⟨.assign, _⟩ :: rest => do
    assign name p
    return rest
  | s :: rest => do
    step r (beginsWithCall rest) s
    return rest

theorem steps_eq_advance (h : l ≠ []) : steps r l = (do steps r (← advance r l)) := by
  rw [steps.eq_def, advance.eq_def]
  split
  · contradiction
  · simp only [bind_assoc, pure_bind]
  · simp only [bind_assoc, pure_bind]
  · simp only [bind_assoc, pure_bind]

theorem advance_cons
    (h : ∀ n, s.val = .atom (.ident n) → ∀ q tl, rest ≠ ⟨.define, q⟩ :: tl ∧ rest ≠ ⟨.assign, q⟩ :: tl) :
    advance r (s :: rest) = (do step r (beginsWithCall rest) s; return rest) := by
  rw [advance.eq_def]
  split
  · contradiction
  · rename_i name q q' tl he
    cases he
    exact absurd rfl (h name rfl q' tl).1
  · rename_i name q q' tl he
    cases he
    exact absurd rfl (h name rfl q' tl).2
  · rename_i he
    cases he
    rfl

theorem steps_cons (h : ∀ n, s.val = .atom (.ident n) → ∀ q tl, rest ≠ ⟨.define, q⟩ :: tl ∧ rest ≠ ⟨.assign, q⟩ :: tl) :
    steps r (s :: rest) = (do step r (beginsWithCall rest) s; steps r rest) := by
  rw [steps_eq_advance (cons_ne_nil _ _), advance_cons h]
  simp only [bind_assoc, pure_bind]

/-- Streams that meet at no store compile one by one. -/
theorem steps_append {ys : List Step} (hs : ∀ q tl, ys ≠ ⟨.define, q⟩ :: tl ∧ ys ≠ ⟨.assign, q⟩ :: tl)
    (hc : beginsWithCall ys = false) : ∀ xs : List Step, steps r (xs ++ ys) = (do steps r xs; steps r ys)
  | [] => rfl
  | [x] => by
    have hx : steps r [x] = (do step r false x; steps r []) := steps_cons fun _ _ _ _ => ⟨nofun, nofun⟩
    show steps r (x :: ys) = _
    rw [steps_cons fun _ _ => hs, hx, hc]
    simp only [bind_assoc]
    rfl
  | x :: y :: xs => by
    by_cases hx : (∃ n, x.val = .atom (.ident n)) ∧ (y.val = .define ∨ y.val = .assign)
    · obtain ⟨⟨n, hx⟩, hy | hy⟩ := hx <;> obtain ⟨xa, xp⟩ := x <;> obtain ⟨ya, yp⟩ := y <;> subst hx hy
      · show (do define n xp; steps r (xs ++ ys)) = (do (do define n xp; steps r xs); steps r ys)
        rw [steps_append hs hc xs, bind_assoc]
      · show (do assign n xp; steps r (xs ++ ys)) = (do (do assign n xp; steps r xs); steps r ys)
        rw [steps_append hs hc xs, bind_assoc]
    · have hne (tl : List Step) : ∀ n, x.val = .atom (.ident n) →
          ∀ q tl', y :: tl ≠ ⟨.define, q⟩ :: tl' ∧ y :: tl ≠ ⟨.assign, q⟩ :: tl' := by
        intro n hn q tl'
        constructor <;> intro he
        · exact hx ⟨⟨n, hn⟩, .inl (by rw [(List.cons.inj he).1])⟩
        · exact hx ⟨⟨n, hn⟩, .inr (by rw [(List.cons.inj he).1])⟩
      have hb : beginsWithCall (y :: (xs ++ ys)) = beginsWithCall (y :: xs) := by
        obtain ⟨act, p⟩ := y
        cases act <;> rfl
      have ih := steps_append hs hc (y :: xs)
      show steps r (x :: y :: (xs ++ ys)) = _
      rw [cons_append] at ih
      rw [steps_cons (hne (xs ++ ys)), steps_cons (hne xs), bind_assoc, hb, ih]

/-- The functions whose bodies are among some steps. -/
def Owed (steps : List Step) (key : String) : Prop := ∃ sig p, ⟨.body key sig, p⟩ ∈ steps

theorem enter_gives {scope n : String} (hn : Fresh "b" n) (hs : scope = Frame.scopeOf g.frames ++ "/" ++ n) :
    Triple (At g .kept) (modify fun s : CompileState => { s with scopes := scope :: s.scopes } : Compile PUnit)
      (fun _ s => At { g with frames := .block scope :: g.frames } .kept s) fun _ s => g.program.Extends s.program := by
  refine update fun s h => h.move ?_ rfl (Nat.le_refl _) id
  have h := h.sound
  refine ⟨h.program, h.entry, h.inside, h.known, h.jumps, h.funcs, h.tidy, h.since, ?_, h.keys, fun f hf => ?_⟩
  · rw [h.scopes]
    rfl
  · rcases mem_cons.mp hf with rfl | hf
    · exact ⟨_, n, hn, hs⟩
    · exact h.formed f hf

theorem leave_gives {scope : String} (hf : g.frames = .block scope :: frames) :
    Triple (At g .kept) (modify fun s : CompileState => { s with scopes := s.scopes.drop 1 } : Compile PUnit)
      (fun _ s => At { g with frames := frames } .kept s) fun _ s => g.program.Extends s.program := by
  refine update fun s h => h.move ?_ rfl (Nat.le_refl _) id
  have h := h.sound
  refine ⟨h.program, h.entry, h.inside, h.known, h.jumps, h.funcs, h.tidy, h.since, ?_, ?_, fun f hm => ?_⟩
  · rw [h.scopes, hf]
    rfl
  · rw [h.keys, hf]
    rfl
  · exact h.formed f (hf ▸ .tail _ hm)

theorem close_gives {key : String} (hf : g.frames = .func key :: frames) :
    Triple (At g .kept) (label (key ++ "_end") p) (fun _ s => ∃ e, At { g with frames := frames, entry := e } .kept s)
      fun _ s => g.program.Extends s.program := by
  refine read fun s hs => ?_
  have hcloses : closes (key ++ "_end") s.funcs = true := by
    have hk := hs.sound.keys
    cases hfuncs : s.funcs with
    | nil => rw [hfuncs, hf] at hk; cases hk
    | cons f fs =>
      rw [hfuncs, hf] at hk
      rw [← (List.cons.inj hk).1]
      exact beq_self_eq_true _
  rw [if_pos hcloses]
  exact fixed (funcEnd_gives hf) hs

theorem Owed.tail {s : Step} (h : Owed (s :: rest) k)
    (hs : ∀ key sig, s.val ≠ .body key sig) : Owed rest k := by
  obtain ⟨sig, p, hm⟩ := h
  rcases mem_cons.mp hm with rfl | hm
  · exact absurd rfl (hs k sig)
  · exact ⟨sig, p, hm⟩

/-- The steps to come, seen from the ground. -/
structure Walks (heads : String → Prop) (g : Ground) (l : List Step) : Prop where
  walk : Walk heads g.frames l
  owed : ∀ k, g.owed k → Owed l k
  heads : ∀ key, heads key → FuncKey key ∧ g.symbols.lookup? key = none
  nests : Frame.Nests g.frames

theorem Walks.behind {rest : List Step} (h : Walks heads g (s :: rest))
    (hw : Walk heads g.frames rest) (hs : ∀ key sig, s.val ≠ .body key sig) : Walks heads g rest :=
  ⟨hw, fun k hk => (h.owed k hk).tail hs, h.heads, h.nests⟩

/-- **What one step keeps.** The ground is above the same program and symbols afterwards. -/
theorem advance_walks (h : Walks heads g l) : Triple (At g .kept) (advance r l)
      (fun l' s => ∃ g', At g' .kept s ∧ Walks heads g' l' ∧ g'.program = g.program ∧ g'.symbols = g.symbols)
      fun _ s => g.program.Extends s.program := by
  obtain ⟨program, symbols, frames, owed, entry⟩ := g
  have same {x : Compile Unit} {rest : List Step}
    (hx : Gives ⟨program, symbols, frames, owed, entry⟩ .kept .kept x fun _ => True)
      (hr : Walks heads ⟨program, symbols, frames, owed, entry⟩ rest) :
      Triple (At ⟨program, symbols, frames, owed, entry⟩ .kept) (do x; return rest)
        (fun l' s => ∃ g' : Ground, At g' .kept s ∧ Walks heads g' l' ∧ g'.program = program ∧ g'.symbols = symbols)
        fun _ s => program.Extends s.program :=
    hx.leads fun _ _ => Triple.ret fun s hs => ⟨_, hs, hr, rfl, rfl⟩
  have hw := h.walk
  cases hw with
  | done => exact Triple.ret fun s hs => ⟨_, hs, h, rfl, rfl⟩
  | @plain _ rest act p hact hrest =>
    rw [advance_cons fun _ _ => hrest.ne_store]
    exact same (step_gives hact) (h.behind hrest fun _ _ he => by subst he; exact hact)
  | define hn hrest =>
    exact same (define_gives hn)
      ⟨hrest, fun k hk => ((h.owed k hk).tail fun _ _ => nofun).tail fun _ _ => nofun, h.heads, h.nests⟩
  | assign _ hrest =>
    exact same assign_gives
      ⟨hrest, fun k hk => ((h.owed k hk).tail fun _ _ => nofun).tail fun _ _ => nofun, h.heads, h.nests⟩
  | @enter _ rest n p hn hrest =>
    refine Triple.seq (enter_gives hn rfl) fun _ => Triple.ret fun s hs =>
      ⟨_, hs, ⟨hrest, ?_, h.heads, ⟨n, hn, rfl⟩, h.nests⟩, rfl, rfl⟩
    exact fun k hk => (h.owed k hk).tail fun _ _ => nofun
  | leave hrest =>
    refine Triple.seq (leave_gives rfl) fun _ => Triple.ret fun s hs =>
      ⟨_, hs, ⟨hrest, ?_, h.heads, h.nests.2⟩, rfl, rfl⟩
    exact fun k hk => (h.owed k hk).tail fun _ _ => nofun
  | @body _ rest key sig p hkey hsig hrest =>
    have howed : ∀ k, k ≠ key → owed k → Owed rest k := by
      intro k hne hk
      obtain ⟨sig', q, hm⟩ := h.owed k hk
      rcases mem_cons.mp hm with he | hm
      · cases he
        exact absurd rfl hne
      · exact ⟨sig', q, hm⟩
    refine Triple.seq (funcBegin_gives (hkey.imp_right (h.heads key)) hsig howed) fun _ => Triple.ret fun s hs => ?_
    exact ⟨_, hs, ⟨hrest, fun k hk => hk, h.heads, h.nests⟩, rfl, rfl⟩
  | close hrest =>
    refine Triple.seq (close_gives rfl) fun _ => Triple.ret fun s ⟨e, hs⟩ => ?_
    exact ⟨_, hs, ⟨hrest, fun k hk => (h.owed k hk).tail fun _ _ => nofun, h.heads, h.nests⟩, rfl, rfl⟩
  | label hn _ hrest =>
    rw [advance_cons (s := ⟨.label _, _⟩) nofun]
    exact same (label_gives hn) (h.behind hrest fun _ _ => nofun)

theorem length_advance {l' : List Step} {s t : CompileState} (hl : l ≠ []) (h : advance r l s = .ok l' t) :
    l'.length < l.length := by
  rw [advance.eq_def] at h
  split at h
  · contradiction
  all_goals
    obtain ⟨_, _, -, h⟩ := seq_ok.mp h
    cases h
    simp only [length_cons]
    omega

/-- **What a walk keeps**: in the end all frames are left and no function is owed any more. -/
theorem steps_walks : ∀ {n : Nat} {l : List Step} {g : Ground}, l.length ≤ n → Walks heads g l →
    Triple (At g .kept) (steps r l)
      (fun _ s => ∃ e, At ⟨g.program, g.symbols, [], fun _ => False, e⟩ .kept s)
      fun _ s => g.program.Extends s.program := by
  intro n
  induction n with
  | zero =>
    intro l g hl h s hs
    obtain rfl := eq_nil_of_length_eq_zero (Nat.le_zero.mp hl)
    have hf : g.frames = [] := by
      cases hfr : g.frames with
      | nil => rfl
      | cons f fs => exact absurd (hfr ▸ h.walk) nofun
    refine ⟨g.entry, hs.move ?_ rfl (Nat.le_refl _) id⟩
    have hd := hs.sound
    refine ⟨hd.program, hd.entry, hd.inside, hd.known, hd.jumps, hd.funcs, ?_, hd.since, hf ▸ hd.scopes, hf ▸ hd.keys,
      nofun⟩
    refine hd.tidy.weaken fun k _ _ _ _ hk => ?_
    obtain ⟨_, _, hm⟩ := h.owed k hk
    cases hm
  | succ n ih =>
    intro l g hl h
    by_cases hnil : l = []
    · exact ih (by rw [hnil]; exact Nat.zero_le _) h
    rw [steps_eq_advance hnil]
    intro s hs
    have hadv := advance_walks (r := r) h s hs
    cases hr : advance r l s with
    | error e t =>
      rw [hr] at hadv
      rw [seq_error hr]
      exact hadv
    | ok l' t =>
      rw [hr] at hadv
      rw [seq_eq hr]
      obtain ⟨g', ht, hw, hp, hsym⟩ := hadv
      have := ih (by have := length_advance hnil hr; omega) hw t ht
      rwa [hp, hsym] at this

/-! ## Declarations at the head -/

open Shape (Heads)

/-- Declarations in any order. The functions among them are none that there were. -/
theorem steps_declared : ∀ {l : List Step}, (∀ s ∈ l, s.val.Decl) → (∀ k, Heads l k → g.owed k) →
    Gives g .kept .kept (steps r l) fun _ => ∀ k, Heads l k → g.symbols.lookup? k = none
  | [], _, _ => .ret fun _ ⟨_, _, hm⟩ => (nomatch hm)
  | ⟨act, p⟩ :: l, hdecl, howed => by
    have hact : act.Decl := hdecl _ (.head _)
    have hrest := steps_declared (fun s hs => hdecl s (.tail _ hs))
      fun k ⟨sig, q, hm⟩ => howed k ⟨sig, q, .tail _ hm⟩
    have other (h : ∀ k sig, act ≠ .header k sig) :
        (∀ k, Heads l k → g.symbols.lookup? k = none) → ∀ k, Heads (⟨act, p⟩ :: l) k → g.symbols.lookup? k = none :=
      fun hl k hk => hk.cons.elim (fun ⟨sig, he⟩ => absurd he (h k sig)) (hl k)
    cases act with
    | typeDef n e => exact (typeDef_gives hact).next (hrest.weaken fun _ => other fun _ _ => nofun)
    | imports n path => exact imports_gives.next (hrest.weaken fun _ => other fun _ _ => nofun)
    | constant n ty e i => exact constDecl_gives.next (hrest.weaken fun _ => other fun _ _ => nofun)
    | header key sig =>
      refine (funcHeader_gives hact.1 (howed key ⟨sig, p, (.head _)⟩)).seq fun _ hnew =>
        hrest.weaken fun _ hl k hk => ?_
      rcases hk.cons with ⟨sig', he⟩ | hk
      · cases he
        exact hnew
      · exact hl k hk
    | _ => exact hact.elim

theorem mem_ordered {decls : List Step} (h : (turn? s.val).isSome) : s ∈ ordered decls ↔ s ∈ decls := by
  unfold ordered
  rw [mem_flatMap]
  constructor
  · rintro ⟨n, -, hs⟩
    exact (mem_filter.mp hs).1
  · intro hs
    obtain ⟨n, hn⟩ := Option.isSome_iff_exists.mp h
    refine ⟨n, ?_, mem_filter.mpr ⟨hs, by rw [hn]; exact beq_self_eq_true _⟩⟩
    cases hact : s.val <;> rw [hact] at hn <;> cases hn <;> decide

theorem turn?_eq_none_of_walk (h : Walk heads [] (s :: l)) : turn? s.val = none := by
  cases h with
  | @plain _ _ act p hact _ =>
    cases act with
    | typeDef n e | constant n ty e i => exact absurd rfl hact.2
    | imports n path | header k sig => exact hact.elim
    | _ => rfl
  | _ => rfl

theorem turn?_of_decl (h : act.Decl) : (turn? act).isSome := by
  cases act <;> first | rfl | exact h.elim

/-! ## The end -/

theorem destination_gives {j : OpenJump} : Gives g m m (destination j) := by
  unfold destination
  split
  · refine labelAt?_gives.seq fun o _ => ?_
    split
    · exact .ret trivial
    · exact fail_gives
  · refine entryOf?_gives.seq fun o _ => ?_
    split
    · exact .ret trivial
    · exact fail_gives

theorem closeJumps_gives : ∀ {js : List OpenJump}, (∀ j ∈ js, g.program.code.size ≤ j.site) →
    Gives g m m (closeJumps js)
  | [], _ => .ret trivial
  | j :: _, h => destination_gives.next ((patch_gives (h j (.head _))).next
      (closeJumps_gives fun j' hj => h j' (.tail _ hj)))

/-- Closing the jumps changes no earlier code. -/
theorem finish_gives : Gives g m m finish := by
  refine read fun s hs => ?_
  split
  · exact raise fun t ht => ht ▸ hs.sound
  · refine seq (write fun _ _ => ?_) fun _ => closeJumps_gives hs.sound.jumps
    exact hs.change (hs.sound.withJumps nofun) (Nat.le_refl _) id

theorem takeWhile_turn? (hd : ∀ s ∈ head, s.val.Decl)
    (hw : Walk heads [] rest) : (head ++ rest).takeWhile (fun s => (turn? s.val).isSome) = head := by
  rw [takeWhile_append_of_pos fun s hs => turn?_of_decl (hd s hs)]
  cases rest with
  | nil => rw [takeWhile_nil, append_nil]
  | cons s l => rw [takeWhile_cons_of_neg (by rw [turn?_eq_none_of_walk hw]; decide), append_nil]

/-- A chunk is its declarations, then its code. -/
theorem chunk_of_shaped (h : Stream.Shaped lo hi head rest) :
    chunk r (head ++ rest) = (do steps r (ordered head); steps r rest; finish) := by
  unfold chunk
  rw [takeWhile_turn? h.decl h.walk]
  dsimp only
  rw [drop_left]

theorem heads_ordered : Heads (ordered head) k ↔ Heads head k :=
  ⟨fun ⟨sig, p, hm⟩ => ⟨sig, p, (mem_ordered rfl).mp hm⟩, fun ⟨sig, p, hm⟩ => ⟨sig, p, (mem_ordered rfl).mpr hm⟩⟩

theorem decl_ordered (h : ∀ s ∈ head, s.val.Decl) : ∀ s ∈ ordered head, s.val.Decl := by
  intro s hs
  obtain ⟨n, -, hs⟩ := mem_flatMap.mp hs
  exact h s (mem_filter.mp hs).1

/-- The declarations at the head of a chunk, behind which the functions among them are owed. -/
theorem head_grounded {e : Nat} (h : Stream.Shaped lo hi head rest) :
    Triple (At ⟨program, symbols, [], fun _ => False, e⟩ .kept) (steps r (ordered head))
      (fun _ s => At ⟨program, symbols, [], Owed rest, e⟩ .kept s ∧
      Walks (Heads head) ⟨program, symbols, [], Owed rest, e⟩ rest)
      fun _ s => program.Extends s.program := by
  have howed : ∀ k, Heads head k → Owed rest k := fun k ⟨sig, p, hm⟩ => by
    obtain ⟨q, hb⟩ := h.bodies k sig p hm
    exact ⟨sig, q, hb⟩
  have hdecl := steps_declared (r := r) (g := ⟨program, symbols, [], Owed rest, e⟩) (decl_ordered h.decl)
    fun k hk => howed k (heads_ordered.mp hk)
  intro s hs
  have hs' := hs.sound
  have hat : At ⟨program, symbols, [], Owed rest, e⟩ .kept s :=
    hs.move ⟨hs'.program, hs'.entry, hs'.inside, hs'.known, hs'.jumps, hs'.funcs,
      hs'.tidy.weaken fun _ _ _ _ _ hk => hk.elim, hs'.since, hs'.scopes, hs'.keys, hs'.formed⟩ rfl (Nat.le_refl _) id
  refine weaken hdecl (fun _ h => h) (fun _ t ⟨hnew, ht⟩ => ⟨ht, h.walk, fun _ hk => hk, fun key hk => ?_, trivial⟩)
    (fun _ _ ht => ht.program) s hat
  refine ⟨?_, hnew key (heads_ordered.mpr hk)⟩
  obtain ⟨sig, p, hm⟩ := hk
  exact .inr (h.decl _ hm).1

/-- **A chunk is compiled above the ground.** What there was stands as it was, however compiling ends; if it succeeds,
no function is owed. -/
theorem chunk_grounded {e : Nat} (h : Stream.Shaped lo hi head rest) :
    Triple (At ⟨program, symbols, [], fun _ => False, e⟩ .kept) (chunk r (head ++ rest))
      (fun _ s => ∃ e, At ⟨program, symbols, [], fun _ => False, e⟩ .kept s) fun _ s => program.Extends s.program := by
  rw [chunk_of_shaped h]
  refine seq (head_grounded h) fun _ s ⟨hs, hwalks⟩ => ?_
  refine seq (steps_walks (Nat.le_refl _) hwalks) (fun _ s ⟨e', hs⟩ => ?_) s hs
  exact weaken (finish_gives (g := ⟨program, symbols, [], fun _ => False, e'⟩)) (fun _ hs => hs)
    (fun _ _ hs => ⟨e', hs.2⟩) (fun _ _ hs => hs.program) s hs

end Compile

end Goblet
