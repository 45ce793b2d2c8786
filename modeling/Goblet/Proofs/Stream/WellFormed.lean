import Goblet.Session
import Goblet.Proofs.Stream.Chunk

/-!
# Well-formed streams

What a stream opens it closes again in the opposite order: scopes, functions, marks and ranges (`Bracket.run`). A
function is closed by the label with its name and `_end` behind it. `Bracket.placed` tells for each step the place where
the innermost function around it begins.

A phrase opens and closes so, and its jumps to made labels stay in their function (`Phrase.balanced`). With the numbers
of names (`Stream.drawn_of_ofTokens`) follows that a shaped stream is well formed, and that streams with numbers one
after the other have no made name in common (`Session.shape_wellFormed`).
-/

namespace Goblet

open List

open Goblet.Frame (scopeOf funcOf owner)

/-- Something that is open in a stream; a function has the place where its body begins. -/
inductive Bracket where
  | scope
  | mark
  | range
  | func (key : String) (site : Nat)
  deriving DecidableEq

/-- The label that a step may jump to. -/
def Act.target? : Act → Option String
  | .goto l | .jumpFalse l | .jumpTrue l | .jumpSetFalse l | .jumpSetTrue l | .next l .. => some l
  | _ => none

namespace Bracket

/-- Closes what was opened last. -/
def close (b : Bracket) : List Bracket → Option (List Bracket)
  | [] => none
  | c :: rest => if c = b then some rest else none

/-- A label closes the function that was opened last, if it is the end of it. -/
def closeFunc (l : String) : List Bracket → List Bracket
  | .func key site :: rest => if l = key ++ "_end" then rest else .func key site :: rest
  | stack => stack

/-- What is open after the step at `i`, if it closes only what was opened last. -/
def step (i : Nat) (stack : List Bracket) : Act → Option (List Bracket)
  | .enter _ => some (.scope :: stack)
  | .leave => close .scope stack
  | .mark => some (.mark :: stack)
  | .discard => close .mark stack
  | .range => some (.range :: stack)
  | .drop => close .range stack
  | .body key _ => some (.func key i :: stack)
  | .label l => some (closeFunc l stack)
  | _ => some stack

/-- What is open after steps that begin at `i`. -/
def run (i : Nat) (stack : List Bracket) : List Step → Option (List Bracket)
  | [] => some stack
  | s :: rest =>
    match step i stack s.val with
    | some stack => run (i + 1) stack rest
    | none => none

/-- Where the innermost function begins. -/
def home : List Bracket → Option Nat
  | [] => none
  | .func _ site :: _ => some site
  | _ :: rest => home rest

/-- Each step with the place where the innermost function around it begins. -/
def placed (i : Nat) (stack : List Bracket) : List Step → List (Option Nat × Act)
  | [] => []
  | s :: rest =>
    (home stack, s.val) :: match step i stack s.val with
      | some stack => placed (i + 1) stack rest
      | none => []

variable {i : Nat} {stack stack' : List Bracket} {s : Step} {rest t : List Step}

theorem run_cons (h : step i stack s.val = some stack') : run i stack (s :: rest) = run (i + 1) stack' rest := by
  rw [run, h]

theorem placed_cons (h : step i stack s.val = some stack') :
    placed i stack (s :: rest) = (home stack, s.val) :: placed (i + 1) stack' rest := by
  rw [placed, h]

/-- Brackets of two streams in a row. -/
theorem append : ∀ {i : Nat} {stack : List Bracket} {s : List Step}, run i stack s = some stack' →
    run i stack (s ++ t) = run (i + s.length) stack' t ∧
      placed i stack (s ++ t) = placed i stack s ++ placed (i + s.length) stack' t
  | _, _, [], h => by
    cases h
    exact ⟨rfl, rfl⟩
  | i, stack, x :: s, h => by
    cases hx : step i stack x.val with
    | none => rw [run, hx] at h; cases h
    | some next =>
      rw [run_cons hx] at h
      obtain ⟨hrun, hplaced⟩ := append h
      rw [cons_append, run_cons hx, placed_cons hx, placed_cons hx, hrun, hplaced, length_cons,
        Nat.add_comm s.length, Nat.add_assoc]
      exact ⟨rfl, rfl⟩

theorem close_same (b : Bracket) (stack : List Bracket) : close b (b :: stack) = some stack := if_pos rfl

theorem closeFunc_of_ne {l : String} (h : ∀ key site rest, stack = .func key site :: rest → l ≠ key ++ "_end") :
    closeFunc l stack = stack := by
  unfold closeFunc
  split
  · rename_i key site rest
    rw [if_neg (h key site rest rfl)]
  · rfl

section Between

variable {b : Bracket} {a z : Act} {p q : Pos} {s : List Step}

theorem run_between (ha : step i stack a = some (b :: stack)) (h : run (i + 1) (b :: stack) s = some (b :: stack))
    (hz : ∀ j, step j (b :: stack) z = some stack) : run i stack (⟨a, p⟩ :: s ++ [⟨z, q⟩]) = some stack := by
  rw [cons_append, run_cons ha, (append h).1, run_cons (hz _)]
  rfl

theorem placed_between (ha : step i stack a = some (b :: stack)) (h : run (i + 1) (b :: stack) s = some (b :: stack))
    (hz : ∀ j, step j (b :: stack) z = some stack) : placed i stack (⟨a, p⟩ :: s ++ [⟨z, q⟩]) =
      (home stack, a) :: (placed (i + 1) (b :: stack) s ++ [(home (b :: stack), z)]) := by
  rw [cons_append, placed_cons ha, (append h).2, placed_cons (hz _)]
  rfl

end Between

theorem mem_of_placed {x : Option Nat × Act} : ∀ {i : Nat} {stack : List Bracket} {s : List Step},
    x ∈ placed i stack s → ∃ y ∈ s, y.val = x.2
  | i, stack, y :: s, h => by
    rcases mem_cons.mp h with rfl | h
    · exact ⟨y, (.head _), rfl⟩
    · split at h
      · obtain ⟨z, hz, he⟩ := mem_of_placed h
        exact ⟨z, .tail _ hz, he⟩
      · cases h

/-- If a function was opened last it is the innermost one of the frames. -/
def Suits (fs : List Frame) (stack : List Bracket) : Prop :=
  ∀ key site rest, stack = .func key site :: rest → funcOf fs = some key

theorem suits_nil {fs : List Frame} : Suits fs [] := nofun

end Bracket

open Goblet.Bracket (Suits home placed)

/-! ## Phrases are balanced -/

/-- The steps close what they open. A jump to a made label stays in its function, unless it is one of `links` and not in
a function of its own; the labels of `links` are there. -/
structure Balanced (fs : List Frame) (links : List Link) (s : List Step) : Prop where
  nested : ∀ {i stack}, Suits fs stack → Bracket.run i stack s = some stack
  linked : ∀ {i stack}, Suits fs stack → ∀ x ∈ placed i stack s, ∀ l k, x.2.target? = some l → MadeWith l k →
    (x.1, .label l) ∈ placed i stack s ∨ x.1 = home stack ∧ .jump l ∈ links
  labels : ∀ {i stack}, Suits fs stack → ∀ l, .label l ∈ links → (home stack, .label l) ∈ placed i stack s

namespace Balanced

variable {fs : List Frame} {links links' : List Link} {s t : List Step} {act : Act} {p q : Pos} {l : String}

theorem nil : Balanced fs [] [] := ⟨fun _ => rfl, nofun, nofun⟩

theorem one (hstep : ∀ i stack, Suits fs stack → Bracket.step i stack act = some stack)
    (hjump : ∀ l k, act.target? = some l → MadeWith l k → .jump l ∈ links)
    (hlabel : ∀ l, .label l ∈ links → act = .label l) :
    Balanced fs links [⟨act, p⟩] where
  nested hf := Bracket.run_cons (hstep _ _ hf)
  linked hf x hx l k hl hk := by
    rw [Bracket.placed_cons (hstep _ _ hf)] at hx
    cases mem_singleton.mp hx
    exact .inr ⟨rfl, hjump l k hl hk⟩
  labels hf l hl := by
    rw [Bracket.placed_cons (hstep _ _ hf), hlabel l hl]
    exact .head _

theorem plain (act : Act) (hstep : ∀ i stack, Bracket.step i stack act = some stack) (hjump : act.target? = none) :
    Balanced fs [] [⟨act, p⟩] :=
  one (fun i stack _ => hstep i stack) (fun l k h => by rw [hjump] at h; cases h) nofun

theorem jump (hstep : ∀ i stack, Bracket.step i stack act = some stack) (hjump : act.target? = some l) :
    Balanced fs [.jump l] [⟨act, p⟩] := by
  refine one (fun i stack _ => hstep i stack) (fun m k h _ => ?_) fun m h => ?_
  · rw [hjump] at h
    cases h
    exact .head _
  · cases mem_singleton.mp h

theorem label (h : Made l) : Balanced fs [.label l] [⟨.label l, p⟩] := by
  refine one (fun i stack _ => ?_) (nofun) fun m h => ?_
  · exact congrArg some (Bracket.closeFunc_of_ne fun key _ _ _ => h.ne_end key)
  · cases mem_singleton.mp h
    rfl

theorem writtenLabel {n : String} : Balanced fs [] [⟨.label (owner fs ++ "/" ++ n), p⟩] := by
  refine one (fun i stack hf => ?_) (nofun) nofun
  exact congrArg some (Bracket.closeFunc_of_ne fun key site rest h => Frame.written_ne_end (hf key site rest h) n)

theorem append (h : Balanced fs links s) (h' : Balanced fs links' t) : Balanced fs (links ++ links') (s ++ t) where
  nested hf := (Bracket.append (h.nested hf)).1.trans (h'.nested hf)
  linked hf x hx l k hl hk := by
    rw [(Bracket.append (h.nested hf)).2] at hx ⊢
    rcases mem_append.mp hx with hx | hx
    · exact (h.linked hf x hx l k hl hk).imp (mem_append_left _) fun hj => ⟨hj.1, mem_append_left _ hj.2⟩
    · exact (h'.linked hf x hx l k hl hk).imp (mem_append_right _) fun hj => ⟨hj.1, mem_append_right _ hj.2⟩
  labels hf l hl := by
    rw [(Bracket.append (h.nested hf)).2]
    rcases mem_append.mp hl with hl | hl
    · exact mem_append_left _ (h.labels hf l hl)
    · exact mem_append_right _ (h'.labels hf l hl)

/-- Labels that were placed need no link. -/
theorem closed (h : Balanced fs links s) (hc : Link.Closed links) : Balanced fs [] s where
  nested := h.nested
  linked hf x hx l k hl hk := by
    rcases h.linked hf x hx l k hl hk with hj | ⟨hx, hj⟩
    · exact .inl hj
    · exact .inl (hx ▸ h.labels hf l (hc l hj))
  labels _ _ h := nomatch h

/-- Between what opens and what closes a jump is in the same function as outside, unless all jumps are closed. -/
theorem between {fs' : List Frame} {a z : Act} {b : Nat → Bracket} (h : Balanced fs' links s)
    (ha : ∀ i stack, Bracket.step i stack a = some (b i :: stack))
    (hz : ∀ i j stack, Bracket.step j (b i :: stack) z = some stack)
    (hja : a.target? = none) (hjz : z.target? = none) (hsuits : ∀ i stack, Suits fs' (b i :: stack))
    (hhome : links = [] ∨ ∀ i stack, home (b i :: stack) = home stack) :
    Balanced fs links (⟨a, p⟩ :: s ++ [⟨z, q⟩]) where
  nested hf := Bracket.run_between (ha _ _) (h.nested (hsuits _ _)) (hz _ · _)
  linked {i stack} hf x hx l k hl hk := by
    rw [Bracket.placed_between (ha _ _) (h.nested (hsuits _ _)) (hz _ · _)] at hx ⊢
    rcases mem_cons.mp hx with rfl | hx
    · rw [hja] at hl
      cases hl
    rcases mem_append.mp hx with hx | hx
    · rcases h.linked (hsuits _ _) x hx l k hl hk with hin | ⟨hx, hj⟩
      · exact .inl (.tail _ (mem_append_left _ hin))
      · rcases hhome with rfl | hhome
        · cases hj
        · exact .inr ⟨hx.trans (hhome i stack), hj⟩
    · cases mem_singleton.mp hx
      rw [hjz] at hl
      cases hl
  labels {i stack} hf l hl := by
    rw [Bracket.placed_between (ha _ _) (h.nested (hsuits _ _)) (hz _ · _)]
    refine .tail _ (mem_append_left _ ?_)
    rcases hhome with rfl | hhome
    · cases hl
    · exact hhome i stack ▸ h.labels (hsuits _ _) l hl

/-- A function's body is balanced on its own. -/
theorem func {key : String} {sig : Signature} (h : Balanced (.func key :: fs) links s) (hc : Link.Closed links) :
    Balanced fs [] (⟨.body key sig, p⟩ :: s ++ [⟨.label (key ++ "_end"), q⟩]) := by
  refine (h.closed hc).between (fun _ _ => rfl) (fun i j stack => ?_) rfl rfl (fun i stack k site rest he => ?_)
    (.inl rfl)
  · exact congrArg some (if_pos rfl)
  · cases he
    rfl

theorem marked (h : Balanced fs links s) : Balanced fs links (⟨.mark, p⟩ :: s ++ [⟨.discard, q⟩]) :=
  h.between (fun _ _ => rfl) (fun _ _ => Bracket.close_same .mark) rfl rfl (nofun)
    (.inr fun _ _ => rfl)

theorem block {scope : String} (h : Balanced (.block scope :: fs) links s) :
    Balanced fs links (⟨.enter scope, p⟩ :: s ++ [⟨.leave, q⟩]) :=
  h.between (fun _ _ => rfl) (fun _ _ => Bracket.close_same .scope) rfl rfl (nofun)
    (.inr fun _ _ => rfl)

theorem range (h : Balanced fs links s) : Balanced fs links (⟨.range, p⟩ :: s ++ [⟨.drop, q⟩]) :=
  h.between (fun _ _ => rfl) (fun _ _ => Bracket.close_same .range) rfl rfl (nofun)
    (.inr fun _ _ => rfl)

theorem operation {n : Nat} (h : act.operands? = some n ∨ act.settles? = some n) : Balanced fs [] [⟨act, p⟩] := by
  cases act <;> first | exact plain _ (fun _ _ => rfl) rfl | (rcases h with h | h <;> cases h)

theorem ident (n : String) (p : Pos) : Balanced fs [] [⟨.ident n, p⟩] := plain _ (fun _ _ => rfl) rfl

theorem stores {k : Nat} (h : Stores k s) : Balanced fs [] s := by
  induction h with
  | none => exact .nil
  | define _ _ ih => exact (ident _ _).append ((plain .define (fun _ _ => rfl) rfl).append ih)
  | assign _ _ ih => exact (ident _ _).append ((plain .assign (fun _ _ => rfl) rfl).append ih)
  | declare _ _ ih => exact (plain (.declare _ _ _) (fun _ _ => rfl) rfl).append ih

theorem declares (h : act.Declares fs) : Balanced fs [] [⟨act, p⟩] := by
  cases act <;> first | exact plain _ (fun _ _ => rfl) rfl | exact h.elim

end Balanced

variable {heads : String → Prop} {fs : List Frame} {s : List Step} {lo hi : Nat} {rules : Rules}

/-- **A phrase closes what it opens, and its jumps to made labels stay in their function.** -/
theorem Phrase.balanced {role : Role}
    {links : List Link} (h : Phrase rules heads fs role lo hi links s) : Balanced fs links s := by
  induction h with
  | wide _ _ _ ih => exact ih
  | atom | typeRef => exact .plain _ (fun _ _ => rfl) rfl
  | none | empty => exact .nil
  | more _ _ _ ih ih' => exact ih.append ih'
  | apply hact _ _ _ ih => exact ih.append (.operation (.inl hact))
  | @logic fs a b c act l p q s t hact hl _ _ ih ih' =>
    have hjump : Balanced fs [.jump l] [⟨act, p⟩] := by
      rcases hact with rfl | rfl <;> exact .jump (fun _ _ => rfl) rfl
    have hall := ((ih.append hjump).append ih').append (.label (p := q) hl)
    simp only [append_assoc, cons_append, nil_append] at hall ⊢
    refine hall.closed fun m hm => ?_
    simp only [mem_cons, Link.jump.injEq, not_mem_nil, or_false, reduceCtorEq] at hm
    exact hm ▸ .tail _ (.head _)
  | @literal fs k hi key sig p q links s _ _ hc _ ih =>
    have hfunc : Balanced fs [] (⟨.body key sig, p⟩ :: s ++ [⟨.label (key ++ "_end"), q⟩]) := ih.func hc
    have hall := hfunc.append (.ident (freshText "lit" k) p)
    simpa only [append_assoc, cons_append, nil_append] using hall
  | seq _ _ ih ih' => exact ih.append ih'
  | value _ ih => exact ih.marked
  | @call fs d lo hi argc spread p q r s _ _ ih =>
    have hcall : Balanced fs [] [⟨.call argc spread, q⟩] := .plain _ (fun _ _ => rfl) rfl
    have hall := (ih.append hcall).marked (p := p) (q := r)
    simpa only [append_assoc, cons_append, nil_append] using hall
  | store ht _ _ ih => exact ih.append (.stores ht)
  | @storeCall fs d k lo hi argc spread p s t ht _ _ ih =>
    have hcall : Balanced fs [] [⟨.call argc spread, p⟩] := .plain _ (fun _ _ => rfl) rfl
    exact ih.append (hcall.append (.stores ht))
  | settle hact _ ih => exact ih.append (.operation (.inr hact))
  | @setField fs d lo hi base path p q s _ _ ih =>
    have hplace : Balanced fs [] [⟨.place base, p⟩] := .plain _ (fun _ _ => rfl) rfl
    exact (hplace.append ih).append (.plain _ (fun _ _ => rfl) rfl)
  | declare hact => exact .declares hact
  | block _ _ ih => exact ih.block
  | func _ _ hc _ ih => exact ih.func hc
  | @test fs d lo hi act l p s hact _ ih =>
    have hjump : Balanced fs [.jump l] [⟨act, p⟩] := by
      rcases hact with rfl | rfl <;> exact .jump (fun _ _ => rfl) rfl
    exact ih.append hjump
  | goto _ | next => exact .jump (fun _ _ => rfl) rfl
  | label hl => exact .label hl
  | @range fs d a b c links p q s t hc _ _ ih ih' =>
    have hall := ih.append ((ih'.closed hc).range (p := p) (q := q))
    simpa only [append_assoc, cons_append, nil_append] using hall
  | @writtenGoto fs d lo n p _ hn =>
    refine .one (fun _ _ _ => rfl) (fun l k hl hk => ?_) nofun
    cases hl
    exact absurd hk (not_madeWith_word hn k)
  | writtenLabel => exact .writtenLabel

/-- A whole phrase leaves no bracket open. -/
theorem WholePhrase.balanced
    (h : WholePhrase rules heads lo hi s) : Balanced [] [] s := by
  cases h with
  | done hc hs => exact hs.balanced.closed hc
  | value hc hs ht => exact (hs.balanced.closed hc).append ht.balanced
  | call hc hs _ ht => exact (hs.balanced.closed hc).append (ht.balanced.append (.plain _ (fun _ _ => rfl) rfl))

theorem balanced_head : ∀ {head : List Step}, (∀ s ∈ head, s.val.Decl) → Balanced [] [] head
  | [], _ => .nil
  | ⟨act, p⟩ :: head, h => by
    have hone : Balanced [] [] [⟨act, p⟩] := by
      have := h _ (.head _)
      cases act <;> first | exact .plain _ (fun _ _ => rfl) rfl | exact this.elim
    exact hone.append (balanced_head fun s hs => h s (.tail _ hs))

/-! ## Well-formed streams -/

/-- What is opened is closed in the opposite order, and a made label that is jumped to stands once, in the innermost
function around the jump. -/
structure Joined (s : List Step) : Prop where
  nested : Bracket.run 0 [] s = some []
  linked : ∀ x ∈ placed 0 [] s, ∀ l k, x.2.target? = some l → MadeWith l k →
    (x.1, .label l) ∈ placed 0 [] s ∧ seen l s = 1

/-- The stream and the expressions of its constants are joined. The numbers of made names lie from `n` on and below `m`,
and none is used for two of them. -/
structure WellFormed (n m : Nat) (stream : List Step) : Prop where
  joined : Joined stream
  constants : ∀ e, Inner stream e → Joined e
  numbers : ∀ name tag k, Occurs stream name → Bears name tag k → n ≤ k ∧ k < m
  distinct : ∀ name name' tag tag' k, Occurs stream name → Occurs stream name' → Bears name tag k → Bears name' tag' k →
    tag = tag'

theorem Balanced.joined (h : Balanced fs [] s) (hs : ∀ l k, MadeWith l k → seen l s ≤ 1) :
    Joined s where
  nested := h.nested Bracket.suits_nil
  linked x hx l k hl hk := by
    have hin : (x.1, .label l) ∈ placed 0 [] s := by
      rcases h.linked Bracket.suits_nil x hx l k hl hk with hin | ⟨_, hj⟩
      · exact hin
      · cases hj
    refine ⟨hin, Nat.le_antisymm (hs l k hk) ?_⟩
    obtain ⟨y, hy, he⟩ := Bracket.mem_of_placed hin
    exact count_pos_iff.mpr (mem_filterMap.mpr ⟨y, hy, by rw [he]; rfl⟩)

theorem Stream.wellFormed_of_ofTokens {n m : Nat} {toks : List Token} {stream : List Step}
    (h : ofTokens n toks = (.ok stream, m)) (ht : Token.AllNamed toks) : WellFormed n m stream := by
  have hd := drawn_of_ofTokens h ht
  obtain ⟨head, rest, rfl, hshaped⟩ := shaped_of_ofTokens h ht
  obtain ⟨tags, hnames⟩ := hd.names
  have made {name tag : String} {k : Nat} (hn : Occurs (head ++ rest) name) (hb : Bears name tag k) :
      (n ≤ k ∧ k < m) ∧ tags k = tag := (hnames name hn tag k hb).elim False.elim id
  refine ⟨((balanced_head hshaped.decl).append hshaped.phrase.balanced).joined fun l k hk => ?_, fun e he => ?_,
    fun name tag k hn hb => (made hn hb).1, fun name name' tag tag' k hn hn' hb hb' => ?_⟩
  · have := hd.labels l k hk
    rw [count_nil] at this
    split at this <;> omega
  · obtain ⟨⟨heads, fs, lo, hi, hp⟩, hs⟩ := hd.constants e he
    exact hp.balanced.joined hs
  · exact (made hn hb).2.symm.trans (made hn' hb').2

/-- **A shaped stream is well formed**, and has no made name in common with a stream that is shaped later. -/
theorem Session.shape_wellFormed {n m : Nat} {source : String} {stream : List Step}
    (h : shape n source = (.ok stream, m)) : WellFormed n m stream ∧
      ∀ n' m' source' stream', m ≤ n' → shape n' source' = (.ok stream', m') →
        ∀ name name' tag k, Occurs stream name → Occurs stream' name' → Bears name tag k → ¬Bears name' tag k := by
  have whole {n m : Nat} {source : String} {stream : List Step} (h : shape n source = (.ok stream, m)) :
      WellFormed n m stream := by
    unfold shape at h
    split at h
    · cases h
    · rename_i toks hscan
      split at h
      · cases h
      · rename_i hof
        cases h
        exact Stream.wellFormed_of_ofTokens hof (Token.named_of_scan hscan)
  refine ⟨whole h, fun n' m' source' stream' hle h' name name' tag k hn hn' hb hb' => ?_⟩
  have hlt := ((whole h).numbers name tag k hn hb).2
  have hge := ((whole h').numbers name' tag k hn' hb').1
  omega

/-- A loop that is left from inside, and a function that is shaped after it. -/
theorem Session.shape_wellFormed_loop : ∃ stream m stream' m',
    shape 3 "for i := range 4 \x7b\n\tif i > 1 && i < 3 \x7b\n\t\tbreak\n\t\x7d\n\x7d" = (.ok stream, m) ∧
      shape m "f := func(x int) int \x7b\n\treturn x\n\x7d" = (.ok stream', m') ∧ WellFormed 3 m stream ∧
        ∀ name name' tag k, Occurs stream name → Occurs stream' name' → Bears name tag k → ¬Bears name' tag k := by
  have shaped {r : Except EvalError (List Step) × Nat} (h : r.1.isOk = true) : ∃ stream, r = (.ok stream, r.2) := by
    obtain ⟨stream | stream, m⟩ := r
    · cases h
    · exact ⟨stream, rfl⟩
  obtain ⟨stream, h⟩ := shaped (r := shape 3 "for i := range 4 \x7b\n\tif i > 1 && i < 3 \x7b\n\t\tbreak\n\t\x7d\n\x7d")
    (by decide +kernel)
  obtain ⟨stream', h'⟩ := shaped (r := shape (shape 3
    "for i := range 4 \x7b\n\tif i > 1 && i < 3 \x7b\n\t\tbreak\n\t\x7d\n\x7d").2
      "f := func(x int) int \x7b\n\treturn x\n\x7d")
    (by decide +kernel)
  exact ⟨stream, _, stream', _, h, h', (shape_wellFormed h).1, (shape_wellFormed h).2 _ _ _ _ (Nat.le_refl _) h'⟩

end Goblet
