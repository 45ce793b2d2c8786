import Mathlib.Data.List.TakeDrop
import Goblet.Proofs.Stream.Naming
import Goblet.Proofs.Stream.Result

/-!
# Phrases at a place

What is shaped at a place is a phrase inside of the frames that stand around it (`Stands`), and its made names are drawn
from those that are known there (`Known.At`) and from the numbers that it counts. `Exprs` says both of expressions and
`Part` of statements, whose jumps lead to labels among them or out of them. There is a rule for each way to put them
together; a label is made, and the jumps to it are closed, by `Part.bind`.
-/

namespace Goblet

open List

open Goblet.Frame (scopeOf funcOf owner)

variable {heads : String → Prop} {act : Act} {sig : Signature} {known : String → Nat → Prop} {rules : Rules}
variable {fs : List Frame} {c : Place} {n : Nat} {s : List Step}

/-! ## Places -/

/-- The frames are those around a place. -/
structure Stands (c : Place) (fs : List Frame) : Prop where
  scope : scopeOf fs = c.scope
  func : funcOf fs = c.func.map (·.name)
  top : c.top = true ↔ fs = []
  ends : ∀ l, c.brk = some l ∨ c.cont = some l → Made l
  results : ∀ f names, c.func = some f → f.results = some names → ∀ n ∈ names, IsWord n

/-- Where `break` and `continue` lead. -/
def Place.exits (c : Place) : List String := c.brk.toList ++ c.cont.toList

@[simp] theorem Place.exits_within (c : Place) (scope : String) : (c.within scope).exits = c.exits := rfl

theorem made_freshText {scope tag : String} {k : Nat} (h : '/' ∉ tag.toList) : Made (scope ++ "/" ++ freshText tag k) :=
  ⟨scope, tag, _, fresh_freshText tag k, h, rfl⟩

theorem namedResults_words (hs : sig.Named) : ∀ n ∈ sig.namedResults?.getD [], IsWord n := by
  have words : ∀ {rs : List (Option String × TypeExpr)} {ns : List String}, rs.mapM (·.1) = some ns →
      (∀ n t, (some n, t) ∈ rs → IsWord n) → ∀ n ∈ ns, IsWord n := by
    intro rs
    induction rs with
    | nil =>
      intro ns h _ n hn
      cases h
      cases hn
    | cons r rs ih =>
      intro ns h hr n hn
      obtain ⟨o, t⟩ := r
      rw [mapM_cons] at h
      obtain ⟨m, hm, h⟩ := Option.bind_eq_some_iff.mp h
      obtain ⟨ms, hms, h⟩ := Option.bind_eq_some_iff.mp h
      cases h
      rcases mem_cons.mp hn with rfl | hn
      · cases hm
        exact hr n t (.head _)
      · exact ih hms (fun n t h => hr n t (.tail _ h)) n hn
  intro n hn
  unfold Signature.namedResults? at hn
  split at hn
  · cases hn
  · cases hr : sig.results.mapM (·.1) with
    | none =>
      rw [hr] at hn
      cases hn
    | some ns =>
      rw [hr] at hn
      exact words hr (fun n t h => hs n t (mem_append_right _ h)) n hn

/-- A function's body stands in a frame of its own. -/
theorem Stands.funcBody {key : String} (hsig : sig.Named) :
    Stands (.funcBody key sig) (.func key :: fs) where
  scope := rfl
  func := rfl
  top := ⟨nofun, nofun⟩
  ends := fun _ h => h.elim nofun nofun
  results := by
    intro f names hf hr n hn
    cases hf
    exact namedResults_words hsig n (by rw [show sig.namedResults? = some names from hr]; exact hn)

theorem Stands.within {scope : String} (h : Stands c fs) :
    Stands (c.within scope) (.block scope :: fs) where
  scope := rfl
  func := h.func
  top := ⟨nofun, nofun⟩
  ends := h.ends
  results := h.results

/-- A loop puts its labels in force. -/
theorem Stands.loop {brk cont : String} (h : Stands c fs) (hb : Made brk)
    (hc : Made cont) : Stands (c.loop brk cont) fs where
  scope := h.scope
  func := h.func
  top := h.top
  ends l hl := by
    rcases hl with hl | hl <;> cases hl
    · exact hb
    · exact hc
  results := h.results

/-! ## Known names -/

/-- The names that a place gives to what stands there. -/
def Place.names (c : Place) : List String :=
  c.scope :: (c.exits ++ (c.func.map (·.name)).toList)

namespace Known

variable {known : String → Nat → Prop} {tags : Nat → String} {a b k : Nat} {c : Place} {path tag l : String}

/-- The made names of a place are known. -/
structure At (known : String → Nat → Prop) (c : Place) : Prop where
  names : ∀ n ∈ c.names, Of known n
  stands : ∃ fs, Stands c fs

theorem Of.word (h : IsWord path) : Of known path := fun _ _ hb => absurd hb (Bears.word h)

theorem Of.extend (h : Of known path) : Of (Known.extend known tags a b) path := fun tag k hb => .inl (h tag k hb)

theorem Of.slash {n : String} (h : Of known path) (h' : Of known n) : Of known (path ++ "/" ++ n) :=
  fun tag k hb => (Bears.slash.mp hb).elim (h tag k) (h' tag k)

theorem Of.closing (h : Of known path) : Of known (path ++ "_end") := fun tag k hb => h tag k hb.closing

/-- A name drawn with a number in range is known. -/
theorem Of.fresh (ht : IsTag tag) (hk : a ≤ k ∧ k < b) (he : tags k = tag) :
    Of (Known.extend known tags a b) (freshText tag k) := by
  intro tag' k' hb
  obtain ⟨rfl, rfl⟩ := Bears.fresh ht hb
  exact .inr ⟨hk, he⟩

theorem At.scope (h : At known c) : Of known c.scope := h.names _ (.head _)

theorem At.exit (h : At known c) (hl : l ∈ c.exits) : Of known l :=
  h.names l (.tail _ (mem_append_left _ hl))

theorem At.func (h : At known c) {f : Enclosing} (hf : c.func = some f) : Of known f.name := by
  refine h.names _ (.tail _ (mem_append_right _ ?_))
  rw [hf]
  exact .head _

theorem At.extend (h : At known c) : At (Known.extend known tags a b) c := ⟨fun n hn => (h.names n hn).extend, h.stands⟩

theorem At.within (h : At known c) {scope : String} (hs : Of known scope) : At known (c.within scope) := by
  obtain ⟨fs, hfs⟩ := h.stands
  refine ⟨fun n hn => ?_, _, hfs.within⟩
  rcases mem_cons.mp hn with rfl | hn
  · exact hs
  · exact h.names n (.tail _ hn)

theorem At.brk (h : At known c) (hl : Of known l) (hm : Made l) : At known { c with brk := some l } := by
  obtain ⟨fs, hfs⟩ := h.stands
  refine ⟨fun n hn => ?_, fs, hfs.scope, hfs.func, hfs.top, fun l' hl' => ?_, hfs.results⟩
  · rcases mem_cons.mp hn with rfl | hn
    · exact h.scope
    rcases mem_append.mp hn with hn | hn
    · rcases mem_cons.mp hn with rfl | hn
      · exact hl
      · exact h.exit (mem_append_right _ hn)
    · exact h.names n (.tail _ (mem_append_right _ hn))
  · rcases hl' with hl' | hl'
    · cases hl'
      exact hm
    · exact hfs.ends l' (.inr hl')

theorem At.loop (h : At known c) {brk cont : String} (hb : Of known brk) (hc : Of known cont) (hb' : Made brk)
    (hc' : Made cont) : At known (c.loop brk cont) := by
  obtain ⟨fs, hfs⟩ := h.stands
  refine ⟨fun n hn => ?_, fs, hfs.loop hb' hc'⟩
  rcases mem_cons.mp hn with rfl | hn
  · exact h.scope
  rcases mem_append.mp hn with hn | hn
  · have hn : n ∈ [brk, cont] := hn
    rcases mem_cons.mp hn with rfl | hn
    · exact hb
    · exact mem_singleton.mp hn ▸ hc
  · exact h.names n (.tail _ (mem_append_right _ hn))

theorem At.funcBody {name : String} (hn : Of known name) (hs : sig.Named) :
    At known (.funcBody name sig) := by
  refine ⟨fun n hm => ?_, [.func name], Stands.funcBody hs⟩
  have hm : n = name := by simpa [Place.names, Place.funcBody, Place.exits] using hm
  exact hm ▸ hn

/-- The name `path` has just been made with the number `k`, and is known besides what was. -/
structure New (known known' : String → Nat → Prop) (path : String) (k : Nat) : Prop where
  made : MadeWith path k
  name : Of known' path
  rest : ∃ tag, known' = Known.extend known (fun _ => tag) k (k + 1)

namespace New

variable {known' : String → Nat → Prop} {l : String} {own : List String} {d : Nat} {steps : List Step}

theorem of (h : New known known' l k) (hp : Of known path) : Of known' path := by
  obtain ⟨tag, rfl⟩ := h.rest
  exact hp.extend

theorem place (h : New known known' l k) (hc : At known c) : At known' c := by
  obtain ⟨tag, rfl⟩ := h.rest
  exact hc.extend

/-- **A label that is made stands once**, and no other one has its number. -/
theorem close (h : New known known' l k) (hd : Drawn known' (own ++ [l]) (k + 1) d steps) :
    Drawn known own k d steps := by
  obtain ⟨tag, rfl⟩ := h.rest
  refine Drawn.close (Nat.le_succ _) hd fun x j hx => ?_
  rw [count_append]
  refine Nat.add_le_add_left ?_ _
  by_cases he : x = l
  · obtain ⟨scope, tag', ht, rfl⟩ := h.made
    subst he
    rw [hx.eq ht, if_pos ⟨Nat.le_refl _, Nat.lt_succ_self _⟩]
    exact count_le_length
  · rw [count_eq_zero.mpr fun hm => he (mem_singleton.mp hm)]
    exact Nat.zero_le _

/-- A name drawn inside need not be known outside. -/
theorem forget (h : New known known' l k) (hd : Drawn known' own (k + 1) d steps) : Drawn known own k d steps := by
  obtain ⟨tag, rfl⟩ := h.rest
  exact Drawn.close (Nat.le_succ _) hd fun _ _ _ => Nat.le_add_right _ _

end New

theorem new {scope : String} (ht : IsTag tag) (hl : l = scope ++ "/" ++ freshText tag k) (hs : Of known scope) :
    New known (Known.extend known (fun _ => tag) k (k + 1)) l k :=
  ⟨⟨_, _, ht, hl⟩, hl ▸ hs.extend.slash (.fresh ht ⟨Nat.le_refl _, Nat.lt_succ_self _⟩ rfl), tag, rfl⟩

end Known

namespace Drawn

variable {known : String → Nat → Prop} {lo : Nat} {p : Pos} {act : Act}

theorem silent (h : act.parts = ([], none, none)) : Drawn known [] lo lo [⟨act, p⟩] := by
  obtain ⟨hn, h⟩ := Prod.mk.inj h
  obtain ⟨hl, hc⟩ := Prod.mk.inj h
  refine .step hl hc fun n hm => ?_
  rw [hn] at hm
  cases hm

theorem one {n : String} (hn : Known.Of known n) (h : act.parts = ([n], none, none)) :
    Drawn known [] lo lo [⟨act, p⟩] := by
  obtain ⟨hnames, h⟩ := Prod.mk.inj h
  obtain ⟨hl, hc⟩ := Prod.mk.inj h
  refine .step hl hc fun m hm => ?_
  rw [hnames, mem_singleton] at hm
  exact hm ▸ hn

theorem word {n : String} (hn : IsWord n) (h : act.parts = ([n], none, none)) : Drawn known [] lo lo [⟨act, p⟩] :=
  .one (.word hn) h

theorem words {f : String → Act} (hf : ∀ n, (f n).parts = ([n], none, none)) :
    ∀ {names : List String}, (∀ n ∈ names, IsWord n) → Drawn known [] lo lo (names.map fun n => ⟨f n, p⟩)
  | [], _ => .empty
  | n :: _, h => Drawn.append (.word (h n (.head _)) (hf n)) (words hf fun n hn => h n (.tail _ hn))

end Drawn

theorem Act.silent_of_operands? (h : act.operands? = some n) : act.parts = ([], none, none) := by
  cases act <;> first | rfl | cases h

theorem Act.silent_of_settles? (h : act.settles? = some n) : act.parts = ([], none, none) := by
  cases act <;> first | rfl | cases h

/-! ## Expressions -/

theorem Phrase.le {role : Role} {lo hi : Nat} {links : List Link}
    (h : Phrase rules heads fs role lo hi links s) : lo ≤ hi := by
  induction h with
  | wide ha hb _ ih => exact Nat.le_trans ha (Nat.le_trans ih hb)
  | more _ _ _ ih ih' => omega
  | apply _ _ _ _ ih => exact ih
  | logic _ _ _ _ ih ih' => exact Nat.le_trans ih ih'
  | literal _ _ _ _ ih => omega
  | seq _ _ ih ih' => exact Nat.le_trans ih ih'
  | value _ ih => exact ih
  | call _ _ ih => exact ih
  | store _ _ _ ih => exact ih
  | storeCall _ _ _ ih => exact ih
  | settle _ _ ih => exact ih
  | setField _ _ ih => exact ih
  | block _ _ ih => omega
  | func _ _ _ _ ih => exact ih
  | test _ _ ih => exact ih
  | range _ _ _ ih ih' => exact Nat.le_trans ih ih'
  | _ => exact Nat.le_refl _

/-- One operand phrase after another. -/
theorem Phrase.follow {m a b d : Nat} {t : List Step}
    (h : Phrase rules heads fs (.exprs m) a b [] s) (h' : Phrase rules heads fs (.exprs n) b d [] t) :
    Phrase rules heads fs (.exprs (m + n)) a d [] (s ++ t) := by
  have hab := h.le
  have hbd := h'.le
  exact .wide (by omega) (by omega) (.more (.inl (Nat.le_refl b)) h h')

/-- So many expressions at a place. -/
structure Exprs (heads : String → Prop) (c : Place) (n lo hi : Nat) (s : List Step) : Prop where
  phrase : ∀ fs, Stands c fs → Phrase .free heads fs (.exprs n) lo hi [] s
  drawn : ∀ known, Known.At known c → Drawn known [] lo hi s

namespace Exprs

variable {c : Place} {m n a b d lo hi : Nat} {s t : List Step} {p q : Pos}

theorem none : Exprs heads c 0 lo lo [] := ⟨fun _ _ => .none, fun _ _ => .empty⟩

theorem ident {x : String} (h : IsWord x) : Exprs heads c 1 lo lo [⟨.ident x, p⟩] :=
  ⟨fun _ _ => .atom (VarName.isPart (.inl h)), fun _ _ => .word h rfl⟩

theorem literal {x : Atom} (h : (Act.atom x).parts = ([], .none, .none)) : Exprs heads c 1 lo lo [⟨.atom x, p⟩] :=
  ⟨fun _ _ => .atom (by cases x <;> first | trivial | cases h), fun _ _ => .silent h⟩

theorem typeRef {e : TypeExpr} : Exprs heads c 1 lo lo [⟨.typeRef e, p⟩] :=
  ⟨fun _ _ => .typeRef, fun _ _ => .silent rfl⟩

theorem more (h : Exprs heads c m a b s) (h' : Exprs heads c n b d t) : Exprs heads c (m + n) a d (s ++ t) :=
  ⟨fun fs hfs => (h.phrase fs hfs).follow (h'.phrase fs hfs),
    fun known hc => (h.drawn known hc).append (h'.drawn known hc)⟩

theorem moreBefore (h : Exprs heads c m b d s) (h' : Exprs heads c n a b t) : Exprs heads c (m + n) a d (s ++ t) := by
  refine ⟨fun fs hfs => ?_, fun known hc => (h.drawn known hc).appendBefore (h'.drawn known hc)⟩
  have hbd := (h.phrase fs hfs).le
  have hab := (h'.phrase fs hfs).le
  exact .wide (by omega) (by omega) (.more (.inr (Nat.le_refl b)) (h.phrase fs hfs) (h'.phrase fs hfs))

/-- An operator takes its operands from the phrase before it. -/
theorem apply (hact : act.operands? = some n) (hw : act.Spelled) (h : Exprs heads c n lo hi s) :
    Exprs heads c 1 lo hi (s ++ [⟨act, p⟩]) :=
  ⟨fun fs hfs => .apply hact hw (fun _ _ _ => trivial) (h.phrase fs hfs),
    fun known hc => (h.drawn known hc).append (.silent (Act.silent_of_operands? hact))⟩

/-- The label of `&&` and `||` is made behind the left operand. -/
theorem logic {l : String} (hact : act = .jumpSetFalse l ∨ act = .jumpSetTrue l)
    (hl : l = c.scope ++ "/" ++ freshText "x" b) (h : Exprs heads c 1 a b s) (h' : Exprs heads c 1 (b + 1) d t) :
    Exprs heads c 1 a d (s ++ ⟨act, p⟩ :: t ++ [⟨.label l, q⟩]) := by
  have hmade : Made l := hl ▸ made_freshText (by decide)
  refine ⟨fun fs hfs => .logic hact hmade (h.phrase fs hfs) (.wide (Nat.le_succ _) (Nat.le_refl _) (h'.phrase fs hfs)),
    fun known hc => ?_⟩
  have hk := Known.new (by decide) hl hc.scope
  have hjump : Drawn _ [] (b + 1) (b + 1) [⟨act, p⟩] := .one hk.name (by rcases hact with rfl | rfl <;> rfl)
  have hrest : Drawn known [] b d _ := hk.close
    ((hjump.append (h'.drawn _ (hk.place hc))).append (.label (p := q) hk.name))
  rw [append_assoc]
  exact (h.drawn known hc).append hrest

theorem isSealed (h : Exprs heads c 1 lo hi s) (hc : Known.At known c) : Sealed s := by
  obtain ⟨fs, hfs⟩ := hc.stands
  refine ⟨⟨heads, fs, lo, hi, h.phrase fs hfs⟩, fun l k hk => ?_⟩
  have := (h.drawn known hc).labels l k hk
  rw [count_nil] at this
  split at this <;> omega

end Exprs

/-! ## Statements -/

/-- Statements at a place whose jumps lead to labels among them or to `out`. The labels `has` are among them. -/
def Routes (heads : String → Prop) (c : Place) (out has : List String) (lo hi : Nat) (s : List Step) : Prop :=
  ∀ fs d, Stands c fs → (fs = [] → d = 0) → ∃ links, (∀ l, .jump l ∈ links → .label l ∈ links ∨ l ∈ out) ∧
    (∀ l ∈ has, .label l ∈ links) ∧ Phrase .free heads fs (.stmts d) lo hi links s

namespace Routes

variable {c : Place} {out out' has has' : List String} {a b d lo hi : Nat} {s t : List Step} {p : Pos} {l : String}

theorem wide (h : Routes heads c out has lo hi s) (ha : a ≤ lo) (hb : hi ≤ b) : Routes heads c out has a b s := by
  intro fs d hfs hd
  obtain ⟨links, ho, hh, hp⟩ := h fs d hfs hd
  exact ⟨links, ho, hh, .wide ha hb hp⟩

theorem close (h : Routes heads c out has lo hi s) (ho : ∀ l ∈ out, l ∈ has ∨ l ∈ out') (hh : ∀ l ∈ has', l ∈ has) :
    Routes heads c out' has' lo hi s := by
  intro fs d hfs hd
  obtain ⟨links, ho', hh', hp⟩ := h fs d hfs hd
  exact ⟨links, fun l hl => (ho' l hl).elim .inl fun hl => (ho l hl).imp_left (hh' l), fun l hl => hh' l (hh l hl), hp⟩

theorem weaken (h : Routes heads c out has lo hi s) (ho : ∀ l ∈ out, l ∈ out') (hh : ∀ l ∈ has', l ∈ has) :
    Routes heads c out' has' lo hi s := h.close (fun l hl => .inr (ho l hl)) hh

theorem of_phrase (h : ∀ fs d, Stands c fs → (fs = [] → d = 0) → Phrase .free heads fs (.stmts d) lo hi [] s) :
    Routes heads c out [] lo hi s :=
  fun fs d hfs hd => ⟨[], nofun, nofun, h fs d hfs hd⟩

/-- Two parts in a row owe and place what each does. -/
theorem seq (h : Routes heads c out has a b s) (h' : Routes heads c out' has' b d t) :
    Routes heads c (out ++ out') (has ++ has') a d (s ++ t) := by
  intro fs k hfs hk
  obtain ⟨links, ho, hh, hp⟩ := h fs k hfs hk
  obtain ⟨links', ho', hh', hp'⟩ := h' fs k hfs hk
  refine ⟨links ++ links', fun l hl => ?_, fun l hl => ?_, .seq hp hp'⟩
  · rcases mem_append.mp hl with hl | hl
    · exact (ho l hl).imp (mem_append_left _) (mem_append_left _)
    · exact (ho' l hl).imp (mem_append_right _) (mem_append_right _)
  · rcases mem_append.mp hl with hl | hl
    · exact mem_append_left _ (hh l hl)
    · exact mem_append_right _ (hh' l hl)

theorem test (hact : act = .jumpFalse l ∨ act = .jumpTrue l)
    (h : ∀ fs, Stands c fs → Phrase .free heads fs (.exprs 1) lo hi [] s) :
    Routes heads c [l] [] lo hi (s ++ [⟨act, p⟩]) := fun fs d hfs _ =>
  ⟨[.jump l], fun l' hl => .inr (by cases mem_singleton.mp hl; exact .head _), nofun, .test hact (h fs hfs)⟩

theorem goto (hl : Made l) : Routes heads c [l] [] lo lo [⟨.goto l, p⟩] := fun fs d _ _ =>
  ⟨[.jump l], fun l' hl => .inr (by cases mem_singleton.mp hl; exact .head _), nofun, .goto hl⟩

theorem label (hl : Made l) : Routes heads c [] [l] lo lo [⟨.label l, p⟩] := fun fs d _ _ =>
  ⟨[.label l], fun l' h => (by simp at h), fun l' h => by simpa using h, .label hl⟩

end Routes

/-- Statements at a place whose names are drawn, if the labels that they lead to and those among them are known. -/
structure Part (heads : String → Prop) (c : Place) (out has : List String) (lo hi : Nat) (s : List Step) : Prop where
  routes : Routes heads c out has lo hi s
  drawn : ∀ known, Known.At known c → (∀ l ∈ out, Known.Of known l) → (∀ l ∈ has, Known.Of known l) →
    Drawn known has lo hi s

/-- Statements at a place. -/
abbrev Body (heads : String → Prop) (c : Place) (lo hi : Nat) (s : List Step) : Prop := Part heads c c.exits [] lo hi s

theorem Body.draws {lo hi : Nat} (h : Body heads c lo hi s)
    (hc : Known.At known c) : Drawn known [] lo hi s :=
  h.drawn known hc (fun _ => hc.exit) nofun

namespace Part

variable {c : Place} {out out' has has' : List String} {a b d n lo hi : Nat} {s t : List Step} {p q : Pos} {l : String}

theorem weaken (h : Part heads c out has lo hi s) (ho : ∀ l ∈ out, l ∈ out') : Part heads c out' has lo hi s :=
  ⟨h.routes.weaken ho fun _ hl => hl, fun known hc hk => h.drawn known hc fun l hl => hk l (ho l hl)⟩

theorem of_phrase (h : ∀ fs d, Stands c fs → (fs = [] → d = 0) → Phrase .free heads fs (.stmts d) lo hi [] s)
    (hd : ∀ known, Known.At known c → Drawn known [] lo hi s) : Part heads c out [] lo hi s :=
  ⟨.of_phrase h, fun known hc _ _ => hd known hc⟩

theorem empty : Part heads c out [] lo lo [] := .of_phrase (fun _ _ _ _ => .empty) fun _ _ => .empty

theorem seq (h : Part heads c out has a b s) (h' : Part heads c out' has' b d t) :
    Part heads c (out ++ out') (has ++ has') a d (s ++ t) := by
  refine ⟨h.routes.seq h'.routes, fun known hc ho hh => ?_⟩
  rw [forall_mem_append] at ho hh
  exact (h.drawn known hc ho.1 hh.1).append (h'.drawn known hc ho.2 hh.2)

theorem append (h : Part heads c out [] a b s) (h' : Part heads c out [] b d t) : Part heads c out [] a d (s ++ t) :=
  (h.seq h').weaken fun _ hl => (mem_append.mp hl).elim id id

theorem value (h : Exprs heads c 1 lo hi s) : Part heads c out [] lo hi (⟨.mark, p⟩ :: s ++ [⟨.discard, q⟩]) :=
  .of_phrase (fun fs _ hfs _ => .value (h.phrase fs hfs)) fun known hc =>
    (Drawn.append (.silent rfl) (h.drawn known hc)).append (.silent rfl)

theorem store {k : Nat} (ht : Stores k t) (hd : ∀ known m, Drawn known [] m m t) (hn : n = k ∨ n = 1)
    (h : Exprs heads c n lo hi s) : Part heads c out [] lo hi (s ++ t) :=
  .of_phrase (fun fs _ hfs _ => .store ht (hn.imp_right fun hn => ⟨hn, trivial⟩) (h.phrase fs hfs))
    fun known hc => (h.drawn known hc).append (hd known hi)

theorem settle (hact : act.settles? = some n) (h : Exprs heads c n lo hi s) :
    Part heads c out [] lo hi (s ++ [⟨act, p⟩]) :=
  .of_phrase (fun fs _ hfs _ => .settle hact (h.phrase fs hfs))
    fun known hc => (h.drawn known hc).append (.silent (Act.silent_of_settles? hact))

theorem setField {base : String} {path : List String} (hb : IsWord base) (h : Exprs heads c 1 lo hi s) :
    Part heads c out [] lo hi (⟨.place base, p⟩ :: s ++ [⟨.fieldAssign path, q⟩]) :=
  .of_phrase (fun fs _ hfs _ => .setField (VarName.isPart (.inl hb)) (h.phrase fs hfs)) fun known hc =>
    (Drawn.append (.word hb rfl) (h.drawn known hc)).append (.silent rfl)

theorem test (hact : act = .jumpFalse l ∨ act = .jumpTrue l) (h : Exprs heads c 1 lo hi s) :
    Part heads c [l] [] lo hi (s ++ [⟨act, p⟩]) where
  routes := .test hact h.phrase
  drawn known hc ho _ := (h.drawn known hc).append (.one (ho l (.head _)) (by rcases hact with rfl | rfl <;> rfl))

theorem goto (hl : Made l) : Part heads c [l] [] lo lo [⟨.goto l, p⟩] :=
  ⟨.goto hl, fun _ _ ho _ => .one (ho l (.head _)) rfl⟩

theorem label (hl : Made l) : Part heads c [] [l] lo lo [⟨.label l, p⟩] :=
  ⟨.label hl, fun _ _ _ hh => .label (hh l (.head _))⟩

/-- A block's own scope is closed behind it. -/
theorem block {scope : String} (hs : scope = c.scope ++ "/" ++ freshText "b" lo)
    (h : Part heads (c.within scope) out has (lo + 1) hi s) :
    Part heads c out has lo hi (⟨.enter scope, p⟩ :: s ++ [⟨.leave, q⟩]) where
  routes fs d hfs hd := by
    obtain ⟨links, ho, hh, hp⟩ := h.routes _ d hfs.within nofun
    exact ⟨links, ho, hh, .block (by rw [hfs.scope, hs]) hp⟩
  drawn known hc ho hh := by
    have hk := Known.new (by decide) hs hc.scope
    have hd := h.drawn _ ((hk.place hc).within hk.name) (fun l hl => hk.of (ho l hl)) fun l hl => hk.of (hh l hl)
    have hopen : Drawn _ has (lo + 1) hi (⟨.enter scope, p⟩ :: s) := Drawn.append (.one hk.name rfl) hd
    have hall := Drawn.append (t := [⟨.leave, q⟩]) hopen (.silent rfl)
    rw [append_nil] at hall
    exact hk.forget hall

/-- **A label is made**, and the jumps to it are closed. -/
theorem bind (has : List String) {tag : String} (ht : IsTag tag) (hl : l = c.scope ++ "/" ++ freshText tag lo)
    (h : Part heads c out (has ++ [l]) (lo + 1) hi s) (ho : ∀ x ∈ out, x = l ∨ x ∈ has ∨ x ∈ out') :
    Part heads c out' has lo hi s where
  routes := by
    have hmem : l ∈ has ++ [l] := mem_append_right _ (.head _)
    refine (h.routes.wide (Nat.le_succ _) (Nat.le_refl _)).close (fun x hx => ?_) fun x => mem_append_left [l]
    rcases ho x hx with rfl | hx | hx
    · exact .inl hmem
    · exact .inl (mem_append_left _ hx)
    · exact .inr hx
  drawn known hc ho' hh := by
    have hk := Known.new ht hl hc.scope
    refine hk.close (h.drawn _ (hk.place hc) (fun x hx => ?_) fun x hx => ?_)
    · rcases ho x hx with rfl | hx | hx
      · exact hk.name
      · exact hk.of (hh x hx)
      · exact hk.of (ho' x hx)
    · rcases mem_append.mp hx with hx | hx
      · exact hk.of (hh x hx)
      · exact mem_singleton.mp hx ▸ hk.name

end Part

end Goblet
