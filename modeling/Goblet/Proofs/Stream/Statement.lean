import Goblet.Proofs.Stream.Expression
import Goblet.Stream.Chunk

/-!
# Shaped statements are phrases

The steps of a statement are statements at its place, for every control structure (`ifFrom_makes`, `forLoop_makes`,
`switch_makes`). A structure is put together from parts, each with the labels it has and those it jumps to, and its
jumps lead to labels that it has or to the ends of what is around it (`Part.bind`). The label of a case is made between
the tests of a switch and stands behind them: `Drawn.fulfil` puts it there.
-/

namespace Goblet

open List Drawn Known Option

open Token (AllNamed)

variable {heads : String → Prop} {i : Int64} {store : Act} {spec : ValueSpec} {ty : Option TypeExpr} {last : Pos}
  {e : List Step} {tags : Nat → String}

/-! ## Names of constants and cases -/

section

variable {known : String → Nat → Prop}

/-- The expression of a constant whose names are known. -/
structure Quoted (known : String → Nat → Prop) (e : List Step) : Prop where
  names : ∀ n, Occurs e n → Known.Of known n
  whole : Sealed e
  inner : ∀ e', Inner e e' → Sealed e'

theorem Quoted.extend {a b : Nat} (h : Quoted known e) :
    Quoted (extend known tags a b) e :=
  ⟨fun n hn => (h.names n hn).extend, h.whole, h.inner⟩

namespace Drawn

variable {own labels : List String} {lo m hi : Nat} {s t : List Step} {p : Pos}

theorem constant {n : String} (hn : Known.Of known n)
    (he : Quoted known e) : Drawn known [] lo lo [⟨.constant n ty e i, p⟩] where
  le := Nat.le_refl _
  names := by
    refine ⟨fun _ => "", fun m hm tag k hk => .inl ?_⟩
    rcases hm with ⟨s, hs, hm⟩ | ⟨e', he', s, hs, hm⟩
    · rw [mem_singleton.mp hs] at hm
      rw [mem_singleton.mp hm] at hk
      exact hn tag k hk
    · obtain ⟨_, h, he'⟩ := he'.single
      cases h
      rcases he' with rfl | he'
      · exact he.names m (.inl ⟨s, hs, hm⟩) tag k hk
      · exact he.names m (.inr ⟨e', he', s, hs, hm⟩) tag k hk
  labels l _ _ := by
    exact Nat.zero_le _
  constants e' he' := by
    obtain ⟨_, h, he'⟩ := he'.single
    cases h
    rcases he' with rfl | he'
    · exact he.whole
    · exact he.inner e' he'

/-- **Labels that are made beside some steps stand in the steps behind them.** -/
theorem fulfil (h : Drawn known own lo m (s ++ labels.map fun l => ⟨.label l, p⟩))
    (hn : ∀ n, Occurs s n → Known.Of (extend known tags lo m) n)
    (ht : Drawn (extend known tags lo m) labels m hi t) : Drawn known own lo hi (s ++ t) := by
  have seenLabels (l : String) : seen l (labels.map fun l => ⟨.label l, p⟩) = labels.count l := by
    have hmap : ((labels.map fun l => (⟨.label l, p⟩ : Step)).filterMap fun s => s.val.label?) = labels := by
      rw [filterMap_map]
      exact filterMap_some
    rw [seen, hmap]
  have hle := h.le
  have hle' := ht.le
  refine ⟨Nat.le_trans hle hle', ?_, fun l k hk => ?_, fun e he => ?_⟩
  · obtain ⟨f, hf⟩ := ht.names
    refine ⟨fun k => if k < m then tags k else f k, fun n hn' tag k hk => ?_⟩
    have hcases : extend (extend known tags lo m) f m hi tag k := by
      rcases Occurs.append.mp hn' with hn' | hn'
      · exact .inl (hn n hn' tag k hk)
      · exact hf n hn' tag k hk
    rcases hcases with (hk | ⟨hk, htag⟩) | ⟨hk, htag⟩
    · exact .inl hk
    · exact .inr ⟨⟨hk.1, by omega⟩, (if_pos hk.2).trans htag⟩
    · exact .inr ⟨⟨by omega, hk.2⟩, (if_neg (by omega)).trans htag⟩
  · have hs := h.labels l k hk
    have ht := ht.labels l k hk
    rw [seen_append, seenLabels] at hs
    rw [seen_append]
    split at hs <;> split at ht <;> split <;> omega
  · rcases Inner.append.mp he with he | he
    · exact h.constants e (Inner.append.mpr (.inl he))
    · exact ht.constants e he

end Drawn

end

namespace Shape

variable {inside : Inside} {c : Place} {toks : List Token} {p : Pos} {lo : Nat}

/-! ## Declarations -/

theorem declNames_named : ∀ {toks : List Token} {r}, declNames last toks = .ok r → AllNamed toks →
    (∀ n ∈ r.1, IsWord n) ∧ AllNamed r.2 := by
  intro toks r h ht
  fun_induction declNames last toks generalizing r with
  | case1 n q s ts ih =>
    obtain ⟨r', hr, h⟩ := bind_ok.mp h
    cases h
    obtain ⟨hn, hrest⟩ := ih hr ht.tail.tail
    refine ⟨fun m hm => ?_, hrest⟩
    rcases mem_cons.mp hm with rfl | hm
    · exact ht.head.word
    · exact hn m hm
  | case2 n q ts =>
    cases h
    exact ⟨fun m hm => by rw [mem_singleton.mp hm]; exact ht.head.word, ht.tail⟩
  | case3 => cases h

/-- The names of a specification are words, and so are those in its values. -/
def ValueSpec.Named (s : ValueSpec) : Prop :=
  (∀ n ∈ s.names, IsWord n) ∧ ∀ vs, s.values = some vs → ∀ v ∈ vs, AllNamed v

theorem ValueSpec.named_of_read (h : ValueSpec.read last toks = .ok spec)
    (ht : AllNamed toks) : spec.Named := by
  obtain ⟨r, hr, h⟩ := bind_ok.mp h
  obtain ⟨hn, -⟩ := declNames_named hr (ht.takeWhile _)
  dsimp only at h
  split at h
  all_goals
    obtain ⟨ty, -, h⟩ := bind_ok.mp h
    cases h
    refine ⟨hn, fun vs hv => ?_⟩
    split at hv
    · rename_i t right hd
      cases hv
      have hright : AllNamed (t :: right) := hd ▸ ht.drop _
      exact fun v hm => hright.tail.commaList hm
    · cases hv

theorem specs_named (ht : AllNamed toks) : ∀ spec ∈ specs toks, AllNamed spec := by
  intro spec hs
  unfold specs at hs
  split at hs
  · exact ht.head.inner.clauses (mem_filter.mp hs).1
  · rw [mem_singleton.mp hs]
    exact ht

variable (hi : inside.Sound heads) {ty : Option TypeExpr}
include hi

theorem exprList_makes : ∀ {lo : Nat} {es : List (List Token)}, (∀ e ∈ es, AllNamed e) →
    Makes lo (exprList inside c es) fun m r =>
      Exprs heads c es.length lo m r.flatten ∧ ∀ e ∈ r, ∃ a b, Exprs heads c 1 a b e
  | _, [], _ => .ret ⟨.none, nofun⟩
  | _, e :: es, h => (exprWith_makes hi (h e (.head _))).seq fun _ _ _ hs =>
    (exprList_makes fun e he => h e (.tail _ he)).seq fun _ _ _ hr =>
      .ret ⟨by
        rw [flatten_cons, length_cons, Nat.add_comm]
        exact hs.more hr.1, forall_mem_cons.mpr ⟨⟨_, _, hs⟩, hr.2⟩⟩

theorem exprs_makes {es : List (List Token)} (h : ∀ e ∈ es, AllNamed e) :
    Makes lo (exprs inside c es) (Exprs heads c es.length lo) :=
  (exprList_makes hi h).seq fun _ _ _ hr => .ret hr.1

omit hi

theorem declares_part : ∀ {names : List String}, (∀ n ∈ names, IsWord n) →
    Part heads c c.exits [] lo lo (names.map fun n => ⟨.declare n ty false, p⟩)
  | [], _ => .empty
  | _ :: _, h => Part.append (s := [_]) (.of_phrase (fun _ _ _ _ => .declare ⟨.inl (h _ (.head _)), rfl⟩)
      fun _ _ => .word (h _ (.head _)) rfl) (declares_part fun n hn => h n (.tail _ hn))

theorem stores_declares : ∀ {names : List String}, (∀ n ∈ names, IsWord n) →
    Stores names.length (names.map fun n => ⟨.declare n ty true, p⟩)
  | [], _ => .none
  | _ :: _, h => .declare (.inl (h _ (.head _))) (stores_declares fun n hn => h n (.tail _ hn))

include hi

/-- A `var` line leaves its stack as it found it. -/
theorem varSpec_makes (ht : AllNamed toks) :
    Makes lo (varSpec inside c toks) (Body heads c lo) := by
  refine last_makes.seq fun _ m _ hm => ?_
  subst hm
  refine (lift_makes fun _ _ h => ValueSpec.named_of_read h ht).seq fun spec m _ ⟨hm, hspec⟩ => ?_
  subst hm
  split
  · exact fail_makes
  · exact .ret (declares_part hspec.1)
  · rename_i values hv
    refine .ite (fun _ => fail_makes) fun hn => (exprs_makes hi (hspec.2 values hv)).seq fun _ _ _ hs => .ret ?_
    have hnames : ∀ n ∈ spec.names.reverse, IsWord n := fun n hn => hspec.1 n (mem_reverse.mp hn)
    refine .store (k := spec.names.length) ?_ (fun _ _ => .words (fun _ => rfl) hnames) (by omega) hs
    rw [← length_reverse]
    exact stores_declares hnames

theorem varSpecs_makes : ∀ {lo : Nat} {parts : List (List Token)}, (∀ s ∈ parts, AllNamed s) →
    Makes lo (varSpecs inside c parts) (Body heads c lo)
  | _, [], _ => .ret .empty
  | _, _ :: _, h => (varSpec_makes hi (h _ (.head _))).seq fun _ _ _ hs =>
    (varSpecs_makes fun s hs => h s (.tail _ hs)).seq fun _ _ _ hr => .ret (hs.append hr)

end Shape

/-- What a declaration at the head of a chunk may be. -/
def Act.Decl : Act → Prop
  | .typeDef n _ | .constant n .. => VarName n
  | .header key sig => (∃ n, IsWord n ∧ key = Place.mainScope ++ "/" ++ n) ∧ sig.Named
  | .imports n _ => '/' ∉ n.toList
  | _ => False

namespace Shape

variable {inside : Inside} {c : Place} {toks : List Token} {p : Pos} {lo : Nat} {s : List Step}
variable {es : List (List Step)} {n label : String} {names : List String} {op : Option Operator}
  {value body base index left right header : List Token} {known : String → Nat → Prop} {a : Nat} {q : Pos}
  {tag : Option String}

/-- Declarations that may stand at the head, and inside of blocks. -/
def Declares (steps : List Step) : Prop := ∀ s ∈ steps, s.val.Decl ∧ ∀ fs, fs ≠ [] → s.val.Declares fs

theorem Declares.routes (hc : c.top = false) : ∀ {steps : List Step}, Declares steps →
    Routes heads c c.exits [] lo lo steps
  | [], _ => .of_phrase fun _ _ _ _ => .empty
  | ⟨_, _⟩ :: _, h => ((Routes.of_phrase fun _ _ hfs _ => .declare ((h _ (.head _)).2 _ fun hn =>
      absurd (hfs.top.mpr hn) (by rw [hc]; decide))).seq (Declares.routes hc fun s hs => h s (.tail _ hs))).weaken
        (fun _ hl => (mem_append.mp hl).elim id id) nofun

/-- The expressions of a specification of constants can be repeated. -/
def Repeatable (known : String → Nat → Prop) (r : Option (Option TypeExpr × List (List Step))) : Prop :=
  ∀ ty es, r = some (ty, es) → ∀ e ∈ es, Quoted known e

theorem Repeatable.extend {r : Option (Option TypeExpr × List (List Step))}
    {b : Nat} (h : Repeatable known r) : Repeatable (extend known tags a b) r :=
  fun ty es hr e he => (h ty es hr e he).extend

theorem occurs_flatten (he : e ∈ es) (h : Occurs e n) : Occurs es.flatten n := by
  obtain ⟨s, t, rfl⟩ := append_of_mem he
  rw [flatten_append]
  exact Occurs.append.mpr (.inr (Occurs.append.mpr (.inl h)))

theorem inner_flatten {e e' : List Step} (he : e ∈ es) (h : Inner e e') : Inner es.flatten e' := by
  obtain ⟨s, t, rfl⟩ := append_of_mem he
  rw [flatten_append]
  exact Inner.append.mpr (.inr (Inner.append.mpr (.inl h)))

variable (hi : inside.Sound heads)
include hi

theorem constCurrent_makes {previous} (hs : spec.Named) :
    Makes lo (constCurrent inside c p spec previous) fun m r => ∀ known, Known.At known c → Repeatable known previous →
      ∃ tags, Repeatable (extend known tags lo m) r := by
  unfold constCurrent
  split
  · rename_i values hv
    refine (exprList_makes hi (hs.2 values hv)).seq fun es m hm hes => .ret fun known hc _ => ?_
    have hd := hes.1.drawn known hc
    obtain ⟨tags, htags⟩ := hd.names
    refine ⟨tags, fun ty es' he e hm => ?_⟩
    cases he
    obtain ⟨a, b, he⟩ := hes.2 e hm
    exact ⟨fun n hn => htags n (occurs_flatten hm hn), he.isSealed hc, fun e' he' =>
      hd.constants e' (inner_flatten hm he')⟩
  · exact fail_makes
  · exact .ret fun known _ hp => ⟨fun _ => "", hp.extend⟩

omit hi

theorem drawn_constants
    (hn : ∀ n ∈ names, IsWord n) (he : ∀ e ∈ es, Quoted known e) :
    Drawn known [] lo lo ((names.zip es).map fun (n, e) => ⟨Act.constant n ty e i, p⟩) := by
  induction names generalizing es with
  | nil => exact .empty
  | cons n names ih =>
    cases es with
    | nil => exact .empty
    | cons e es =>
      exact append (.constant (.word (hn n (.head _))) (he e (.head _)))
        (ih (fun n h => hn n (.tail _ h)) fun e h => he e (.tail _ h))

include hi

/-- A `const` group, with the expressions it repeats. -/
theorem constSpecs_makes : ∀ {lo : Nat} {parts : List (List Token)} {iota : Nat} {previous},
    (∀ s ∈ parts, AllNamed s) → Makes lo (constSpecs inside c parts iota previous) fun m r => Declares r ∧
      ∀ known, Known.At known c → Repeatable known previous → Drawn known [] lo m r
  | _, [], _, _, _ => .ret ⟨nofun, fun _ _ _ => .empty⟩
  | lo, toks :: rest, iota, previous, h => by
    have hrest : ∀ s ∈ rest, AllNamed s := fun s hs => h s (.tail _ hs)
    refine last_makes.seq fun _ m _ hm => ?_
    subst hm
    refine (lift_makes fun _ _ hr => ValueSpec.named_of_read hr (h _ (.head _))).seq fun spec m _ ⟨hm, hspec⟩ => ?_
    subst hm
    refine (constCurrent_makes hi hspec).seq fun current m' hm hcurrent => ?_
    split
    · exact fail_makes
    · refine .ite (fun _ => fail_makes) fun _ => (constSpecs_makes hrest).seq fun more _ _ hmore => .ret ⟨?_, ?_⟩
      · refine forall_mem_append.mpr ⟨fun s hs => ?_, hmore.1⟩
        obtain ⟨⟨n, e⟩, hn, rfl⟩ := mem_map.mp hs
        have hword := hspec.1 n (of_mem_zip hn).1
        exact ⟨.inl hword, fun _ h => ⟨.inl hword, h⟩⟩
      · intro known hc hp
        obtain ⟨tags, hnew⟩ := hcurrent known hc hp
        exact close hm ((drawn_constants hspec.1 (hnew _ _ rfl)).append (hmore.2 _ hc.extend hnew))
          fun _ _ _ => Nat.zero_le _

omit hi

theorem typeSpecs_makes : ∀ {lo : Nat} {parts : List (List Token)}, (∀ s ∈ parts, AllNamed s) →
    Makes lo (typeSpecs parts) fun m r => Declares r ∧ ∀ known, Drawn known [] lo m r
  | _, [], _ => .ret ⟨nofun, fun _ => .empty⟩
  | lo, part :: rest, h => by
    have hpart := h part (.head _)
    have hrest : ∀ s ∈ rest, AllNamed s := fun s hs => h s (.tail _ hs)
    unfold typeSpecs
    split
    · exact absurd ‹_ = []› (by simp)
    · rename_i heq
      obtain ⟨rfl, rfl⟩ := List.cons.inj heq
      have hword := hpart.head.word
      refine (lift_makes fun _ _ _ => trivial).seq fun ty _ _ hm => ?_
      rw [hm.1]
      refine (typeSpecs_makes hrest).seq fun more _ _ hm => .ret ⟨?_, fun known => ?_⟩
      · exact forall_mem_cons.mpr ⟨⟨.inl hword, fun _ h => ⟨.inl hword, h⟩⟩, hm.1⟩
      · exact append (.word hword rfl) (hm.2 known)
    · exact failAt_makes

theorem noSlash_lastPart (path : String) : '/' ∉ (lastPart path).toList := by
  unfold lastPart
  rw [String.toList_ofList, mem_reverse]
  intro h
  exact absurd (all_eq_true.mp all_takeWhile _ h) (by decide)

theorem importSpecs_makes : ∀ {lo : Nat} {parts : List (List Token)}, (∀ part ∈ parts, AllNamed part) →
    Makes lo (importSpecs parts) fun m r => (∀ s ∈ r, ∃ n path, s.val = .imports n path ∧ '/' ∉ n.toList) ∧
      ∀ known, Drawn known [] lo m r
  | _, [], _ => .ret ⟨nofun, fun _ => .empty⟩
  | lo, part :: rest, hn => by
    have step {n path : String} {q : Pos} (hs : '/' ∉ n.toList) :
        Makes lo (do return ⟨.imports n path, q⟩ :: (← importSpecs rest)) fun m r =>
          (∀ s ∈ r, ∃ n path, s.val = .imports n path ∧ '/' ∉ n.toList) ∧ ∀ known, Drawn known [] lo m r :=
      (importSpecs_makes fun part hp => hn part (.tail _ hp)).seq fun more _ _ hm => .ret
        ⟨forall_mem_cons.mpr ⟨⟨_, _, rfl, hs⟩, hm.1⟩, fun known => append (.silent rfl) (hm.2 known)⟩
    unfold importSpecs
    split
    · exact .ret ⟨nofun, fun _ => .empty⟩
    · rename_i heq
      obtain ⟨rfl, rfl⟩ := List.cons.inj heq
      exact step (noSlash_lastPart _)
    · rename_i heq
      obtain ⟨rfl, rfl⟩ := List.cons.inj heq
      exact step ((hn _ (.head _)).head.word.notMem (by decide))
    · exact failAt_makes

/-! ## Assignments and expression statements -/

/-- A statement. That of an expression is the expression between a mark and its removal, and a target that can be read
is a word. -/
def Settled (heads : String → Prop) (c : Place) (lo hi : Nat) (r : Outcome × List Step) : Prop :=
  Body heads c lo hi r.2 ∧
    (r.1 = .expr → ∃ p e q, r.2 = ⟨.mark, p⟩ :: e ++ [⟨.discard, q⟩] ∧ Exprs heads c 1 lo hi e) ∧
    ∀ n, r.1 = .assign (some n) → IsWord n

theorem whenCombining_makes {m : Shape (List Step)} (h : Makes lo m (Exprs heads c 1 lo)) :
    Makes lo (whenCombining op m) (Exprs heads c op.isSome.toNat lo) := by
  unfold whenCombining
  split
  · exact h
  · exact .ret .none

include hi

theorem stored_makes (hs : Exprs heads c op.isSome.toNat a lo s) (ht : AllNamed toks) :
    Makes lo (stored inside c toks op p) fun m r => Exprs heads c 1 a m (s ++ r) := by
  refine (exprWith_makes hi ht).seq fun _ _ _ hv => ?_
  split
  · refine .ret ?_
    rw [← append_assoc]
    exact .apply rfl trivial (hs.more hv)
  · exact .ret (by simpa using hs.more hv)

theorem assignDeref_makes {pointer : List Token}
    (hp : AllNamed pointer) (hv : AllNamed value) :
    Makes lo (assignDeref inside c pointer value op p) (Body heads c lo) := by
  refine (exprWith_makes hi hp).seq fun _ m _ ht => ?_
  have current : Makes m (do return (← exprWith inside c pointer) ++ [⟨.unary .mul, p⟩]) (Exprs heads c 1 m) :=
    (exprWith_makes hi hp).seq fun _ _ _ hs => .ret (.apply rfl trivial hs)
  refine (whenCombining_makes current).seq fun _ _ _ hc => (stored_makes hi hc hv).seq fun _ _ _ hv => .ret ?_
  have hall := ht.more hv
  rw [← append_assoc] at hall
  exact .settle rfl hall

theorem assignIndex_makes (hb : AllNamed base) (hx : AllNamed index) (hv : AllNamed value) :
    Makes lo (assignIndex inside c base index value op p) (Body heads c lo) := by
  have element (m : Nat) : Makes m (do
      let b ← exprWith inside c base
      let i ← exprWith inside c (Token.withoutSemicolons index)
      return b ++ i) (Exprs heads c 2 m) :=
    (exprWith_makes hi hb).seq fun _ _ _ hb => (exprWith_makes hi hx.withoutSemicolons).seq fun _ _ _ hi =>
      .ret (hb.more hi)
  refine (element lo).seq fun _ m _ ht => ?_
  refine (whenCombining_makes ((element m).seq fun _ _ _ he => .ret (.apply rfl (by trivial) he))).seq
    fun _ _ _ hc => ?_
  refine (stored_makes hi hc hv).seq fun _ _ _ hv => .ret ?_
  have hall := ht.more hv
  rw [← append_assoc] at hall
  exact .settle rfl hall

omit hi

theorem fieldPath_named : ∀ {toks : List Token} {path : List String}, fieldPath? toks = some path → AllNamed toks →
    ∀ f ∈ path, IsWord f := by
  intro toks path h ht
  fun_induction fieldPath? toks generalizing path with
  | case1 q n r =>
    cases h
    intro f hf
    rw [mem_singleton.mp hf]
    exact ht.tail.head.word
  | case2 q n r ts _ ih =>
    obtain ⟨rest, hrest, rfl⟩ := map_eq_some_iff.mp h
    intro f hf
    rcases mem_cons.mp hf with rfl | hf
    · exact ht.tail.head.word
    · exact ih hrest ht.tail.tail f hf
  | case3 => cases h

include hi

theorem assignField_makes {base : String} {path : List String} (hb : IsWord base)
    (hf : ∀ f ∈ path, IsWord f) (hv : AllNamed value) :
    Makes lo (assignField inside c base path value op p) (Body heads c lo) := by
  have fields : ∀ {path : List String} {s : List Step}, (∀ f ∈ path, IsWord f) → Exprs heads c 1 lo lo s →
      Exprs heads c 1 lo lo (s ++ path.map fun f => ⟨.field f, p⟩) := by
    intro path
    induction path with
    | nil => exact fun _ hs => by simpa using hs
    | cons f path ih =>
      intro s hf hs
      have hfield : Exprs heads c 1 lo lo (s ++ [⟨.field f, p⟩]) := .apply rfl (hf f (.head _)) hs
      simpa using ih (fun g hg => hf g (.tail _ hg)) hfield
  have current : Exprs heads c 1 lo lo (⟨.ident base, p⟩ :: path.map fun f => ⟨.field f, p⟩) :=
    fields hf (.ident hb)
  refine (whenCombining_makes (.ret current)).seq fun _ _ _ hc => ?_
  refine (stored_makes hi hc hv).seq fun _ _ _ hv => .ret ?_
  exact .setField hb hv

omit hi

theorem elementTarget_named (h : elementTarget? toks = some (base, index))
    (ht : AllNamed toks) : AllNamed base ∧ AllNamed index := by
  unfold elementTarget? at h
  split at h
  · rename_i d hl
    split at h
    · cases h
    · cases h
      exact ⟨ht.dropLast, (ht _ (mem_of_getLast? hl)).inner⟩
  · cases h

theorem readable_word {m : String} (h : IsWord n) (hr : readable n = some m) : IsWord m := by
  unfold readable at hr
  split at hr
  · cases hr
  · cases hr
    exact h

theorem stores_targets (hstore : store = .define ∨ store = .assign) : ∀ {names : List String},
    (∀ n ∈ names, IsWord n) →
      Stores names.length (names.flatMap fun n => ([⟨.ident n, p⟩, ⟨store, p⟩] : List Step))
  | [], _ => .none
  | n :: names, h => by
    have ih := stores_targets hstore fun n hn => h n (.tail _ hn)
    rcases hstore with rfl | rfl
    · exact .define (.inl (h n (.head _))) ih
    · exact .assign (VarName.isPart (.inl (h n (.head _)))) ih

theorem drawn_targets (hstore : store = .define ∨ store = .assign) :
    ∀ {names : List String},
    (∀ n ∈ names, IsWord n) → Drawn known [] lo lo (names.flatMap fun n => [⟨.ident n, p⟩, ⟨store, p⟩])
  | [], _ => .empty
  | n :: _, h => by
    have hs : Drawn known [] lo lo [⟨store, p⟩] := by rcases hstore with rfl | rfl <;> exact .silent rfl
    exact (append (.word (h n (.head _)) rfl) hs).append
      (drawn_targets hstore fun n hn => h n (.tail _ hn))

include hi

theorem assignTarget_makes {target : List Token}
    (ht : AllNamed target) (hv : AllNamed value) :
    Makes lo (assignTarget inside c target value op p) (Settled heads c lo) := by
  unfold assignTarget
  split
  · exact fail_makes
  · rename_i name q
    have hn := ht.head.word
    have hwords : ∀ n ∈ [name], IsWord n := fun n h => mem_singleton.mp h ▸ hn
    refine (whenCombining_makes (.ret (.ident hn))).seq fun _ _ _ hc => (stored_makes hi hc hv).seq fun _ _ _ hv =>
      .ret ?_
    refine ⟨.store (stores_targets (.inr rfl) hwords) (fun _ _ => drawn_targets (.inr rfl) hwords) (.inl rfl) hv, nofun,
      fun n hr => ?_⟩
    exact readable_word hn (Outcome.assign.inj hr)
  · exact (assignDeref_makes hi ht.tail hv).seq fun _ _ _ hs => .ret ⟨hs, nofun, nofun⟩
  · split
    · rename_i base index he
      obtain ⟨hb, hx⟩ := elementTarget_named he ht
      exact (assignIndex_makes hi hb hx hv).seq fun _ _ _ hs => .ret ⟨hs, nofun, nofun⟩
    · split
      · split
        · rename_i hpath
          exact (assignField_makes hi ht.head.word (fieldPath_named hpath ht.tail) hv).seq
            fun _ _ _ hs => .ret ⟨hs, nofun, nofun⟩
        · exact fail_makes
      · exact fail_makes

omit hi

theorem targetNames_named : ∀ {targets : List (List Token)} {names : List String},
    targets.mapM targetName? = some names → (∀ t ∈ targets, AllNamed t) → ∀ n ∈ names, IsWord n
  | [], _, h, _, n, hn => by
    cases h
    cases hn
  | t :: ts, names, h, ht, n, hn => by
    rw [mapM_cons] at h
    obtain ⟨m, hm, h⟩ := bind_eq_some_iff.mp h
    obtain ⟨ms, hms, h⟩ := bind_eq_some_iff.mp h
    cases h
    rcases mem_cons.mp hn with rfl | hn
    · unfold targetName? at hm
      split at hm
      · cases hm
        exact (ht _ (.head _)).head.word
      · cases hm
    · exact targetNames_named hms (fun t h => ht t (.tail _ h)) n hn

include hi

/-- Several targets take one value each. -/
theorem assignAll_makes {op : Operator} (hl : AllNamed left) (hr : AllNamed right) :
    Makes lo (assignAll inside c left right op p) (Settled heads c lo) := by
  refine .ite (fun _ => fail_makes) fun _ => ?_
  split
  · rename_i names hnames
    have hwords := targetNames_named hnames fun _ ht => hl.commaList ht
    refine .ite (fun _ => fail_makes) fun hn => (exprs_makes hi fun _ he => hr.commaList he).seq fun _ _ _ hs => ?_
    have hback : ∀ n ∈ names.reverse, IsWord n := fun n hn => hwords n (mem_reverse.mp hn)
    refine .ret ⟨.store (k := names.length) ?_ (fun _ _ => drawn_targets ?_ hback) (by omega) hs, nofun, fun n hn => ?_⟩
    · rw [← length_reverse]
      exact stores_targets (by split <;> simp) hback
    · split <;> simp
    · obtain ⟨m, hm, hr⟩ := bind_eq_some_iff.mp (Outcome.assign.inj hn)
      exact readable_word (hwords m (mem_of_getLast? hm)) hr
  · exact .ite (fun _ => fail_makes) fun _ => .ite (fun _ => fail_makes) fun _ => assignTarget_makes hi hl hr

omit hi

theorem splitAssignment_named : ∀ {toks : List Token} {r}, splitAssignment? toks = some r → AllNamed toks →
    AllNamed r.1 ∧ AllNamed r.2.2.2 := by
  intro toks r h ht
  fun_induction splitAssignment? toks generalizing r with
  | case1 => cases h
  | case2 op q ts =>
    cases h
    exact ⟨.nil, ht.tail⟩
  | case3 op q ts _ ih | case4 t ts _ ih =>
    obtain ⟨r', hr, rfl⟩ := map_eq_some_iff.mp h
    obtain ⟨h1, h2⟩ := ih hr ht.tail
    exact ⟨h1.cons ht.head, h2⟩

include hi

/-- A simple statement leaves a value only as its result. -/
theorem simpleStatement_makes (ht : AllNamed toks) :
    Makes lo (simpleStatement inside c toks) (Settled heads c lo) := by
  unfold simpleStatement
  split
  · exact failAt_makes
  · split
    · refine (exprWith_makes hi ht).seq fun e m _ he => last_makes.seq fun _ _ _ hm => .ret ?_
      subst hm
      exact ⟨.value he, fun _ => ⟨_, e, _, rfl, he⟩, fun n hn => by cases hn⟩
    · rename_i left op q right hs
      obtain ⟨hl, hr⟩ := splitAssignment_named hs ht
      have one : AllNamed [.atom (.int 1) q] := .cons (.atom (by simp)) .nil
      split
      · split
        · exact fail_makes
        · exact assignTarget_makes hi hl one
      · split
        · exact fail_makes
        · exact assignTarget_makes hi hl one
      · exact assignAll_makes hi hl hr
      · exact assignAll_makes hi hl hr
      · exact .ite (fun _ => fail_makes) fun _ => assignTarget_makes hi hl hr

theorem optionalSimple_makes (ht : AllNamed toks) :
    Makes lo (optionalSimple inside c toks) (Body heads c lo) :=
  .ite (fun _ => .ret .empty) fun _ => (simpleStatement_makes hi ht).seq fun _ _ _ hs => .ret hs.1

/-! ## Blocks and control structures -/

theorem block_makes (ht : AllNamed toks) :
    Makes lo (block inside c toks p) (Body heads c lo) := by
  refine fresh_makes.seq fun scope m _ ⟨hm, hscope⟩ => (hi.body _ _ _ rfl ht).seq fun _ _ _ hb => ?_
  refine last_makes.seq fun _ _ _ hm' => .ret ?_
  subst hm hm'
  exact .block hscope hb

omit hi

theorem splitBody_named : ∀ {toks : List Token} {before prev : Option Token} {r}, splitBody before prev toks = some r →
    AllNamed toks → AllNamed r.1 ∧ AllNamed r.2.1 ∧ AllNamed r.2.2.2 := by
  intro toks before prev r h ht
  fun_induction splitBody before prev toks generalizing r with
  | case1 => cases h
  | case2 before prev ts inner q =>
    cases h
    exact ⟨.nil, ht.head.inner, ht.tail⟩
  | case3 before prev ts t _ ih =>
    obtain ⟨r', hr, rfl⟩ := map_eq_some_iff.mp h
    obtain ⟨h1, h2⟩ := ih hr ht.tail
    exact ⟨h1.cons ht.head, h2⟩

theorem bodyOf_makes (ht : AllNamed toks) :
    Makes lo (bodyOf p toks) fun m r => m = lo ∧ AllNamed r.1 ∧ AllNamed r.2.1 ∧ AllNamed r.2.2.2 := by
  unfold bodyOf
  split
  · exact .ret ⟨rfl, splitBody_named ‹_› ht⟩
  · exact fail_makes

theorem ifHeader_makes (ht : AllNamed toks) :
    Makes lo (ifHeader p toks) fun m r => m = lo ∧ (∀ init, r.1 = some init → AllNamed init) ∧ AllNamed r.2 := by
  have parts : ∀ part ∈ Token.clauses toks, AllNamed part := fun _ h => ht.clauses h
  unfold ifHeader
  split
  · rename_i cond hc
    rw [hc] at parts
    exact .ite (fun _ => fail_makes) fun _ => .ret ⟨rfl, nofun, parts _ (by simp)⟩
  · rename_i init cond hc
    rw [hc] at parts
    exact .ite (fun _ => fail_makes) fun _ => .ret
      ⟨rfl, fun _ h => by cases h; exact parts _ (by simp), parts _ (by simp)⟩
  · exact fail_makes

/-- Statements, and tokens whose identifiers are words. -/
def Leaves (heads : String → Prop) (c : Place) (lo hi : Nat) (r : List Step × List Token) : Prop :=
  Body heads c lo hi r.1 ∧ AllNamed r.2

include hi

theorem initSteps_makes {init : Option (List Token)}
    (ht : ∀ toks, init = some toks → AllNamed toks) : Makes lo (initSteps inside c init) (Body heads c lo) := by
  unfold initSteps
  split
  · exact (simpleStatement_makes hi (ht _ rfl)).seq fun _ _ _ hs => .ret hs.1
  · exact .ret .empty

theorem elseBranch_makes {again : Pos → List Token → Shape (List Step × List Token)}
    (ha : ∀ p toks, AllNamed toks → Makes lo (again p toks) (Leaves heads c lo)) (ht : AllNamed toks) :
    Makes lo (elseBranch inside c again toks) (Leaves heads c lo) := by
  unfold elseBranch
  split
  · exact ha _ _ ht.tail
  · exact (block_makes hi ht.head.inner).seq fun _ _ _ hb => .ret ⟨hb, ht.tail⟩
  · exact failAt_makes

/-- An `if` chain, by recursion on its `else` branches. -/
theorem ifFrom_makes : ∀ {n lo : Nat} {c : Place} {p : Pos} {toks : List Token},
    AllNamed toks → Makes lo (ifFrom inside n c p toks) (Leaves heads c lo)
  | 0, _, _, _, _, _ => fail_makes
  | n + 1, lo, c, p, toks, ht => by
    refine (bodyOf_makes ht).seq fun parts m1 _ ⟨hm1, hheader, hbody, hrest⟩ => ?_
    refine (ifHeader_makes hheader).seq fun header m2 _ ⟨hm2, hinit, hcond⟩ => ?_
    refine fresh_makes.seq fun scope m3 _ ⟨hm3, hscope⟩ => fresh_makes.seq fun elseLabel m4 _ ⟨hm4, helse⟩ => ?_
    subst hm1 hm2 hm3 hm4
    refine (initSteps_makes hi hinit).seq fun start _ _ hstart => (exprWith_makes hi hcond).seq fun test _ _ htest => ?_
    refine (block_makes hi hbody).seq fun yes m hm hyes => ?_
    have hmade : Made elseLabel := helse ▸ made_freshText (by decide)
    have hfront := (hstart.seq (.test (p := p) (l := elseLabel) (.inl rfl) htest)).seq hyes
    -- the block ends with what has the label of the else branch
    have whole (close : Pos) {hi : Nat} {rear : List Step}
        (hrear : Part heads (c.within scope) c.exits [elseLabel] m hi rear) :
        Part heads c c.exits [] _ _ (⟨.enter scope, p⟩ :: _ ++ [⟨.leave, close⟩]) :=
      .block hscope (.bind [] (by decide) helse (hfront.seq hrear) fun l hl => by
        simp only [Place.exits_within, mem_append, mem_singleton, not_mem_nil] at hl ⊢
        tauto)
    split
    · rename_i q rest heq
      rw [heq] at hrest
      refine fresh_makes.seq fun endLabel m5 _ ⟨hm5, hend⟩ => ?_
      subst hm5
      refine (elseBranch_makes hi (fun _ _ h => ifFrom_makes h) hrest.tail).seq fun r m' _ ⟨hno, hr⟩ => ?_
      refine last_makes.seq fun close m6 _ hm6 => .ret ⟨?_, hr⟩
      subst hm6
      have hend' : Made endLabel := hend ▸ made_freshText (by decide)
      have hrear := (((Part.goto (p := q) hend').seq (.label (p := q) hmade)).seq hno).seq (.label (p := close) hend')
      have closed := whole close (.bind [elseLabel] (by decide) hend hrear fun l hl => by
        simp only [Place.exits_within, mem_append, mem_singleton, not_mem_nil] at hl ⊢
        tauto)
      simpa only [append_assoc, cons_append, nil_append] using closed
    · refine last_makes.seq fun close m6 _ hm6 => .ret ⟨?_, hrest⟩
      subst hm6
      have closed := whole close ((Part.label (p := close) hmade).weaken nofun)
      simpa only [append_assoc, cons_append, nil_append] using closed

omit hi

theorem loopHeader_makes (ht : AllNamed toks) :
    Makes lo (loopHeader p toks) fun m r => m = lo ∧ AllNamed r.1 ∧ AllNamed r.2.1 ∧ AllNamed r.2.2 := by
  have parts : ∀ part ∈ Token.clauses toks, AllNamed part := fun _ h => ht.clauses h
  unfold loopHeader
  split
  · rename_i hc
    rw [hc] at parts
    exact .ret ⟨rfl, .nil, parts _ (by simp), .nil⟩
  · rename_i hc
    rw [hc] at parts
    exact .ret ⟨rfl, parts _ (by simp), parts _ (by simp), parts _ (by simp)⟩
  · exact fail_makes

include hi

theorem loopTest_makes (ht : AllNamed toks) :
    Makes lo (loopTest inside c toks label p) (Part heads c [label] [] lo) :=
  .ite (fun _ => .ret .empty) fun _ => (exprWith_makes hi ht).seq fun _ _ _ hs => .ret (.test (.inl rfl) hs)

omit hi

theorem loopBody_part {brk cont : String} {b : Nat} (hb : Made brk) (hc : Made cont)
    (h : Body heads (c.loop brk cont) a b s) : Part heads c [brk, cont] [] a b s :=
  ⟨fun fs d hfs => h.routes fs d (hfs.loop hb hc), fun _ hp ho _ =>
    h.draws (hp.loop (ho brk (.head _)) (ho cont (.tail _ (.head _))) hb hc)⟩

include hi

/-- A counted loop's jumps stay between its labels. -/
theorem countedLoop_makes (hh : AllNamed header)
    (hb : AllNamed body) : Makes lo (countedLoop inside c p header body q) (Body heads c lo) := by
  refine (loopHeader_makes hh).seq fun parts m1 _ ⟨hm1, hinit, hcond, hpost⟩ => ?_
  refine fresh_makes.seq fun condLabel m2 _ ⟨hm2, hcondLabel⟩ => fresh_makes.seq fun contLabel m3 _ ⟨hm3, hcont⟩ => ?_
  refine fresh_makes.seq fun endLabel m4 _ ⟨hm4, hend⟩ => (optionalSimple_makes hi hinit).seq fun start _ _ hstart => ?_
  subst hm1 hm2 hm3 hm4
  have h1 : Made condLabel := hcondLabel ▸ made_freshText (by decide)
  have h2 : Made contLabel := hcont ▸ made_freshText (by decide)
  have h3 : Made endLabel := hend ▸ made_freshText (by decide)
  refine (loopTest_makes hi hcond).seq fun test _ _ htest => (block_makes hi hb).seq fun inner _ _ hinner => ?_
  refine last_makes.seq fun cont m5 _ hm5 => .ite (fun _ => failAt_makes) fun _ => ?_
  subst hm5
  refine (optionalSimple_makes hi hpost).seq fun step _ _ hstep => last_makes.seq fun close m6 _ hm6 => .ret ?_
  subst hm6
  have hturn := (htest.seq (loopBody_part h3 h2 hinner)).seq (.label (p := cont) h2)
  have hfront := hstart.seq (.label (p := p) h1)
  have whole := (hfront.seq (hturn.seq hstep)).seq ((Part.goto (p := close) h1).seq (.label (p := close) h3))
  -- the labels are closed from the last one made to the first one
  have hopen : Part heads c c.exits [condLabel, contLabel] _ _ _ :=
    .bind [condLabel, contLabel] (by decide) hend whole fun l hl => by
      simp only [mem_append, mem_cons, not_mem_nil] at hl ⊢
      tauto
  have closed := Part.bind [] (by decide) hcondLabel (.bind [condLabel] (by decide) hcont hopen
    fun l hl => .inr (.inr hl)) fun l hl => .inr (.inr hl)
  simpa only [append_assoc, cons_append, nil_append] using closed

omit hi

theorem rangeDefines_makes {t : Token} : Makes lo (rangeDefines t) fun m _ => m = lo := by
  unfold rangeDefines
  split
  · exact .ret rfl
  · exact .ret rfl
  · exact fail_makes

theorem rangeNames_makes (ht : AllNamed toks) :
    Makes lo (rangeNames p toks) fun m r => m = lo ∧ ∀ n ∈ r.1, IsWord n := by
  unfold rangeNames
  split
  · exact .ret ⟨rfl, nofun⟩
  · refine rangeDefines_makes.seq fun _ m _ hm => ?_
    split
    · exact .ret ⟨hm, targetNames_named ‹_› fun _ h => ht.dropLast.commaList h⟩
    · exact fail_makes

theorem varName_of_readable (h : ∀ n ∈ names, IsWord n) {i : Nat}
    (hn : names[i]?.bind readable = some n) : VarName n := by
  obtain ⟨m, hm, hr⟩ := bind_eq_some_iff.mp hn
  unfold readable at hr
  split at hr
  · cases hr
  · cases hr
    exact .inl (h _ (mem_of_getElem? hm))

theorem drawn_next {define : Bool} (hl : Known.Of known label) (hn : ∀ n ∈ names, IsWord n) : Drawn known [] lo lo
      [⟨.next label (names[0]?.bind readable) (names[1]?.bind readable) define, p⟩] := by
  have word {i : Nat} {n : String} (h : n ∈ (names[i]?.bind readable).toList) : IsWord n := by
    obtain ⟨m, hm, hr⟩ := bind_eq_some_iff.mp (mem_toList.mp h)
    exact readable_word (hn m (mem_of_getElem? hm)) hr
  refine .step rfl rfl fun n h => ?_
  rcases mem_cons.mp h with rfl | h
  · exact hl
  · rcases mem_append.mp h with h | h
    · exact .word (word h)
    · exact .word (word h)

include hi

/-- A loop over a range is closed: the jumps out of it lead to the end of its body. -/
theorem rangeLoop_makes (hc : c.top = false) (hl : AllNamed left) (hr : AllNamed right) (hb : AllNamed body) :
    Makes lo (rangeLoop inside c p left right body q) (Body heads c lo) := by
  refine (rangeNames_makes hl).seq fun names m1 _ ⟨hm1, hnames⟩ => .ite (fun _ => fail_makes) fun _ => ?_
  subst hm1
  refine (exprWith_makes hi hr).seq fun ranged b _ hranged => ?_
  refine fresh_makes.seq fun nextLabel m2 _ ⟨hm2, hnext⟩ => fresh_makes.seq fun endLabel m3 _ ⟨hm3, hend⟩ => ?_
  subst hm2 hm3
  have h1 : Made nextLabel := hnext ▸ made_freshText (by decide)
  have h2 : Made endLabel := hend ▸ made_freshText (by decide)
  refine (block_makes hi hb).seq fun inner m _ hinner => last_makes.seq fun close m4 _ hm4 => .ret ?_
  subst hm4
  refine .of_phrase (fun fs d hfs _ => ?_) fun known hc => ?_
  · have hfs' : fs ≠ [] := fun hn => absurd (hfs.top.mpr hn) (by rw [hc]; decide)
    obtain ⟨links, hout, -, hbody⟩ := (loopBody_part h2 h1 hinner).routes fs (d + 1) hfs fun hn => absurd hn hfs'
    have htake : Phrase .free heads fs (.stmts (d + 1)) b b [.jump endLabel]
        [⟨.next endLabel (names.1[0]?.bind readable) (names.1[1]?.bind readable) names.2, p⟩] :=
      .next (fun _ h => varName_of_readable hnames h) fun _ h => varName_of_readable hnames h
    have hturn := ((Phrase.label (p := p) h1).seq htake).seq (.wide (Nat.le_add_right b 2) (Nat.le_refl _) hbody)
    have hloop := hturn.seq ((Phrase.goto (p := close) h1).seq (.label (p := close) h2))
    have hclosed : Link.Closed ([.label nextLabel] ++ [.jump endLabel] ++ links ++
      ([.jump nextLabel] ++ [.label endLabel])) := by
      intro l hl
      have := hout l
      simp only [mem_append, mem_cons, Link.jump.injEq, Link.label.injEq, not_mem_nil, or_false,
        reduceCtorEq, false_or] at hl this ⊢
      grind
    have whole := Phrase.range (p := p) (q := close) hclosed (hranged.phrase fs hfs) hloop
    simpa only [append_assoc, cons_append, nil_append] using whole
  · have hk1 := new (by decide) hnext hc.scope
    have hk2 := new (by decide) hend (hk1.of hc.scope)
    have hname := hk2.of hk1.name
    have hinner := hinner.draws ((hk2.place (hk1.place hc)).loop hk2.name hname h2 h1)
    have htake : Drawn _ [nextLabel] (b + 1 + 1) (b + 1 + 1) [⟨.range, p⟩, ⟨.label nextLabel, p⟩,
        ⟨.next endLabel (names.1[0]?.bind readable) (names.1[1]?.bind readable) names.2, p⟩] :=
      append (.silent rfl) (append (.label hname) (drawn_next hk2.name hnames))
    have hback : Drawn _ [endLabel] m4 m4 [⟨.goto nextLabel, close⟩, ⟨.label endLabel, close⟩, ⟨.drop, close⟩] :=
      append (.one hname rfl) (append (.label hk2.name) (.silent rfl))
    have closed : Drawn known [] b m4 _ := hk1.close (hk2.close ((htake.append hinner).append hback))
    simpa only [append_assoc, cons_append, nil_append] using (hranged.drawn known hc).append closed

omit hi

theorem splitRange_named : ∀ {toks : List Token} {r}, splitRange? toks = some r → AllNamed toks →
    AllNamed r.1 ∧ AllNamed r.2.2 := by
  intro toks r h ht
  fun_induction splitRange? toks generalizing r with
  | case1 => cases h
  | case2 q ts =>
    cases h
    exact ⟨.nil, ht.tail⟩
  | case3 t ts _ ih =>
    obtain ⟨r', hr, rfl⟩ := map_eq_some_iff.mp h
    obtain ⟨h1, h2⟩ := ih hr ht.tail
    exact ⟨h1.cons ht.head, h2⟩

include hi

theorem loopSteps_makes (hc : c.top = false) (hh : AllNamed header) (hb : AllNamed body) :
    Makes lo (loopSteps inside c p header body q) (Body heads c lo) := by
  unfold loopSteps
  split
  · rename_i hs
    obtain ⟨hl, hr⟩ := splitRange_named hs hh
    exact rangeLoop_makes hi hc hl hr hb
  · exact countedLoop_makes hi hh hb

/-- Every form of loop leaves the tokens behind it. -/
theorem forLoop_makes (ht : AllNamed toks) :
    Makes lo (forLoop inside c p toks) (Leaves heads c lo) := by
  refine (bodyOf_makes ht).seq fun parts m1 _ ⟨hm1, hheader, hbody, hrest⟩ => ?_
  refine fresh_makes.seq fun scope m2 _ ⟨hm2, hscope⟩ => ?_
  refine (loopSteps_makes hi rfl hheader hbody).seq fun steps _ _ hsteps => last_makes.seq fun _ m3 _ hm3 => .ret ?_
  subst hm1 hm2 hm3
  exact ⟨.block hscope hsteps, hrest⟩

/-! ## Switches -/

/-- Every identifier in a clause is a word. -/
def Clause.Named (k : Clause) : Prop := (∀ es, k.cases = some es → ∀ e ∈ es, AllNamed e) ∧ AllNamed k.body

omit hi

theorem clausesFrom_named : ∀ {toks : List Token} {skip : Nat} {done r : List Clause},
    clausesFrom last toks skip done = .ok r → AllNamed toks → (∀ k ∈ done, k.Named) → ∀ k ∈ r, k.Named := by
  intro toks skip done r h ht hd
  have cons {k : Clause} {ks : List Clause} (hk : k.Named) (hks : ∀ k ∈ ks, k.Named) : ∀ l ∈ k :: ks, l.Named := by
    intro l hl
    rcases mem_cons.mp hl with rfl | hl
    · exact hk
    · exact hks l hl
  fun_induction clausesFrom last toks skip done with
  | case1 =>
    cases h
    exact fun k hk => hd k (mem_reverse.mp hk)
  | case2 t ts skip done ih | case3 q ts done ih => exact ih h ht.tail hd
  | case4 => cases h
  | case5 => cases h
  | case6 ts done q i _ _ ih =>
    refine ih h ht.tail (cons ⟨fun es he => ?_, .nil⟩ hd)
    cases he
    exact fun e he => (ht.tail.take i).commaList he
  | case7 done q p' ts ih => exact ih h ht.tail (cons ⟨nofun, .nil⟩ hd)
  | case8 => cases h
  | case9 => cases h
  | case10 t ts _ _ _ clause done body ih =>
    have hk := hd clause (.head _)
    refine ih h ht.tail (cons ⟨hk.1, hk.2.append (.cons ht.head (ht.tail.takeWhile _))⟩ ?_)
    exact fun k hk => hd k (.tail _ hk)

include hi

/-- A clause's tests jump to one label. -/
theorem caseTests_makes (htag : ∀ n, tag = some n → VarName n) :
    ∀ {lo : Nat} {es : List (List Token)}, (∀ e ∈ es, AllNamed e) →
      Makes lo (caseTests inside c tag label p es) fun m s => Routes heads c [label] [] lo m s ∧ ∀ known,
        Known.At known c → (∀ n, tag = some n → Known.Of known n) → Known.Of known label → Drawn known [] lo m s
  | _, [], _ => .ret ⟨.of_phrase fun _ _ _ _ => .empty, fun _ _ _ _ => .empty⟩
  | lo, e :: es, h => by
    refine (hi.expr lo c _ (h e (.head _))).seq fun test _ _ htest => ?_
    refine (caseTests_makes htag fun e he => h e (.tail _ he)).seq fun more _ _ hmore => .ret ⟨?_, ?_⟩
    · refine ((Routes.test (.inr rfl) fun fs hfs => ?_).seq hmore.1).weaken (fun _ hl => (mem_append.mp hl).elim id id)
        nofun
      cases tag with
      | some name =>
        exact .apply rfl trivial (fun _ _ _ => trivial) ((Phrase.atom (a := .ident name) (htag name rfl).isPart).follow
          (htest.phrase fs hfs))
      | none => exact htest.phrase fs hfs
    · intro known hc ht hl
      have hjump (i : Nat) : Drawn known [] i i [⟨.jumpTrue label, p⟩] := .one hl rfl
      have htest := htest.drawn known hc
      have hrest := hmore.2 known hc ht hl
      cases tag with
      | some name =>
        exact (((append (.one (ht name rfl) rfl) htest).append (.silent rfl)).append (hjump _)).append hrest
      | none => exact (htest.append (hjump _)).append hrest

/-- The labels of the cases are as many as the cases, and the label of the default is one of them. They are made beside
the tests. -/
theorem switchTests_makes (htag : ∀ n, tag = some n → VarName n) :
    ∀ {lo : Nat} {clauses : List Clause} {default : Option String}, (∀ k ∈ clauses, k.Named) →
      Makes lo (switchTests inside c tag clauses default) fun m r => (Routes heads c r.2.1 [] lo m r.1 ∧
        r.2.1.length = clauses.length ∧ (∀ l ∈ r.2.1, Made l) ∧ ∀ l, r.2.2 = some l → l ∈ r.2.1 ∨ default = some l) ∧
        ∀ known, Known.At known c → (∀ n, tag = some n → Known.Of known n) →
          Drawn known [] lo m (r.1 ++ r.2.1.map fun l => ⟨.label l, p⟩)
  | _, [], _, _ => .ret ⟨⟨.of_phrase fun _ _ _ _ => .empty, rfl, nofun, fun _ h => .inr h⟩, fun _ _ _ => .empty⟩
  | lo, k :: rest, default, h => by
    have hk := h k (.head _)
    have hrest : ∀ k ∈ rest, k.Named := fun k hk => h k (.tail _ hk)
    refine fresh_makes.seq fun label m1 _ ⟨hm1, hl⟩ => ?_
    subst hm1
    have hmade : Made label := hl ▸ made_freshText (by decide)
    have labels {ls : List String} (hls : ∀ l ∈ ls, Made l) : ∀ l ∈ label :: ls, Made l :=
      forall_mem_cons.mpr ⟨hmade, hls⟩
    -- the label of the clause goes behind the tests, before the labels that follow
    have gather {known : String → Nat → Prop} {m : Nat} {steps : List Step} {labels : List String}
      (hc : Known.At known c)
        (tests : List Step) (hs : Drawn (extend known (fun _ => "case") lo (lo + 1)) [] (lo + 1) m
          (tests ++ (steps ++ labels.map fun l => ⟨.label l, p⟩))) :
        Drawn known [] lo m (tests ++ steps ++ (label :: labels).map fun l => ⟨.label l, p⟩) := by
      have hk := new (by decide) hl hc.scope
      have hall : Drawn _ [label] (lo + 1) m ([⟨.label label, p⟩] ++ _) := append (.label hk.name) hs
      refine hk.close (show Drawn _ ([] ++ [label]) _ _ _ from hall.of_le (fun x hx => ?_) fun l => ?_)
      · simp only [mem_append, map_cons, mem_cons, not_mem_nil, or_false] at hx ⊢
        tauto
      · rw [map_cons, ← singleton_append]
        simp only [seen_append]
        omega
    split
    · split
      · exact fail_makes
      · refine (switchTests_makes htag hrest).seq fun r _ _ ⟨⟨hs, hn, hls, hd⟩, hdraw⟩ =>
          .ret ⟨⟨?_, ?_, labels hls, fun l h => ?_⟩, fun known hc ht => ?_⟩
        · exact (hs.wide (Nat.le_succ _) (Nat.le_refl _)).weaken (fun _ => mem_cons_of_mem _) nofun
        · simp only [length_cons, hn]
        · refine .inl ((hd l h).elim (mem_cons_of_mem _) fun h => ?_)
          cases h
          exact .head _
        · exact gather hc [] (hdraw _ hc.extend fun n hn => (ht n hn).extend)
    · rename_i es hes
      refine (caseTests_makes hi htag (hk.1 es hes)).seq fun tests _ _ htests => ?_
      refine (switchTests_makes htag hrest).seq fun r _ _ ⟨⟨hs, hn, hls, hd⟩, hdraw⟩ =>
        .ret ⟨⟨?_, ?_, labels hls, fun l h => ?_⟩, fun known hc ht => ?_⟩
      · exact (htests.1.wide (Nat.le_succ _) (Nat.le_refl _)).seq hs
      · simp only [length_cons, hn]
      · exact (hd l h).imp_left (mem_cons_of_mem _)
      · have hk := new (by decide) hl hc.scope
        have ht' := fun n hn => hk.of (ht n hn)
        exact gather hc tests ((htests.2 _ hc.extend ht' hk.name).append (hdraw _ hc.extend ht'))

theorem switchBodies_makes (hlabel : Made label) :
    ∀ {lo : Nat} {bodies : List (Clause × String)}, (∀ b ∈ bodies, b.1.Named ∧ Made b.2) →
      Makes lo (switchBodies inside c label bodies) (Part heads c (label :: c.exits) (bodies.map (·.2)) lo)
  | _, [], _ => .ret .empty
  | lo, (k, l) :: rest, h => by
    obtain ⟨hk, hl⟩ := h _ (.head _)
    refine (block_makes hi hk.2).seq fun body _ _ hbody => last_makes.seq fun _ m1 _ hm1 => ?_
    subst hm1
    refine (switchBodies_makes hlabel fun b hb => h b (.tail _ hb)).seq fun more _ _ hmore => .ret ?_
    refine ((((Part.label hl).seq hbody).seq (.goto hlabel)).seq hmore).weaken fun l' hl' => ?_
    grind

omit hi

theorem switchHeader_makes (ht : AllNamed toks) :
    Makes lo (switchHeader p toks) fun m r => m = lo ∧ AllNamed r.1 ∧ AllNamed r.2 := by
  have parts : ∀ part ∈ Token.clauses toks, AllNamed part := fun _ h => ht.clauses h
  unfold switchHeader
  split
  · rename_i hc
    rw [hc] at parts
    exact .ret ⟨rfl, .nil, parts _ (by simp)⟩
  · rename_i hc
    rw [hc] at parts
    exact .ret ⟨rfl, parts _ (by simp), parts _ (by simp)⟩
  · exact fail_makes

include hi

theorem switchTag_makes (ht : AllNamed toks) :
    Makes lo (switchTag inside c toks p) fun m r => (Routes heads c [] [] lo m r.2 ∧ ∀ n, r.1 = some n → VarName n) ∧
      ∀ known, Known.At known c → ∃ x, lo ≤ x ∧ Drawn (extend known (fun _ => "tag") lo x) [] x m r.2 ∧
        ∀ n, r.1 = some n → Known.Of (extend known (fun _ => "tag") lo x) n := by
  refine .ite (fun _ => .ret ⟨⟨.of_phrase fun _ _ _ _ => .empty, nofun⟩, fun _ _ => ⟨lo, Nat.le_refl _, .empty, nofun⟩⟩)
    fun _ => freshName_makes.seq fun _ m _ ⟨hm, hn⟩ => (exprWith_makes hi ht).seq fun _ _ _ hs =>
      .ret ⟨⟨.of_phrase fun fs _ hfs _ => ?_, fun n he => ?_⟩, fun known hc =>
        ⟨lo + 1, Nat.le_succ _, ?_, fun n he => ?_⟩⟩
  all_goals subst hm hn
  · exact .wide (Nat.le_succ _) (Nat.le_refl _) (.store (.define (.inr (fresh_freshText "tag" lo)) .none) (.inl rfl)
      (hs.phrase fs hfs))
  · cases he
    exact .inr (fresh_freshText "tag" lo)
  · exact (hs.drawn _ hc.extend).append (append
      (.one (.fresh (by decide) ⟨Nat.le_refl _, Nat.lt_succ_self _⟩ rfl) rfl) (.silent rfl))
  · cases he
    exact .fresh (by decide) ⟨Nat.le_refl _, Nat.lt_succ_self _⟩ rfl

/-- The tests, bodies and labels of a `switch`. -/
theorem switch_makes (ht : AllNamed toks) :
    Makes lo (switch inside c p toks) (Leaves heads c lo) := by
  refine (bodyOf_makes ht).seq fun parts m1 _ ⟨hm1, hheader, hbody, hrest⟩ => ?_
  refine (switchHeader_makes hheader).seq fun header m2 _ ⟨hm2, hinit, htag⟩ => ?_
  refine fresh_makes.seq fun scope m3 _ ⟨hm3, hscope⟩ => ?_
  subst hm1 hm2 hm3
  refine (optionalSimple_makes hi hinit).seq fun start _ _ hstart => ?_
  refine (switchTag_makes hi htag).seq fun tag m _ ⟨⟨htag, hname⟩, hdrawTag⟩ => ?_
  refine (lift_makes fun _ _ h => clausesFrom_named h hbody (by simp)).seq fun clauses m4 _ ⟨hm4, hclauses⟩ => ?_
  refine fresh_makes.seq fun endLabel m5 _ ⟨hm5, hend⟩ => ?_
  subst hm4 hm5
  have hmade : Made endLabel := hend ▸ made_freshText (by decide)
  refine (switchTests_makes (p := p) hi hname hclauses).seq
    fun tests a _ ⟨⟨htests, hcount, hlabels, hdefault⟩, hdrawTests⟩ => ?_
  refine (switchBodies_makes hi hmade fun b hb =>
    ⟨hclauses _ (of_mem_zip hb).1, hlabels _ (of_mem_zip hb).2⟩).seq fun bodies _ _ hbodies => ?_
  refine last_makes.seq fun close m6 _ hm6 => .ret ⟨?_, hrest⟩
  subst hm6
  rw [show (clauses.zip tests.2.1).map (·.2) = tests.2.1 from map_snd_zip (Nat.le_of_eq hcount)] at hbodies
  have hgoto : tests.2.2.getD endLabel = endLabel ∨ tests.2.2.getD endLabel ∈ tests.2.1 := by
    cases hd : tests.2.2 with
    | none => exact .inl rfl
    | some l => exact .inr ((hdefault l hd).resolve_right (by simp))
  have closed : Part heads (c.within scope) c.exits [] (m2 + 1) m6 (start ++ (tag.2 ++ (tests.1 ++
      [⟨.goto (tests.2.2.getD endLabel), p⟩] ++ bodies ++ [⟨.label endLabel, close⟩]))) := by
    refine hstart.append ⟨?_, fun known hc _ _ => ?_⟩
    · have hstands : ∀ fs, Stands (c.within scope) fs → Stands { c.within scope with brk := some endLabel } fs :=
        fun fs h => ⟨h.scope, h.func, h.top, fun l hl => hl.elim (fun hl => by cases hl; exact hmade) fun hl =>
          h.ends l (.inr hl), h.results⟩
      have hbodies : Routes heads (c.within scope) (endLabel :: c.exits) tests.2.1 a m6 bodies :=
        Routes.weaken (fun fs d h => hbodies.routes fs d (hstands fs h)) (fun l hl => by
          simp only [Place.exits, Place.within, mem_cons, mem_append] at hl ⊢
          grind) fun _ h => h
      have htarget : Made (tests.2.2.getD endLabel) := hgoto.elim (fun h => h.symm ▸ hmade) (hlabels _)
      have inner := (htag.wide (Nat.le_refl _) (Nat.le_succ _)).seq
        (((htests.seq (.goto (p := p) htarget)).seq hbodies).seq (.label (p := close) hmade))
      refine inner.close (fun l hl => ?_) (by simp)
      simp only [Place.exits_within, mem_append, mem_cons, not_mem_nil] at hl ⊢
      rcases hgoto with hgoto | hgoto
      · rw [hgoto] at hl
        tauto
      · have hl' : l = tests.2.2.getD endLabel → l ∈ tests.2.1 := fun h => h ▸ hgoto
        tauto
    · obtain ⟨x, hx, htag, hname⟩ := hdrawTag known hc
      generalize hk : extend known (fun _ => "tag") _ x = known' at htag hname
      have hc' : Known.At known' (c.within scope) := hk ▸ hc.extend
      have hk1 := new (by decide) hend hc'.scope
      have hc1 := hk1.place hc'
      have htests := hdrawTests _ hc1 fun n hn => hk1.of (hname n hn)
      obtain ⟨tagsOf, hnames⟩ := htests.names
      have hcases : ∀ l ∈ tests.2.1, Known.Of (extend _ tagsOf (m4 + 1) a) l := fun l hm =>
        hnames l (Occurs.append.mpr (.inr (.inl ⟨⟨.label l, p⟩, mem_map.mpr ⟨l, hm, rfl⟩, .head _⟩)))
      have hc2 : Known.At (extend _ tagsOf (m4 + 1) a) { c.within scope with brk := some endLabel } :=
        hc1.extend.brk hk1.name.extend hmade
      have hbodies := hbodies.drawn _ hc2 (forall_mem_cons.mpr ⟨hk1.name.extend, fun _ => hc2.exit⟩) hcases
      have htarget := hgoto.elim (fun h => h.symm ▸ hk1.name.extend) (hcases _)
      have hgo : Drawn (extend _ tagsOf (m4 + 1) a) [] a a [⟨.goto (tests.2.2.getD endLabel), p⟩] := .one htarget rfl
      have hmiddle := htests.fulfil (fun n hn => hnames n (Occurs.append.mpr (.inl hn))) (hgo.append hbodies)
      -- the names are closed from the inside out: the end, then the variable
      have hrear := htag.append (hk1.close (hmiddle.append (.label (p := close) hk1.name)))
      rw [← hk] at hrear
      have closed : Drawn known [] _ m6 _ := Drawn.close hx hrear fun _ _ _ => Nat.zero_le _
      simpa only [append_assoc] using closed
  have whole := Part.block (p := p) (q := close) hscope closed
  simpa only [append_assoc, cons_append, nil_append] using whole

/-! ## Jumps and returns -/

/-- A `return` takes just its values. -/
theorem returnStatement_makes (ht : AllNamed toks) :
    Makes lo (returnStatement inside c p toks) (Body heads c lo) := by
  have names : ∀ ns : List String, (∀ n ∈ ns, IsWord n) →
      Exprs heads c ns.length lo lo (ns.map fun n => ⟨.ident n, p⟩) := by
    intro ns
    induction ns with
    | nil => exact fun _ => .none
    | cons n ns ih =>
      intro h
      rw [length_cons, Nat.add_comm]
      exact (Exprs.ident (h n (.head _))).more (ih fun n hn => h n (.tail _ hn))
  unfold returnStatement
  split
  · exact fail_makes
  · rename_i f hf
    split
    · rename_i hr
      refine .ret (.of_phrase (fun fs _ hfs _ => ?_) fun known hc => ?_)
      · exact .settle rfl ((names _ (hfs.results f _ hf hr)).phrase fs hfs)
      · obtain ⟨fs, hfs⟩ := hc.stands
        exact ((names _ (hfs.results f _ hf hr)).drawn known hc).append (.silent rfl)
    · exact (exprs_makes hi fun _ he => ht.commaList he).seq fun _ _ _ hs => .ret (.settle rfl hs)

omit hi

/-- `break` and `continue` go to the labels in force. -/
theorem jumpStatement_makes {target : Option String} {k : Keyword} (h : target = c.brk ∨ target = c.cont) :
    Makes lo (jumpStatement target k p toks) (Body heads c lo) := by
  unfold jumpStatement
  split
  · exact fail_makes
  · rename_i label
    have hout : label ∈ c.exits := by
      rcases h with h | h
      · exact mem_append_left _ (by rw [← h]; exact .head _)
      · exact mem_append_right _ (by rw [← h]; exact .head _)
    refine .ret ⟨fun fs d hfs _ => ⟨[.jump label], fun l hl => .inr ?_, nofun, .goto (hfs.ends label ?_)⟩,
      fun _ _ ho _ => .one (ho label hout) rfl⟩
    · cases mem_singleton.mp hl
      exact hout
    · exact h.imp Eq.symm Eq.symm
  · exact fail_makes

end Shape

end Goblet
