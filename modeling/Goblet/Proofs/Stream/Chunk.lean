import Goblet.Proofs.Stream.Statement

/-!
# Shaped chunks are phrases

Declarations at the top level go to the head of the chunk. `Declared c d r` says what a statement at `c` that has put
`d` there leaves. A chunk is declarations, followed by a phrase (`shaped_of_ofTokens`): a body there belongs to a
function declared at the head or to a function literal, and a function declared at the head has its body there. Its
names are drawn from the numbers that it counts (`Stream.drawn_of_ofTokens`).
-/

namespace Goblet

open List Shape

open Token (AllNamed)

namespace Shape

variable {α β : Type} {inside : Inside} {c : Place} {toks : List Token} {p : Pos} {lo hi : Nat} {n : String}
  {key : String}
variable {steps d : List Step} {heads : String → Prop} {rs : List (Outcome × List Step)} {r : Outcome × List Step}

/-- What `x` gives and puts to the head of the chunk satisfies `Q`. -/
def Hoists (lo : Nat) (x : Shape α) (Q : List Step → Nat → α → Prop) : Prop :=
  ∀ h, Triple (fun s => s.labels = lo ∧ s.hoisted = h) x
    (fun a s => lo ≤ s.labels ∧ ∃ d, s.hoisted = h ++ d ∧ Q d s.labels a) fun _ s => lo ≤ s.labels

namespace Hoists

variable {Q : List Step → Nat → α → Prop} {R : List Step → Nat → β → Prop}
variable {x : Shape α}

theorem of_makes {P : Nat → α → Prop} (h : Makes lo x P) (hQ : ∀ m a, lo ≤ m → P m a → Q [] m a) : Hoists lo x Q :=
  fun _ => (h _).weaken (fun _ hs => hs)
    (fun _ _ hs => ⟨hs.1.1, [], by simpa using hs.2, hQ _ _ hs.1.1 hs.1.2⟩) fun _ _ hs => hs

theorem seq {f : α → Shape β} (hx : Hoists lo x Q)
    (hf : ∀ a d m, lo ≤ m → Q d m a → Hoists m (f a) fun e n b => R (d ++ e) n b) : Hoists lo (x >>= f) R := by
  intro h
  refine Triple.seq (hx h) fun a t ⟨hle, d, ht, hd⟩ => ?_
  have := hf a d t.labels hle hd (h ++ d) t ⟨rfl, ht⟩
  revert this
  cases f a t with
  | ok b u => exact fun ⟨hle', e, he, hb⟩ => ⟨Nat.le_trans hle hle', d ++ e, by rw [he, append_assoc], hb⟩
  | error e u => exact fun hle' => Nat.le_trans hle hle'

theorem after {P : Nat → β → Prop} {x : Shape β} {f : β → Shape α} (hx : Makes lo x P)
    (hf : ∀ a m, lo ≤ m → P m a → Hoists m (f a) Q) : Hoists lo (x >>= f) Q :=
  seq (of_makes (Q := fun d m a => d = [] ∧ P m a) hx fun _ _ _ h => ⟨rfl, h⟩) fun a d m hm hd => by
    rw [hd.1]
    exact hf a m hm hd.2

theorem hoist {steps : List Step} {Q : List Step → Nat → PUnit → Prop} (h : Q steps lo ⟨⟩) :
    Hoists lo (hoist steps) Q :=
  fun _ => Triple.update fun s hs => ⟨Nat.le_of_eq hs.1.symm, steps, by rw [hs.2], by rw [hs.1]; exact h⟩

theorem ret {a : α} (h : Q [] lo a) : Hoists lo (pure a) Q :=
  of_makes (.ret (P := fun m b => m = lo ∧ b = a) ⟨rfl, rfl⟩) fun m b _ ⟨hm, hb⟩ => by
    subst hm hb
    exact h

theorem fails (h : Makes lo x fun _ _ => False) : Hoists lo x Q := of_makes h fun _ _ _ h => h.elim

end Hoists

/-- Whether a step is the header of a function. -/
def Heads (d : List Step) (key : String) : Prop := ∃ sig p, ⟨.header key sig, p⟩ ∈ d

/-- Steps of a statement at a place, with what it has put to the head of the chunk. -/
structure Declared (c : Place) (lo hi : Nat) (d steps : List Step) : Prop where
  top : c.top = false → d = []
  decl : ∀ s ∈ d, s.val.Decl
  body : ∀ heads : String → Prop, (∀ key, Heads d key → heads key) → Body heads c lo hi steps
  bodies : ∀ key sig p, ⟨.header key sig, p⟩ ∈ d → ∃ p, ⟨.body key sig, p⟩ ∈ steps
  drawn : ∀ known, Known.At known c → Drawn known [] lo hi (d ++ steps)

theorem Declared.of_body (h : ∀ heads, Body heads c lo hi steps) : Declared c lo hi [] steps :=
  ⟨fun _ => rfl, nofun, fun heads _ => h heads, nofun, fun _ hc => (h fun _ => True).draws hc⟩

theorem hoist_hoists (htop : c.top = true) (hd : ∀ s ∈ d, s.val.Decl)
    (hh : ∀ key sig p, ⟨.header key sig, p⟩ ∉ d) (hle : lo ≤ hi)
    (hdraw : ∀ known, Known.At known c → Drawn known [] lo hi d) :
    Hoists hi (do hoist d; return [] : Shape (List Step)) fun e m r => Declared c lo m e r := by
  refine .seq (Q := fun e m _ => m = hi ∧ e = d) (.hoist ⟨rfl, rfl⟩) fun _ e m _ ⟨hm, he⟩ => .ret ?_
  subst hm he
  rw [append_nil]
  refine ⟨fun h => absurd (h.symm.trans htop) (by decide), hd, fun _ _ =>
    .of_phrase (fun _ _ _ _ => ?_) fun known hc => ?_,
    fun key sig p h => absurd h (hh key sig p), fun known hc => ?_⟩
  · exact .wide hle (Nat.le_refl _) .empty
  · exact (hdraw known hc).of_le nofun fun _ => Nat.zero_le _
  · rw [append_nil]
    exact hdraw known hc

theorem Function.body {sig : Signature} {s : List Step} (htop : c.top = true)
    (hkey : heads key) (hk : ∀ known, Known.At known c → Known.Of known key) (hsig : sig.Named)
    (h : Function heads key sig p lo hi s) : Body heads c lo hi s := by
  refine .of_phrase (fun fs d hfs hd => ?_) fun known hc => h.drawn known (hk known hc)
  obtain rfl := hfs.top.mp htop
  obtain rfl := hd rfl
  obtain ⟨inner, q, rfl, hinner⟩ := h.phrase
  obtain ⟨links, hl, hp⟩ := hinner []
  exact .func hkey hsig hl hp

/-- A declared function is hoisted whole. -/
theorem funcDeclaration_hoists (hi : ∀ heads, inside.Sound heads) (hc : c.top = true → c.scope = Place.mainScope)
    (ht : AllNamed toks) :
    Hoists lo (funcDeclaration inside c p toks) fun d m r => Declared c lo m d r := by
  unfold funcDeclaration
  split
  · rename_i name q rest
    split
    · exact .fails fail_makes
    rename_i htop
    have htop : c.top = true := by simpa using htop
    split
    · rename_i params q rest
      split
      · rename_i body q' hl
        have hrest : AllNamed rest := ht.tail.tail
        have hbody : AllNamed body := (hrest _ (mem_of_getLast? hl)).inner
        refine .after (lift_makes fun _ _ h => Signature.named_of_read h ht.tail.head.inner hrest.dropLast)
          fun sig m _ ⟨hm, hsig⟩ => ?_
        subst hm
        have hword := ht.head.word
        have hkey : c.scope ++ "/" ++ name = Place.mainScope ++ "/" ++ name := by rw [hc htop]
        refine .seq (Q := fun d n _ => n = m ∧ d = [⟨.header (c.scope ++ "/" ++ name) sig, p⟩]) (.hoist ⟨rfl, rfl⟩)
          fun _ d n _ ⟨hn, hd⟩ => ?_
        subst hd hn
        have hfunc : Makes n (funcBody inside (c.scope ++ "/" ++ name) sig body p) fun m steps =>
            ∀ heads, Function heads (c.scope ++ "/" ++ name) sig p n m steps :=
          .all (fun heads => funcBody_makes (hi heads) hsig hbody) fun _ => True
        have hknown : ∀ known, Known.At known c → Known.Of known (c.scope ++ "/" ++ name) := fun _ hc =>
          hc.scope.slash (.word hword)
        refine .of_makes hfunc fun m steps _ hs => ⟨fun h => absurd (h.symm.trans htop) (by decide), ?_, ?_, ?_, ?_⟩
        · intro s hm
          rw [append_nil, mem_singleton] at hm
          subst hm
          exact ⟨⟨name, hword, hkey⟩, hsig⟩
        · exact fun heads hh => (hs heads).body htop (hh _ ⟨sig, p, .head _⟩) hknown hsig
        · intro key sig' p' hk
          rw [append_nil, mem_singleton] at hk
          cases hk
          obtain ⟨inner, q, rfl, -⟩ := (hs fun _ => True).phrase
          exact ⟨p, .head _⟩
        · intro known hc
          exact Drawn.append (.one (hknown known hc) rfl) ((hs fun _ => True).drawn known (hknown known hc))
      · exact .fails fail_makes
    · exact .fails failAt_makes
  · exact .fails fail_makes
  · exact .fails failAt_makes

/-- Declarations that go to the head at the top level, and stay where they are elsewhere. -/
theorem declarations_hoists (hle : lo ≤ hi) (hd : Declares d)
    (hdraw : ∀ known, Known.At known c → Drawn known [] lo hi d) :
    Hoists hi (declarations c d) fun e m r => Declared c lo m e r := by
  unfold declarations
  split
  · rename_i htop
    exact hoist_hoists htop (fun s hs => (hd s hs).1) (fun key _ _ h => (hd _ h).2 [.block ""] nofun) hle hdraw
  · rename_i htop
    exact .ret (.of_body fun _ => ⟨(hd.routes (Bool.eq_false_iff.mpr htop)).wide hle (Nat.le_refl _),
      fun known hc _ _ => hdraw known hc⟩)

/-- A line hoists what it declares. -/
theorem lineStatement_hoists (hi : ∀ heads, inside.Sound heads) (hc : c.top = true → c.scope = Place.mainScope)
    {k : Keyword} (ht : AllNamed toks) :
    Hoists lo (lineStatement inside c k p toks) fun d m r => Declared c lo m d r := by
  have body {x : Shape (List Step)} (hx : ∀ heads, Makes lo x (Body heads c lo)) :
      Hoists lo x fun d m r => Declared c lo m d r :=
    .of_makes (.all hx fun _ => True) fun _ _ _ h => .of_body h
  unfold lineStatement
  split
  · exact funcDeclaration_hoists hi hc ht
  · exact body fun heads => varSpecs_makes (hi heads) (specs_named ht)
  · exact .after (constSpecs_makes (hi fun _ => True) (specs_named ht)) fun d m hm hd =>
      declarations_hoists hm hd.1 fun known hc => hd.2 known hc nofun
  · exact .after (typeSpecs_makes (specs_named ht)) fun d m hm hd => declarations_hoists hm hd.1 fun known _ =>
      hd.2 known
  · split
    · rename_i htop
      refine .after (importSpecs_makes (specs_named ht)) fun d m hm hd =>
        hoist_hoists htop (fun s hs => ?_) (fun key _ _ h => ?_) hm fun known _ => hd.2 known
      · obtain ⟨n, path, h, hn⟩ := hd.1 s hs
        rw [h]
        exact hn
      · obtain ⟨n, path, h, -⟩ := hd.1 _ h
        cases h
    · exact .fails failAt_makes
  · exact .ret (.of_body fun _ => .empty)
  · exact body fun heads => returnStatement_makes (hi heads) ht
  · exact body fun heads => jumpStatement_makes (.inl rfl)
  · exact body fun heads => jumpStatement_makes (.inr rfl)
  · exact .fails fail_makes

/-! ## Statements -/

/-- Statements one after the other, each with its outcome. -/
inductive Sequel (heads : String → Prop) (c : Place) : Nat → Nat → List (Outcome × List Step) → Prop
  | nil {lo : Nat} : Sequel heads c lo lo []
  | cons {lo m hi : Nat} {r rs} : Settled heads c lo m r → Sequel heads c m hi rs → Sequel heads c lo hi (r :: rs)

theorem Sequel.body (h : Sequel heads c lo hi rs) : Body heads c lo hi (rs.map (·.2)).flatten := by
  induction h with
  | nil => exact .empty
  | cons hr _ ih => exact hr.1.append ih

theorem Sequel.targets (h : Sequel heads c lo hi rs) : ∀ r ∈ rs, ∀ n, r.1 = .assign (some n) → IsWord n := by
  induction h with
  | nil => exact nofun
  | cons hr _ ih => exact forall_mem_cons.mpr ⟨hr.2.2, ih⟩

/-- Statements at a place, each with its outcome, and what they have put to the head of the chunk. -/
structure Stated (c : Place) (lo hi : Nat) (d : List Step) (rs : List (Outcome × List Step)) : Prop where
  top : c.top = false → d = []
  decl : ∀ s ∈ d, s.val.Decl
  sequel : ∀ heads : String → Prop, (∀ key, Heads d key → heads key) → Sequel heads c lo hi rs
  bodies : ∀ key sig p, ⟨.header key sig, p⟩ ∈ d → ∃ r ∈ rs, ∃ p, ⟨.body key sig, p⟩ ∈ r.2
  drawn : ∀ known, Known.At known c → Drawn known [] lo hi (d ++ (rs.map (·.2)).flatten)

theorem Stated.of_declared (h : Declared c lo hi d steps) : Stated c lo hi d [(.other, steps)] where
  top := h.top
  decl := h.decl
  sequel heads hh := .cons ⟨h.body heads hh, nofun, nofun⟩ .nil
  bodies key sig p hk := ⟨_, .head _, h.bodies key sig p hk⟩
  drawn known hc := by simpa using h.drawn known hc

theorem Stated.of_settled (h : ∀ heads, Settled heads c lo hi r) : Stated c lo hi [] [r] where
  top _ := rfl
  decl _ h := nomatch h
  sequel heads _ := .cons (h heads) .nil
  bodies _ _ _ h := nomatch h
  drawn known hc := by simpa using (h fun _ => True).1.draws hc

theorem Stated.of_body (h : ∀ heads, Body heads c lo hi steps) : Stated c lo hi [] [(.other, steps)] :=
  .of_declared (.of_body h)

theorem heads_append {e : List Step} : Heads (d ++ e) key ↔ Heads d key ∨ Heads e key := by
  constructor
  · rintro ⟨sig, p, h⟩
    exact (mem_append.mp h).imp (⟨sig, p, ·⟩) (⟨sig, p, ·⟩)
  · rintro (⟨sig, p, h⟩ | ⟨sig, p, h⟩)
    · exact ⟨sig, p, mem_append_left _ h⟩
    · exact ⟨sig, p, mem_append_right _ h⟩

theorem Stated.cons {m : Nat} {d e : List Step}
    (h : Stated c lo m d [r]) (h' : Stated c m hi e rs) : Stated c lo hi (d ++ e) (r :: rs) where
  top ht := by rw [h.top ht, h'.top ht]; rfl
  decl s hs := (mem_append.mp hs).elim (h.decl s) (h'.decl s)
  sequel heads hh := by
    have hr := h.sequel heads fun key hk => hh key (heads_append.mpr (.inl hk))
    have hrs := h'.sequel heads fun key hk => hh key (heads_append.mpr (.inr hk))
    cases hr with
    | cons hr hn => cases hn; exact .cons hr hrs
  bodies key sig p hk := by
    rcases mem_append.mp hk with hk | hk
    · obtain ⟨q, hq, hb⟩ := h.bodies key sig p hk
      exact ⟨r, (.head _), mem_singleton.mp hq ▸ hb⟩
    · obtain ⟨q, hq, hb⟩ := h'.bodies key sig p hk
      exact ⟨q, .tail _ hq, hb⟩
  drawn known hc := by
    refine ((h.drawn known hc).append (h'.drawn known hc)).of_le (fun x hx => ?_) fun l => ?_
    · simp only [map_cons, map_nil, flatten_cons, flatten_nil, append_nil, mem_append] at hx ⊢
      tauto
    · simp only [map_cons, map_nil, flatten_cons, flatten_nil, append_nil, seen_append]
      omega

theorem userLabel_eq {fs : List Frame} (h : Stands c fs) : c.userLabel n = Frame.owner fs ++ "/" ++ n := by
  unfold Place.userLabel Frame.owner
  rw [h.func]
  cases c.func <;> rfl

theorem userLabel_known {known : String → Nat → Prop} (hc : Known.At known c) (hn : IsWord n) :
    Known.Of known (c.userLabel n) := by
  refine Known.Of.slash ?_ (.word hn)
  split
  · rename_i f hf
    exact hc.func hf
  · exact fun _ _ hb => absurd hb (Bears.of_notMem (by decide))

/-- Every statement hoists only declarations. -/
theorem statement_hoists (hi : ∀ heads, inside.Sound heads) (hc : c.top = true → c.scope = Place.mainScope)
    {t : Token} {ts : List Token} (ht : AllNamed (t :: ts)) :
    Hoists lo (statement inside c t ts) fun d m r => Stated c lo m d [r.2] := by
  have structured {x : Shape (List Step × List Token)} {f : List Step × List Token → Nat × Outcome × List Step}
      (hx : ∀ heads, Makes lo x (Leaves heads c lo)) (hf : ∀ r, (f r).2 = (.other, r.1)) :
      Hoists lo (x >>= fun r => pure (f r)) fun d m r => Stated c lo m d [r.2] := by
    refine .after (.all hx fun _ => True) fun r m _ hr => .ret ?_
    rw [hf]
    exact .of_body fun heads => (hr heads).1
  have hline : AllNamed (ts.takeWhile (!·.is .semicolon)) := ht.tail.takeWhile _
  refine .after look_makes fun _ m _ hm => ?_
  subst hm
  dsimp only
  split
  · rename_i k q
    split
    · exact structured (fun heads => ifFrom_makes (hi heads) ht.tail) fun _ => rfl
    · exact structured (fun heads => forLoop_makes (hi heads) ht.tail) fun _ => rfl
    · exact structured (fun heads => switch_makes (hi heads) ht.tail) fun _ => rfl
    · split
      · rename_i name q' hname
        rw [hname] at hline
        refine .ret (.of_body fun _ => .of_phrase (fun fs d hfs _ => ?_) fun _ hc =>
          .one (userLabel_known hc hline.head.word) rfl)
        rw [userLabel_eq hfs]
        exact .writtenGoto trivial hline.head.word
      · exact .fails failAt_makes
    · refine .seq (lineStatement_hoists hi hc hline) fun steps d m _ hd => .ret ?_
      rw [append_nil]
      exact .of_declared hd
  · refine .after (.all (fun heads => block_makes (hi heads) ht.head.inner) fun _ => True) fun steps m _ hs => .ret ?_
    exact .of_body hs
  · split
    · refine .ret (.of_body fun _ => .of_phrase (fun fs d hfs _ => ?_) fun _ hc =>
        .plainLabel (userLabel_known hc ht.head.word) (not_madeWith_word ht.head.word))
      rw [userLabel_eq hfs]
      exact .writtenLabel ht.head.word
    · refine .after (.all (fun heads => simpleStatement_makes (hi heads) (.cons ht.head hline)) fun _ => True)
        fun r m _ hr => .ret ?_
      exact .of_settled hr

/-- So do statements in a row. -/
theorem statementsFrom_hoists (hi : ∀ heads, inside.Sound heads) (hc : c.top = true → c.scope = Place.mainScope) :
    ∀ {toks : List Token} {skip lo : Nat}, AllNamed toks →
      Hoists lo (statementsFrom inside c toks skip) fun d m rs => Stated c lo m d rs := by
  intro toks skip lo ht
  fun_induction statementsFrom inside c toks skip generalizing lo with
  | case1 => exact .ret ⟨fun _ => rfl, nofun, fun _ _ => .nil, nofun, fun _ _ => .empty⟩
  | case2 t ts skip ih | case3 t ts _ ih => exact ih ht.tail
  | case4 t ts _ ih =>
    refine .seq (statement_hoists hi hc ht) fun r d m _ hd => ?_
    refine .seq (ih r.1 ht.tail) fun rs e n _ he => .ret ?_
    rw [append_nil]
    exact hd.cons he

theorem bodyWith_makes (hi : ∀ heads, inside.Sound heads) (htop : c.top = false)
    (ht : AllNamed toks) : Makes lo (bodyWith inside c toks) (Body heads c lo) := by
  have hc : c.top = true → c.scope = Place.mainScope := fun h => absurd (htop.symm.trans h) (by decide)
  have statements : Makes lo (statementsFrom inside c toks 0) (Sequel heads c lo) := by
    refine fun h => (statementsFrom_hoists hi hc ht h).weaken (fun _ hs => hs) ?_ fun _ _ hs => hs
    rintro rs s ⟨hle, d, hd, hst⟩
    obtain rfl := hst.top htop
    exact ⟨⟨hle, hst.sequel heads fun key ⟨_, _, h⟩ => (nomatch h)⟩, by simpa using hd⟩
  exact statements.seq fun rs m _ hrs => .ret hrs.body

end Shape

/-- Nested code is sound, by induction on its depth. -/
theorem Inside.upTo_sound (heads : String → Prop) : ∀ d, (Inside.upTo d).Sound heads
  | 0 => ⟨fun _ _ _ _ => failAt_makes, fun _ _ _ _ _ _ => fail_makes, fun _ _ _ _ _ => failAt_makes⟩
  | d + 1 =>
    { expr := fun _ _ _ ht => exprWith_makes (upTo_sound heads d) ht
      composite := fun _ _ _ _ _ ht => compositeWith_makes (upTo_sound heads d) ht
      body := fun _ _ _ htop ht => bodyWith_makes (fun heads => upTo_sound heads d) htop ht }

namespace Stream

open Shape (Heads Settled Stated Sequel)

variable {heads : String → Prop} {c : Place} {lo hi : Nat} {stream : List Step}
variable {labels : Nat} {toks : List Token}

theorem stands_chunk : Stands .chunk [] := ⟨rfl, rfl, ⟨fun _ => rfl, fun _ => rfl⟩, nofun, nofun⟩

theorem phrase_of_body {s : List Step} (h : Body heads .chunk lo hi s) :
    ∃ links, Link.Closed links ∧ Phrase .free heads [] (.stmts 0) lo hi links s := by
  obtain ⟨links, hl, -, hp⟩ := h.routes [] 0 stands_chunk fun _ => rfl
  exact ⟨links, fun l hm => (hl l hm).elim id nofun, hp⟩

/-- With all values but the last dropped, a phrase is whole. -/
theorem keepResult_whole (last : Pos) : ∀ {lo hi : Nat} {rs : List (Outcome × List Step)},
    Sequel heads .chunk lo hi rs →
    WholePhrase .free heads lo hi (keepResult last rs) := by
  intro lo hi rs hrs
  fun_induction keepResult last rs generalizing lo with
  | case1 =>
    cases hrs
    exact .done .nil .empty
  | case2 steps =>
    cases hrs with
    | cons hr hn =>
      cases hn
      obtain ⟨p, e, q, he, hs⟩ := hr.2.1 rfl
      dsimp only at he
      have := WholePhrase.value .nil .empty (hs.phrase [] stands_chunk)
      simpa [he] using this
  | case3 name steps =>
    cases hrs with
    | cons hr hn =>
      cases hn
      obtain ⟨links, hl, hp⟩ := phrase_of_body hr.1
      exact .value hl hp (.atom (VarName.isPart (.inl (hr.2.2 name rfl))))
  | case4 o steps =>
    cases hrs with
    | cons hr hn =>
      cases hn
      obtain ⟨links, hl, hp⟩ := phrase_of_body hr.1
      exact .done hl hp
  | case5 o steps rest _ _ _ ih =>
    cases hrs with
    | cons hr hn =>
      obtain ⟨links, hl, hp⟩ := phrase_of_body hr.1
      exact .after hl hp (ih hn)

/-- The bodies of functions stay where the value of the last statement is kept. -/
theorem mem_keepResult {last : Pos} {key : String} {sig : Signature} {p : Pos} :
    ∀ {lo hi : Nat} {rs : List (Outcome × List Step)}, Sequel heads c lo hi rs → ∀ r ∈ rs, ⟨.body key sig, p⟩ ∈ r.2 →
      ⟨.body key sig, p⟩ ∈ keepResult last rs := by
  intro lo hi rs hrs r hr hm
  fun_induction keepResult last rs generalizing lo with
  | case1 => cases hr
  | case2 steps =>
    rw [mem_singleton] at hr
    subst hr
    cases hrs with
    | cons hs _ =>
      obtain ⟨p, e, q, he, hb⟩ := hs.2.1 rfl
      subst he
      simpa using hm
  | case3 name steps =>
    rw [mem_singleton] at hr
    subst hr
    exact mem_append_left _ hm
  | case4 o steps =>
    rw [mem_singleton] at hr
    subst hr
    exact hm
  | case5 o steps rest _ _ _ ih =>
    cases hrs with
    | cons _ hrs =>
      rcases mem_cons.mp hr with rfl | hr
      · exact mem_append_left _ hm
      · exact mem_append_right _ (ih hrs hr)

/-- A stream of declarations, followed by a phrase. The functions declared are those that have a body. -/
structure Shaped (lo hi : Nat) (head rest : List Step) : Prop where
  decl : ∀ s ∈ head, s.val.Decl
  phrase : WholePhrase .free (Heads head) lo hi rest
  bodies : ∀ key sig p, ⟨.header key sig, p⟩ ∈ head → ∃ p, ⟨.body key sig, p⟩ ∈ rest

theorem Shaped.walk {head rest : List Step} (h : Shaped lo hi head rest) : Walk (Heads head) [] rest :=
  h.phrase.walk

/-- A chunk is its hoisted code and the rest. -/
theorem chunk_hoists (ht : AllNamed toks) :
    Shape.Hoists labels (statementsFrom (Inside.upTo (Token.nestings toks)) .chunk toks 0)
      fun d m rs => Stated .chunk labels m d rs :=
  statementsFrom_hoists (fun heads => Inside.upTo_sound heads _) (fun _ => rfl) ht

/-- **The stream of a chunk is a phrase**, and its declarations come first. -/
theorem shaped_of_ofTokens {n : Nat}
    (h : ofTokens labels toks = (.ok stream, n)) (ht : AllNamed toks) :
    ∃ head rest, stream = head ++ rest ∧ Shaped labels n head rest := by
  have hst := chunk_hoists ht [] (start labels) ⟨rfl, rfl⟩
  unfold ofTokens at h
  split at h
  · rename_i stream' s hs
    cases h
    obtain ⟨rs, u, hrs, hk⟩ := seq_ok.mp hs
    rw [hrs] at hst
    cases hk
    obtain ⟨-, d, hd, hst⟩ := hst
    rw [nil_append] at hd
    have hsequel := hst.sequel (Heads d) fun _ hk => hk
    refine ⟨d, _, by rw [hd], hst.decl, keepResult_whole s.last hsequel, fun key sig p hk => ?_⟩
    obtain ⟨r, hr, q, hb⟩ := hst.bodies key sig p hk
    exact ⟨q, mem_keepResult hsequel r hr hb⟩
  · cases h

theorem knownAt_chunk : Known.At (fun _ _ => False) .chunk := by
  refine ⟨fun n hn tag k hb => ?_, [], stands_chunk⟩
  cases mem_singleton.mp hn
  exact Bears.of_notMem (by decide) hb

/-- The value of the last statement is kept with fewer names, besides its target. -/
theorem keepResult_le (last : Pos) : ∀ {rs : List (Outcome × List Step)},
    (∀ r ∈ rs, ∀ n, r.1 = .assign (some n) → IsWord n) → ∃ kept echo, keepResult last rs = kept ++ echo ∧
      List.Sublist kept (rs.map (·.2)).flatten ∧ (echo = [] ∨ ∃ n, IsWord n ∧ echo = [⟨.ident n, last⟩]) := by
  intro rs h
  fun_induction keepResult last rs with
  | case1 => exact ⟨[], [], rfl, List.Sublist.refl _, .inl rfl⟩
  | case2 steps =>
    refine ⟨_, [], (append_nil _).symm, ?_, .inl rfl⟩
    have : (List.map (fun x : Outcome × List Step => x.2) [(Outcome.expr, steps)]).flatten = steps := by simp
    rw [this]
    exact (dropLast_sublist _).trans (drop_sublist _ _)
  | case3 name steps =>
    refine ⟨steps, _, rfl, ?_, .inr ⟨name, h _ (.head _) name rfl, rfl⟩⟩
    simp
  | case4 o steps =>
    refine ⟨steps, [], (append_nil _).symm, ?_, .inl rfl⟩
    simp
  | case5 o steps rest _ _ _ ih =>
    obtain ⟨kept, echo, he, hs, hecho⟩ := ih fun r hr => h r (.tail _ hr)
    refine ⟨steps ++ kept, echo, by rw [he, append_assoc], ?_, hecho⟩
    exact (List.Sublist.refl steps).append hs

/-- **The names of a chunk are drawn from the numbers that it counts.** -/
theorem drawn_of_ofTokens {n : Nat}
    (h : ofTokens labels toks = (.ok stream, n)) (ht : AllNamed toks) :
    Drawn (fun _ _ => False) [] labels n stream := by
  have hst := chunk_hoists ht [] (start labels) ⟨rfl, rfl⟩
  unfold ofTokens at h
  split at h
  · rename_i stream' s hs
    cases h
    obtain ⟨rs, u, hrs, hk⟩ := seq_ok.mp hs
    rw [hrs] at hst
    cases hk
    obtain ⟨-, d, hd, hst⟩ := hst
    obtain ⟨kept, echo, he, hsub, hecho⟩ := keepResult_le s.last (hst.sequel (Heads d) fun _ hk => hk).targets
    have hkept : Drawn (fun _ _ => False) [] labels s.labels (d ++ kept) :=
      (hst.drawn _ knownAt_chunk).of_le (fun x hx => ((List.Sublist.refl d).append hsub).subset hx) fun l =>
        (((List.Sublist.refl d).append hsub).filterMap _).count_le l
    rw [hd, he, ← append_assoc]
    refine Drawn.append hkept ?_
    rcases hecho with rfl | ⟨n, hn, rfl⟩
    · exact .empty
    · exact .word hn rfl
  · cases h

theorem labels_le_ofTokens (ht : AllNamed toks) : labels ≤ (ofTokens labels toks).2 := by
  have hst := chunk_hoists ht [] (start labels) ⟨rfl, rfl⟩
  unfold ofTokens chunkSteps
  cases hrs : statementsFrom (Inside.upTo (Token.nestings toks)) .chunk toks 0 (start labels) with
  | ok rs u =>
    rw [hrs] at hst
    rw [seq_eq hrs]
    exact hst.1
  | error e u =>
    rw [hrs] at hst
    rw [seq_error hrs]
    exact hst

end Stream

end Goblet
