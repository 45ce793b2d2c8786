import Goblet.Proofs.Stream.Place

/-!
# Shaped expressions are phrases

The steps of an expression are one expression at its place (`exprWith_makes`), whatever stands inside its brackets is
shaped by, as long as that gives phrases too (`Inside.Sound`). While operators wait for their right operands, the steps
so far are what `Waiting` says; an operator that has its operands makes one expression of them (`Waiting.take`).
-/

namespace Goblet

open List

open Token (AllNamed)

variable {heads : String → Prop}

/-- What stands inside brackets is shaped into phrases. -/
structure Inside.Sound (heads : String → Prop) (inside : Inside) : Prop where
  expr : ∀ lo c toks, AllNamed toks → Shape.Makes lo (inside.expr c toks) (Exprs heads c 1 lo)
  composite : ∀ lo c ty toks p, AllNamed toks → Shape.Makes lo (inside.composite c ty toks p) (Exprs heads c 1 lo)
  body : ∀ lo c toks, c.top = false → AllNamed toks → Shape.Makes lo (inside.body c toks) (Body heads c lo)

namespace Shape

variable {inside : Inside} {c : Place} {steps : List Step} {toks : List Token} {p : Pos} {a lo : Nat}
variable {b : Nat} {ops : List (At Pending)} {s t : List Step}

/-! ## Calls, indexing and function literals -/

variable (hi : inside.Sound heads)
include hi

theorem arguments_makes : ∀ {lo : Nat} {args : List (List Token)}, (∀ a ∈ args, AllNamed a) →
    Makes lo (arguments inside c args) fun m r => Exprs heads c args.length lo m r.1
  | _, [], _ => .ret .none
  | lo, arg :: rest, h => by
    have harg := h arg (.head _)
    have hrest : ∀ a ∈ rest, AllNamed a := fun a ha => h a (.tail _ ha)
    unfold arguments
    split
    · split
      · rename_i he
        rw [List.isEmpty_iff.mp he]
        exact (hi.expr lo c _ harg.dropLast).seq fun _ _ _ hs => .ret hs
      · exact fail_makes
    · refine (hi.expr lo c _ harg).seq fun _ _ _ hs => (arguments_makes hrest).seq fun _ _ _ hr => .ret ?_
      rw [length_cons, Nat.add_comm]
      exact hs.more hr

/-- The arguments are shaped behind the callee and stand before it. -/
theorem call_makes (hs : Exprs heads c 1 a lo steps) (ht : AllNamed toks) :
    Makes lo (call inside c steps toks p) (Exprs heads c 1 a) :=
  (arguments_makes hi fun _ ha => ht.withoutSemicolons.commaList ha).seq fun _ _ _ hr =>
    .ret (.apply rfl trivial (hr.moreBefore hs))

theorem bound_makes (ht : AllNamed toks) :
    Makes lo (bound inside c toks) (Exprs heads c (!toks.isEmpty).toNat lo) := by
  unfold bound
  split
  · rename_i he
    rw [he]
    exact .ret .none
  · rename_i he
    rw [Bool.not_eq_true _ |>.mp he]
    exact hi.expr lo c _ ht

/-- What stands in brackets behind an operand makes another operand of it. -/
theorem subscript_makes (hs : Exprs heads c 1 a lo steps) (ht : AllNamed toks) :
    Makes lo (subscript inside c toks p) fun m r => Exprs heads c 1 a m (steps ++ r) := by
  unfold subscript
  dsimp only
  split
  · refine (bound_makes hi (ht.withoutSemicolons.take _)).seq fun _ _ _ hl =>
      (bound_makes hi (ht.withoutSemicolons.drop _)).seq fun _ _ _ hh => .ret ?_
    rw [← append_assoc, ← append_assoc]
    exact .apply rfl trivial ((hs.more hl).more hh)
  · refine (hi.expr lo c _ ht.withoutSemicolons).seq fun _ _ _ hi => .ret ?_
    rw [← append_assoc]
    exact .apply rfl trivial (hs.more hi)

omit hi

theorem contents_named {t : Option Token} (h : ∀ u, t = some u → u.Named) : AllNamed (contents t) := by
  unfold contents
  split
  · exact (h _ rfl).inner
  · exact .nil

/-- What a function consists of, for whatever frames it stands in. -/
structure Function (heads : String → Prop) (key : String) (sig : Signature) (p : Pos) (lo hi : Nat) (s : List Step) :
    Prop where
  phrase : ∃ inner q, s = ⟨.body key sig, p⟩ :: inner ++ [⟨.label (key ++ "_end"), q⟩] ∧ ∀ fs, ∃ links,
    Link.Closed links ∧ Phrase .free heads (.func key :: fs) (.stmts 0) lo hi links inner
  drawn : ∀ known, Known.Of known key → Drawn known [] lo hi s

/-- The label that closes a function has no number, for it ends with a letter. -/
theorem not_madeWith_closing {key : String} (k : Nat) : ¬MadeWith (key ++ "_end") k := by
  rintro ⟨scope, tag, -, he⟩
  obtain ⟨d, hd, hdigit⟩ := (fresh_freshText tag k).ends scope
  rw [← he, String.toList_append, getLast?_append] at hd
  cases hd
  exact absurd hdigit (by decide)

include hi

theorem funcBody_makes {key : String} {sig : Signature} (hsig : sig.Named) (ht : AllNamed toks) :
    Makes lo (funcBody inside key sig toks p) (Function heads key sig p lo) := by
  refine (hi.body lo _ _ rfl ht).seq fun inner m _ hb => last_makes.seq fun q _ _ hm => .ret ?_
  subst hm
  refine ⟨⟨inner, q, rfl, fun fs => ?_⟩, fun known hk => ?_⟩
  · obtain ⟨links, hl, -, hp⟩ := hb.routes (.func key :: fs) 0 (.funcBody hsig) nofun
    exact ⟨links, fun l hm => (hl l hm).elim id nofun, hp⟩
  · exact (Drawn.append (.one hk rfl) (hb.draws (.funcBody hk hsig))).append
      (.plainLabel hk.closing not_madeWith_closing)

theorem funcLiteral_makes {whole params tail : List Token} (hp : AllNamed params)
    (ht : AllNamed tail) :
    Makes lo (funcLiteral inside c p whole params tail) fun m r => Exprs heads c 1 lo m r.1 := by
  unfold funcLiteral
  split
  · refine (lift_makes fun _ _ _ => trivial).seq fun _ _ _ hm => .ret ?_
    rw [hm.1]
    exact .typeRef
  · rename_i b _
    refine (lift_makes fun _ _ h => Signature.named_of_read h hp (ht.take _)).seq fun sig m _ ⟨hm, hsig⟩ => ?_
    subst hm
    refine freshName_makes.seq fun n m' _ ⟨hm, hn⟩ => ?_
    subst hm hn
    have hbody : AllNamed (contents tail[b]?) := contents_named fun u hu => ht u (mem_of_getElem? hu)
    refine (funcBody_makes hi hsig hbody).seq fun s _ _ hs => .ret ⟨fun fs hfs => ?_, fun known hc => ?_⟩
    · obtain ⟨inner, q, hs, hinner⟩ := hs.phrase
      obtain ⟨links, hl, hp⟩ := hinner fs
      have := Phrase.literal (p := p) (q := q) (by rw [hfs.scope]) hsig hl hp
      simpa [hs] using this
    · have hname : Known.Of (Known.extend known (fun _ => "lit") m (m + 1)) (freshText "lit" m) :=
        .fresh (by decide) ⟨Nat.le_refl _, Nat.lt_succ_self _⟩ rfl
      exact Drawn.close (Nat.le_succ _) ((hs.drawn _ (hc.scope.extend.slash hname)).append (.one hname rfl))
        fun _ _ _ => Nat.zero_le _

/-! ## Operands -/

theorem chain_makes : ∀ {lo : Nat} {toks : List Token} {steps : List Step},
    Exprs heads c 1 a lo steps → AllNamed toks →
    Makes lo (chain inside c steps toks) fun m r => Exprs heads c 1 a m r.1 := by
  intro lo toks steps hs ht
  fun_induction chain inside c steps toks generalizing lo with
  | case1 steps q n r ts ih =>
    exact (ih (.apply rfl ht.tail.head.word hs) ht.tail.tail).seq fun _ _ _ hr => .ret hr
  | case2 => exact failAt_makes
  | case3 steps inner q ts ih =>
    exact (call_makes hi hs ht.head.inner).seq fun s _ _ hs' => (ih s hs' ht.tail).seq fun _ _ _ hr => .ret hr
  | case4 steps inner q ts ih =>
    exact (subscript_makes hi hs ht.head.inner).seq fun s _ _ hs' => (ih s hs' ht.tail).seq fun _ _ _ hr => .ret hr
  | case5 => exact .ret hs

theorem typeOperand_makes (ht : AllNamed toks) :
    Makes lo (typeOperand inside c p toks) fun m r => Exprs heads c 1 lo m r.1 := by
  refine (lift_makes fun _ _ _ => trivial).seq fun r m _ hm => ?_
  rw [hm.1]
  dsimp only
  split
  · rename_i inner q ts hd
    have hb : AllNamed (.group .brace inner q :: ts) := hd ▸ ht.drop _
    exact (hi.composite lo c _ _ _ hb.head.inner).seq fun _ _ _ hs => .ret hs
  · exact .ret .typeRef

theorem head_makes (ht : AllNamed toks) :
    Makes lo (head inside c toks) fun m r => Exprs heads c 1 lo m r.1 := by
  unfold head
  split
  · exact (hi.composite lo c _ _ _ ht.tail.head.inner).seq fun _ _ _ hs => .ret hs
  · exact .ret (.ident ht.head.word)
  · exact .ret (.literal rfl)
  · exact .ret (.literal rfl)
  · exact .ret (.literal rfl)
  · exact (hi.expr lo c _ ht.head.inner.withoutSemicolons).seq fun _ _ _ hs => .ret hs
  · exact funcLiteral_makes hi ht.tail.head.inner ht.tail.tail
  · exact typeOperand_makes hi ht
  · exact typeOperand_makes hi ht
  · exact typeOperand_makes hi ht
  · exact fail_makes
  · exact failAt_makes

theorem operand_makes (ht : AllNamed toks) :
    Makes lo (operand inside c toks) fun m r => Exprs heads c 1 lo m r.1 :=
  (head_makes hi ht).seq fun _ _ _ hs => (chain_makes hi hs (ht.drop _)).seq fun _ _ _ hr => .ret hr

/-! ## Operators -/

/-- The steps there are while operators wait: the left operands of those that have one, each behind what was there
before it, and the jumps of `&&` and `||`. -/
inductive Waiting (heads : String → Prop) (c : Place) : List (At Pending) → Nat → Nat → List Step → Prop
  | none {lo : Nat} : Waiting heads c [] lo lo []
  | unary {ops op} {p : Pos} {a b : Nat} {s} : Waiting heads c ops a b s → Waiting heads c (⟨.unary op, p⟩ :: ops) a b s
  | binary {ops op} {p : Pos} {a b d : Nat} {s t} : Waiting heads c ops a b s → Exprs heads c 1 b d t →
      Waiting heads c (⟨.binary op, p⟩ :: ops) a d (s ++ t)
  | logic {ops op l act} {p q : Pos} {a b d : Nat} {s t} : act = .jumpSetFalse l ∨ act = .jumpSetTrue l →
      l = c.scope ++ "/" ++ freshText "x" d → Waiting heads c ops a b s → Exprs heads c 1 b d t →
      Waiting heads c (⟨.logic op l, p⟩ :: ops) a (d + 1) (s ++ t ++ [⟨act, q⟩])

omit hi

/-- The operator on top takes its operands and leaves one expression. -/
theorem Waiting.take {o : At Pending} {d : Nat} (h : Waiting heads c (o :: ops) a b s) (ht : Exprs heads c 1 b d t) :
    ∃ m s' t', Waiting heads c ops a m s' ∧ Exprs heads c 1 m d t' ∧
      s ++ t ++ [⟨o.val.act, o.pos⟩] = s' ++ t' := by
  cases h with
  | unary h => exact ⟨_, _, _, h, .apply rfl (by trivial) ht, append_assoc ..⟩
  | @binary _ op p _ m _ s l h hl =>
    have he : Exprs heads c 1 m d (l ++ t ++ [⟨.binary op, p⟩]) := .apply rfl trivial (hl.more ht)
    exact ⟨_, _, _, h, he, by simp [Pending.act]⟩
  | @logic _ op label act p q _ m _ s l hact hlabel h hl =>
    have he : Exprs heads c 1 m d (l ++ ⟨act, q⟩ :: t ++ [⟨.label label, p⟩]) := .logic hact hlabel hl ht
    exact ⟨_, _, _, h, he, by simp [Pending.act]⟩

theorem Waiting.takeAll : ∀ {done ops : List (At Pending)} {a b d : Nat} {s t : List Step},
    Waiting heads c (done ++ ops) a b s → Exprs heads c 1 b d t →
    ∃ m s' t', Waiting heads c ops a m s' ∧ Exprs heads c 1 m d t' ∧ s ++ t ++ Pending.steps done = s' ++ t'
  | [], _, _, _, _, _, _, h, ht => ⟨_, _, _, h, ht, by simp [Pending.steps]⟩
  | o :: done, ops, a, b, d, s, t, h, ht => by
    obtain ⟨m, s', t', h', ht', he⟩ := Waiting.take h ht
    obtain ⟨m', s'', t'', h'', ht'', he'⟩ := Waiting.takeAll h' ht'
    refine ⟨m', s'', t'', h'', ht'', ?_⟩
    rw [← he', ← he]
    simp [Pending.steps]

theorem Waiting.finish {d : Nat} (h : Waiting heads c ops a b s)
    (ht : Exprs heads c 1 b d t) : Exprs heads c 1 a d (s ++ t ++ Pending.steps ops) := by
  rw [← append_nil ops] at h
  obtain ⟨m, s', t', h', ht', he⟩ := Waiting.takeAll h ht
  rw [he]
  cases h'
  exact ht'

/-- A binary operator behind its left operand waits, and so does the jump that it may leave. -/
theorem binary_makes {op : Operator} (h : Waiting heads c ops a b s)
    (ht : Exprs heads c 1 b lo t) (q : Pos) : Makes lo (binary c op p) fun m r =>
      Waiting heads c (⟨r.2, q⟩ :: ops) a m (s ++ t ++ r.1) := by
  have jump {act : String → Act} (hact : ∀ l, act l = .jumpSetFalse l ∨ act l = .jumpSetTrue l) : Makes lo (do
      let label ← fresh c "x"
      return ([⟨act label, p⟩], .logic op label)) fun m r => Waiting heads c (⟨r.2, q⟩ :: ops) a m (s ++ t ++ r.1) := by
    refine fresh_makes.seq fun l m _ ⟨hm, hl⟩ => .ret ?_
    subst hm
    exact .logic (hact _) hl h ht
  unfold binary
  split
  · exact jump fun _ => .inl rfl
  · exact jump fun _ => .inr rfl
  · refine .ret ?_
    rw [append_nil]
    exact .binary h ht

include hi

theorem exprFrom_makes {skip : Nat} {operandNext : Bool}
    (ht : AllNamed toks) (hw : Waiting heads c ops a b s)
    (hlo : operandNext = true → lo = b ∧ t = []) (he : operandNext = false → Exprs heads c 1 b lo t) :
    Makes lo (exprFrom inside c toks skip ops operandNext) fun m r => Exprs heads c 1 a m (s ++ t ++ r) := by
  fun_induction exprFrom inside c toks skip ops operandNext generalizing lo b s t with
  | case1 => exact failAt_makes
  | case2 skip ops => exact .ret (hw.finish (he rfl))
  | case3 t' ts skip ops operandNext ih => exact ih ht.tail hw hlo he
  | case4 t' ts ops ih ih' =>
    obtain ⟨rfl, rfl⟩ := hlo rfl
    refine look_makes.seq fun _ m _ hm => ?_
    subst hm
    split
    · split
      · exact ih _ _ ht.tail (.unary hw) (fun _ => ⟨rfl, rfl⟩) nofun
      · exact fail_makes
    · refine (operand_makes hi ht).seq fun r m _ hs => ?_
      refine (ih' _ ht.tail hw nofun fun _ => hs).seq fun r' _ _ hr => .ret ?_
      simpa using hr
  | case5 t' ts ops ih =>
    refine look_makes.seq fun _ m _ hm => ?_
    subst hm
    split
    · split
      · exact fail_makes
      · rename_i q _ prec _
        rw [span_eq_takeWhile_dropWhile]
        rw [← takeWhile_append_dropWhile (l := ops)] at hw
        obtain ⟨m, s', t'', hw', ht', hst⟩ := Waiting.takeAll hw (he rfl)
        refine (binary_makes hw' ht' q).seq fun r m' hm' hr => ?_
        refine (ih _ _ _ ht.tail hr (fun _ => ⟨rfl, rfl⟩) nofun).seq fun r' _ _ hr' => .ret ?_
        rw [← hst] at hr'
        simpa using hr'
    · exact fail_makes

theorem exprWith_makes (ht : AllNamed toks) :
    Makes lo (exprWith inside c toks) (Exprs heads c 1 lo) :=
  .ite (fun _ => failAt_makes) fun _ =>
    (exprFrom_makes hi ht .none (fun _ => ⟨rfl, rfl⟩) nofun)

/-! ## Composite literals -/

theorem element_makes {implied : Option TypeExpr} (ht : AllNamed toks) :
    Makes lo (element inside c toks implied p) (Exprs heads c 1 lo) := by
  unfold element
  split
  · exact hi.composite lo c _ _ _ ht.head.inner
  · exact fail_makes
  · exact fail_makes
  · exact exprWith_makes hi ht

/-- How many operands the elements of a literal are. -/
def elementCount (keys : Keys) (n : Nat) : Nat :=
  match keys with
  | .pairs => 2 * n
  | _ => n

theorem elements_makes {keys : Keys} {key value : Option TypeExpr} :
    ∀ {lo : Nat} {elems : List (List Token)}, (∀ e ∈ elems, AllNamed e) →
      Makes lo (elements inside c keys key value p elems) (Exprs heads c (elementCount keys elems.length) lo)
  | _, [], _ => .ret (by cases keys <;> exact .none)
  | lo, elem :: elems, h => by
    have helem := h elem (.head _)
    have hrest (m : Nat) : Makes m (elements inside c keys key value p elems)
        (Exprs heads c (elementCount keys elems.length) m) :=
      elements_makes fun e he => h e (.tail _ he)
    unfold elements
    split
    · refine (element_makes hi helem).seq fun _ _ _ hs => (hrest _).seq fun _ _ _ hr => .ret ?_
      have hcount : elementCount .positional (elem :: elems).length = 1 + elems.length := Nat.add_comm ..
      exact hcount ▸ hs.more hr
    · rename_i names
      refine (element_makes hi (helem.drop _)).seq fun _ _ _ hs => (hrest _).seq fun _ _ _ hr => .ret ?_
      have hcount : elementCount (.fields names) (elem :: elems).length = 1 + elems.length := Nat.add_comm ..
      exact hcount ▸ hs.more hr
    · refine (element_makes hi (helem.takeWhile _)).seq fun _ _ _ hk =>
        (element_makes hi (helem.drop _)).seq fun _ _ _ hv => (hrest _).seq fun _ _ _ hr => .ret ?_
      have hcount : elementCount .pairs (elem :: elems).length = 1 + 1 + elementCount .pairs elems.length := by
        simp only [elementCount, length_cons]
        omega
      exact hcount ▸ (hk.more hv).more hr

theorem compositeWith_makes {ty : TypeExpr} (ht : AllNamed toks) :
    Makes lo (compositeWith inside c ty toks p) (Exprs heads c 1 lo) :=
  .ite (fun _ => fail_makes) fun _ =>
    (elements_makes hi fun _ he => ht.withoutSemicolons.commaList he).seq fun _ _ _ hs => .ret (.apply (by
      cases literalKeys ty _ <;> rfl) trivial hs)

end Shape

end Goblet
