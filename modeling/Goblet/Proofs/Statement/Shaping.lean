import Goblet.Proofs.Statement.Stream

/-!
# Shaping statements

The steps of tokens that write statements do what `Block.stream` says (`Stream.chunkSteps_program`). A statement is
shaped with tokens behind it, of which none is taken, so a block is shaped statement by statement. There is one lemma
for each control structure, about a header, tokens in braces and what follows them.
-/

namespace Goblet

open List Token

/-! ## Headers -/

namespace Token

variable {t : Token} {ts us : List Token}

/-- Tokens before the braces of a control structure. -/
def InHeader : Token → Prop
  | .group .brace _ _ | .group .bracket _ _ | .atom (.keyword .struct) _ => False
  | _ => True

theorem Plain.inHeader (h : t.Plain) : t.InHeader := by
  cases t with
  | group d inner p => cases d <;> trivial
  | atom a p => cases a <;> trivial

/-- Tokens of a header: those of its clauses, and semicolons between them. -/
def Clausal (t : Token) : Prop := t.Plain ∨ t.is .semicolon = true

theorem Clausal.inHeader (h : t.Clausal) : t.InHeader := by
  rcases h with h | h
  · exact h.inHeader
  · cases t with
    | group => cases h
    | atom a p => cases a <;> trivial

theorem Clausal.is_keyword (h : t.Clausal) (k : Keyword) : t.is (.keyword k) = false := by
  refine is_eq_false h fun _ h => ?_
  rcases h with h | h <;> cases h

theorem clausal_append {p : Pos} (h : ∀ t ∈ ts, t.Plain) (h' : ∀ t ∈ us, t.Clausal) :
    ∀ t ∈ ts ++ .atom .semicolon p :: us, t.Clausal := by
  intro t ht
  rcases mem_append.mp ht with ht | ht
  · exact .inl (h t ht)
  · rcases mem_cons.mp ht with rfl | ht
    · exact .inr rfl
    · exact h' t ht

theorem takeWhile_before {f : Token → Bool} (h : ∀ t ∈ ts, f t = false) (hu : ∀ t ∈ us.head?, f t = true) :
    (ts ++ us).takeWhile (!f ·) = ts := by
  rw [takeWhile_append_of_pos fun t ht => by rw [h t ht]; rfl]
  cases us with
  | nil => exact append_nil _
  | cons u us => rw [takeWhile_cons_of_neg (by rw [hu u rfl]; exact nofun), append_nil]

theorem clauses_single (h : ∀ t ∈ ts, t.Plain) : clauses ts = [ts] := splitBy_single fun t ht => (h t ht).is_semicolon

theorem clauses_append {p : Pos} (h : ∀ t ∈ ts, t.Plain) :
    clauses (ts ++ .atom .semicolon p :: us) = ts :: clauses us :=
  splitBy_append (fun t ht => (h t ht).is_semicolon) rfl

end Token

namespace Shape

variable {V : Lexicon} {header inner rest ts : List Token} {c : Place} {d n : Nat} {p q : Pos}
  {before prev : Option Token}

theorem opensLiteral_eq_false (hb : ∀ t ∈ before, t.InHeader) (hp : ∀ t ∈ prev, t.InHeader) :
    opensLiteral before prev = false := by
  unfold opensLiteral
  split
  · exact absurd (hp _ rfl) id
  · exact absurd (hb _ rfl) id
  · rfl

theorem splitBody_header (hh : ∀ t ∈ header, t.InHeader) (hb : ∀ t ∈ before, t.InHeader) (hp : ∀ t ∈ prev, t.InHeader) :
    splitBody before prev (header ++ .group .brace inner q :: rest) = some (header, inner, q, rest) := by
  induction header generalizing before prev with
  | nil => simp only [nil_append, splitBody, opensLiteral_eq_false hb hp]
  | cons t header ih =>
    have ht := hh t (.head _)
    have ih : splitBody prev (some t) (header ++ .group .brace inner q :: rest) = some (header, inner, q, rest) :=
      ih (fun u hu => hh u (.tail _ hu)) hp (by simpa using ht)
    rw [cons_append, splitBody, ih]
    · rfl
    · rintro inner p rfl
      exact absurd ht id

theorem bodyOf_header (hh : ∀ t ∈ header, t.InHeader) :
    bodyOf p (header ++ .group .brace inner q :: rest) = pure (header, inner, q, rest) := by
  unfold bodyOf
  rw [splitBody_header hh (by simp) (by simp)]

theorem splitRange?_none (hh : ∀ t ∈ header, t.is (.keyword .range) = false) : splitRange? header = none := by
  induction header with
  | nil => rfl
  | cons t header ih =>
    have ht := hh t (.head _)
    have ih := ih fun u hu => hh u (.tail _ hu)
    rw [splitRange?, ih]
    · rfl
    · rintro p rfl
      cases ht

theorem splitRange?_append (hh : ∀ t ∈ header, t.is (.keyword .range) = false) :
    splitRange? (header ++ .atom (.keyword .range) p :: ts) = some (header, p, ts) := by
  induction header with
  | nil => rfl
  | cons t header ih =>
    have ht := hh t (.head _)
    have ih := ih fun u hu => hh u (.tail _ hu)
    rw [cons_append, splitRange?, ih]
    · rfl
    · rintro p rfl
      cases ht

theorem yields_optionalSimple {a : Option Assignment} (h : Optional (Assignment.Simple V) a ts) (hd : nestings ts ≤ d)
    (c : Place) (n : Nat) :
    Yields (optionalSimple (.upTo d) c ts) n (Gives (Assignment.streamMaybe c.scope a n)) := by
  cases h with
  | none => exact .ret ⟨rfl, rfl⟩
  | some h =>
    unfold optionalSimple
    rw [if_neg (by simpa using h.ne_nil)]
    exact .bind (h.shapes hd c n) fun r m h => .ret h.2

theorem yields_loopTest {e : Option Expr} (h : Optional V.Writes e ts) (hd : nestings ts ≤ d) (c : Place) (n : Nat)
    (label : String) : Yields (loopTest (.upTo d) c ts label p) n (Gives (Expr.loopTest c.scope label e n)) := by
  cases h with
  | none => exact .ret ⟨rfl, rfl⟩
  | some h =>
    unfold loopTest
    rw [if_neg (by simpa using h.forms.ne_nil)]
    refine .bind (yields_expr h hd c n) ?_
    rintro steps m ⟨hs, rfl⟩
    exact .ret ⟨by rw [map_append, hs]; rfl, rfl⟩

end Shape

variable {V : Lexicon} {ts : List Token} {st : Stmt} {cond : Expr} {define : Bool} {a : Assignment}

theorem Lexicon.Writes.plain {e : Expr} (h : V.Writes e ts) : ∀ t ∈ ts, t.Plain :=
  fun t ht => (h.forms.inExpr t ht).plain

namespace Optional

variable {V : Lexicon} {ts : List Token}

theorem plain_writes {e : Option Expr} (h : Optional V.Writes e ts) : ∀ t ∈ ts, t.Plain := by
  cases h with
  | none => simp
  | some h => exact h.plain

theorem plain_simple {a : Option Assignment} (h : Optional (Assignment.Simple V) a ts) : ∀ t ∈ ts, t.Plain := by
  cases h with
  | none => simp
  | some h => exact h.plain

end Optional

section

open Shape

variable {V : Lexicon} {header : List Token} {d : Nat} {init post : Option Assignment} {key : Option String}
  {tag : Option Expr}

theorem IfHeader.clausal (h : IfHeader V init cond header) : ∀ t ∈ header, t.Clausal := by
  cases h with
  | cond h => exact fun t ht => .inl (h.plain t ht)
  | init ha h => exact clausal_append ha.plain fun t ht => .inl (h.plain t ht)

/-- An `if` header splits where it was put together. -/
theorem IfHeader.reads (h : IfHeader V init cond header)
    (hd : nestings header ≤ d) : ∃ us ts, (∀ p, ifHeader p header = pure (us, ts)) ∧ V.Writes cond ts ∧
      nestings ts ≤ d ∧ ∀ c n, Yields (initSteps (.upTo d) c us) n (Gives (Assignment.streamMaybe c.scope init n)) := by
  cases h with
  | cond h =>
    refine ⟨none, header, fun p => ?_, h, hd, fun c n => .ret ⟨rfl, rfl⟩⟩
    unfold ifHeader
    rw [clauses_single h.plain]
    exact if_neg (by simpa using h.forms.ne_nil)
  | @init a _ us ts q ha h =>
    have hd := nestings_le_of_append hd
    refine ⟨some us, ts, fun p => ?_, h, (nestings_le_of_cons hd.2).2,
      fun c n => .bind (ha.shapes hd.1 c n) fun r m h => .ret h.2⟩
    unfold ifHeader
    rw [clauses_append ha.plain, clauses_single h.plain]
    exact if_neg (by simpa using h.forms.ne_nil)

theorem LoopHeader.clausal {cond : Option Expr} (h : LoopHeader V init cond post header) : ∀ t ∈ header, t.Clausal := by
  cases h with
  | cond h => exact fun t ht => .inl (h.plain_writes t ht)
  | clauses ha he hb _ =>
    exact clausal_append ha.plain_simple (clausal_append he.plain_writes fun t ht => .inl (hb.plain_simple t ht))

/-- A loop header splits into its three parts. -/
theorem LoopHeader.reads {cond : Option Expr} (h : LoopHeader V init cond post header)
    (hd : nestings header ≤ d) : ∃ us ts vs, (∀ p, loopHeader p header = pure (us, ts, vs)) ∧
      vs.any (·.is (.op .define)) = false ∧
      (∀ c n, Yields (optionalSimple (.upTo d) c us) n (Gives (Assignment.streamMaybe c.scope init n))) ∧
      (∀ c n l p, Yields (loopTest (.upTo d) c ts l p) n (Gives (Expr.loopTest c.scope l cond n))) ∧
      ∀ c n, Yields (optionalSimple (.upTo d) c vs) n (Gives (Assignment.streamMaybe c.scope post n)) := by
  cases h with
  | cond h =>
    refine ⟨[], header, [], fun p => ?_, rfl, fun c n => .ret ⟨rfl, rfl⟩, fun c n l p => yields_loopTest h hd c n l,
      fun c n => .ret ⟨rfl, rfl⟩⟩
    unfold loopHeader
    rw [clauses_single h.plain_writes]
  | @clauses _ _ _ us ts vs q r ha he hb hk =>
    have hu := nestings_le_of_append hd
    have ht := nestings_le_of_append (nestings_le_of_cons hu.2).2
    refine ⟨us, ts, vs, fun p => ?_, ?_, yields_optionalSimple ha hu.1, fun c n l p => yields_loopTest he ht.1 c n l,
      yields_optionalSimple hb (nestings_le_of_cons ht.2).2⟩
    · unfold loopHeader
      rw [clauses_append ha.plain_simple, clauses_append he.plain_writes, clauses_single hb.plain_simple]
    · cases hb with
      | none => rfl
      | some hb => exact hb.is_define (hk _ rfl)

theorem RangeHeader.clausal (h : RangeHeader V key define header) : ∀ t ∈ header, t.Clausal := by
  cases h <;> simp [Token.Clausal, Token.Plain]

/-- A range header gives its names back. -/
theorem RangeHeader.reads (h : RangeHeader V key define header) (p : Pos) :
    ∃ names, rangeNames p header = pure (names, define) ∧ names.length ≤ 2 ∧ names[0]?.bind readable = key ∧
      names[1]?.bind readable = Option.none := by
  cases h with
  | none => exact ⟨[], rfl, by simp, rfl, rfl⟩
  | @one x d q r h =>
    refine ⟨[x], ?_, by simp, rfl, rfl⟩
    cases define <;> rfl
  | @two x d q q' q'' r h =>
    refine ⟨[x, "_"], ?_, by simp, rfl, rfl⟩
    cases define <;> rfl

theorem SwitchHeader.clausal (h : SwitchHeader V init tag header) : ∀ t ∈ header, t.Clausal := by
  cases h with
  | tag h => exact fun t ht => .inl (h.plain_writes t ht)
  | init ha h => exact clausal_append ha.plain_simple fun t ht => .inl (h.plain_writes t ht)

/-- A `switch` header splits into its two parts. -/
theorem SwitchHeader.reads (h : SwitchHeader V init tag header)
    (hd : nestings header ≤ d) : ∃ us ts, (∀ p, switchHeader p header = pure (us, ts)) ∧
      Optional V.Writes tag ts ∧ nestings ts ≤ d ∧
      ∀ c n, Yields (optionalSimple (.upTo d) c us) n (Gives (Assignment.streamMaybe c.scope init n)) := by
  cases h with
  | tag h =>
    refine ⟨[], header, fun p => ?_, h, hd, fun c n => .ret ⟨rfl, rfl⟩⟩
    unfold switchHeader
    rw [clauses_single h.plain_writes]
  | @init _ _ us ts q ha h =>
    have hd := nestings_le_of_append hd
    refine ⟨us, ts, fun p => ?_, h, (nestings_le_of_cons hd.2).2, yields_optionalSimple ha hd.1⟩
    unfold switchHeader
    rw [clauses_append ha.plain_simple, clauses_single h.plain_writes]

end

/-! ## What statements are shaped into -/

namespace Shape

/-- A statement that ends with braces, and the tokens that follow. There are at most `n` branches. -/
def compound (inside : Inside) (c : Place) (n : Nat) : List Token → Shape (List Step × List Token)
  | .atom (.keyword .if) p :: ts => ifFrom inside n c p ts
  | .atom (.keyword .for) p :: ts => forLoop inside c p ts
  | .atom (.keyword .switch) p :: ts => switch inside c p ts
  | .group .brace inner p :: ts => do return (← block inside c inner p, ts)
  | ts => failAt .afterElse ts

end Shape

/-- What a statement of a program leaves for the result of a chunk. -/
def Outcome.Echoes (V : Lexicon) : Outcome → Prop
  | .expr => False
  | .assign name => ∀ x ∈ name, V.name x
  | .other => True

/-- Whether `break` and `continue` lead somewhere. -/
def Place.Allows (c : Place) (b k : Bool) : Prop := (b = true → c.brk.isSome = true) ∧ (k = true → c.cont.isSome = true)

namespace Place

variable {c : Place} {b k : Bool}

theorem Allows.within (h : c.Allows b k) (scope : String) : (c.within scope).Allows b k := h

theorem Allows.breaking (h : c.Allows b k) (behind : String) : ({ c with brk := some behind } : Place).Allows true k :=
  ⟨fun _ => rfl, h.2⟩

theorem allows_loop (brk cont : String) : (c.loop brk cont).Allows b k := ⟨fun _ => rfl, fun _ => rfl⟩

end Place

open Shape in
/-- Tokens that write the statement are shaped into its stream, whatever stands behind them but another branch. -/
def Stmt.Shapes (V : Lexicon) (st : Stmt) : Prop :=
  ∀ ⦃b k : Bool⦄ ⦃ts : List Token⦄, Stmt.Forms V b k st ts → ∀ ⦃d : Nat⦄ ⦃c : Place⦄, nestings ts ≤ d → c.Allows b k →
    ∀ ⦃rest : List Token⦄ ⦃fuel : Nat⦄, (∀ t ∈ rest.head?, t.is (.keyword .else) = false) → ts.length ≤ fuel → ∀ n,
      Yields (compound (.upTo d) c fuel (ts ++ rest)) n fun r m => r.2 = rest ∧ Gives (st.stream c n) r.1 m

open Shape in
/-- Tokens that write the statements are shaped into their stream. -/
def Block.Shapes (V : Lexicon) (body : Block) : Prop :=
  ∀ ⦃b k : Bool⦄ ⦃ts : List Token⦄, Block.Forms V b k body ts → ∀ ⦃d : Nat⦄ ⦃c : Place⦄, nestings ts ≤ d →
    c.Allows b k → ∀ n, Yields (statementsFrom (.upTo d) c ts 0) n fun rs m =>
      Gives (body.stream c n) (rs.map (·.2)).flatten m ∧ ∀ r ∈ rs, r.1.Echoes V

namespace Shape

variable {V : Lexicon} {b k : Bool} {header inner rest ts : List Token} {c : Place} {d n : Nat} {p q : Pos}
  {body yes : Block} {fuel : Nat} {init : Option Assignment}

/-- A block's tokens give its steps between scope marks. -/
theorem yields_block (h : body.Shapes V) (hf : Block.Forms V b k body inner) (hd : nesting (.group .brace inner p) ≤ d)
    (hc : c.Allows b k) (n : Nat) :
    Yields (block (.upTo d) c inner p) n (Gives ((Stmt.block body).stream c n)) := by
  cases d with
  | zero => simp [nesting] at hd
  | succ d =>
    have hd : nestings inner ≤ d := by simpa [nesting] using hd
    refine .fresh (.bind (.bind (h hf hd (hc.within _) (n + 1)) fun rs m h => .ret h.1) ?_)
    rintro steps m ⟨hs, hm⟩
    refine .last fun r => .ret ⟨?_, hm⟩
    simp only [map_append, map_cons, map_nil, hs]
    rfl

/-- An `if` without `else` gives test, jump and body. -/
theorem yields_when (h : yes.Shapes V) (hh : IfHeader V init cond header)
    (hy : Block.Forms V b k yes inner) (hd : nestings (header ++ [.group .brace inner q]) ≤ d)
    (hc : c.Allows b k) (hr : ∀ t ∈ rest.head?, t.is (.keyword .else) = false) (n : Nat) :
    Yields (ifFrom (.upTo d) (fuel + 1) c p (header ++ .group .brace inner q :: rest)) n fun r m =>
      r.2 = rest ∧ Gives ((Stmt.when init cond yes).stream c n) r.1 m := by
  have hd := nestings_le_of_append hd
  obtain ⟨us, ts, hhead, hw, ht, hi⟩ := hh.reads hd.1
  refine .step (bodyOf_header fun t ht => (hh.clausal t ht).inHeader) ?_
  refine .step (hhead p) ?_
  dsimp only
  refine .fresh (.fresh ?_)
  refine .bind (hi _ _) ?_
  rintro start m ⟨hs, rfl⟩
  refine .bind (yields_expr hw ht _ _) ?_
  rintro test m ⟨hs', rfl⟩
  refine .bind (yields_block h hy (nestings_le_of_cons hd.2).1 (hc.within _) _) ?_
  rintro body m ⟨hs'', rfl⟩
  split
  · exact absurd (hr _ rfl) (by simp [is])
  · refine .last fun close => .ret ⟨rfl, ?_, rfl⟩
    simp only [map_append, map_cons, map_nil, hs, hs', hs'']
    simp only [Stmt.stream, append_assoc, cons_append, nil_append]
    rfl

theorem elseBranch_eq (hf : Stmt.Forms V b k st ts) (he : st.IsElse) :
    elseBranch (.upTo d) c (ifFrom (.upTo d) fuel c) (ts ++ rest) = compound (.upTo d) c fuel (ts ++ rest) := by
  cases hf with
  | block | when | branch => rfl
  | loop | range | switch => cases he

/-- An `if` with `else` gives both branches and a join. -/
theorem yields_branch {no : Stmt} {r : Pos} (h : yes.Shapes V) (h' : no.Shapes V)
    (hh : IfHeader V init cond header) (hy : Block.Forms V b k yes inner) (hn : Stmt.Forms V b k no ts) (he : no.IsElse)
    (hd : nestings (header ++ .group .brace inner q :: .atom (.keyword .else) r :: ts) ≤ d) (hc : c.Allows b k)
    (hr : ∀ t ∈ rest.head?, t.is (.keyword .else) = false) (hl : ts.length ≤ fuel) (n : Nat) :
    Yields (ifFrom (.upTo d) (fuel + 1) c p (header ++
      .group .brace inner q :: .atom (.keyword .else) r :: (ts ++ rest))) n
      fun r m => r.2 = rest ∧ Gives ((Stmt.branch init cond yes no).stream c n) r.1 m := by
  have hd := nestings_le_of_append hd
  have hd' := nestings_le_of_cons hd.2
  obtain ⟨us, vs, hhead, hw, ht, hi⟩ := hh.reads hd.1
  refine .step (bodyOf_header fun t ht => (hh.clausal t ht).inHeader) ?_
  refine .step (hhead p) ?_
  dsimp only
  refine .fresh (.fresh ?_)
  refine .bind (hi _ _) ?_
  rintro start m ⟨hs1, rfl⟩
  refine .bind (yields_expr hw ht _ _) ?_
  rintro test m ⟨hs2, rfl⟩
  refine .bind (yields_block h hy hd'.1 (hc.within _) _) ?_
  rintro body m ⟨hs3, rfl⟩
  refine .fresh ?_
  rw [elseBranch_eq hn he]
  refine .bind (h' hn (nestings_le_of_cons hd'.2).2 (hc.within _) hr hl _) ?_
  rintro ⟨other, _⟩ m ⟨rfl, hs4, rfl⟩
  refine .last fun close => .ret ⟨rfl, ?_, rfl⟩
  simp only [map_append, map_cons, map_nil, hs1, hs2, hs3, hs4]
  simp only [Stmt.stream, append_assoc, cons_append, nil_append]
  rfl

theorem yields_forLoop (hh : ∀ t ∈ header, t.InHeader)
    (h : Yields (loopSteps (.upTo d) (c.within (freshIn c.scope "b" n)) p header inner q) (n + 1) fun steps m =>
      ∀ r r', Gives (st.stream c n) (⟨.enter (freshIn c.scope "b" n), r⟩ :: steps ++ [⟨.leave, r'⟩]) m) :
    Yields (forLoop (.upTo d) c p (header ++ .group .brace inner q :: rest)) n fun r m =>
      r.2 = rest ∧ Gives (st.stream c n) r.1 m := by
  refine .step (bodyOf_header hh) ?_
  refine .fresh (.bind h ?_)
  intro steps m hs
  exact .last fun close => .ret ⟨rfl, hs _ _⟩

/-- A counted loop gives its test, body and back jump. -/
theorem yields_loop {post : Option Assignment} {cond : Option Expr} (h : body.Shapes V)
    (hh : LoopHeader V init cond post header) (hb : Block.Forms V true true body inner)
    (hd : nestings (header ++ [.group .brace inner q]) ≤ d) (n : Nat) :
    Yields (forLoop (.upTo d) c p (header ++ .group .brace inner q :: rest)) n fun r m =>
      r.2 = rest ∧ Gives ((Stmt.loop init cond post body).stream c n) r.1 m := by
  have hd := nestings_le_of_append hd
  obtain ⟨us, ts, vs, hhead, hdef, hi, ht, hp⟩ := hh.reads hd.1
  refine yields_forLoop (fun t ht => (hh.clausal t ht).inHeader) ?_
  unfold loopSteps
  rw [splitRange?_none fun t ht => (hh.clausal t ht).is_keyword _]
  refine .step (hhead p) ?_
  refine .fresh (.fresh (.fresh ?_))
  refine .bind (hi _ _) ?_
  rintro start m ⟨hs1, rfl⟩
  refine .bind (ht _ _ _ _) ?_
  rintro test m ⟨hs2, rfl⟩
  refine .bind (yields_block h hb (nestings_le_of_cons hd.2).1 (Place.allows_loop _ _) _) ?_
  rintro turn m ⟨hs3, rfl⟩
  refine .last fun _ => ?_
  rw [hdef]
  refine .bind (hp _ _) ?_
  rintro next m ⟨hs4, rfl⟩
  refine .last fun close => .ret fun r r' => ⟨?_, rfl⟩
  simp only [map_append, map_cons, map_nil, hs1, hs2, hs3, hs4]
  simp only [Stmt.stream, append_assoc, cons_append, nil_append]
  rfl

/-- A range loop gives its iterator, step and body. -/
theorem yields_range {key : Option String} {limit : Expr} {r : Pos} (h : body.Shapes V)
    (hh : RangeHeader V key define header) (hl : V.Writes limit ts) (hb : Block.Forms V true true body inner)
    (hd : nestings (header ++ .atom (.keyword .range) r :: ts ++ [.group .brace inner q]) ≤ d) (n : Nat) :
    Yields (forLoop (.upTo d) c p (header ++ .atom (.keyword .range) r :: ts ++ .group .brace inner q :: rest)) n
      fun r m =>
      r.2 = rest ∧ Gives ((Stmt.range key define limit body).stream c n) r.1 m := by
  have hd := nestings_le_of_append hd
  obtain ⟨names, hn, hlen, hk, hv⟩ := hh.reads r
  have hin : ∀ t ∈ header ++ .atom (.keyword .range) r :: ts, t.InHeader := by
    intro t ht
    rcases mem_append.mp ht with ht | ht
    · exact (hh.clausal t ht).inHeader
    · rcases mem_cons.mp ht with rfl | ht
      · trivial
      · exact (hl.plain t ht).inHeader
  refine yields_forLoop hin ?_
  unfold loopSteps
  rw [splitRange?_append fun t ht => (hh.clausal t ht).is_keyword _]
  refine .step hn ?_
  dsimp only
  rw [if_neg (by omega)]
  refine .bind (yields_expr hl (nestings_le_of_cons (nestings_le_of_append hd.1).2).2 _ _) ?_
  rintro ranged m ⟨hs1, rfl⟩
  refine .fresh (.fresh ?_)
  refine .bind (yields_block h hb (nestings_le_of_cons hd.2).1 (Place.allows_loop _ _) _) ?_
  rintro lap m ⟨hs2, rfl⟩
  refine .last fun close => .ret fun r r' => ⟨?_, rfl⟩
  simp only [map_append, map_cons, map_nil, hs1, hs2, hk, hv]
  simp only [Stmt.stream, append_assoc, cons_append, nil_append]
  rfl

end Shape

/-! ## Clauses -/

section

open Shape

variable {V : Lexicon} {b k : Bool} {ts us : List Token} {t : Token}

theorem Token.Clausal.beginsClause (h : t.Clausal) : beginsClause t = false := by
  unfold Shape.beginsClause
  rw [h.is_keyword, h.is_keyword]
  rfl

theorem Assignment.Spec.inert (h : a.Spec V ts) : ∀ t ∈ ts, beginsClause t = false ∧ t.is .semicolon = false := by
  obtain ⟨ty, ns, us, q, vs, -, hn, ht, he, rfl⟩ := h.parts
  have hin : ∀ {us : List Token}, (∀ t ∈ us, t.InExpr ∨ t.is .comma = true) →
      ∀ t ∈ us, beginsClause t = false ∧ t.is .semicolon = false := by
    intro us h t ht
    have hp := (plain_of_inExpr (h t ht)).1
    exact ⟨Token.Clausal.beginsClause (.inl hp), hp.is_semicolon⟩
  intro t hm
  simp only [mem_cons, mem_append] at hm
  rcases hm with (hm | hm) | rfl | hm
  · exact hin hn.inExpr t hm
  · cases ht with
    | none => cases hm
    | some => rw [mem_singleton.mp hm]; exact ⟨rfl, rfl⟩
  · exact ⟨rfl, rfl⟩
  · exact hin he.inExpr t hm

/-- Leading semicolons only add empty clauses. -/
theorem filter_clauses_semicolons (hs : Token.Semicolons seps) :
    (Token.clauses (seps ++ us)).filter (!·.isEmpty) = (Token.clauses us).filter (!·.isEmpty) := by
  induction seps with
  | nil => rfl
  | cons t seps ih =>
    rw [cons_append, Token.clauses, Token.splitBy, if_pos (hs t (.head _))]
    exact ih fun u hu => hs u (.tail _ hu)

/-- The declarations in parentheses are the parts between semicolons that are not empty. -/
theorem Assignment.Specs.parts {as : List Assignment} (h : Specs V as ts) :
    List.Forall₂ (Spec V) as ((Token.clauses ts).filter (!·.isEmpty)) := by
  induction h with
  | @nil seps hs =>
    rw [← append_nil seps, filter_clauses_semicolons hs]
    exact .nil
  | @cons a as seps ts us hs h hu _ ih =>
    have hts := fun t ht => (h.inert t ht).2
    obtain ⟨x, p, vs, rfl⟩ := h.head
    rw [filter_clauses_semicolons hs]
    cases us with
    | nil =>
      rw [append_nil, Token.clauses, Token.splitBy_single hts]
      exact .cons h ih
    | cons t us =>
      have ht := hu t rfl
      rw [Token.clauses, Token.splitBy_append hts ht]
      refine .cons h ?_
      rwa [← singleton_append, filter_clauses_semicolons fun u hu => mem_singleton.mp hu ▸ ht] at ih

theorem Stmt.Line.beginsClause (h : Stmt.Line V b k st ts) : ∀ t ∈ ts, beginsClause t = false := by
  cases h with
  | store h => exact fun t ht => Token.Clausal.beginsClause (.inl (h.plain t ht))
  | var h => exact forall_mem_cons.mpr ⟨rfl, fun t ht => (h.inert t ht).1⟩
  | vars | brk | cont => simp [beginsClause, is]

theorem beginsClause_between {a z : Token} (ha : beginsClause a = false) (hts : ∀ t ∈ ts, t.Clausal)
    (hz : beginsClause z = false) : ∀ t ∈ a :: (ts ++ [z]), beginsClause t = false := by
  intro t ht
  simp only [mem_cons, mem_append, not_mem_nil, or_false] at ht
  rcases ht with rfl | ht | rfl
  · exact ha
  · exact (hts t ht).beginsClause
  · exact hz

/-- Inside a statement no token opens a clause. -/
theorem Stmt.Forms.beginsClause : {st : Stmt} → ∀ {ts : List Token}, Stmt.Forms V b k st ts →
    ∀ t ∈ ts, beginsClause t = false := by
  intro st ts h t ht
  cases st with
  | store | vars | brk | cont => cases h
  | block body =>
    cases h
    rw [mem_singleton.mp ht]
    rfl
  | when init cond yes =>
    cases h with
    | when hh hy => exact beginsClause_between rfl hh.clausal rfl t ht
  | branch init cond yes no =>
    have ih := @beginsClause no
    cases h with
    | branch hh hy hn he =>
      simp only [mem_cons, mem_append] at ht
      rcases ht with rfl | ht | rfl | rfl | ht
      · rfl
      · exact (hh.clausal t ht).beginsClause
      · rfl
      · rfl
      · exact ih hn t ht
  | loop init cond post body =>
    cases h with
    | loop hh hb => exact beginsClause_between rfl hh.clausal rfl t ht
  | range key define limit body =>
    cases h with
    | range hh hl hb =>
      simp only [mem_cons, mem_append, not_mem_nil, or_false] at ht
      rcases ht with rfl | (ht | rfl | ht) | rfl
      · rfl
      · exact (hh.clausal t ht).beginsClause
      · rfl
      · exact Token.Clausal.beginsClause (.inl (hl.plain t ht))
      · rfl
  | switch init tag clauses =>
    cases h with
    | switch hh hs hc => exact beginsClause_between rfl hh.clausal rfl t ht

theorem Token.Semicolons.beginsClause (h : Token.Semicolons ts) : ∀ t ∈ ts, beginsClause t = false :=
  fun t ht => Token.Clausal.beginsClause (.inr (h t ht))

theorem Block.Forms.beginsClause : (body : Block) → ∀ {ts : List Token}, Block.Forms V b k body ts →
    ∀ t ∈ ts, beginsClause t = false := by
  intro body ts h t ht
  cases body with
  | nil =>
    cases h with
    | nil hs => exact hs.beginsClause t ht
  | cons first rest =>
    have ih := @beginsClause rest
    cases h with
    | line hs hf _ hr | compound hs hf hr =>
      simp only [mem_append] at ht
      rcases ht with ht | ht | ht
      · exact hs.beginsClause t ht
      · exact hf.beginsClause t ht
      · exact ih hr t ht

theorem Clauses.Forms.head {clauses : Clauses} (h : Clauses.Forms V k clauses ts) :
    ∀ t ∈ ts.head?, beginsClause t = true := by
  intro t ht
  cases h with
  | nil => cases ht
  | case | default =>
    cases ht
    rfl

/-- The clauses that tokens are read as, nested no deeper than `d`. -/
inductive Clauses.Reads (V : Lexicon) (k : Bool) (d : Nat) : Clauses → List Shape.Clause → Prop
  | nil : Reads V k d .nil []
  | case {cases : List Expr} {parts : List (List Token)} {body : Block} {inner : List Token} {rest : Clauses}
      {read : List Shape.Clause} {p : Pos} (he : List.Forall₂ V.Writes cases parts)
      (hp : ∀ part ∈ parts, nestings part ≤ d) (hb : Block.Forms V true k body inner) (hd : nestings inner ≤ d)
      (hr : Reads V k d rest read) : Reads V k d (.cons (some cases) body rest) (⟨p, some parts, inner⟩ :: read)
  | default {body : Block} {inner : List Token} {rest : Clauses} {read : List Shape.Clause} {p : Pos}
      (hb : Block.Forms V true k body inner) (hd : nestings inner ≤ d) (hn : rest.NoDefault)
      (hr : Reads V k d rest read) : Reads V k d (.cons none body rest) (⟨p, none, inner⟩ :: read)

namespace Shape

variable {last p : Pos} {done : List Clause}

theorem clausesFrom_skip (ts us : List Token) :
    clausesFrom last (ts ++ us) ts.length done = clausesFrom last us 0 done := by
  induction ts with
  | nil => rfl
  | cons t ts ih => exact ih

theorem clausesFrom_semicolons (h : Token.Semicolons ts) :
    clausesFrom last (ts ++ us) 0 done = clausesFrom last us 0 done := by
  induction ts with
  | nil => rfl
  | cons t ts ih =>
    have ht := h t (.head _)
    cases t with
    | group => cases ht
    | atom a q =>
      cases eq_of_beq (show (a == .semicolon) = true from ht)
      exact ih fun u hu => h u (.tail _ hu)

/-- A clause's body runs up to the next clause's head. -/
theorem clausesFrom_body (hb : ∀ t ∈ ts, beginsClause t = false) (hs : ∀ t ∈ ts.head?, t.is .semicolon = false)
    (hu : ∀ t ∈ us.head?, beginsClause t = true) (cases : Option (List (List Token))) :
    clausesFrom last (ts ++ us) 0 (⟨p, cases, []⟩ :: done) = clausesFrom last us 0 (⟨p, cases, ts⟩ :: done) := by
  cases ts with
  | nil => rfl
  | cons t ts =>
    have ht := hb t (.head _)
    have hts := hs t rfl
    rw [cons_append, clausesFrom]
    · rw [takeWhile_before (fun u hm => hb u (.tail _ hm)) hu, clausesFrom_skip]
      rfl
    · rintro q rfl
      cases hts
    · rintro q rfl
      cases ht
    · rintro q rfl
      cases ht

end Shape

/-- The clauses of a `switch` are read as written. -/
theorem Clauses.Forms.reads {d : Nat} : (clauses : Clauses) → ∀ {ts : List Token}, Clauses.Forms V k clauses ts →
    nestings ts ≤ d → ∃ read, Clauses.Reads V k d clauses read ∧
      ∀ last done, clausesFrom last ts 0 done = .ok (done.reverse ++ read) := by
  intro clauses ts h hd
  cases clauses with
  | nil =>
    cases h
    exact ⟨[], .nil, fun last done => by rw [clausesFrom, append_nil]⟩
  | cons cases body rest =>
    have ih := @reads d rest
    cases h with
    | @case _ cases _ _ ts seps inner us p q he hs hb hh hr =>
      have ht := nestings_le_of_append (nestings_le_of_cons hd).2
      have hi := nestings_le_of_append (nestings_le_of_append (nestings_le_of_cons ht.2).2).2
      obtain ⟨read, hread, hfrom⟩ := ih hr hi.2
      obtain ⟨parts, hp, hw⟩ := he.commaList
      refine ⟨⟨p, some parts, inner⟩ :: read, .case hw (fun part hm => ?_) hb hi.1 hread, fun last done => ?_⟩
      · exact Nat.le_trans (nestings_of_mem_commaList (hp ▸ hm)) ht.1
      have hcolon : (ts ++ .atom .colon q :: (seps ++ (inner ++ us))).findIdx? (·.is .colon) = some ts.length := by
        have hnone : ts.findIdx? (·.is .colon) = none :=
          findIdx?_eq_none_iff.mpr fun t hm => (plain_of_inExpr (he.inExpr t hm)).1.is_colon
        rw [findIdx?_append, hnone, findIdx?_cons]
        simp [is]
      have hskip : clausesFrom last (ts ++ .atom .colon q :: (seps ++ (inner ++ us))) (ts.length + 1)
          (⟨p, some parts, []⟩ :: done) = .ok (done.reverse ++ ⟨p, some parts, inner⟩ :: read) := by
        have hlen : ts.length + 1 = (ts ++ [atom .colon q]).length := by simp
        rw [append_cons, hlen, clausesFrom_skip, clausesFrom_semicolons hs,
          clausesFrom_body (hb.beginsClause body) hh hr.head, hfrom]
        simp
      rw [clausesFrom, hcolon]
      dsimp only
      rw [take_left, hp]
      cases hw with
      | nil => cases he
      | cons => exact hskip
    | @default _ _ _ seps inner us p q hs hb hh hn hr =>
      have hi := nestings_le_of_append (nestings_le_of_append
        (nestings_le_of_cons (nestings_le_of_cons hd).2).2).2
      obtain ⟨read, hread, hfrom⟩ := ih hr hi.2
      refine ⟨⟨p, none, inner⟩ :: read, .default hb hi.1 hn hread, fun last done => ?_⟩
      show clausesFrom last (seps ++ (inner ++ us)) 0 (⟨p, none, []⟩ :: done) = _
      rw [clausesFrom_semicolons hs, clausesFrom_body (hb.beginsClause body) hh hr.head, hfrom]
      simp

end

/-- Each body is shaped into its stream. -/
def Clauses.Shapes (V : Lexicon) : Clauses → Prop
  | .nil => True
  | .cons _ body rest => body.Shapes V ∧ rest.Shapes V

namespace Shape

variable {V : Lexicon} {b k : Bool} {header inner rest ts : List Token} {c : Place} {d : Nat} {p q : Pos}
  {clauses : Clauses} {read : List Clause} {tag : Option Expr}

theorem yields_switchTag (h : Optional V.Writes tag ts) (hd : nestings ts ≤ d) (c : Place) (n : Nat) :
    Yields (switchTag (.upTo d) c ts p) n fun r m =>
      r.1 = (tag.map fun _ => "#tag" ++ toString n) ∧ Gives (Expr.tagStream c.scope tag n) r.2 m := by
  cases h with
  | none => exact .ret ⟨rfl, rfl, rfl⟩
  | some h =>
    unfold switchTag
    rw [if_neg (by simpa using h.forms.ne_nil)]
    refine .freshName (.bind (yields_expr h hd c _) ?_)
    rintro steps m ⟨hs, rfl⟩
    refine .ret ⟨rfl, ?_, rfl⟩
    rw [map_append, hs]
    rfl

theorem yields_caseTests {cases : List Expr} {parts : List (List Token)} (h : List.Forall₂ V.Writes cases parts)
    (hd : ∀ part ∈ parts, nestings part ≤ d) (tag : Option String) (label : String) (c : Place) (n : Nat) :
    Yields (caseTests (.upTo (d + 1)) c tag label p parts) n
      (Gives (Expr.caseTests c.scope tag label cases n, n + Expr.logicsAll cases)) := by
  induction h generalizing n with
  | nil => exact .ret ⟨rfl, rfl⟩
  | @cons e part cases parts he _ ih =>
    refine .bind (yields_expr he (hd part (.head _)) c n) ?_
    rintro test m ⟨hs, rfl⟩
    refine .bind (ih (fun part hm => hd part (.tail _ hm)) _) ?_
    rintro tests m ⟨hs', rfl⟩
    refine .ret ⟨?_, by rw [Expr.logicsAll, Nat.add_assoc]⟩
    cases tag <;> simp only [map_append, map_cons, map_nil, hs, hs'] <;> rfl

/-- The tests come out clause by clause. -/
theorem yields_switchTests (h : clauses.Reads V k d read) (tag default : Option String)
    (hn : default.isSome = true → clauses.NoDefault) (c : Place) (n : Nat) :
    Yields (switchTests (.upTo (d + 1)) c tag read default) n fun r m =>
      Gives (clauses.tests c.scope tag n, n + clauses.width) r.1 m ∧ r.2.1 = clauses.labels c.scope n ∧
        r.2.2 = default.or (clauses.defaultLabel (clauses.labels c.scope n)) := by
  induction h generalizing n default with
  | nil => exact .ret ⟨⟨rfl, rfl⟩, rfl, by simp [Clauses.defaultLabel]⟩
  | @case cases parts body inner rest read p he hp _ _ _ ih =>
    refine .fresh (.bind (yields_caseTests he hp tag _ c (n + 1)) ?_)
    rintro tests m ⟨hs, rfl⟩
    refine .bind (ih default (fun hs => (hn hs).2) _) ?_
    rintro ⟨steps, labels, other⟩ m ⟨⟨hs', rfl⟩, hl, ho⟩
    refine .ret ⟨⟨?_, ?_⟩, ?_, ?_⟩
    · rw [map_append, hs, hs']
      rfl
    · simp only [Clauses.width, Option.getD_some]
      omega
    · exact congrArg (freshIn c.scope "case" n :: ·) hl
    · rw [ho]
      rfl
  | @default body inner rest read p _ _ hno _ ih =>
    refine .fresh ?_
    cases default with
    | some l => cases (hn rfl).1
    | none =>
      refine .bind (ih (some _) (fun _ => hno) _) ?_
      rintro ⟨steps, labels, other⟩ m ⟨⟨hs', rfl⟩, hl, ho⟩
      refine .ret ⟨⟨?_, ?_⟩, ?_, ho⟩
      · rw [hs']
        rfl
      · simp only [Clauses.width, Option.getD_none, Expr.logicsAll]
        omega
      · exact congrArg (freshIn c.scope "case" n :: ·) hl

/-- The bodies come out behind their labels. -/
theorem yields_switchBodies (h : clauses.Reads V k d read) (hb : clauses.Shapes V) (hc : c.Allows true k)
    (behind : String) {labels : List String} (hl : labels.length = read.length) (n : Nat) :
    Yields (switchBodies (.upTo (d + 1)) c behind (read.zip labels)) n (Gives (clauses.bodies c behind labels n)) := by
  have hone : ∀ {body : Block} {rest : Clauses} {cases : Option (List Expr)} {clause : Clause} {read : List Clause},
      body.Shapes V → Block.Forms V true k body clause.body → nestings clause.body ≤ d →
      (∀ {labels : List String}, labels.length = read.length → ∀ n,
        Yields (switchBodies (.upTo (d + 1)) c behind (read.zip labels)) n (Gives (rest.bodies c behind labels n))) →
      ∀ {labels : List String}, labels.length = (clause :: read).length → ∀ n,
        Yields (switchBodies (.upTo (d + 1)) c behind ((clause :: read).zip labels)) n
          (Gives ((Clauses.cons cases body rest).bodies c behind labels n)) := by
    intro body rest cases clause read hs hb hd ih labels hl n
    cases labels with
    | nil => cases hl
    | cons label labels =>
      refine .bind (yields_block hs hb (by rw [nesting]; omega) hc n) ?_
      rintro steps m ⟨hs1, rfl⟩
      refine .last fun close => .bind (ih (Nat.succ.inj hl) _) ?_
      rintro others m ⟨hs2, rfl⟩
      refine .ret ⟨?_, rfl⟩
      simp only [map_append, map_cons, map_nil, hs1, hs2]
      rfl
  induction h generalizing n labels with
  | nil =>
    cases labels with
    | nil => exact .ret ⟨rfl, rfl⟩
    | cons => cases hl
  | case _ _ hf hd _ ih | default hf hd _ _ ih => exact hone hb.1 hf hd (fun hl n => ih hb.2 hl n) hl n

theorem Clauses.Reads.length_labels (h : clauses.Reads V k d read) (scope : String) (n : Nat) :
    (clauses.labels scope n).length = read.length := by
  induction h generalizing n with
  | nil => rfl
  | case _ _ _ _ _ ih | default _ _ _ _ ih => exact congrArg Nat.succ (ih _)

/-- A `switch` gives its tag, tests and bodies. -/
theorem yields_switch {init : Option Assignment} {seps : List Token} (h : clauses.Shapes V)
    (hh : SwitchHeader V init tag header) (hs : Token.Semicolons seps) (hf : Clauses.Forms V k clauses inner)
    (hd : nestings (header ++ [.group .brace (seps ++ inner) q]) ≤ d) (hc : c.Allows b k) (n : Nat) :
    Yields (switch (.upTo d) c p (header ++ .group .brace (seps ++ inner) q :: rest)) n fun r m =>
      r.2 = rest ∧ Gives ((Stmt.switch init tag clauses).stream c n) r.1 m := by
  have hd := nestings_le_of_append hd
  obtain ⟨us, ts, hhead, hw, ht, hi⟩ := hh.reads hd.1
  cases d with
  | zero => exact absurd hd.2 (by simp [nestings, nesting])
  | succ d =>
    have hin : nestings (seps ++ inner) ≤ d := by simpa [nestings, nesting] using hd.2
    obtain ⟨read, hread, hfrom⟩ := hf.reads clauses (nestings_le_of_append hin).2
    have hclauses : ∀ last, clausesFrom last (seps ++ inner) 0 [] = .ok read := fun last => by
      rw [clausesFrom_semicolons hs, hfrom]
      rfl
    refine .step (bodyOf_header fun t ht => (hh.clausal t ht).inHeader) ?_
    refine .step (hhead p) ?_
    dsimp only
    refine .fresh (.bind (hi _ _) ?_)
    rintro start m ⟨hs1, rfl⟩
    refine .bind (yields_switchTag hw ht _ _) ?_
    rintro ⟨_, kept⟩ m ⟨rfl, hs2, rfl⟩
    refine .lift hclauses (.fresh ?_)
    refine .bind (yields_switchTests hread _ none (absurd · Bool.false_ne_true) _ _) ?_
    rintro ⟨tests, _, _⟩ m ⟨⟨hs3, rfl⟩, rfl, rfl⟩
    refine .bind (yields_switchBodies hread h ((hc.within _).breaking _) _ (Clauses.Reads.length_labels hread _ _) _) ?_
    rintro bodies m ⟨hs4, rfl⟩
    refine .last fun close => .ret ⟨rfl, ?_, rfl⟩
    simp only [map_append, map_cons, map_nil, hs1, hs2, hs3, hs4]
    simp only [Stmt.stream, append_assoc, cons_append, nil_append]
    rfl

end Shape

/-! ## Statements one after another -/

theorem Assignment.Simple.head (h : a.Simple V ts) : ∃ x p us, ts = .atom (.ident x) p :: us := by
  cases h with
  | define hn _ | assign hn _ =>
    obtain ⟨x, p, us, rfl⟩ := hn.head
    exact ⟨x, p, _, rfl⟩
  | compound | step => exact ⟨_, _, _, rfl⟩

namespace Shape

variable {V : Lexicon} {b k : Bool} {line us rest ts : List Token} {t : Token} {c : Place} {d : Nat} {p : Pos}
  {st : Stmt}

theorem yields_jump {target : Option String} {k : Keyword} (h : target.isSome = true) (n : Nat) :
    Yields (jumpStatement target k p []) n (Gives ([.goto (target.getD "")], n)) := by
  obtain ⟨l, rfl⟩ := Option.isSome_iff_exists.mp h
  exact .ret ⟨rfl, rfl⟩

/-- A one-line statement gives its steps. -/
theorem yields_line (h : Stmt.Line V b k st ts) (hd : nestings ts ≤ d) (hc : c.Allows b k)
    (hu : ∀ t ∈ us.head?, t.is .semicolon = true) (n : Nat) : ∃ t line, ts = t :: line ∧ t.is .semicolon = false ∧
      Yields (statement (.upTo d) c t (line ++ us)) n fun r m =>
        r.1 = line.length + 1 ∧ r.2.1.Echoes V ∧ Gives (st.stream c n) r.2.2 m := by
  cases h with
  | @store _ _ a ts h =>
    obtain ⟨x, p, line, rfl⟩ := h.head
    refine ⟨_, line, rfl, rfl, ?_⟩
    have hplain := h.plain
    have hcolon : ∀ q vs, line ++ us ≠ .atom .colon q :: vs := by
      intro q vs heq
      cases line with
      | nil =>
        have := hu (.atom .colon q) (by rw [← nil_append us, heq]; rfl)
        cases this
      | cons u line =>
        cases (List.cons.inj heq).1
        exact hplain (.atom .colon q) (by simp)
    refine .look ?_
    rw [takeWhile_before (fun t ht => (hplain t (.tail _ ht)).is_semicolon) hu]
    dsimp only
    split
    · rename_i heq
      exact absurd heq (hcolon _ _)
    · refine .bind (h.shapes hd c n) ?_
      rintro ⟨o, steps⟩ m ⟨rfl, hs⟩
      refine .ret ⟨rfl, fun y hy => ?_, hs⟩
      obtain ⟨z, hz, hy⟩ := Option.bind_eq_some_iff.mp hy
      unfold readable at hy
      split at hy
      · cases hy
      · cases hy
        exact h.names y (mem_of_getLast? hz)
  | @var _ _ a ts p h =>
    have hspecs : specs ts = [ts] := by
      obtain ⟨x, p, us, rfl⟩ := h.head
      rfl
    have hall := Assignment.Spec.shapesAll (.cons h .nil) (by simpa using (nestings_le_of_cons hd).2) c n
    rw [← hspecs] at hall
    refine ⟨_, ts, rfl, rfl, ?_⟩
    unfold statement
    refine .look ?_
    rw [takeWhile_before (fun t ht => (h.inert t ht).2) hu]
    refine .bind hall ?_
    intro steps m hs
    exact .ret ⟨rfl, trivial, hs⟩
  | @vars _ _ as inner p q h =>
    have hd : ∀ part ∈ specs [.group .paren inner q], nestings part ≤ d := by
      intro part hp
      have hin := nestings_le_of_subset fun t ht => Token.mem_of_mem_splitBy (mem_filter.mp hp).1 ht
      have hgroup := (nestings_le_of_cons (nestings_le_of_cons hd).2).1
      rw [nesting] at hgroup
      omega
    refine ⟨_, _, rfl, rfl, ?_⟩
    unfold statement
    refine .look ?_
    rw [takeWhile_before (by simp [is]) hu]
    refine .bind (Assignment.Spec.shapesAll h.parts hd c n) ?_
    intro steps m hs
    exact .ret ⟨rfl, trivial, hs⟩
  | brk | cont =>
    refine ⟨_, [], rfl, rfl, ?_⟩
    refine .look ?_
    rw [takeWhile_before (by simp) hu]
    refine .bind (yields_jump ?_ n) fun steps m hs => .ret ⟨rfl, trivial, hs⟩
    first | exact hc.1 rfl | exact hc.2 rfl

/-- A statement with a body gives its steps. -/
theorem yields_compound (h : st.Shapes V) (hf : Stmt.Forms V b k st ts) (hd : nestings ts ≤ d) (hc : c.Allows b k)
    (hr : ∀ t ∈ rest.head?, t.is (.keyword .else) = false) (n : Nat) : ∃ t us, ts = t :: us ∧ t.is .semicolon = false ∧
      Yields (statement (.upTo d) c t (us ++ rest)) n fun r m =>
        r.1 = us.length + 1 ∧ r.2.1 = .other ∧ Gives (st.stream c n) r.2.2 m := by
  have hy : ∀ {t us}, ts = t :: us →
      Yields (compound (.upTo d) c ((us ++ rest).length + 1) (t :: (us ++ rest))) n fun r m =>
        r.2 = rest ∧ Gives (st.stream c n) r.1 m := by
    rintro t us rfl
    exact h hf hd hc hr (by simp) n
  have hlen : ∀ us : List Token, (us ++ rest).length + 1 - rest.length = us.length + 1 := by
    intro us
    rw [length_append]
    omega
  cases hf with
  | block =>
    refine ⟨_, _, rfl, rfl, ?_⟩
    refine .look ?_
    intro s hs
    obtain ⟨r, s', hr, hh, -, hg⟩ := hy rfl s hs
    obtain ⟨steps, u, hb, hp⟩ := seq_ok.mp hr
    cases hp
    exact ⟨(1, .other, steps), s', seq_eq hb, hh, rfl, rfl, hg⟩
  | when | branch | loop | range | switch =>
    refine ⟨_, _, rfl, rfl, ?_⟩
    unfold statement
    refine .look (.bind (hy rfl) ?_)
    rintro ⟨steps, _⟩ m ⟨rfl, hs⟩
    exact .ret ⟨hlen _, rfl, hs⟩

theorem statementsFrom_semicolons {inside : Inside} (h : Token.Semicolons ts) :
    statementsFrom inside c (ts ++ us) 0 = statementsFrom inside c us 0 := by
  induction ts with
  | nil => rfl
  | cons t ts ih =>
    rw [cons_append, statementsFrom, if_pos (h t mem_cons_self)]
    exact ih fun u hu => h u (.tail _ hu)

/-- Statements are read one after the other. -/
theorem yields_statements {r r' : List Act × Nat} {n : Nat} (ht : t.is .semicolon = false)
    (h : Yields (statement (.upTo d) c t (us ++ rest)) n fun s m =>
      s.1 = us.length + 1 ∧ s.2.1.Echoes V ∧ Gives r s.2.2 m)
    (hr : Yields (statementsFrom (.upTo d) c rest 0) r.2 fun rs m =>
      Gives r' (rs.map (·.2)).flatten m ∧ ∀ s ∈ rs, s.1.Echoes V) :
    Yields (statementsFrom (.upTo d) c (t :: (us ++ rest)) 0) n fun rs m =>
      Gives (r.1 ++ r'.1, r'.2) (rs.map (·.2)).flatten m ∧ ∀ s ∈ rs, s.1.Echoes V := by
  rw [statementsFrom, if_neg (Bool.eq_false_iff.mp ht)]
  refine .bind h ?_
  rintro ⟨taken, s⟩ m ⟨rfl, he, hs, rfl⟩
  dsimp only
  rw [Nat.add_sub_cancel, statementsFrom_skip]
  refine .bind hr ?_
  rintro rs m ⟨⟨hs', rfl⟩, he'⟩
  refine .ret ⟨⟨?_, rfl⟩, forall_mem_cons.mpr ⟨he, he'⟩⟩
  rw [map_cons, flatten_cons, map_append, hs, hs']

end Shape

theorem Stmt.Line.head {b k : Bool} (h : Stmt.Line V b k st ts) :
    ∀ t ∈ ts.head?, t.is (.keyword .else) = false := by
  intro t ht
  cases h with
  | store h =>
    obtain ⟨x, p, us, rfl⟩ := h.head
    cases ht
    rfl
  | var | vars | brk | cont =>
    cases ht
    rfl

theorem Stmt.Forms.head {b k : Bool} (h : Stmt.Forms V b k st ts) :
    ∀ t ∈ ts.head?, t.is (.keyword .else) = false := by
  intro t ht
  cases h <;> cases ht <;> rfl

theorem Block.Forms.head {V : Lexicon} {b k : Bool} : (body : Block) → ∀ {ts : List Token}, Block.Forms V b k body ts →
    ∀ t ∈ ts.head?, t.is (.keyword .else) = false := by
  intro body ts h t ht
  have hsep : ∀ {seps : List Token}, Token.Semicolons seps → t ∈ seps.head? → t.is (.keyword .else) = false :=
    fun hs hm => Token.Clausal.is_keyword (.inr (hs t (mem_of_mem_head? hm))) _
  cases body with
  | nil =>
    cases h with
    | nil hs => exact hsep hs ht
  | cons first rest =>
    have ih := @head V b k rest
    cases h with
    | line hs hf _ hr | compound hs hf hr =>
      rw [head?_append, head?_append, Option.mem_def, Option.or_eq_some_iff, Option.or_eq_some_iff] at ht
      rcases ht with ht | ⟨-, ht | ⟨-, ht⟩⟩
      · exact hsep hs ht
      · exact hf.head t ht
      · exact ih hr t ht

open Shape

mutual

theorem Stmt.shapes (V : Lexicon) (st : Stmt) : st.Shapes V := by
  intro b k ts h d c hd hc rest fuel hr hl n
  cases st with
  | store | vars | brk | cont => cases h
  | block body =>
    have ih := body.shapes V
    cases h with
    | block h =>
      refine .bind (yields_block ih h (nestings_le_of_cons hd).1 hc n) ?_
      intro steps m hs
      exact .ret ⟨rfl, hs⟩
  | when init cond yes =>
    have ih := yes.shapes V
    cases h with
    | when hh hy =>
      cases fuel with
      | zero => cases hl
      | succ fuel =>
        rw [cons_append, append_assoc]
        exact yields_when ih hh hy (nestings_le_of_cons hd).2 hc hr n
  | branch init cond yes no =>
    have ih := yes.shapes V
    have ih' := no.shapes V
    cases h with
    | branch hh hy hn he =>
      cases fuel with
      | zero => cases hl
      | succ fuel =>
        rw [cons_append, append_assoc]
        refine yields_branch ih ih' hh hy hn he (nestings_le_of_cons hd).2 hc hr ?_ n
        simp only [length_cons, length_append] at hl
        omega
  | loop init cond post body =>
    have ih := body.shapes V
    cases h with
    | loop hh hb =>
      rw [cons_append, append_assoc]
      exact yields_loop ih hh hb (nestings_le_of_cons hd).2 n
  | range key define limit body =>
    have ih := body.shapes V
    cases h with
    | range hh hw hb =>
      rw [cons_append, append_assoc]
      exact yields_range ih hh hw hb (nestings_le_of_cons hd).2 n
  | switch init tag clauses =>
    have ih := clauses.shapes V
    cases h with
    | switch hh hs hf =>
      rw [cons_append, append_assoc]
      exact yields_switch ih hh hs hf (nestings_le_of_cons hd).2 hc n

theorem Block.shapes (V : Lexicon) (body : Block) : body.Shapes V := by
  cases body with
  | nil =>
    intro b k ts h d c hd hc n
    cases h with
    | nil hs =>
      rw [← append_nil ts, statementsFrom_semicolons hs]
      exact .ret ⟨⟨rfl, rfl⟩, nofun⟩
  | cons first rest =>
    have ih := first.shapes V
    have ih' := rest.shapes V
    intro b k ts h d c hd hc n
    cases h with
    | @line _ _ _ _ seps ts us hs hl hu hr =>
      have hd := nestings_le_of_append (nestings_le_of_append hd).2
      obtain ⟨t, line, rfl, hsemi, hy⟩ := yields_line hl hd.1 hc hu n
      rw [statementsFrom_semicolons hs]
      exact yields_statements hsemi hy (ih' hr hd.2 hc _)
    | @compound _ _ _ _ seps ts us hs hf hr =>
      have hd := nestings_le_of_append (nestings_le_of_append hd).2
      obtain ⟨t, line, rfl, hsemi, hy⟩ := yields_compound ih hf hd.1 hc (hr.head rest) n
      rw [statementsFrom_semicolons hs]
      refine yields_statements hsemi (hy.mono ?_) (ih' hr hd.2 hc _)
      rintro ⟨taken, o, steps⟩ m ⟨ht, rfl, hs⟩
      exact ⟨ht, trivial, hs⟩

theorem Clauses.shapes (V : Lexicon) (clauses : Clauses) : clauses.Shapes V := by
  cases clauses with
  | nil => trivial
  | cons cases body rest => exact ⟨body.shapes V, rest.shapes V⟩

end

/-! ## Chunks -/

namespace Stream

variable {V : Lexicon}

/-- The result of a chunk whose last statement is an assignment is its target, read back. -/
theorem keepResult_echoes (p : Pos) : ∀ {rs : List (Outcome × List Step)}, (∀ r ∈ rs, r.1.Echoes V) →
    ∃ echo : Option String, (∀ x ∈ echo, V.name x) ∧
      (keepResult p rs).map At.val = (rs.map (·.2)).flatten.map At.val ++ (echo.map Act.ident).toList := by
  intro rs h
  induction rs with
  | nil => exact ⟨none, nofun, rfl⟩
  | cons r rs ih =>
    cases rs with
    | nil =>
      have hr := h r (.head _)
      obtain ⟨o, steps⟩ := r
      cases o with
      | expr => cases hr
      | assign name =>
        refine ⟨name, hr, ?_⟩
        cases name <;> simp [keepResult]
      | other => exact ⟨none, nofun, by simp [keepResult]⟩
    | cons r' rs =>
      obtain ⟨echo, he, hk⟩ := ih fun s hs => h s (.tail _ hs)
      have hcons : keepResult p (r :: r' :: rs) = r.2 ++ keepResult p (r' :: rs) := by
        obtain ⟨o, steps⟩ := r
        cases o with
        | assign name => cases name <;> rfl
        | _ => rfl
      refine ⟨echo, he, ?_⟩
      rw [hcons, map_append, hk, ← append_assoc, ← map_append]
      rfl

/-- The steps of a program, with the target of a last assignment read back. -/
theorem chunkSteps_program {body : Block} {ts : List Token} (h : Block.Forms V false false body ts) (n : Nat) :
    ∃ (steps : List Step) (s' : ShapeState) (echo : Option String), chunkSteps ts (start n) = .ok steps s' ∧
    (∀ x ∈ echo, V.name x) ∧
      steps.map At.val = (body.stream .chunk n).1 ++ (echo.map Act.ident).toList ∧
        s'.labels = (body.stream .chunk n).2 := by
  obtain ⟨rs, s', hr, hh, ⟨hs, hl⟩, he⟩ := body.shapes V h (Nat.le_refl _) ⟨nofun, nofun⟩ n (start n) rfl
  obtain ⟨echo, hn, hk⟩ := keepResult_echoes s'.last he
  refine ⟨keepResult s'.last rs, s', echo, ?_, hn, by rw [hk, hs], hl⟩
  unfold chunkSteps
  rw [seq_eq hr, get_seq, hh]
  rfl

end Stream

end Goblet
