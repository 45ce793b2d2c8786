import Mathlib.Data.List.Forall2
import Goblet.Proofs.Stream.Order
import Goblet.Proofs.Token.Writing
import Goblet.TypeExpr.Read

/-!
# Types are read back from their text

`TypeExpr.Plain` are the types a text can say: names that are words, parameters and results without names, and a
variadic function only with a parameter. `Reads t ts` is what the parts of a type have to know of the tokens `ts`
written for `t`: wherever groups may nest that deep, all of them are read, and read as `t`; no comma or semicolon splits
them, their first token begins a type, and their last one ends a statement. Every way to build a type keeps this
(`Reads.slice` to `Reads.struct`), and the scanner makes such tokens of the text of each of its parts. So the text of a
plain type is read as that type (`TypeExpr.readAll_text`).
-/

namespace Goblet

open List Token

namespace Token

variable {α : Type} {a : Atom} {P : List Token → α → Prop} {xs : List α} {ts : List Token} {p : Pos} {f : Token → Bool}

theorem splitBy_ne_nil : ∀ ts : List Token, splitBy f ts ≠ []
  | [] => cons_ne_nil _ _
  | t :: ts => by
    rw [splitBy]
    split
    · exact cons_ne_nil _ _
    · split <;> exact cons_ne_nil _ _

theorem splitBy_concat {t : Token} (ht : f t = true) :
    ∀ ts : List Token, splitBy f (ts ++ [t]) = splitBy f ts ++ [[]]
  | [] => by simp [splitBy, ht]
  | u :: us => by
    rw [cons_append, splitBy, splitBy_concat ht us, splitBy]
    split
    · rfl
    · cases hs : splitBy f us with
      | nil => exact absurd hs (splitBy_ne_nil us)
      | cons part parts => rfl

/-- The tokens of a list, with `a` between its parts. No other semicolons are among them. -/
structure Joined (a : Atom) (P : List Token → α → Prop) (xs : List α) (ts : List Token) : Prop where
  parts : xs = [] ∧ ts = [] ∨ Forall₂ P (splitBy (·.is a) ts) xs
  apart : ∀ t ∈ ts, t.is .semicolon = true → a = .semicolon

/-- Parts between commas, none of them empty, are the parts of the list. -/
theorem Joined.commaList (h : Joined .comma P xs ts) (hp : ∀ {part x}, P part x → part ≠ []) :
    Forall₂ P (commaList (withoutSemicolons ts)) xs := by
  have hws : withoutSemicolons ts = ts := filter_eq_self.mpr fun t ht => by
    simp only [Bool.not_eq_eq_eq_not, Bool.not_true, ← Bool.not_eq_true]
    exact fun hs => nomatch h.apart t ht hs
  rw [hws]
  rcases h.parts with ⟨rfl, rfl⟩ | hparts
  · exact .nil
  have hne := ((forall₂_and_left _ _).mp (hparts.imp fun _ _ hr => ⟨hp hr, hr⟩)).1
  rwa [commaList_eq rfl (by rintro rfl; exact hne [] (.head _) rfl) hne]

/-- A semicolon behind the last part does not begin another that is not empty. -/
theorem Joined.clauses (h : Joined .semicolon P xs ts) (hp : ∀ {part x}, P part x → part ≠ []) :
    Forall₂ P ((clauses (terminated p ts)).filter (!·.isEmpty)) xs := by
  rcases h.parts with ⟨rfl, rfl⟩ | hparts
  · exact .nil
  have hne := ((forall₂_and_left _ _).mp (hparts.imp fun _ _ hr => ⟨hp hr, hr⟩)).1
  have hfilter : (splitBy (·.is .semicolon) ts).filter (!·.isEmpty) = splitBy (·.is .semicolon) ts :=
    filter_eq_self.mpr fun part hpart => by simp [hne part hpart]
  unfold terminated Token.clauses
  split
  · rw [splitBy_concat rfl, filter_append, hfilter]
    exact (append_nil _).symm ▸ hparts
  · rwa [hfilter]

end Token

namespace TypeExpr

/-- A type that its text says all of. -/
inductive Plain : TypeExpr → Prop
  | name {n : String} (h : (Atom.ident n).Lexical) : Plain (.name n)
  | slice {e : TypeExpr} (h : Plain e) : Plain (.slice e)
  | map {k v : TypeExpr} (hk : Plain k) (hv : Plain v) : Plain (.map k v)
  | ptr {e : TypeExpr} (h : Plain e) : Plain (.ptr e)
  | func {ps rs : List TypeExpr} {variadic : Bool} (hp : ∀ t ∈ ps, Plain t) (hr : ∀ t ∈ rs, Plain t)
      (hv : variadic = true → ps ≠ []) : Plain (.func (ps.map (none, ·)) (rs.map (none, ·)) variadic)
  | struct {fs : List (String × TypeExpr)} (hn : ∀ f ∈ fs, (Atom.ident f.1).Lexical) (ht : ∀ f ∈ fs, Plain f.2) :
      Plain (.struct fs)

/-! ## Reading tokens -/

variable {e k v t : TypeExpr} {n : String} {ts us inner : List Token} {p q : Pos} {last : Pos} {d : Nat}
  {ps rs : List TypeExpr} {variadic : Bool} {parts : List (List Token)} {fs : List (String × TypeExpr)}

/-- How the contents of groups are read where groups may nest `d` deep. -/
def groupsTo (last : Pos) : Nat → List Token → Except ParseError TypeExpr
  | 0 => fun _ => .error ⟨.tooDeep, last⟩
  | d + 1 => readAllTo last d

theorem readAllTo_eq (last : Pos) (d : Nat) : readAllTo last d = readAllWith (groupsTo last d) last := by
  cases d <;> rfl

/-- The tokens `ts` are read as `t`, also as a part of the tokens of another type. -/
structure Reads (t : TypeExpr) (ts : List Token) : Prop where
  read : ∀ {last : Pos} {d : Nat}, nestings ts ≤ d → readWith (groupsTo last d) last ts = .ok (t, ts.length)
  apart : ∀ u ∈ ts, u.is .comma = false ∧ u.is .semicolon = false
  starts : ∃ u us, ts = u :: us ∧ beginsType u = true ∧ ∀ n p, u = .atom (.ident n) p → us = [] ∧ t = .name n
  ends : ts.getLast?.any endsStatement = true

/-- The tokens of a parameter, which may be spread. -/
def IsParam (ts : List Token) (x : Bool × TypeExpr) : Prop :=
  ∃ us, Reads x.2 us ∧ (x.1 = false ∧ ts = us ∨ x.1 = true ∧ ∃ p, ts = .atom .ellipsis p :: us)

def IsField (ts : List Token) (f : String × TypeExpr) : Prop :=
  ∃ p us, Reads f.2 us ∧ ts = .atom (.ident f.1) p :: us

/-- The parameters of a function, of which only the last may be spread. -/
def spreads (variadic : Bool) : List TypeExpr → List (Bool × TypeExpr)
  | [] => []
  | [t] => [(variadic, t)]
  | t :: u :: ts => (false, t) :: spreads variadic (u :: ts)

namespace Reads

theorem ne_nil (h : Reads t ts) : ts ≠ [] := by
  obtain ⟨u, us, rfl, -⟩ := h.starts
  exact cons_ne_nil u us

theorem readAllWith (h : Reads t ts) (hd : nestings ts ≤ d) :
    TypeExpr.readAllWith (groupsTo last d) last ts = .ok t := by
  rw [TypeExpr.readAllWith, h.read hd]
  exact if_neg (fun hn => hn rfl)

/-- The contents of a group are read one level down. -/
theorem groupsTo (h : Reads t ts) (hd : nestings ts < d) : TypeExpr.groupsTo last d ts = .ok t := by
  cases d with
  | zero => exact absurd hd (Nat.not_lt_zero _)
  | succ d => exact (congrFun (readAllTo_eq last d) ts).trans (h.readAllWith (Nat.lt_succ_iff.mp hd))

theorem ends_cons (h : Reads t ts) (u : Token) : (u :: ts).getLast?.any endsStatement = true := by
  obtain ⟨v, vs, rfl, -⟩ := h.starts
  rw [getLast?_cons_cons, h.ends]

theorem name (n : String) (p : Pos) : Reads (.name n) [.atom (.ident n) p] where
  read := fun _ => by rw [readWith]; rfl
  apart := forall_mem_singleton.mpr ⟨rfl, rfl⟩
  starts := ⟨_, _, rfl, rfl, fun m q h => by cases h; exact ⟨rfl, rfl⟩⟩
  ends := rfl

theorem slice (h : Reads e ts) : Reads (.slice e) (.group .bracket [] p :: ts) where
  read := fun hd => by
    rw [readWith, h.read (nestings_le_of_cons hd).2]
    rfl
  apart := forall_mem_cons.mpr ⟨⟨rfl, rfl⟩, h.apart⟩
  starts := ⟨_, _, rfl, rfl, nofun⟩
  ends := h.ends_cons _

theorem ptr (h : Reads e ts) : Reads (.ptr e) (.atom (.op .mul) p :: ts) where
  read := fun hd => by
    rw [readWith, h.read (nestings_le_of_cons hd).2]
    rfl
  apart := forall_mem_cons.mpr ⟨⟨rfl, rfl⟩, h.apart⟩
  starts := ⟨_, _, rfl, rfl, nofun⟩
  ends := h.ends_cons _

theorem map (hk : Reads k inner) (hv : Reads v ts) :
    Reads (.map k v) (.atom (.keyword .map) p :: .group .bracket inner q :: ts) where
  read := fun hd => by
    have hd := nestings_le_of_cons (nestings_le_of_cons hd).2
    rw [readWith, hk.groupsTo hd.1, hv.read hd.2]
    rfl
  apart := forall_mem_cons.mpr ⟨⟨rfl, rfl⟩, forall_mem_cons.mpr ⟨⟨rfl, rfl⟩, hv.apart⟩⟩
  starts := ⟨_, _, rfl, rfl, nofun⟩
  ends := by rw [getLast?_cons_cons]; exact hv.ends_cons _

end Reads

theorem IsField.apart {f : String × TypeExpr} (h : IsField ts f) :
    ts ≠ [] ∧ ∀ t ∈ ts, t.is .semicolon = false ∧ t.is .semicolon = false := by
  obtain ⟨p, us, hr, rfl⟩ := h
  exact ⟨cons_ne_nil _ _, forall_mem_cons.mpr ⟨⟨rfl, rfl⟩, fun t ht => ⟨(hr.apart t ht).2, (hr.apart t ht).2⟩⟩⟩

theorem IsParam.apart {x : Bool × TypeExpr} (h : IsParam ts x) :
    ts ≠ [] ∧ ∀ t ∈ ts, t.is .comma = false ∧ t.is .semicolon = false := by
  obtain ⟨us, hr, ⟨-, rfl⟩ | ⟨-, p, rfl⟩⟩ := h
  · exact ⟨hr.ne_nil, hr.apart⟩
  · exact ⟨cons_ne_nil _ _, forall_mem_cons.mpr ⟨⟨rfl, rfl⟩, hr.apart⟩⟩

/-- A struct's fields are read in order. -/
theorem structFields_eq (h : Forall₂ IsField parts fs)
    (hd : ∀ part ∈ parts, nestings part < d) : structFields (groupsTo last d) last parts = .ok fs := by
  induction h with
  | nil => rfl
  | @cons part f parts fs h _ ih =>
    obtain ⟨p, us, hr, rfl⟩ := h
    rw [forall_mem_cons] at hd
    have hnames : fieldNames (.atom (.ident f.1) p :: us) = ([f.1], us) := by
      obtain ⟨u, vs, rfl, hb, -⟩ := hr.starts
      rw [fieldNames]
      rintro q ws h
      cases h
      cases hb
    have hlt : nestings us < d := Nat.lt_of_le_of_lt (nestings_le_of_cons (Nat.le_refl _)).2 hd.1
    have hus : ([f.1].isEmpty || us.isEmpty) = false := by simp [hr.ne_nil]
    rw [structFields, hnames]
    simp only [hus, hr.groupsTo hlt, ih hd.2]
    rfl

theorem entries_cons {b : Bool} {part : List Token} {es : List ParamEntry} {w : Bool}
    (h : IsParam part (b, t)) (hd : nestings part < d) (hb : b = true → parts = [])
    (hs : entries (groupsTo last d) last parts = .ok (es, w)) :
    ∃ e, entries (groupsTo last d) last (part :: parts) = .ok (e :: es, b || w) ∧ e.isNamed = false ∧ e.ty = t := by
  obtain ⟨us, hr, ⟨rfl, rfl⟩ | ⟨rfl, p, rfl⟩⟩ := h
  · obtain ⟨u, us, rfl, hu, hn⟩ := hr.starts
    match u, hu, hn with
    | .atom (.ident n) p, _, hn =>
      obtain ⟨rfl, rfl⟩ := hn n p rfl
      refine ⟨.lone n, ?_, rfl, rfl⟩
      rw [entries, hs]
      rfl
    | .group .bracket _ _, _, _ | .atom (.keyword .map) _, _, _ | .atom (.keyword .func) _, _, _
    | .atom (.keyword .struct) _, _, _ | .atom (.op .mul) _, _, _ =>
      refine ⟨.bare t, ?_, rfl, rfl⟩
      rw [entries]
      · simp only [entryParts, bind, Except.bind, isEmpty_cons, hr.groupsTo hd, hs]
        rfl
      · simp
  · have hlt : nestings us < d := Nat.lt_of_le_of_lt (nestings_le_of_cons (Nat.le_refl _)).2 hd
    have hus : us.isEmpty = false := by simp [hr.ne_nil]
    obtain rfl := hb rfl
    refine ⟨.bare t, ?_, rfl, rfl⟩
    rw [entries]
    · simp only [entryParts, isEmpty_nil, if_true, bind, Except.bind, hus, hr.groupsTo hlt, hs]
      rfl
    · simp

theorem entries_eq (last : Pos) : ∀ {ps : List TypeExpr} {parts : List (List Token)},
    Forall₂ IsParam parts (spreads variadic ps) → (∀ part ∈ parts, nestings part < d) →
      ∃ es, entries (groupsTo last d) last parts = .ok (es, variadic && !ps.isEmpty) ∧
        es.any ParamEntry.isNamed = false ∧ es.map ParamEntry.ty = ps
  | [], [], _, _ => ⟨[], by simp [entries], rfl, rfl⟩
  | [t], [_], .cons h _, hd => by
    obtain ⟨e, he, hn, ht⟩ := entries_cons h (hd _ (.head _)) (fun _ => rfl) rfl
    exact ⟨[e], by simpa using he, by simp [hn], by simp [ht]⟩
  | t :: u :: ps, _ :: _, .cons h hs, hd => by
    obtain ⟨es, hes, hns, hts⟩ := entries_eq last hs fun part hp => hd part (.tail _ hp)
    obtain ⟨e, he, hn, ht⟩ := entries_cons h (hd _ (.head _)) nofun hes
    exact ⟨e :: es, by simpa using he, by simp [hn, hns], by simp [ht, hts]⟩

/-- The tokens between the parentheses of a parameter list. -/
abbrev Params (variadic : Bool) (ps : List TypeExpr) : List Token → Prop :=
  Token.Joined .comma IsParam (spreads variadic ps)

/-- The tokens behind the parameters of a function. -/
inductive Results : List TypeExpr → List Token → Prop
  | none : Results [] []
  | single {t : TypeExpr} {ts : List Token} (h : Reads t ts) : Results [t] ts
  | listed {rs : List TypeExpr} {inner : List Token} {p : Pos} (h : Params false rs inner) :
      Results rs [.group .paren inner p]

/-- A parameter list reads back, variadic or not. -/
theorem paramList_eq (last : Pos) (h : Params variadic ps ts) (hv : variadic = true → ps ≠ [])
    (hd : Token.nestings ts < d) :
    paramList (groupsTo last d) last ts = .ok (ps.map (none, ·), variadic) := by
  obtain ⟨es, he, hn, ht⟩ := entries_eq last (h.commaList fun hr => hr.apart.1) fun part hpart => by
    refine Nat.lt_of_le_of_lt (Token.nestings_le_of_subset fun t ht => ?_) hd
    exact (mem_filter.mp (Token.mem_of_mem_splitBy (Token.mem_splitBy_of_mem_commaList hpart) ht)).1
  have hv : (variadic && !ps.isEmpty) = variadic := by
    cases variadic with
    | false => rfl
    | true => simp [hv rfl]
  rw [paramList, he, hv]
  simp only [ParamEntry.params, bind, Except.bind, hn, ← ht, map_map]
  rfl

theorem Results.apart (h : Results rs us) : ∀ u ∈ us, u.is .comma = false ∧ u.is .semicolon = false := by
  cases h with
  | none => exact nofun
  | single h => exact h.apart
  | listed h => exact forall_mem_singleton.mpr ⟨rfl, rfl⟩

theorem Results.ends (h : Results rs us) {u : Token} (hu : u.endsStatement = true) :
    (u :: us).getLast?.any endsStatement = true := by
  cases h with
  | none => exact hu
  | single h => exact h.ends_cons u
  | listed h => rfl

namespace Reads

/-- A function type's text reads back. -/
theorem func (hp : Params variadic ps inner) (hv : variadic = true → ps ≠ []) (hr : Results rs us) :
    Reads (.func (ps.map (none, ·)) (rs.map (none, ·)) variadic)
      (.atom (.keyword .func) p :: .group .paren inner q :: us) where
  read := fun {last d} hd => by
    have hd := nestings_le_of_cons (nestings_le_of_cons hd).2
    have hps := paramList_eq last hp hv hd.1
    cases hr with
    | none =>
      rw [readWith, hps]
      rfl
    | single h =>
      have hus := @h.read last d hd.2
      obtain ⟨u, us, rfl, hu, -⟩ := h.starts
      rw [readWith, if_pos hu, hus, hps]
      · rfl
      · rintro _ _ rfl
        cases hu
    | listed h =>
      have hrs := paramList_eq last h nofun (nestings_le_of_cons hd.2).1
      rw [readWith, resultList, hps, hrs]
      rfl
  apart := forall_mem_cons.mpr ⟨⟨rfl, rfl⟩, forall_mem_cons.mpr ⟨⟨rfl, rfl⟩, hr.apart⟩⟩
  starts := ⟨_, _, rfl, rfl, nofun⟩
  ends := by rw [getLast?_cons_cons]; exact hr.ends rfl

/-- A struct type's text reads back. -/
theorem struct {r : Pos} (h : Token.Joined .semicolon IsField fs ts) :
    Reads (.struct fs) [.atom (.keyword .struct) p, .group .brace (terminated r ts) q] where
  read := fun {last d} hd => by
    have hd := (nestings_le_of_cons (nestings_le_of_cons hd).2).1
    rw [readWith, structFields_eq (h.clauses fun hr => hr.apart.1) fun part hpart => ?_]
    · rfl
    · exact Nat.lt_of_le_of_lt (nestings_le_of_subset fun t => mem_of_mem_splitBy (mem_filter.mp hpart).1) hd
  apart := forall_mem_cons.mpr ⟨⟨rfl, rfl⟩, forall_mem_singleton.mpr ⟨rfl, rfl⟩⟩
  starts := ⟨_, _, rfl, rfl, nofun⟩
  ends := rfl

end Reads

end TypeExpr

/-! ## Scanning texts -/

namespace Scanner

variable {K K' : List Char → Prop} {P Q : List Token → Prop} {x y : List Char} {c : Char} {cs : List Char}

theorem Scans.nil : Scans (fun _ => True) [] fun ts => ts = [] := fun s _ hs _ => ⟨[], s, rfl, rfl, hs, rfl, rfl⟩

/-- What follows the first text is the second one. -/
theorem Scans.append (hx : Scans K x P) (hy : Scans K' y Q) (hk : ∀ cs, K' cs → K (y ++ cs)) :
    Scans K' (x ++ y) fun ts => ∃ us vs, P us ∧ Q vs ∧ ts = us ++ vs := by
  intro s cs hs hc
  obtain ⟨us, t, hp, ht⟩ := hx s (y ++ cs) hs (hk cs hc)
  obtain ⟨vs, u, hq, hu⟩ := hy t cs ht.idle hc
  refine ⟨us ++ vs, u, ⟨us, vs, hp, hq, rfl⟩, ?_⟩
  rw [append_assoc]
  exact ht.trans hu

theorem breaks_cons (h : isWordChar c = false) (cs : List Char) : Breaks (c :: cs) := by
  rintro d hd
  cases hd
  exact h

theorem scans_blank : Scans (fun _ => True) [' '] fun ts => ts = [] := fun s cs hs _ =>
  ⟨[], s.moved (s.pos.next ' '), rfl, run_cons (t := s) (by simp only [take, hs]; rfl), hs, rfl, rfl⟩

/-- A text that is one atom, whatever comes behind it. -/
theorem scans_mark {a : Atom} (h : ∀ pos start tokens groups, ∃ q r, x.foldlM feed ⟨pos, .idle, start, tokens, groups⟩ =
    .ok ⟨q, .idle, r, .atom a pos :: tokens, groups⟩) : Scans (fun _ => True) x fun ts => ∃ p, ts = [.atom a p] := by
  rintro ⟨pos, mode, start, tokens, groups⟩ cs (rfl : mode = .idle) -
  obtain ⟨q, r, hx⟩ := h pos start tokens groups
  exact ⟨_, _, ⟨pos, rfl⟩, run_append hx, rfl, rfl, rfl⟩

/-- Texts with a separator between them are read as the parts of their tokens. -/
theorem scans_joined {α : Type} {f : α → String} {P : List Token → α → Prop} {sep : String} {a : Atom}
    (hsep : Scans (fun _ => True) sep.toList fun ts => ∃ p, ts = [.atom a p]) (hb : ∀ cs, Breaks (sep.toList ++ cs))
    (ha : ∀ p, (Token.atom a p).is a = true)
    (hp : ∀ {ts x}, P ts x → ts ≠ [] ∧ ∀ t ∈ ts, t.is a = false ∧ t.is .semicolon = false) :
    ∀ {xs : List α}, (∀ x ∈ xs, Scans Breaks (f x).toList (P · x)) →
      Scans Breaks (Text.joined sep (xs.map f)).toList (Token.Joined a P xs)
  | [], _ => Scans.nil.imp (fun _ _ => trivial) fun _ hts => ⟨.inl ⟨rfl, hts⟩, hts ▸ nofun⟩
  | [x], h => by
    rw [Text.joined, map_singleton, String.intercalate_singleton]
    refine (h x (.head _)).imp (fun _ => id) fun ts hts => ⟨.inr ?_, fun t ht hs => ?_⟩
    · rw [Token.splitBy_single fun t ht => ((hp hts).2 t ht).1]
      exact .cons hts .nil
    · cases hs.symm.trans ((hp hts).2 t ht).2
  | x :: y :: xs, h => by
    have hs := scans_joined hsep hb ha hp fun z hz => h z (.tail _ hz)
    rw [Text.joined, map_cons, map_cons, String.intercalate_cons_cons, String.toList_append, String.toList_append,
      append_assoc]
    refine ((h x (.head _)).append (hsep.append hs fun _ _ => trivial) fun cs _ => ?_).imp (fun _ => id) ?_
    · rw [append_assoc]
      exact hb _
    · rintro _ ⟨us, _, hx, ⟨_, vs, ⟨p, rfl⟩, hvs, rfl⟩, rfl⟩
      refine ⟨.inr ?_, fun t ht hs => ?_⟩
      · rw [singleton_append, Token.splitBy_append (fun t ht => ((hp hx).2 t ht).1) (ha p)]
        exact .cons hx (hvs.parts.resolve_left fun h => nomatch h.1)
      · rcases mem_append.mp ht with ht | ht
        · cases hs.symm.trans ((hp hx).2 t ht).2
        rcases mem_cons.mp ht with rfl | ht
        · exact eq_of_beq hs
        · exact hvs.apart t ht hs

end Scanner

namespace TypeExpr

open Scanner

variable {t : TypeExpr} {ps rs : List TypeExpr} {variadic : Bool} {x : Bool × TypeExpr}

/-- A parameter as it is written. -/
def paramText (x : Bool × TypeExpr) : String := if x.1 then "..." ++ x.2.text else x.2.text

theorem paramTexts_map : ∀ ps : List TypeExpr, paramTexts (ps.map (none, ·)) = ps.map text
  | [] => rfl
  | p :: ps => by rw [map_cons, paramTexts, paramTexts_map ps, map_cons]

theorem fieldTexts_eq : ∀ fs : List (String × TypeExpr), fieldTexts fs = fs.map fun f => f.1 ++ " " ++ f.2.text
  | [] => rfl
  | f :: fs => by rw [fieldTexts, fieldTexts_eq fs, map_cons]

theorem map_paramText : ∀ ps : List TypeExpr,
    (spreads variadic ps).map paramText = if variadic then spreadLast (ps.map text) else ps.map text
  | [] | [p] => by cases variadic <;> rfl
  | p :: q :: ps => by
    rw [spreads, map_cons, map_paramText (q :: ps)]
    cases variadic <;> rfl

theorem mem_of_mem_spreads : ∀ {ps : List TypeExpr}, x ∈ spreads variadic ps → x.2 ∈ ps
  | [_], h => mem_singleton.mp h ▸ .head _
  | _ :: _ :: _, h => by
    rcases mem_cons.mp h with rfl | h
    · exact .head _
    · exact .tail _ (mem_of_mem_spreads h)

theorem scans_param (h : Scans Breaks x.2.text.toList (Reads x.2)) :
    Scans Breaks (paramText x).toList (IsParam · x) := by
  obtain ⟨b, t⟩ := x
  cases b with
  | false => exact h.imp (fun _ => id) fun ts ht => ⟨ts, ht, .inl ⟨rfl, rfl⟩⟩
  | true =>
    have hdots : Scans (fun _ => True) "...".toList fun ts => ∃ p, ts = [.atom .ellipsis p] :=
      scans_mark fun _ _ _ _ => ⟨_, _, rfl⟩
    rw [paramText, if_pos rfl, String.toList_append]
    refine (hdots.append h fun _ _ => trivial).imp (fun _ => id) ?_
    rintro _ ⟨_, us, ⟨p, rfl⟩, hus, rfl⟩
    exact ⟨us, hus, .inr ⟨rfl, p, rfl⟩⟩

/-- The text of a parameter list. -/
theorem scans_params (variadic : Bool) (h : ∀ t ∈ ps, Scans Breaks t.text.toList (Reads t)) :
    Scans Breaks (Text.joined ", " (if variadic then spreadLast (ps.map text) else ps.map text)).toList
      (Params variadic ps) := by
  rw [← map_paramText]
  have hsep : Scans (fun _ => True) ", ".toList fun ts => ∃ p, ts = [.atom .comma p] :=
    scans_mark fun _ _ _ _ => ⟨_, _, rfl⟩
  exact scans_joined hsep (breaks_cons (by decide)) (fun _ => rfl) IsParam.apart fun x hx =>
    scans_param (h x.2 (mem_of_mem_spreads hx))

/-- No result, one, or a list in brackets. -/
theorem scans_results (h : ∀ t ∈ rs, Scans Breaks t.text.toList (Reads t)) :
    Scans Breaks (resultText (rs.map text)).toList (Results rs) := by
  match rs, h with
  | [], _ => exact Scans.nil.imp (fun _ _ => trivial) fun _ hts => hts ▸ .none
  | [r], h =>
    rw [map_singleton, resultText, String.toList_append]
    refine (scans_blank.append (h r (.head _)) fun _ _ => trivial).imp (fun _ => id) ?_
    rintro _ ⟨_, us, rfl, hus, rfl⟩
    exact .single hus
  | r :: r' :: rs, h =>
    have hlist := (scans_params false h).group .paren fun _ => breaks_cons (by decide) _
    rw [map_cons, map_cons, resultText, String.toList_append, String.toList_append]
    · refine (scans_blank.append hlist fun _ _ => trivial).imp (fun _ _ => trivial) ?_
      rintro _ ⟨_, _, rfl, ⟨inner, p, q, hin, rfl⟩, rfl⟩
      exact .listed hin
    · simp
    · simp

theorem scans_field {f : String × TypeExpr} (hn : (Atom.ident f.1).Lexical)
    (h : Scans Breaks f.2.text.toList (Reads f.2)) :
    Scans Breaks (f.1 ++ " " ++ f.2.text).toList (IsField · f) := by
  rw [String.toList_append, String.toList_append, append_assoc]
  refine ((scans_word hn.1 (wordAtom_of_none hn.2)).append (scans_blank.append h fun _ _ => trivial) fun cs _ =>
    breaks_cons (c := ' ') (by decide) _).imp (fun _ => id) ?_
  rintro _ ⟨_, _, ⟨p, rfl⟩, ⟨_, _, rfl, hus, rfl⟩, rfl⟩
  exact ⟨p, _, hus, rfl⟩

theorem scans_keyword (k : Keyword) : Scans Breaks k.text.toList fun ts => ∃ p, ts = [.atom (.keyword k) p] :=
  scans_word (isWord_keyword k) (by cases k <;> rfl)

/-- The text of a type does not make a `*` before it longer. -/
theorem Plain.text_head (h : t.Plain) (cs : List Char) : ∀ c ∈ (t.text.toList ++ cs).head?, double? '*' c = none := by
  cases h with
  | name h =>
    obtain ⟨⟨c, ds, hw, hc, -⟩, -⟩ := h
    rw [text, hw]
    rintro _ ⟨⟩
    unfold double?
    split <;> first | rfl | cases hc
  | slice | map | ptr | func | struct =>
    simp only [text, String.toList_append]
    rintro _ ⟨⟩
    rfl

/-- **The text of a type is scanned as tokens that are read as the type.** -/
theorem Plain.scans (h : t.Plain) : Scans Breaks t.text.toList (Reads t) := by
  induction h with
  | name h =>
    refine (scans_word h.1 (wordAtom_of_none h.2)).imp (fun _ => id) ?_
    rintro _ ⟨p, rfl⟩
    exact .name _ p
  | slice h ih =>
    rw [text, String.toList_append]
    refine ((Scans.nil.group .bracket fun _ => trivial).append ih fun _ _ => trivial).imp (fun _ => id) ?_
    rintro _ ⟨_, us, ⟨_, p, q, rfl, rfl⟩, hus, rfl⟩
    exact hus.slice
  | @map k v hk hv ihk ihv =>
    have htext : (TypeExpr.map k v).text.toList =
        Keyword.map.text.toList ++ (('[' :: (k.text.toList ++ [']'])) ++ v.text.toList) := by
      simp [text, Keyword.text]
    rw [htext]
    refine ((scans_keyword .map).append ((ihk.group .bracket (breaks_cons (by decide))).append ihv fun _ _ => trivial)
      fun _ _ => breaks_cons (by decide) _).imp (fun _ => id) ?_
    rintro _ ⟨_, _, ⟨p, rfl⟩, ⟨_, us, ⟨inner, q, r, hin, rfl⟩, hus, rfl⟩, rfl⟩
    exact hin.map hus
  | ptr h ih =>
    rw [text, String.toList_append]
    refine ((scans_sign (c := '*') (fun _ => rfl) rfl (by decide)).append ih fun cs _ => h.text_head cs).imp
      (fun _ => id) ?_
    rintro _ ⟨_, us, ⟨p, rfl⟩, hus, rfl⟩
    exact hus.ptr
  | @func ps rs variadic hp hr hv ihp ihr =>
    have htext : (TypeExpr.func (ps.map (none, ·)) (rs.map (none, ·)) variadic).text.toList =
        Keyword.func.text.toList ++ (('(' :: ((Text.joined ", " (if variadic then spreadLast (ps.map text) else
          ps.map text)).toList ++ [')'])) ++ (resultText (rs.map text)).toList) := by
      simp [text, Keyword.text, paramTexts_map]
    rw [htext]
    refine ((scans_keyword .func).append (((scans_params _ ihp).group .paren (breaks_cons (by decide))).append
      (scans_results ihr) fun _ _ => trivial) fun _ _ => breaks_cons (by decide) _).imp (fun _ => id) ?_
    rintro _ ⟨_, _, ⟨p, rfl⟩, ⟨_, us, ⟨inner, q, r, hin, rfl⟩, hus, rfl⟩, rfl⟩
    exact .func hin hv hus
  | @struct fs hn ht ih =>
    have htext : (TypeExpr.struct fs).text.toList = Keyword.struct.text.toList ++
        ('\x7b' :: ((Text.joined "; " (fs.map fun f => f.1 ++ " " ++ f.2.text)).toList ++ ['\x7d'])) := by
      simp [text, Keyword.text, fieldTexts_eq]
    have hsep : Scans (fun _ => True) "; ".toList fun ts => ∃ p, ts = [.atom .semicolon p] :=
      scans_mark fun _ _ _ _ => ⟨_, _, rfl⟩
    have hin := scans_joined hsep (breaks_cons (by decide)) (fun _ => rfl) IsField.apart fun f hf =>
      scans_field (hn f hf) (ih f hf)
    rw [htext]
    refine ((scans_keyword .struct).append (hin.group .brace (breaks_cons (by decide))) fun _ _ =>
      breaks_cons (by decide) _).imp (fun _ _ => trivial) ?_
    rintro _ ⟨_, _, ⟨p, rfl⟩, ⟨inner, q, r, hin, rfl⟩, rfl⟩
    exact .struct hin

/-- **Types are read back from their text.** The tokens of the text of a plain type, without the semicolon behind them,
are read as that type and nothing else. -/
theorem readAll_text (h : t.Plain) (last : Pos) :
    ∃ toks p, scan t.text = .ok (toks ++ [.atom .semicolon p]) ∧ readAll last toks = .ok t := by
  obtain ⟨toks, s, hr, ha⟩ := h.scans .initial [] rfl nofun
  rw [append_nil] at ha
  obtain ⟨p, hp⟩ := scan_of_adds ha .nil
  refine ⟨toks, p, ?_, ?_⟩
  · rw [hp, terminated, if_pos hr.ends]
  · rw [readAll, readAllTo_eq]
    exact hr.readAllWith (Nat.le_refl _)

/-- A variadic function with two results. -/
theorem readAll_text_func :
    Plain (.func [(none, .slice (.name "T"))] [(none, .map (.name "K") (.ptr (.name "T"))),
      (none, .struct [("x", .name "T")])]
      true) ∧
    ∃ toks p, scan "func(...[]T) (map[K]*T, struct\x7bx T\x7d)" = .ok (toks ++ [.atom .semicolon p]) ∧
      readAll .none toks = .ok (.func [(none, .slice (.name "T"))]
        [(none, .map (.name "K") (.ptr (.name "T"))), (none, .struct [("x", .name "T")])] true) := by
  have hword (n : String) (c : Char) (hn : n.toList = [c]) (hc : beginsWord c) (hk : Keyword.ofText? n = none) :
      (Atom.ident n).Lexical := ⟨⟨c, [], hn, hc, nofun⟩, hk⟩
  have hT := Plain.name (hword "T" 'T' rfl (by decide) rfl)
  have hK := Plain.name (hword "K" 'K' rfl (by decide) rfl)
  have hs : Plain (.struct [("x", .name "T")]) :=
    .struct (forall_mem_singleton.mpr (hword "x" 'x' rfl (by decide) rfl)) (forall_mem_singleton.mpr hT)
  have h := @Plain.func _ _ true (forall_mem_singleton.mpr hT.slice)
    (forall_mem_cons.mpr ⟨hK.map hT.ptr, forall_mem_singleton.mpr hs⟩) fun _ => cons_ne_nil _ _
  exact ⟨h, readAll_text h .none⟩

end TypeExpr

end Goblet
