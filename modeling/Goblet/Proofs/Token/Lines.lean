import Goblet.Proofs.Token.Completion

/-!
# Reading line after line

A text can be cut at a line end: where the part before it is a sequence of tokens, the tokens of the whole are those of
the part before the line end followed by those of the part behind it, further down (`Token.scan_lines`).

* A scanner that goes on behind tokens `base` does what one at the start of a text does, so many lines further down and
  on top of `base` (`feedAll_onto`). `base` must not end with the end of a statement, or a line end would still close
  it.
* A line end does to a text what its end does (`feed_lineEnd_of_finish`).
-/

namespace Goblet

open List Pos Scanner Token

/-! ## Places further down -/

/-- The same column, `k` lines further down. -/
def Pos.down (k : Nat) (p : Pos) : Pos := ⟨p.line + k, p.col⟩

theorem Pos.next_down (k : Nat) (p : Pos) (c : Char) : (p.down k).next c = (p.next c).down k := by
  unfold next down
  split
  · simp only [Nat.add_right_comm]
  · rfl

namespace Token

mutual

/-- A token with its places changed, at every depth. -/
def mapPos (f : Pos → Pos) : Token → Token
  | .atom a p => .atom a (f p)
  | .group d inner p => .group d (mapPosAll f inner) (f p)

def mapPosAll (f : Pos → Pos) : List Token → List Token
  | [] => []
  | t :: ts => t.mapPos f :: mapPosAll f ts

end

theorem mapPosAll_eq (f : Pos → Pos) : ∀ ts : List Token, mapPosAll f ts = ts.map (mapPos f)
  | [] => by rw [mapPosAll, map_nil]
  | t :: ts => by rw [mapPosAll, mapPosAll_eq f ts, map_cons]

theorem endsStatement_mapPos (f : Pos → Pos) (t : Token) : (t.mapPos f).endsStatement = t.endsStatement := by
  cases t <;> rw [mapPos] <;> rfl

end Token

/-- What becomes of a result further down. -/
def LexError.below {α β : Type} (k : Nat) (f : α → β) : Except LexError α → Except LexError β
  | .ok a => .ok (f a)
  | .error e => .error ⟨e.cause, e.pos.down k⟩

open LexError (below)

theorem LexError.below_bind {α β γ δ : Type} {k : Nat} {f : α → β} {g : γ → δ} {x : Except LexError α}
    {y : α → Except LexError γ} {z : β → Except LexError δ} (h : ∀ a, z (f a) = below k g (y a)) :
    (below k f x >>= z) = below k g (x >>= y) := by
  cases x with
  | ok a => exact h a
  | error e => rfl

namespace Scanner

/-! ## A scanner on top of other tokens -/

/-- What lies below the tokens of the outermost group. -/
def under (base : List Token) : List OpenGroup → List Token
  | [] => base
  | _ :: _ => []

def groupsBelow (k : Nat) (base : List Token) : List OpenGroup → List OpenGroup
  | [] => []
  | g :: gs =>
    ⟨g.delim, g.pos.down k, g.before.map (mapPos (down k)) ++ under base gs⟩ :: groupsBelow k base gs

/-- The scanner `k` lines further down, on top of the tokens `base`. -/
def onto (k : Nat) (base : List Token) (s : Scanner) : Scanner where
  pos := s.pos.down k
  mode := s.mode
  start := s.start.down k
  tokens := s.tokens.map (mapPos (down k)) ++ under base s.groups
  groups := groupsBelow k base s.groups

/-- Tokens after which a line end adds nothing. -/
def Ended (ts : List Token) : Prop := ∀ t ∈ ts.head?, t.endsStatement = false

variable {k : Nat} {base : List Token} {s t : Scanner}

theorem emit_onto (a : Atom) (p : Pos) : (s.emit a p).onto k base = (s.onto k base).emit a (p.down k) := by
  simp only [onto, emit, map_cons, mapPos, cons_append]

theorem semicolon_onto (hb : Ended base) (p : Pos) :
    (s.semicolon p).onto k base = (s.onto k base).semicolon (p.down k) := by
  obtain ⟨pos, mode, start, tokens, groups⟩ := s
  cases tokens with
  | cons t ts =>
    simp only [semicolon, onto, map_cons, cons_append, endsStatement_mapPos]
    split
    · exact emit_onto ..
    · rfl
  | nil =>
    cases groups with
    | cons g gs => rfl
    | nil =>
      cases base with
      | nil => rfl
      | cons t ts => simp [semicolon, onto, under, hb t rfl]

theorem closeGroup_onto (hb : Ended base) (c : Char) :
    (s.onto k base).closeGroup c = below k (onto k base) (s.closeGroup c) := by
  cases hg : s.groups with
  | nil => simp only [closeGroup, onto, hg, groupsBelow, below]
  | cons g gs =>
    have shut {u : Scanner} (hu : u.groups = g :: gs) :
        ({ u with tokens := .group g.delim u.tokens.reverse g.pos :: g.before, groups := gs } : Scanner).onto k base =
          { u.onto k base with
            tokens := .group g.delim (u.onto k base).tokens.reverse (g.pos.down k) ::
              (g.before.map (mapPos (down k)) ++ under base gs)
            groups := groupsBelow k base gs } := by
      simp [onto, hu, under, mapPos, mapPosAll_eq]
    simp only [closeGroup, show (s.onto k base).groups = _ from congrArg (groupsBelow k base) hg, hg, groupsBelow]
    split
    · rw [below]
      congr 1
      split
      · rw [shut ((semicolon_groups _).trans hg), semicolon_onto hb]
        rfl
      · exact (shut hg).symm
    · rfl

theorem closeWith_onto (r : Except LexCause Atom) :
    (s.onto k base).closeWith r = below k (onto k base) (s.closeWith r) := by
  cases r with
  | ok a => exact congrArg (fun u : Scanner => Except.ok { u with mode := .idle }) (emit_onto a s.start).symm
  | error cause => rfl

/-- A token ends alike on any line. -/
theorem settle_onto : (s.onto k base).settle = below k (onto k base) s.settle := by
  have hm : (s.onto k base).mode = s.mode := rfl
  unfold settle
  rw [hm]
  cases s.mode with
  | word cs => exact closeWith_onto (.ok _)
  | zero | number | hex => exact closeWith_onto _
  | op c =>
    dsimp only
    split
    · exact closeWith_onto (.ok _)
    · rfl
  | dot => exact closeWith_onto (.ok _)
  | dots => simp [onto, emit, below, mapPos, down]
  | _ => rfl

theorem fresh_onto (hb : Ended base) (c : Char) :
    (s.onto k base).fresh c = below k (onto k base) (s.fresh c) := by
  unfold fresh
  split
  iterate 3 rfl
  · exact congrArg Except.ok (semicolon_onto hb _).symm
  iterate 3 rfl
  iterate 3 exact closeGroup_onto hb _
  iterate 5 rfl
  iterate 3 exact congrArg Except.ok (emit_onto _ _).symm
  · split
    · rfl
    split
    · rfl
    split <;> rfl

theorem reread_onto (hb : Ended base) (c : Char) :
    (s.onto k base).reread c = below k (onto k base) (s.reread c) := by
  rw [reread, settle_onto]
  exact LexError.below_bind fun _ => fresh_onto hb c

theorem inNumber_onto (hb : Ended base) (cs : List Char) (f m : Bool) (c : Char) :
    (s.onto k base).inNumber cs f m c = below k (onto k base) (s.inNumber cs f m c) := by
  unfold inNumber
  iterate 5
    split
    · rfl
  exact reread_onto hb c

/-- A character is read alike on any line. -/
theorem take_onto (hb : Ended base) (c : Char) :
    (s.onto k base).take c = below k (onto k base) (s.take c) := by
  have hm : (s.onto k base).mode = s.mode := rfl
  have hclose (a : Atom) : (s.onto k base).close a = (s.close a).onto k base := Except.ok.inj (closeWith_onto (.ok a))
  unfold take
  rw [hm]
  cases hmode : s.mode with
  | idle => exact fresh_onto hb c
  | word cs =>
    dsimp only
    split
    · rfl
    · exact reread_onto hb c
  | zero =>
    dsimp only
    split
    · rfl
    · exact inNumber_onto hb _ _ _ c
  | number cs f m => exact inNumber_onto hb _ _ _ c
  | hex cs =>
    dsimp only
    split
    · rfl
    split
    · rfl
    · exact reread_onto hb c
  | str cs | raw cs =>
    dsimp only
    split
    · exact congrArg Except.ok (hclose _)
    all_goals rfl
  | strEscape cs | rune | runeEscape =>
    dsimp only
    split <;> rfl
  | runeClose r =>
    dsimp only
    split
    · exact congrArg Except.ok (hclose _)
    · rfl
  | op o =>
    dsimp only
    split
    · rfl
    split
    · rfl
    split
    · exact congrArg Except.ok (hclose _)
    · exact reread_onto hb c
  | dot =>
    dsimp only
    split
    · rfl
    split
    · rfl
    · exact reread_onto hb c
  | dots =>
    dsimp only
    split
    · exact congrArg Except.ok (hclose _)
    split
    · simp [onto, emit, below, mapPos, down]
    · exact reread_onto hb c
  | lineComment =>
    dsimp only
    split
    · exact fresh_onto (s := { s with mode := .idle }) hb c
    · rfl
  | blockComment newline star =>
    dsimp only
    split
    · rw [below]
      split
      · exact congrArg Except.ok (semicolon_onto (s := { s with mode := .idle }) hb s.start).symm
      · rfl
    · rfl

/-- And so is its position moved. -/
theorem feed_onto (hb : Ended base) (c : Char) : (s.onto k base).feed c = below k (onto k base) (s.feed c) := by
  rw [feed, take_onto hb, feed]
  cases s.take c with
  | ok t => exact congrArg Except.ok (by simp only [onto, next_down])
  | error e => rfl

/-- **A scanner reads on top of other tokens as at the start of a text.** -/
theorem feedAll_onto (hb : Ended base) : ∀ (cs : List Char) (s : Scanner),
    cs.foldlM feed (s.onto k base) = below k (onto k base) (cs.foldlM feed s)
  | [], _ => rfl
  | c :: cs, s => by
    rw [foldlM_cons, feed_onto hb, foldlM_cons]
    exact LexError.below_bind (feedAll_onto hb cs)

theorem ended_onto (hb : Ended base) :
    (s.onto k base).ended = below k (fun ts => base.reverse ++ ts.map (mapPos (down k))) s.ended := by
  unfold ended
  cases hg : s.groups with
  | cons g gs => simp only [onto, hg, groupsBelow, below]
  | nil =>
    have hs := congrArg tokens (semicolon_onto (k := k) (s := s) hb s.pos)
    simp only [onto, hg, groupsBelow] at hs ⊢
    rw [← hs]
    simp [semicolon_groups, hg, under, below]

/-- The end of the text is reached alike. -/
theorem finish_onto (hb : Ended base) :
    (s.onto k base).finish = below k (fun ts => base.reverse ++ ts.map (mapPos (down k))) s.finish := by
  have hm : (s.onto k base).mode = s.mode := rfl
  have closing : ((s.onto k base).settle >>= ended) =
      below k (fun ts => base.reverse ++ ts.map (mapPos (down k))) (s.settle >>= ended) := by
    rw [settle_onto]
    exact LexError.below_bind fun _ => ended_onto hb
  unfold finish
  rw [hm]
  cases s.mode <;> first | rfl | exact closing

/-! ## Line ends and the end of the text -/

theorem semicolon_start (q p : Pos) : { s with start := q }.semicolon p = { s.semicolon p with start := q } := by
  unfold semicolon
  dsimp only
  split
  · split <;> rfl
  · rfl

theorem closeGroup_start (q : Pos) (c : Char) :
    { s with start := q }.closeGroup c = (s.closeGroup c).map fun t => { t with start := q } := by
  unfold closeGroup
  dsimp only
  split
  · split
    · rw [semicolon_start]
      split <;> rfl
    · rfl
  · rfl

theorem closeGroup_mode {c : Char} (h : s.closeGroup c = .ok t) : t.mode = s.mode := by
  unfold closeGroup at h
  split at h
  · split at h
    · cases h
      dsimp only
      split
      · exact semicolon_mode _
      · rfl
    · cases h
  · cases h

theorem fresh_start (q : Pos) (c : Char) : { s with start := q }.fresh c = s.fresh c ∨
    { s with start := q }.fresh c = (s.fresh c).map (fun t => { t with start := q }) ∧
      ∀ t, s.fresh c = .ok t → t.mode = s.mode := by
  unfold fresh
  split
  iterate 3 exact .inr ⟨rfl, fun t h => by cases h; rfl⟩
  · exact .inr ⟨congrArg Except.ok (semicolon_start q _), fun t h => by cases h; exact semicolon_mode _⟩
  iterate 3 exact .inr ⟨rfl, fun t h => by cases h; rfl⟩
  iterate 3 exact .inr ⟨closeGroup_start q _, fun t => closeGroup_mode⟩
  iterate 5 exact .inl rfl
  iterate 3 exact .inr ⟨rfl, fun t h => by cases h; rfl⟩
  · exact .inl rfl

theorem feedAll_start (q : Pos) : ∀ (cs : List Char) {s : Scanner}, s.mode = .idle →
    (cs.foldlM feed { s with start := q } >>= finish) = (cs.foldlM feed s >>= finish)
  | [], ⟨pos, mode, start, tokens, groups⟩, hm => by
    obtain rfl : mode = .idle := hm
    cases groups with
    | cons g gs => rfl
    | nil =>
      have hsemi := congrArg Scanner.tokens (semicolon_start (s := ⟨pos, .idle, start, tokens, []⟩) q pos)
      exact congrArg (fun ts : List Token => (Except.ok ts.reverse : Except LexError (List Token))) hsemi
  | c :: cs, s, hm => by
    have ht (u : Scanner) (hu : u.mode = .idle) :
        u.feed c = (u.fresh c).map fun u => { u with pos := u.pos.next c } := by
      unfold feed take
      rw [hu]
    rw [foldlM_cons, foldlM_cons, ht s hm, ht { s with start := q } hm]
    rcases fresh_start (s := s) q c with h | ⟨h, hmode⟩ <;> rw [h]
    cases hf : s.fresh c with
    | error e => rfl
    | ok t => exact feedAll_start q cs (s := { t with pos := t.pos.next c }) ((hmode t hf).trans hm)

theorem semicolon_ended (p : Pos) : Ended (s.semicolon p).tokens := by
  unfold semicolon
  split
  · rename_i t ts ht
    split
    · rintro _ ⟨⟩
      rfl
    · rename_i hend
      rw [ht]
      rintro _ ⟨⟩
      simpa using hend
  · rename_i ht
    rw [ht]
    rintro _ ⟨⟩

/-- **A line end does what the end of the text does.** -/
theorem feed_lineEnd_of_finish {ts : List Token} (h : s.finish = .ok ts) :
    (∃ q, s.feed '\n' = .ok ⟨⟨s.pos.line + 1, 1⟩, .idle, q, ts.reverse, []⟩) ∧ Ended ts.reverse := by
  have hne (e : LexError) : s.finish ≠ .error e := by
    rw [h]
    exact nofun
  have hf := (finish_eq_settle s).resolve_right fun ⟨e, he⟩ => hne e he
  have ht := (take_lineEnd s).resolve_right fun ⟨⟨e, he⟩, _⟩ => hne e he
  obtain ⟨u, hu, hend⟩ := bind_ok.mp (hf.symm.trans h)
  obtain ⟨hum, hup⟩ := settle_ok hu
  obtain ⟨hg, rfl⟩ := ended_ok hend
  rw [reverse_reverse]
  refine ⟨⟨(u.semicolon u.pos).start, ?_⟩, semicolon_ended _⟩
  have hv : ∀ v : Scanner, v.mode = .idle → v.pos = s.pos → v.groups = [] →
      { v with pos := v.pos.next '\n' } = (⟨⟨s.pos.line + 1, 1⟩, .idle, v.start, v.tokens, []⟩ : Scanner) := by
    rintro ⟨pos, mode, start, tokens, groups⟩ ⟨⟩ ⟨⟩ ⟨⟩
    rfl
  have hsemi : (u.semicolon u.pos).pos = u.pos := by
    unfold semicolon
    split
    · split <;> rfl
    · rfl
  rw [feed, ht, reread, hu]
  exact congrArg Except.ok
    (hv _ ((semicolon_mode _).trans hum) (hsemi.trans hup) ((semicolon_groups _).trans hg))

theorem pos_of_feedAll {cs : List Char} (h : cs.foldlM feed initial = .ok s) : s.pos = cs.foldl next .first := by
  have hstays (p : Pos) : Stays fun s => s.pos = p := ⟨fun h _ _ => h, fun h _ _ => h, fun h _ => h, fun h _ => h⟩
  have hrun := feedAll_keeps hstays (fun c hs => congrArg (next · c) hs) cs (s := .initial) rfl nofun
  rw [h] at hrun
  exact hrun.1

end Scanner

theorem Pos.line_foldl_next : ∀ (cs : List Char) (p : Pos), (cs.foldl next p).line = p.line + cs.count '\n'
  | [], _ => rfl
  | c :: cs, p => by
    rw [foldl_cons, line_foldl_next cs, count_cons, next]
    split
    · rename_i hc
      simp only [hc, beq_self_eq_true, if_true]
      omega
    · rename_i hc
      rw [if_neg (by simpa using hc)]
      rfl

/-- **Texts are read line by line.** Where the text `a` is a sequence of tokens, a text `b` behind a line end adds its
own tokens, each as many lines further down as `a` has; and where `b` is wrong, so is the whole, for the same reason at
the same column, as many lines further down. -/
theorem Token.scan_lines (a b : String) (ts : List Token) (h : scan a = .ok ts) :
    (∀ us, scan b = .ok us →
      scan (a ++ "\n" ++ b) = .ok (ts ++ us.map (mapPos (down (a.toList.count '\n' + 1))))) ∧
    ∀ e, scan b = .error e →
      scan (a ++ "\n" ++ b) = .error ⟨e.cause, e.pos.down (a.toList.count '\n' + 1)⟩ := by
  generalize hk : a.toList.count '\n' + 1 = k
  obtain ⟨s, hs, hfin⟩ := bind_ok.mp h
  obtain ⟨⟨q, hfeed⟩, hended⟩ := feed_lineEnd_of_finish hfin
  have hline : s.pos.line + 1 = 1 + k := by
    rw [pos_of_feedAll hs, line_foldl_next, ← hk]
    exact Nat.add_assoc ..
  have hfirst : (a ++ "\n").toList.foldlM feed initial =
      .ok { initial.onto k ts.reverse with start := q } := by
    rw [String.toList_append, foldlM_append, hs]
    refine (feedAll_single hfeed).trans (congrArg Except.ok ?_)
    rw [hline]
    rfl
  have hwhole : scan (a ++ "\n" ++ b) = LexError.below k (fun us => ts ++ us.map (mapPos (down k)))
      (scan b) := by
    rw [scan_append, hfirst]
    refine (feedAll_start q b.toList (s := initial.onto k ts.reverse) rfl).trans ?_
    rw [feedAll_onto hended]
    refine (LexError.below_bind (y := finish) fun u => finish_onto hended).trans ?_
    rw [reverse_reverse, scan]
  exact ⟨fun us hus => by rw [hwhole, hus]; rfl, fun e he => by rw [hwhole, he]; rfl⟩

/-- The semicolon of a comment over two lines stands where the comment begins, and a group that is open on the third
line is found there. -/
theorem Token.scan_lines_comment :
    scan "x /*\n*/" = .ok [.atom (.ident "x") ⟨1, 1⟩, .atom .semicolon ⟨1, 3⟩] ∧
      scan "f(y" = .error ⟨.groupOpen .paren, ⟨1, 2⟩⟩ ∧
      scan ("x /*\n*/" ++ "\n" ++ "f(y") = .error ⟨.groupOpen .paren, ⟨3, 2⟩⟩ :=
  have ha : scan "x /*\n*/" = .ok [.atom (.ident "x") ⟨1, 1⟩, .atom .semicolon ⟨1, 3⟩] := by rfl
  have hb : scan "f(y" = .error ⟨.groupOpen .paren, ⟨1, 2⟩⟩ := by rfl
  ⟨ha, hb, (scan_lines _ _ _ ha).2 _ hb⟩

end Goblet
