import Goblet.Token.Scan
import Goblet.Proofs.Effect

/-!
# Identifiers are words

`IsWord` says what an identifier looks like. `Token.Named` says that every identifier in a token is a word, in the
contents of groups too; the tokens of a text are so (`named_of_scan`). The characters that keys of symbols are put
together with (`/`, `#`, `:`) are in no word.
-/

namespace Goblet

open List Scanner

/-- What a word goes on with. -/
def isWordChar (c : Char) : Bool := CharClass.isLetterOrNumeral c || c == '_'

/-- What a word begins with. -/
def beginsWord (c : Char) : Bool := CharClass.isLetter c || c == '_'

/-- A letter or underscore, then letters, numerals and underscores. -/
def IsWord (w : String) : Prop := ∃ c cs, w.toList = c :: cs ∧ beginsWord c ∧ ∀ d ∈ cs, isWordChar d

variable {c : Char} {w : String} {cs : List Char} {toks : List Token} {n : String}

theorem isWordChar_of_beginsWord (h : beginsWord c) : isWordChar c := by
  simp only [beginsWord, isWordChar, CharClass.isLetter, CharClass.isLetterOrNumeral, Char.isAlphanum,
    Bool.or_eq_true] at h ⊢
  refine h.imp_left fun h => ?_
  split at h <;> simp_all

theorem IsWord.wordChar (h : IsWord w) {d : Char} (hd : d ∈ w.toList) : isWordChar d := by
  obtain ⟨c, cs, hw, hc, hcs⟩ := h
  rw [hw] at hd
  rcases mem_cons.mp hd with rfl | hd
  · exact isWordChar_of_beginsWord hc
  · exact hcs d hd

theorem IsWord.notMem (h : IsWord w) {d : Char} (hd : isWordChar d = false) : d ∉ w.toList := by
  intro hm
  rw [h.wordChar hm] at hd
  exact absurd hd (by decide)

theorem isWord_single (h : beginsWord c) : IsWord (String.ofList [c].reverse) :=
  ⟨c, [], by simp, h, by simp⟩

/-- A word goes on with any word character. -/
theorem IsWord.extend (h : IsWord (String.ofList cs.reverse)) (hc : isWordChar c) :
    IsWord (String.ofList (c :: cs).reverse) := by
  obtain ⟨d, ds, hw, hd, hds⟩ := h
  refine ⟨d, ds ++ [c], ?_, hd, ?_⟩
  · rw [String.toList_ofList] at hw ⊢
    rw [reverse_cons, hw, cons_append]
  · intro e he
    rcases mem_append.mp he with he | he
    · exact hds e he
    · rw [mem_singleton.mp he]; exact hc

namespace Token

variable {ts us part : List Token} {t : Token}

/-- Every identifier in the token is a word. -/
inductive Named : Token → Prop
  | atom {a : Atom} {p : Pos} (h : ∀ n, a = .ident n → IsWord n) : Named (.atom a p)
  | group {d : Delim} {inner : List Token} {p : Pos} (h : ∀ t ∈ inner, Named t) : Named (.group d inner p)

/-- Every identifier in the tokens is a word. -/
def AllNamed (ts : List Token) : Prop := ∀ t ∈ ts, t.Named

theorem Named.word {p : Pos} (h : Named (.atom (.ident n) p)) : IsWord n := by
  cases h with
  | atom h => exact h n rfl

theorem Named.inner {d : Delim} {inner : List Token} {p : Pos} (h : Named (.group d inner p)) : AllNamed inner := by
  cases h with
  | group h => exact h

theorem AllNamed.head {ts : List Token} (h : AllNamed (t :: ts)) : t.Named := h t (.head _)

theorem AllNamed.tail {ts : List Token} (h : AllNamed (t :: ts)) : AllNamed ts :=
  fun u hu => h u (.tail _ hu)

theorem AllNamed.of_subset (h : AllNamed us) (hs : ∀ t ∈ ts, t ∈ us) : AllNamed ts :=
  fun t ht => h t (hs t ht)

theorem AllNamed.nil : AllNamed [] := nofun

theorem AllNamed.cons {ts : List Token} (h : t.Named) (hs : AllNamed ts) : AllNamed (t :: ts) := by
  intro u hu
  rcases mem_cons.mp hu with rfl | hu
  · exact h
  · exact hs u hu

theorem AllNamed.append (h : AllNamed ts) (hu : AllNamed us) : AllNamed (ts ++ us) :=
  fun t ht => (mem_append.mp ht).elim (h t) (hu t)

theorem AllNamed.drop (h : AllNamed ts) (n : Nat) : AllNamed (ts.drop n) :=
  h.of_subset fun _ => mem_of_mem_drop

theorem AllNamed.take (h : AllNamed ts) (n : Nat) : AllNamed (ts.take n) :=
  h.of_subset fun _ => mem_of_mem_take

theorem AllNamed.dropLast (h : AllNamed ts) : AllNamed ts.dropLast :=
  h.of_subset fun _ ht => dropLast_subset _ ht

theorem AllNamed.takeWhile (h : AllNamed ts) (p : Token → Bool) : AllNamed (ts.takeWhile p) :=
  h.of_subset fun _ ht => (takeWhile_sublist p).subset ht

theorem AllNamed.withoutSemicolons (h : AllNamed ts) : AllNamed (withoutSemicolons ts) :=
  h.of_subset fun _ ht => (mem_filter.mp ht).1

/-- Splitting makes no new tokens. -/
theorem mem_of_mem_splitBy {p : Token → Bool} : ∀ {ts part : List Token},
    part ∈ splitBy p ts → t ∈ part → t ∈ ts
  | [], part, hp, ht => by
    rw [splitBy, mem_singleton] at hp
    rw [hp] at ht
    exact ht
  | u :: us, part, hp, ht => by
    rw [splitBy] at hp
    split at hp
    · rcases mem_cons.mp hp with rfl | hp
      · cases ht
      · exact .tail _ (mem_of_mem_splitBy hp ht)
    · split at hp
      · rename_i first parts hs
        rcases mem_cons.mp hp with rfl | hp
        · rcases mem_cons.mp ht with rfl | ht
          · exact .head _
          · exact .tail _ (mem_of_mem_splitBy (by rw [hs]; exact .head _) ht)
        · exact .tail _ (mem_of_mem_splitBy (by rw [hs]; exact .tail _ hp) ht)
      · rw [mem_singleton] at hp
        subst hp
        rw [mem_singleton.mp ht]
        exact .head _

theorem mem_splitBy_of_mem_commaList (h : part ∈ commaList ts) : part ∈ splitBy (·.is .comma) ts := by
  unfold commaList at h
  split at h
  · cases h
  · dsimp only at h
    split at h
    · exact dropLast_subset _ h
    · exact h

theorem AllNamed.commaList (h : AllNamed ts) (hp : part ∈ commaList ts) : AllNamed part :=
  h.of_subset fun _ ht => mem_of_mem_splitBy (mem_splitBy_of_mem_commaList hp) ht

theorem AllNamed.clauses {ts : List Token} (h : AllNamed ts) (hp : part ∈ clauses ts) : AllNamed part :=
  h.of_subset fun _ ht => mem_of_mem_splitBy hp ht

end Token

/-! ## Reading tokens -/

namespace Scanner

open Token (AllNamed)

/-- What stays true of a scanner whatever it takes in, if the identifiers it emits are words. -/
structure Stays (P : Scanner → Prop) : Prop where
  emit {s : Scanner} {a : Atom} : P s → (∀ n, a = .ident n → IsWord n) → ∀ p, P (s.emit a p)
  turn {s : Scanner} : P s → ∀ m p, P { s with mode := m, start := p }
  openGroup {s : Scanner} : P s → ∀ d, P (s.openGroup d)
  closeGroup {s : Scanner} {g : OpenGroup} {gs : List OpenGroup} : P s → s.groups = g :: gs →
    P { s with tokens := .group g.delim s.tokens.reverse g.pos :: g.before, groups := gs }

/-- A word in the middle of which the scanner stands is one. -/
def InWord (s : Scanner) : Prop := ∀ cs, s.mode = .word cs → IsWord (String.ofList cs.reverse)

/-- A scanner with `P`, or an error that is not that the text ended. -/
def Keeps (P : Scanner → Prop) : Except LexError Scanner → Prop
  | .ok t => P t ∧ t.InWord
  | .error e => e.incomplete = false

variable {P : Scanner → Prop} {s t : Scanner} {c : Char}

namespace Stays

theorem semicolon (h : Stays P) (hs : P s) (p : Pos) : P (s.semicolon p) := by
  unfold Scanner.semicolon
  split
  · split
    · exact h.emit hs (by simp) p
    · exact hs
  · exact hs

theorem mode (h : Stays P) (hs : P s) {m : Mode} (hm : ∀ cs, m ≠ .word cs) : Keeps P (.ok { s with mode := m }) :=
  ⟨h.turn hs m s.start, fun cs hcs => absurd hcs (hm cs)⟩

theorem begin (h : Stays P) (hs : P s) {m : Mode} (hm : ∀ cs, m = .word cs → IsWord (String.ofList cs.reverse)) :
    Keeps P (.ok (s.begin m)) :=
  ⟨h.turn hs m s.pos, hm⟩

theorem close (h : Stays P) (hs : P s) {a : Atom} (ha : ∀ n, a = .ident n → IsWord n) : Keeps P (.ok (s.close a)) :=
  h.mode (h.emit hs ha s.start) nofun

end Stays

theorem semicolon_mode (p : Pos) : (s.semicolon p).mode = s.mode := by
  unfold semicolon
  split
  · split <;> rfl
  · rfl

/-- A closing bracket keeps what emitting keeps. -/
theorem closeGroup_keeps (h : Stays P) (hs : P s) (hw : s.InWord) : Keeps P (s.closeGroup c) := by
  unfold closeGroup
  split
  · rename_i g gs hg
    split
    · dsimp only
      split
      · refine ⟨h.closeGroup (h.semicolon hs s.pos) ?_, fun cs hcs => hw cs ((semicolon_mode _).symm.trans hcs)⟩
        unfold semicolon
        split
        · split <;> exact hg
        · exact hg
      · exact ⟨h.closeGroup hs hg, hw⟩
    · rfl
  · rfl

theorem wordAtom_ident (h : wordAtom cs = .ident n) : n = String.ofList cs.reverse := by
  unfold wordAtom at h
  dsimp only at h
  split at h
  · cases h
  · injection h with h
    exact h.symm

theorem closeWith_keeps (h : Stays P) (hs : P s) {r : Except LexCause Atom} (hok : ∀ n, r ≠ .ok (.ident n))
    (herr : ∀ cause, r = .error cause → cause.incomplete = false) : Keeps P (s.closeWith r) := by
  cases r with
  | ok a => exact h.close hs fun n hn => absurd (congrArg Except.ok hn) (hok n)
  | error cause => exact herr cause rfl

theorem closeNumber_keeps (h : Stays P) (hs : P s) (cs : List Char) (f : Bool) :
    Keeps P (s.closeWith (numberAtom cs f)) := by
  unfold numberAtom
  dsimp only
  split <;> split <;> exact closeWith_keeps h hs (by simp) (by simp [LexCause.incomplete])

theorem closeHex_keeps (h : Stays P) (hs : P s) (cs : List Char) : Keeps P (s.closeWith (hexAtom cs)) := by
  unfold hexAtom
  split
  · exact closeWith_keeps h hs (by simp) (by simp [LexCause.incomplete])
  · split <;> exact closeWith_keeps h hs (by simp) (by simp [LexCause.incomplete])

theorem single_ident : single? c ≠ some (.ident n) := by
  unfold single?
  split <;> exact fun h => by cases h

/-- Ending the current token keeps it. -/
theorem settle_keeps (h : Stays P) (hs : P s) (hw : s.InWord) : Keeps P s.settle := by
  unfold settle
  cases hm : s.mode with
  | word cs => exact h.close hs fun n hn => wordAtom_ident hn ▸ hw cs hm
  | zero | number => exact closeNumber_keeps h hs _ _
  | hex => exact closeHex_keeps h hs _
  | op c =>
    dsimp only
    split
    · rename_i a ha
      exact h.close hs fun n hn => (single_ident (ha.trans (congrArg some hn))).elim
    · rfl
  | dot => exact h.close hs (by simp)
  | dots => exact h.mode (h.emit (h.emit hs (by simp) _) (by simp) _) nofun
  | _ => exact h.mode hs nofun

/-- A character between tokens keeps it. -/
theorem fresh_keeps (h : Stays P) (hs : P s) (hw : s.InWord) : Keeps P (s.fresh c) := by
  unfold fresh
  split
  iterate 3 exact ⟨hs, hw⟩
  · exact ⟨h.semicolon hs _, fun cs hcs => hw cs ((semicolon_mode _).symm.trans hcs)⟩
  iterate 3 exact ⟨h.openGroup hs _, hw⟩
  iterate 3 exact closeGroup_keeps h hs hw
  iterate 5 exact h.begin hs nofun
  iterate 3 exact ⟨h.emit hs (by simp) _, hw⟩
  · split
    · exact h.begin hs nofun
    split
    · rename_i hc
      exact h.begin hs fun cs hcs => by cases hcs; exact isWord_single hc
    split
    · exact h.begin hs nofun
    · rfl

theorem reread_keeps (h : Stays P) (hs : P s) (hw : s.InWord) : Keeps P (s.reread c) := by
  have hset := settle_keeps h hs hw
  unfold reread
  cases hr : s.settle with
  | error e => rwa [hr] at hset
  | ok u =>
    rw [hr] at hset
    exact fresh_keeps h hset.1 hset.2

theorem inNumber_keeps (h : Stays P) (hs : P s) (hw : s.InWord) (cs : List Char) (f m : Bool) :
    Keeps P (s.inNumber cs f m c) := by
  unfold inNumber
  iterate 5
    split
    · exact h.mode hs nofun
  exact reread_keeps h hs hw

/-- **What a character does to a scanner.** -/
theorem take_keeps (h : Stays P) (hs : P s) (hw : s.InWord) : Keeps P (s.take c) := by
  unfold take
  split
  · exact fresh_keeps h hs hw
  · rename_i cs hm
    split
    · rename_i hc
      exact ⟨h.turn hs _ s.start, fun _ hcs => by cases hcs; exact (hw cs hm).extend hc⟩
    · exact reread_keeps h hs hw
  · split
    · exact h.mode hs nofun
    · exact inNumber_keeps h hs hw _ _ _
  · exact inNumber_keeps h hs hw _ _ _
  · split
    · exact h.mode hs nofun
    split
    · exact ⟨hs, hw⟩
    · exact reread_keeps h hs hw
  · split
    · exact h.close hs (by simp)
    · exact h.mode hs nofun
    · rfl
    · exact h.mode hs nofun
  · split
    · exact h.mode hs nofun
    · rfl
  · split
    · exact h.close hs (by simp)
    · exact ⟨hs, hw⟩
    · exact h.mode hs nofun
  · split
    · exact h.mode hs nofun
    · rfl
    · rfl
    · exact h.mode hs nofun
  · split
    · exact h.mode hs nofun
    · rfl
  · split
    · exact h.close hs (by simp)
    · rfl
  · split
    · exact h.mode hs nofun
    split
    · exact h.mode hs nofun
    split
    · exact h.close hs (by simp)
    · exact reread_keeps h hs hw
  · split
    · exact h.mode hs nofun
    split
    · exact h.mode hs nofun
    · exact reread_keeps h hs hw
  · split
    · exact h.close hs (by simp)
    split
    · exact ⟨h.turn (h.emit hs (by simp) _) _ _, nofun⟩
    · exact reread_keeps h hs hw
  · split
    · exact fresh_keeps h (h.turn hs _ _) nofun
    · exact ⟨hs, hw⟩
  · split
    · split
      · exact ⟨h.semicolon (h.turn hs _ _) _, fun cs hcs => nomatch
          (semicolon_mode _).symm.trans hcs⟩
      · exact h.mode hs nofun
    · exact h.mode hs nofun

/-- **What a text does to a scanner**, where `P` may speak of the place. -/
theorem feedAll_keeps {P : Pos → Scanner → Prop} (h : ∀ p, Stays (P p))
    (hmove : ∀ {s p} c, P p s → P (p.next c) { s with pos := s.pos.next c }) :
    ∀ (cs : List Char) {s : Scanner} {p : Pos},
    P p s → s.InWord → Keeps (P (cs.foldl Pos.next p)) (cs.foldlM feed s)
  | [], _, _, hs, hw => ⟨hs, hw⟩
  | c :: cs, s, p, hs, hw => by
    have ht := take_keeps (c := c) (h p) hs hw
    rw [foldlM_cons, feed]
    cases hr : s.take c with
    | error e => rwa [hr] at ht
    | ok u =>
      rw [hr] at ht
      exact feedAll_keeps h hmove cs (hmove c ht.1) ht.2

/-- All identifiers that are read so far are words. -/
structure Wordy (s : Scanner) : Prop where
  tokens : AllNamed s.tokens
  groups : ∀ g ∈ s.groups, AllNamed g.before

/-- Every identifier emitted is a word. -/
theorem wordy_stays : Stays Wordy where
  emit hs ha _ := ⟨.cons (.atom ha) hs.tokens, hs.groups⟩
  turn hs _ _ := ⟨hs.tokens, hs.groups⟩
  openGroup hs _ := ⟨.nil, forall_mem_cons.mpr ⟨hs.tokens, hs.groups⟩⟩
  closeGroup hs hg :=
    ⟨.cons (.group fun t ht => hs.tokens t (mem_reverse.mp ht)) (hs.groups _ (hg ▸ (.head _))),
      fun g h => hs.groups g (hg ▸ .tail _ h)⟩

/-- The end of the text, behind the last lexeme. -/
def ended (s : Scanner) : Except LexError (List Token) :=
  match s.groups with
  | g :: _ => .error ⟨.groupOpen g.delim, g.pos⟩
  | [] => .ok (s.semicolon s.pos).tokens.reverse

theorem finish_eq_settle (s : Scanner) : s.finish = (s.settle >>= ended) ∨ ∃ e, s.finish = .error e := by
  unfold finish
  cases s.mode <;> first | exact .inl rfl | exact .inr ⟨_, rfl⟩

theorem ended_ok (h : s.ended = .ok toks) :
    s.groups = [] ∧ (s.semicolon s.pos).tokens.reverse = toks := by
  unfold ended at h
  split at h <;> cases h
  exact ⟨‹_›, rfl⟩

end Scanner

/-- **The identifiers of a text are words.** -/
theorem Token.named_of_scan {source : String} (h : Token.scan source = .ok toks) :
    AllNamed toks := by
  obtain ⟨s, hs, hfin⟩ := bind_ok.mp h
  have hrun := feedAll_keeps (fun _ => wordy_stays) (fun _ hs => ⟨hs.tokens, hs.groups⟩) source.toList
    (s := .initial) (p := .first) ⟨.nil, nofun⟩ nofun
  rw [hs] at hrun
  have hf := (finish_eq_settle s).resolve_right fun ⟨e, he⟩ => nomatch he.symm.trans hfin
  obtain ⟨u, hu, hend⟩ := bind_ok.mp (hf.symm.trans hfin)
  have hset := settle_keeps wordy_stays hrun.1 hrun.2
  rw [hu] at hset
  obtain ⟨-, rfl⟩ := ended_ok hend
  exact fun t ht => (wordy_stays.semicolon hset.1 u.pos).tokens t (mem_reverse.mp ht)

end Goblet
