import Mathlib.Algebra.Group.Nat.Defs
import Goblet.Proofs.Token.Lines

/-!
# Tokens written with blanks between them

`Token.words` writes a token as words: an atom as it stands in a source text, a group as its brackets around the words
of its contents. A text of such words with blanks between them (`Spaced`) is read as the tokens it was written from, up
to their places, with a semicolon where the text or a group in braces ends with the end of a statement
(`Token.scan_line`).

`Scans K x P` says that a scanner reads `x` as tokens that satisfy `P` where the text goes on with what satisfies `K`: a
lexeme ends only where the next character does not continue it.
-/

namespace Goblet

open List Decimal Token

/-- A text of these words with blanks between them, and maybe before and after. -/
inductive Spaced : List String → List Char → Prop
  | nil : Spaced [] []
  | blank {ws : List String} {cs : List Char} (h : Spaced ws cs) : Spaced ws (' ' :: cs)
  | word {w : String} {ws : List String} {cs : List Char} (h : Spaced ws cs) (hb : cs = [] ∨ ∃ ds, cs = ' ' :: ds) :
      Spaced (w :: ws) (w.toList ++ cs)

theorem spaced_cons (w : String) : ∀ ws : List String, Spaced (w :: ws)
    (w.toList ++ ws.flatMap fun u => ' ' :: u.toList)
  | [] => .word .nil (.inl rfl)
  | u :: us => .word (.blank (spaced_cons u us)) (.inr ⟨_, rfl⟩)

namespace Token

/-- A semicolon at `p` behind tokens that end with the end of a statement. -/
def terminated (p : Pos) (ts : List Token) : List Token :=
  if ts.getLast?.any endsStatement then ts ++ [.atom .semicolon p] else ts

/-- The contents of a group that is closed at `p`. -/
def closed (d : Delim) (p : Pos) (ts : List Token) : List Token := if d = .brace then terminated p ts else ts

end Token

namespace Scanner

variable {s t u : Scanner} {c : Char} {cs ds x y m : List Char} {w : String} {us vs : List String} {toks : List Token}
  {text : String}
  {n : Nat}
  {a : Atom}

/-- The scanner a character further on. -/
def moved (s : Scanner) (p : Pos) : Scanner := { s with pos := p }

/-- What a scanner makes of the rest of a text. -/
def run (s : Scanner) (cs : List Char) : Except LexError (List Token) := cs.foldlM feed s >>= finish

theorem run_cons (h : s.take c = .ok t) : s.run (c :: cs) = (t.moved (t.pos.next c)).run cs := by
  rw [run, foldlM_cons, feed, h]
  rfl

theorem run_append (h : cs.foldlM feed s = .ok t) : s.run (cs ++ ds) = t.run ds := by
  rw [run, foldlM_append, h]
  rfl

theorem finish_of_idle (h : s.mode = .idle) : s.finish = s.ended := by
  obtain ⟨pos, mode, start, tokens, groups⟩ := s
  obtain rfl : mode = .idle := h
  rfl

/-- A lexeme ends where the text does, or the next character does not continue it. -/
theorem run_settle (hs : s.settle = .ok t) (hf : s.finish = (s.settle >>= ended))
    (hc : ∀ c ∈ cs.head?, s.take c = s.reread c) : s.run cs = t.run cs := by
  have ht := (settle_ok hs).1
  cases cs with
  | nil => exact (hf.trans (by rw [hs]; rfl)).trans (finish_of_idle ht).symm
  | cons c cs =>
    have htake : s.take c = t.take c := by
      rw [hc c rfl, reread, hs]
      simp only [take, ht]
      rfl
    rw [run, run, foldlM_cons, foldlM_cons, feed, feed, htake]

/-- From `s` the text `cs` is read up to `ds`: the tokens `toks` are added. -/
structure Adds (s : Scanner) (cs : List Char) (toks : List Token) (t : Scanner) (ds : List Char) : Prop where
  run_eq : s.run cs = t.run ds
  idle : t.mode = .idle
  tokens_eq : t.tokens = toks.reverse ++ s.tokens
  groups_eq : t.groups = s.groups

/-- Text read in two pieces adds both their tokens. -/
theorem Adds.trans {toks' : List Token} {es : List Char} (h : Adds s cs toks t ds) (h' : Adds t ds toks' u es) :
    Adds s cs (toks ++ toks') u es where
  run_eq := h.run_eq.trans h'.run_eq
  idle := h'.idle
  tokens_eq := by rw [h'.tokens_eq, h.tokens_eq, reverse_append, append_assoc]
  groups_eq := h'.groups_eq.trans h.groups_eq

/-- Between lexemes, and before a text that satisfies `K`, this is read as tokens that satisfy `P`. -/
def Scans (K : List Char → Prop) (x : List Char) (P : List Token → Prop) : Prop :=
  ∀ (s : Scanner) (cs : List Char), s.mode = .idle → K cs → ∃ toks t, P toks ∧ Adds s (x ++ cs) toks t cs

theorem Scans.imp {K K' : List Char → Prop} {P P' : List Token → Prop} (hx : Scans K x P) (hk : ∀ cs, K' cs → K cs)
    (hp : ∀ ts, P ts → P' ts) : Scans K' x P' := fun s cs hs hc => by
  obtain ⟨toks, t, h, ha⟩ := hx s cs hs (hk cs hc)
  exact ⟨toks, t, hp toks h, ha⟩

/-- No text, or one that begins with a blank. -/
def Apart (cs : List Char) : Prop := cs = [] ∨ ∃ ds, cs = ' ' :: ds

/-- A text that does not go on with a word. -/
def Breaks (cs : List Char) : Prop := ∀ c ∈ cs.head?, isWordChar c = false

theorem Apart.breaks (h : Apart cs) : Breaks cs := by
  rcases h with rfl | ⟨ds, rfl⟩ <;> simp [Breaks]
  decide

/-! ## Words and numbers -/

theorem not_isDigit_of_beginsWord (h : beginsWord c) : c.isDigit = false := by
  rw [Bool.eq_false_iff]
  intro hd
  have hr : 48 ≤ c.toNat ∧ c.toNat ≤ 57 := by
    simp only [Char.isDigit, Bool.and_eq_true, decide_eq_true_eq, ge_iff_le] at hd
    exact ⟨UInt32.le_iff_toNat_le.mp hd.1, UInt32.le_iff_toNat_le.mp hd.2⟩
  have hf : ∀ k < 10, beginsWord (Char.ofNat (48 + k)) = false := by decide
  have hc := hf (c.toNat - 48) (by omega)
  rw [show 48 + (c.toNat - 48) = c.toNat by omega, Char.ofNat_toNat, h] at hc
  cases hc

theorem fresh_of_beginsWord (h : beginsWord c) (s : Scanner) : s.fresh c = .ok (s.begin (.word [c])) := by
  unfold fresh
  split <;> first | exact absurd h (by decide) | skip
  rw [not_isDigit_of_beginsWord h]
  simp only [beginsWord] at h
  simp only [h, Bool.false_eq_true, ↓reduceIte]

theorem foldlM_collect {P : Char → Prop} {Q : Scanner → List Char → Prop} (hstep : ∀ {s m c}, Q s m → P c →
    ∃ t, s.feed c = .ok t ∧ Q t (c :: m) ∧ t.tokens = s.tokens ∧ t.groups = s.groups) : ∀ {cs : List Char},
    (∀ d ∈ cs, P d) → ∀ {s : Scanner} {m : List Char}, Q s m →
      ∃ t, cs.foldlM feed s = .ok t ∧ Q t (cs.reverse ++ m) ∧ t.tokens = s.tokens ∧ t.groups = s.groups
  | [], _, s, _, h => ⟨s, rfl, h, rfl, rfl⟩
  | c :: cs, hc, s, m, h => by
    obtain ⟨u, hu, hm, hutok, hugrp⟩ := hstep h (hc c (.head _))
    obtain ⟨t, ht, hm, htok, hgrp⟩ := foldlM_collect hstep (fun d hd => hc d (.tail _ hd)) hm
    refine ⟨t, ?_, ?_, htok.trans hutok, hgrp.trans hugrp⟩
    · rw [foldlM_cons, hu]
      exact ht
    · simpa using hm

theorem foldlM_word (hc : ∀ d ∈ cs, isWordChar d) (h : s.mode = .word m) :
    ∃ t, cs.foldlM feed s = .ok t ∧ t.mode = .word (cs.reverse ++ m) ∧ t.tokens = s.tokens ∧ t.groups = s.groups := by
  refine foldlM_collect (Q := fun s m => s.mode = .word m) (fun {s m c} h hw => ?_) hc h
  refine ⟨⟨s.pos.next c, .word (c :: m), s.start, s.tokens, s.groups⟩, ?_, rfl, rfl, rfl⟩
  simp only [feed, take, h]
  rw [if_pos (by simpa [isWordChar] using hw)]
  rfl

/-- A word is read as its keyword or identifier. -/
theorem scans_word {x : String} (hx : IsWord x) (ha : wordAtom x.toList.reverse = a) :
    Scans Breaks x.toList fun ts => ∃ p, ts = [.atom a p] := by
  intro s cs hs hb
  obtain ⟨c, xs, hw, hc, hxs⟩ := hx
  have hf : s.feed c = .ok ⟨s.pos.next c, .word [c], s.pos, s.tokens, s.groups⟩ := by
    simp only [feed, take, hs, fresh_of_beginsWord hc]
    rfl
  obtain ⟨t, ht, hm, htok, hgrp⟩ := foldlM_word hxs
    (s := ⟨s.pos.next c, .word [c], s.pos, s.tokens, s.groups⟩) rfl
  have hword : x.toList.foldlM feed s = .ok t := by
    rw [hw, foldlM_cons, hf]
    exact ht
  rw [hw, reverse_cons] at ha
  have hset : t.settle = .ok (t.close a) := by rw [settle, hm, ← ha]
  refine ⟨_, t.close a, ⟨t.start, rfl⟩, ?_, rfl, ?_, hgrp⟩
  · refine (run_append hword).trans (run_settle hset (by simp only [finish, hm]; rfl) fun d hd => ?_)
    simp only [take, hm]
    exact if_neg (by simpa [isWordChar] using hb d hd)
  · exact congrArg _ htok

theorem wordAtom_of_none {x : String} (hk : Keyword.ofText? x = none) : wordAtom x.toList.reverse = .ident x := by
  simp only [wordAtom, reverse_reverse, String.ofList_toList, hk]

/-- In the middle of a number without a point, with these digits so far, the last one first. -/
def Counting (s : Scanner) (m : List Char) : Prop := s.mode = .number m false false ∨ s.mode = .zero ∧ m = ['0']

theorem fresh_of_isDigit (h : c.isDigit) (s : Scanner) :
    ∃ t, s.fresh c = .ok t ∧ t.Counting [c] ∧ t.tokens = s.tokens ∧ t.groups = s.groups := by
  unfold fresh
  split <;> first | exact absurd h (by decide) | skip
  · exact ⟨_, rfl, .inr ⟨rfl, rfl⟩, rfl, rfl⟩
  · rw [if_pos h]
    exact ⟨_, rfl, .inl rfl, rfl, rfl⟩

theorem inNumber_of_isDigit (h : c.isDigit) (s : Scanner) (m : List Char) :
    s.inNumber m false false c = .ok { s with mode := .number (c :: m) false false } := by
  simp only [inNumber, Bool.false_and, Bool.false_eq_true, ↓reduceIte, h]

theorem take_of_counting (hs : s.Counting m) (h : c.isDigit) :
    s.take c = .ok { s with mode := .number (c :: m) false false } := by
  obtain hm | ⟨hm, rfl⟩ := hs
  · simp only [take, hm, inNumber_of_isDigit h]
  · have hx : ¬(c == 'x' || c == 'X') = true := by
      intro hc
      obtain hc | hc := (Bool.or_eq_true _ _).mp hc <;> rw [beq_iff_eq.mp hc] at h <;> exact absurd h (by decide)
    simp only [take, hm, if_neg hx, inNumber_of_isDigit h]

theorem foldlM_digits (hc : ∀ d ∈ cs, d.isDigit) (h : s.Counting m) :
    ∃ t, cs.foldlM feed s = .ok t ∧ t.Counting (cs.reverse ++ m) ∧ t.tokens = s.tokens ∧ t.groups = s.groups := by
  refine foldlM_collect (fun {s m c} h hd => ?_) hc h
  refine ⟨⟨s.pos.next c, .number (c :: m) false false, s.start, s.tokens, s.groups⟩, ?_, .inl rfl, rfl, rfl⟩
  simp only [feed, take_of_counting h hd]
  rfl

theorem digitsFrom_ten : ∀ {cs : List Char} (_ : ∀ c ∈ cs, c.isDigit) (n : Nat),
    digitsFrom 10 n cs = some (Nat.ofDigitChars 10 cs n)
  | [], _, n => by rw [digitsFrom, Nat.ofDigitChars_nil]
  | c :: cs, h, n => by
    have hd : c.isDigit := h c (.head _)
    simp only [Char.isDigit, Bool.and_eq_true, decide_eq_true_eq, ge_iff_le] at hd
    have hv : digitValue? c = some (c.toNat - 48) := if_pos hd
    have hl : c.toNat ≤ 57 := UInt32.le_iff_toNat_le.mp hd.2
    rw [digitsFrom, hv]
    simp only [show c.toNat - 48 < 10 by omega, ↓reduceIte]
    rw [digitsFrom_ten (fun d hd => h d (mem_cons_of_mem _ hd)), Nat.ofDigitChars_cons, Nat.mul_comm n 10]
    rfl

/-- A number's digits read back as the number. -/
theorem numberAtom_repr (h : n < 2 ^ 63) :
    numberAtom n.repr.toList.reverse false = .ok (.int (Int64.ofNat n)) := by
  have hd : natOfDigits? 10 n.repr.toList = some n := by
    rw [natOfDigits?, Nat.toList_repr, if_neg (by simp [Nat.toDigits_ne_nil]),
      digitsFrom_ten (fun c hc => Nat.isDigit_of_mem_toDigits (by decide) (by decide) hc),
      Nat.ofDigitChars_ten_toDigits]
  have hi : int64OfDigits? 10 n.repr.toList = some (Int64.ofNat n) := by
    simp only [int64OfDigits?, hd]
    exact if_pos h
  simp only [numberAtom, reverse_reverse, hi, Bool.false_eq_true, ↓reduceIte]

theorem isDigit_of_mem_repr (h : c ∈ n.repr.toList) : c.isDigit :=
  Nat.isDigit_of_mem_toDigits (b := 10) (by decide) (by decide) (by rwa [Nat.toList_repr] at h)

/-- A lexeme that a blank ends. -/
theorem scans_lexeme (h : ∀ s : Scanner, s.mode = .idle → ∃ t u p, x.foldlM feed s = .ok t ∧ t.take ' ' = .ok u ∧
    t.finish = u.finish ∧ u.mode = .idle ∧ u.tokens = .atom a p :: s.tokens ∧ u.groups = s.groups) :
    Scans Apart x fun ts => ∃ p, ts = [.atom a p] := by
  intro s cs hs hc
  obtain ⟨t, u, p, hx, hb, hf, hu, htok, hgrp⟩ := h s hs
  refine ⟨_, u, ⟨p, rfl⟩, (run_append hx).trans ?_, hu, htok, hgrp⟩
  rcases hc with rfl | ⟨ds, rfl⟩
  · exact hf
  · rw [run_cons hb, run_cons (by simp only [take, hu]; rfl)]

/-- An integer's digits are read as one token. -/
theorem scans_int (h : n < 2 ^ 63) :
    Scans Apart n.repr.toList fun ts => ∃ p, ts = [.atom (.int (Int64.ofNat n)) p] := by
  refine scans_lexeme fun s hs => ?_
  obtain ⟨c, xs, hw⟩ : ∃ c xs, n.repr.toList = c :: xs :=
    exists_cons_of_ne_nil (by rw [Nat.toList_repr]; exact Nat.toDigits_ne_nil)
  have hd : ∀ d ∈ c :: xs, d.isDigit := fun d hd => isDigit_of_mem_repr (hw ▸ hd)
  obtain ⟨t, hf, hc, htok, hgrp⟩ := fresh_of_isDigit (hd c (.head _)) s
  obtain ⟨u, hu, hm, hutok, hugrp⟩ := foldlM_digits (s := t.moved (t.pos.next c))
    (fun d hd' => hd d (.tail _ hd')) hc
  have ha := numberAtom_repr h
  rw [hw, reverse_cons] at ha
  have hset : u.settle = .ok (u.close (.int (Int64.ofNat n))) := by
    obtain hm | ⟨hm, hz⟩ := hm
    · simp only [settle, hm, ha, closeWith]
    · simp only [settle, hm, ← hz, ha, closeWith]
  refine ⟨u, u.close (.int (Int64.ofNat n)), u.start, ?_, ?_, ?_, rfl, congrArg _ (hutok.trans htok), hugrp.trans hgrp⟩
  · rw [hw, foldlM_cons]
    simp only [feed, take, hs, hf]
    exact hu
  · have ht : u.take ' ' = u.reread ' ' := by obtain hm | ⟨hm, -⟩ := hm <;> (simp only [take, hm]; rfl)
    rw [ht, reread, hset]
    rfl
  · have hfin : u.finish = (u.settle >>= ended) := by obtain hm | ⟨hm, -⟩ := hm <;> (simp only [finish, hm]; rfl)
    rw [hfin, hset]
    rfl

/-- An operator's text is read as that operator. -/
theorem scans_op (op : Operator) : Scans Apart op.text.toList fun ts => ∃ p, ts = [.atom (.op op) p] := by
  refine scans_lexeme ?_
  rintro ⟨pos, mode, start, tokens, groups⟩ (rfl : mode = .idle)
  cases op <;> exact ⟨_, _, _, rfl, rfl, rfl, rfl, rfl, rfl⟩

/-- A character that is an operator unless the next one makes it longer. -/
theorem scans_sign (ho : ∀ s : Scanner, s.fresh c = .ok (s.begin (.op c))) (ha : single? c = some a)
    (hc : c ≠ '/') : Scans (fun cs => ∀ d ∈ cs.head?, double? c d = none) [c] fun ts => ∃ p, ts = [.atom a p] := by
  intro s cs hs hd
  have htake : s.take c = .ok (s.begin (.op c)) := by
    simp only [take, hs]
    exact ho s
  have hset : ((s.begin (.op c)).moved (s.pos.next c)).settle =
    .ok (((s.begin (.op c)).moved (s.pos.next c)).close a) := by
    simp only [settle, begin, moved, ha]
  refine ⟨_, _, ⟨_, rfl⟩, (run_cons htake).trans (run_settle hset rfl fun d hm => ?_), rfl, rfl, rfl⟩
  simp only [take, begin, moved, hd d hm, beq_eq_false_iff_ne.mpr hc, Bool.false_and, Bool.false_eq_true, if_false]

/-! ## Groups -/

theorem semicolon_eq (s : Scanner) (p : Pos) : s.semicolon p = { s with tokens := (s.semicolon p).tokens } := by
  unfold semicolon
  split
  · split <;> rfl
  · rfl

theorem reverse_semicolon_tokens (s : Scanner) (p : Pos) :
    (s.semicolon p).tokens.reverse = terminated p s.tokens.reverse := by
  unfold semicolon terminated
  rw [getLast?_reverse]
  split
  · rename_i t ts ht
    rw [ht, head?_cons, Option.any_some]
    split <;> simp [emit, ht]
  · rename_i ht
    simp [ht]

/-- Between brackets the tokens are those of a group of their own. -/
theorem Adds.group (d : Delim) (hs : s.mode = .idle)
    (h : Adds ((s.openGroup d).moved (s.pos.next d.opening)) cs toks t (d.closing :: ds)) :
    ∃ q u, Adds s (d.opening :: cs) [.group d (closed d q toks) s.pos] u ds := by
  have hto : s.take d.opening = .ok (s.openGroup d) := by
    simp only [take, hs]
    cases d <;> rfl
  have htoks : t.tokens.reverse = toks := by
    rw [h.tokens_eq]
    simp [openGroup, moved]
  have hgrp : t.groups = ⟨d, s.pos, s.tokens⟩ :: s.groups := h.groups_eq
  have htc : t.take d.closing = .ok ⟨t.pos, .idle, t.start,
    .group d (closed d t.pos toks) s.pos :: s.tokens, s.groups⟩ := by
    rw [take_closing d h.idle]
    unfold closeGroup
    simp only [hgrp, if_true]
    rw [closed, ← htoks, ← h.idle]
    split
    · rw [semicolon_eq, reverse_semicolon_tokens]
    · rfl
  exact ⟨t.pos, _, (run_cons hto).trans (h.run_eq.trans (run_cons htc)), rfl, rfl, rfl⟩

/-- A bracketed text is read as a group. -/
theorem Scans.group {K : List Char → Prop} {P : List Token → Prop} (d : Delim) (hx : Scans K x P)
    (hk : ∀ cs, K (d.closing :: cs)) : Scans (fun _ => True) (d.opening :: (x ++ [d.closing]))
      fun ts => ∃ toks p q, P toks ∧ ts = [.group d (closed d q toks) p] := by
  intro s cs hs _
  obtain ⟨toks, t, hp, ha⟩ := hx ((s.openGroup d).moved (s.pos.next d.opening)) (d.closing :: cs) hs (hk cs)
  obtain ⟨q, u, hu⟩ := ha.group d hs
  refine ⟨_, u, ⟨toks, s.pos, q, hp, rfl⟩, ?_⟩
  rwa [cons_append, append_assoc, singleton_append]

/-! ## Words with blanks between them -/

theorem run_spaced : ∀ {cs : List Char} (_ : Spaced (w :: us) cs) {s : Scanner} (_ : s.mode = .idle),
    ∃ p ds, Spaced us ds ∧ Apart ds ∧ s.run cs = (s.moved p).run (w.toList ++ ds)
  | _, .blank h, s, hs => by
    obtain ⟨p, ds, hd, ha, he⟩ := run_spaced h (s := s.moved (s.pos.next ' ')) hs
    exact ⟨p, ds, hd, ha, (run_cons (by simp only [take, hs]; rfl)).trans he⟩
  | _, .word h hb, s, _ => ⟨s.pos, _, h, hb, rfl⟩

/-- A text that begins with these words is read as tokens that satisfy `P`, up to the words behind them. -/
def Reads (ws : List String) (P : List Token → Prop) : Prop :=
  ∀ ⦃us : List String⦄ ⦃cs : List Char⦄ ⦃s : Scanner⦄, Spaced (ws ++ us) cs → s.mode = .idle →
    ∃ toks t ds, P toks ∧ Spaced us ds ∧ Adds s cs toks t ds

namespace Reads

variable {P Q : List Token → Prop}

theorem imp (h : Reads us P) (hp : ∀ ts, P ts → Q ts) : Reads us Q := fun _ _ _ hc hs => by
  obtain ⟨toks, t, ds, hts, had⟩ := h hc hs
  exact ⟨toks, t, ds, hp toks hts, had⟩

theorem nil : Reads [] (· = []) := fun _ cs s hc hs => ⟨[], s, cs, rfl, hc, rfl, hs, rfl, rfl⟩

theorem append (h : Reads us P) (h' : Reads vs Q) :
    Reads (us ++ vs) fun ts => ∃ as bs, P as ∧ Q bs ∧ ts = as ++ bs := by
  intro ws cs s hc hs
  rw [append_assoc] at hc
  obtain ⟨as, t, ds, hp, hd, had⟩ := h hc hs
  obtain ⟨bs, u, es, hq, he, had'⟩ := h' hd had.idle
  exact ⟨as ++ bs, u, es, ⟨as, bs, hp, hq, rfl⟩, he, had.trans had'⟩

theorem word (hw : Scans Apart w.toList P) : Reads [w] P := by
  intro us cs s hc hs
  obtain ⟨p, ds, hd, ha, he⟩ := run_spaced hc hs
  obtain ⟨toks, t, hp, had⟩ := hw (s.moved p) ds hs ha
  exact ⟨toks, t, ds, hp, hd, he.trans had.run_eq, had.idle, had.tokens_eq, had.groups_eq⟩

theorem group (d : Delim) (h : Reads us P) : Reads (d.opening.toString :: (us ++ [d.closing.toString]))
    fun ts => ∃ toks p q, P toks ∧ ts = [.group d (closed d q toks) p] := by
  intro vs cs s hc hs
  have hsingle (c : Char) (es : List Char) : c.toString.toList ++ es = c :: es := by
    rw [Char.toString_eq_singleton, String.toList_singleton, singleton_append]
  rw [cons_append, append_assoc] at hc
  obtain ⟨p, ds, hd, -, he⟩ := run_spaced hc hs
  obtain ⟨toks, t, es, hp, hes, had⟩ := @h _ ds (((s.moved p).openGroup d).moved (p.next d.opening)) hd hs
  obtain ⟨q, fs, hfs, -, hf⟩ := run_spaced hes had.idle
  rw [hsingle] at he hf
  have hin : Adds (((s.moved p).openGroup d).moved (p.next d.opening)) ds toks (t.moved q) (d.closing :: fs) :=
    ⟨had.run_eq.trans hf, had.idle, had.tokens_eq, had.groups_eq⟩
  obtain ⟨q', u, hu⟩ := hin.group d (s := s.moved p) hs
  exact ⟨_, u, fs, ⟨toks, p, q', hp, rfl⟩, hfs, he.trans hu.run_eq, hu.idle, hu.tokens_eq, hu.groups_eq⟩

end Reads

theorem run_of_spaced : ∀ {cs : List Char} (_ : Spaced [] cs) {s : Scanner} (_ : s.mode = .idle), ∃ p, s.run cs =
    (s.moved p).ended
  | _, .nil, s, hs => ⟨s.pos, finish_of_idle hs⟩
  | _, .blank h, s, hs => by
    obtain ⟨p, hp⟩ := run_of_spaced h (s := s.moved (s.pos.next ' ')) hs
    exact ⟨p, (run_cons (by simp only [take, hs]; rfl)).trans hp⟩

/-- When a text is read up to its end, so are its tokens. -/
theorem scan_of_adds (h : Adds .initial text.toList toks t ds) (hd : Spaced [] ds) :
    ∃ p, scan text = .ok (terminated p toks) := by
  obtain ⟨p, hp⟩ := run_of_spaced hd h.idle
  have hgrp : t.groups = [] := h.groups_eq
  have htoks : t.tokens.reverse = toks := by simp [h.tokens_eq, initial]
  refine ⟨p, (h.run_eq.trans hp).trans ?_⟩
  rw [← htoks]
  simp only [moved, hgrp]
  exact congrArg Except.ok (reverse_semicolon_tokens _ p)

/-- A whole text is scanned word by word. -/
theorem scan_of_reads {P : List Token → Prop} (h : Reads us P) (hs : Spaced us text.toList) :
    ∃ toks p, P toks ∧ scan text = .ok (terminated p toks) := by
  rw [← append_nil us] at hs
  obtain ⟨toks, t, cs, hp, hd, had⟩ := @h _ _ .initial hs rfl
  obtain ⟨p, hscan⟩ := scan_of_adds had hd
  exact ⟨toks, p, hp, hscan⟩

end Scanner

/-! ## Tokens as words -/

/-- A character in a string as it is written. -/
def Atom.escape : Char → List Char
  | '\n' => ['\\', 'n']
  | '\t' => ['\\', 't']
  | '\r' => ['\\', 'r']
  | '\\' => ['\\', '\\']
  | '"' => ['\\', '"']
  | '\x00' => ['\\', '0']
  | c => [c]

namespace Atom

/-- The atom as it is written. -/
def word : Atom → String
  | .str s => String.ofList ('"' :: (s.toList.flatMap Atom.escape ++ ['"']))
  | a => a.text

/-- What can be written: names that are words and no keywords, numbers that are not negative, and all but floats. -/
def Lexical : Atom → Prop
  | .ident x => IsWord x ∧ Keyword.ofText? x = none
  | .int n => 0 ≤ n.toInt
  | .float _ => False
  | _ => True

end Atom

namespace Token

mutual

/-- The token as words. -/
def words : Token → List String
  | .atom a _ => [a.word]
  | .group d inner _ => d.opening.toString :: (wordsAll inner ++ [d.closing.toString])

def wordsAll : List Token → List String
  | [] => []
  | t :: ts => t.words ++ wordsAll ts

end

mutual

/-- The token with a semicolon at the end of every group in braces that ends with the end of a statement. -/
def settled : Token → Token
  | .atom a p => .atom a p
  | .group d inner p => .group d (closed d .none (settledAll inner)) p

def settledAll : List Token → List Token
  | [] => []
  | t :: ts => t.settled :: settledAll ts

end

/-- Every atom in the token can be written. -/
inductive Lexical : Token → Prop
  | atom {a : Atom} {p : Pos} (h : a.Lexical) : Lexical (.atom a p)
  | group {d : Delim} {inner : List Token} {p : Pos} (h : ∀ t ∈ inner, Lexical t) : Lexical (.group d inner p)

/-- The token without its places. -/
def bare (t : Token) : Token := t.mapPos fun _ => .none

variable {ts us : List Token}

theorem map_bare_terminated (h : ts.map bare = us.map bare) (p q : Pos) :
    (terminated p ts).map bare = (terminated q us).map bare := by
  have hlast (ts : List Token) : ts.getLast?.any endsStatement = (ts.map bare).getLast?.any endsStatement := by
    rw [getLast?_map, Option.any_map]
    exact congrArg (fun f => ts.getLast?.any f) (funext fun t => (endsStatement_mapPos _ t).symm)
  unfold terminated
  rw [hlast ts, hlast us, h]
  split
  · simp [h, bare, mapPos]
  · exact h

theorem bare_group {d : Delim} {p q p' q' : Pos} (h : ts.map bare = us.map bare) :
    (group d (closed d q ts) p).bare = (group d (closed d q' us) p').bare := by
  unfold bare mapPos closed
  rw [mapPosAll_eq, mapPosAll_eq]
  split
  · exact congrArg (fun us => group d us .none) (map_bare_terminated h q q')
  · exact congrArg (fun us => group d us .none) h

end Token

namespace Scanner

theorem unescape_escape (c : Char) : (∃ e, Atom.escape c = ['\\', e] ∧ unescape? e = some c) ∨
    Atom.escape c = [c] ∧ c ≠ '"' ∧ c ≠ '\\' ∧ c ≠ '\n' := by
  unfold Atom.escape
  split
  iterate 6 exact .inl ⟨_, rfl, rfl⟩
  exact .inr ⟨rfl, ‹_›, ‹_›, ‹_›⟩

/-- In a string, what a character is written as stands for it. -/
theorem foldlM_escape {s : Scanner} {m : List Char} (hs : s.mode = .str m) (c : Char) :
    ∃ t, (Atom.escape c).foldlM feed s = .ok t ∧ t.mode = .str (c :: m) ∧ t.tokens = s.tokens ∧
    t.groups = s.groups := by
  obtain ⟨pos, mode, start, tokens, groups⟩ := s
  obtain rfl : mode = .str m := hs
  rcases unescape_escape c with ⟨e, he, hu⟩ | ⟨he, h1, h2, h3⟩
  · refine ⟨⟨(pos.next '\\').next e, .str (c :: m), start, tokens, groups⟩, ?_, rfl, rfl, rfl⟩
    have hfeed : feed ⟨pos.next '\\', .strEscape m, start, tokens, groups⟩ e =
        .ok ⟨(pos.next '\\').next e, .str (c :: m), start, tokens, groups⟩ := by
      simp only [feed, take, hu]
      rfl
    rw [he]
    exact feedAll_single hfeed
  · refine ⟨⟨pos.next c, .str (c :: m), start, tokens, groups⟩, ?_, rfl, rfl, rfl⟩
    rw [he]
    refine feedAll_single ?_
    simp only [feed, take]
    rfl

theorem foldlM_escapes : ∀ (cs : List Char) {s : Scanner} {m : List Char}, s.mode = .str m →
    ∃ t, (cs.flatMap Atom.escape).foldlM feed s = .ok t ∧ t.mode = .str (cs.reverse ++ m) ∧ t.tokens = s.tokens ∧
      t.groups = s.groups
  | [], s, _, hs => ⟨s, rfl, hs, rfl, rfl⟩
  | c :: cs, s, m, hs => by
    obtain ⟨u, hu, hum, hutok, hugrp⟩ := foldlM_escape hs c
    obtain ⟨t, ht, htm, httok, htgrp⟩ := foldlM_escapes cs hum
    refine ⟨t, ?_, by simpa using htm, httok.trans hutok, htgrp.trans hugrp⟩
    exact feedAll_append hu ht

/-- An escaped string reads back as it was. -/
theorem scans_str (x : String) : Scans Apart (Atom.word (.str x)).toList fun ts => ∃ p, ts = [.atom (.str x) p] := by
  refine scans_lexeme fun s hs => ?_
  obtain ⟨t, ht, hm, htok, hgrp⟩ := foldlM_escapes x.toList
    (s := ⟨s.pos.next '"', .str [], s.pos, s.tokens, s.groups⟩) rfl
  have hopen : s.feed '"' = .ok ⟨s.pos.next '"', .str [], s.pos, s.tokens, s.groups⟩ := by
    simp only [feed, take, hs]
    rfl
  have hclose : t.feed '"' = .ok ((t.close (.str x)).moved (t.pos.next '"')) := by
    simp only [feed, take, hm, append_nil, reverse_reverse, String.ofList_toList]
    rfl
  refine ⟨(t.close (.str x)).moved (t.pos.next '"'), _, t.start, ?_, rfl, rfl, rfl, congrArg _ htok, hgrp⟩
  rw [Atom.word, String.toList_ofList, foldlM_cons, hopen]
  exact feedAll_append ht (feedAll_single hclose)

theorem isWord_keyword (k : Keyword) : IsWord k.text := by
  cases k <;> exact ⟨_, _, rfl, by decide, all_eq_true.mp (by decide)⟩

/-- **An atom that can be written is read as it was written.** -/
theorem scans_atom : ∀ {a : Atom}, a.Lexical → Scans Apart a.word.toList fun ts => ∃ p, ts = [.atom a p]
  | .ident _, h => (scans_word h.1 (wordAtom_of_none h.2)).imp (fun _ => Apart.breaks) fun _ => id
  | .int n, h => by
    obtain ⟨k, hk⟩ := Int.eq_ofNat_of_zero_le h
    have hlt : k < 2 ^ 63 := by have := n.toInt_lt; omega
    obtain rfl : n = Int64.ofNat k := Int64.toInt_inj.mp (hk.trans (Int64.toInt_ofNat_of_lt hlt).symm)
    rw [show Atom.word (.int (Int64.ofNat k)) = k.repr from congrArg toString hk]
    exact scans_int hlt
  | .str x, _ => scans_str x
  | .keyword k, _ => (scans_word (isWord_keyword k) (by cases k <;> rfl)).imp (fun _ => Apart.breaks) fun _ => id
  | .op o, _ => scans_op o
  | .comma, _ | .semicolon, _ | .colon, _ | .dot, _ | .ellipsis, _ => by
    refine scans_lexeme ?_
    rintro ⟨pos, mode, start, tokens, groups⟩ (rfl : mode = .idle)
    exact ⟨_, _, _, rfl, rfl, rfl, rfl, rfl, rfl⟩

mutual

/-- A token's words read back as the token. -/
theorem reads_token : ∀ t : Token, t.Lexical → Reads t.words fun ts => ts.map Token.bare = [t.settled.bare]
  | .atom _ _, .atom h => (Reads.word (scans_atom h)).imp fun _ ⟨_, ht⟩ => ht ▸ rfl
  | .group d inner _, .group h => ((reads_tokens inner h).group d).imp fun _ ⟨_, _, _, hb, ht⟩ =>
    ht ▸ congrArg (fun t => [t]) (Token.bare_group hb)

/-- A text that writes tokens is read as these tokens, with the semicolons that end its groups. -/
theorem reads_tokens : ∀ ts : List Token, (∀ t ∈ ts, t.Lexical) →
    Reads (Token.wordsAll ts) fun us => us.map Token.bare = (Token.settledAll ts).map Token.bare
  | [], _ => Reads.nil.imp (by rintro _ rfl; rfl)
  | t :: ts, h => by
    refine ((reads_token t (h t (.head _))).append (reads_tokens ts fun t ht => h t (.tail _ ht))).imp ?_
    rintro _ ⟨as, bs, ha, hb, rfl⟩
    rw [map_append, ha, hb]
    rfl

end

end Scanner

namespace Token

/-- The tokens on one line, with a blank on both sides of each word. -/
def line (ts : List Token) : String := String.ofList ((wordsAll ts).flatMap fun w => ' ' :: (w.toList ++ [' ']))

theorem spaced_line (ts : List Token) : Spaced (wordsAll ts) (line ts).toList := by
  rw [line, String.toList_ofList]
  induction wordsAll ts with
  | nil => exact .nil
  | cons w ws ih =>
    rw [flatMap_cons, cons_append, append_assoc]
    exact .blank (.word (.blank ih) (.inr ⟨_, rfl⟩))

/-- **Tokens that are written on a line are read back.** Behind them, and at the end of every group in braces, stands
one semicolon if what it follows ends a statement, and there is no other. -/
theorem scan_line {ts : List Token} (h : ∀ t ∈ ts, t.Lexical) :
    ∃ us, scan (line ts) = .ok us ∧ us.map bare = (terminated .none (settledAll ts)).map bare := by
  obtain ⟨toks, p, hb, hp⟩ := Scanner.scan_of_reads (Scanner.reads_tokens ts h) (spaced_line ts)
  exact ⟨_, hp, map_bare_terminated hb p .none⟩

/-- A block that holds a string with a line end, as its last token ends a statement, is followed by two semicolons. -/
theorem scan_line_block :
    (Token.group .brace [.atom (.str "a\n\"") .none] .none).Lexical ∧
      ∃ us, scan (line [.group .brace [.atom (.str "a\n\"") .none] .none]) = .ok us ∧
        us.map bare = [.group .brace [.atom (.str "a\n\"") .none, .atom .semicolon .none] .none,
          .atom .semicolon .none] := by
  have h : (group .brace [.atom (.str "a\n\"") .none] .none).Lexical :=
    .group fun t ht => mem_singleton.mp ht ▸ .atom trivial
  exact ⟨h, scan_line fun t ht => mem_singleton.mp ht ▸ h⟩

end Token

end Goblet
