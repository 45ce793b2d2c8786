import Goblet.Proofs.Token.Words

/-!
# Texts that can be completed

A text that is not a sequence of tokens either ended too early or is wrong for good. At a line end the two are told
apart by the flag of the error: it is set exactly if some rest makes the text a sequence of tokens, and an error
without it comes back, at the same place, whatever follows (`Token.scan_completable`).

* An error that is found in the middle of a text is never flagged (`feedAll_incomplete`), and more text does not change
  it.
* Only groups, raw strings and block comments go over a line end (`feed_lineEnd`), and each of them can be closed
  (`feed_ending`).
-/

namespace Goblet

open List Scanner Token

namespace Scanner

variable {s t : Scanner} {c : Char} {e : LexError}
variable {cs : List Char}

/-! ## Errors in the middle of a text -/

/-- An error found in the middle of a text is not that the text ended. -/
theorem feedAll_incomplete (h : cs.foldlM feed initial = .error e) : e.incomplete = false := by
  have hrun := feedAll_keeps (P := fun _ _ => True) (fun _ => ⟨fun _ _ _ => ⟨⟩, fun _ _ _ => ⟨⟩, fun _ _ => ⟨⟩,
    fun _ _ => ⟨⟩⟩) (fun _ _ => ⟨⟩) cs (s := .initial) (p := .first) ⟨⟩ nofun
  rwa [h] at hrun

/-! ## Line ends -/

/-- What closes the lexeme a scanner is in, where that lexeme may go over a line end. -/
def lexemeEnding? : Mode → Option (List Char)
  | .idle => some []
  | .raw _ => some ['\x60']
  | .blockComment .. => some ['*', '/']
  | _ => none

theorem semicolon_groups (p : Pos) : (s.semicolon p).groups = s.groups := by
  unfold semicolon
  split
  · split <;> rfl
  · rfl

theorem closeWith_ok {r : Except LexCause Atom} (h : s.closeWith r = .ok t) : t.mode = .idle ∧ t.pos = s.pos := by
  cases r with
  | ok a => cases h; exact ⟨rfl, rfl⟩
  | error cause => cases h

theorem settle_ok (h : s.settle = .ok t) : t.mode = .idle ∧ t.pos = s.pos := by
  unfold settle at h
  cases hm : s.mode with
  | zero | number | hex =>
    rw [hm] at h
    exact closeWith_ok h
  | op c =>
    rw [hm] at h
    dsimp only at h
    split at h <;> cases h
    exact ⟨rfl, rfl⟩
  | _ =>
    rw [hm] at h
    cases h
    exact ⟨rfl, rfl⟩

theorem inNumber_lineEnd (cs : List Char) (f m : Bool) : s.inNumber cs f m '\n' = s.reread '\n' := by
  unfold inNumber
  rw [if_neg (by simp), if_neg (by decide), if_neg (by decide), if_neg (by simp), if_neg (by decide)]

/-- **A line end leaves only what may go over it open.** -/
theorem take_lineEnd (s : Scanner) : s.take '\n' = s.reread '\n' ∨
    (∃ e, s.finish = .error e) ∧ ∀ t, s.take '\n' = .ok t → ∃ cs, lexemeEnding? t.mode = some cs := by
  cases hm : s.mode with
  | idle =>
    obtain ⟨pos, mode, start, tokens, groups⟩ := s
    obtain rfl : mode = .idle := hm
    exact .inl rfl
  | word | hex | dot | dots | lineComment =>
    unfold take reread settle
    rw [hm]
    exact .inl rfl
  | zero =>
    unfold take
    rw [hm]
    exact .inl (inNumber_lineEnd ['0'] false false)
  | number cs f m =>
    unfold take
    rw [hm]
    exact .inl (inNumber_lineEnd cs f m)
  | op c =>
    unfold take
    rw [hm]
    dsimp only
    rw [if_neg (by simp), if_neg (by simp)]
    split
    · rename_i hd
      unfold double? at hd
      split at hd <;> simp_all
    · exact .inl rfl
  | str | strEscape | rune | runeEscape | runeClose | raw | blockComment =>
    unfold take finish
    rw [hm]
    refine .inr ⟨⟨_, rfl⟩, fun t h => ?_⟩
    simp only [Char.reduceBEq, Bool.and_false, Bool.false_eq_true, if_false] at h
    cases h <;> exact ⟨_, rfl⟩

theorem feed_ok (h : s.take c = .ok t) : s.feed c = .ok { t with pos := t.pos.next c } := by
  rw [feed, h]
  rfl

theorem take_of_feed (h : s.feed c = .ok t) : ∃ u, s.take c = .ok u ∧ t = { u with pos := u.pos.next c } := by
  unfold feed at h
  obtain ⟨u, hs, h⟩ := bind_ok.mp h
  cases h
  exact ⟨u, hs, rfl⟩

theorem feed_lineEnd (h : s.feed '\n' = .ok t) : ∃ cs, lexemeEnding? t.mode = some cs := by
  obtain ⟨u, hu, rfl⟩ := take_of_feed h
  rcases take_lineEnd s with hr | ⟨-, hopen⟩
  · obtain ⟨v, hv, hvu⟩ := bind_ok.mp (hr.symm.trans hu)
    cases hvu
    exact ⟨[], congrArg lexemeEnding? ((semicolon_mode _).trans (settle_ok hv).1)⟩
  · exact hopen u hu

/-! ## Closing what is open -/

theorem feedAll_single (h : s.feed c = .ok t) : [c].foldlM feed s = .ok t := by
  rw [foldlM_cons, h]
  rfl

theorem feedAll_append {u : Scanner} {ds : List Char} (h : cs.foldlM feed s = .ok t)
    (h' : ds.foldlM feed t = .ok u) : (cs ++ ds).foldlM feed s = .ok u := by
  rw [foldlM_append, h]
  exact h'

theorem take_closing (d : Delim) (hm : s.mode = .idle) : s.take d.closing = s.closeGroup d.closing := by
  unfold take
  rw [hm]
  cases d <;> rfl

theorem feed_closing {g : OpenGroup} {gs : List OpenGroup} (hm : s.mode = .idle) (hg : s.groups = g :: gs) :
    ∃ t, s.feed g.delim.closing = .ok t ∧ t.mode = .idle ∧ t.groups = gs := by
  unfold feed
  rw [take_closing g.delim hm]
  unfold closeGroup
  rw [hg]
  dsimp only
  rw [if_pos rfl]
  refine ⟨_, rfl, ?_, rfl⟩
  split
  · exact (semicolon_mode _).trans hm
  · exact hm

/-- The closing brackets of all groups, innermost first, leave none open. -/
theorem feed_closings : ∀ {gs : List OpenGroup} {s : Scanner}, s.mode = .idle → s.groups = gs →
    ∃ t, (gs.map fun g => g.delim.closing).foldlM feed s = .ok t ∧ t.mode = .idle ∧ t.groups = []
  | [], s, hm, hg => ⟨s, rfl, hm, hg⟩
  | g :: gs, s, hm, hg => by
    obtain ⟨u, hu, hum, hug⟩ := feed_closing hm hg
    obtain ⟨t, ht, htm, htg⟩ := feed_closings hum hug
    exact ⟨t, feedAll_append (feedAll_single hu) ht, htm, htg⟩

theorem take_rawEnding (hm : s.mode = .raw cs) : s.take '\x60' = .ok (s.close (.str (String.ofList cs.reverse))) := by
  unfold take
  rw [hm]
  rfl

theorem take_star {newline star : Bool} (hm : s.mode = .blockComment newline star) :
    s.take '*' = .ok { s with mode := .blockComment newline true } := by
  unfold take
  rw [hm]
  cases star <;> cases newline <;> rfl

theorem take_commentEnding {newline : Bool} (hm : s.mode = .blockComment newline true) :
    ∃ t, s.take '/' = .ok t ∧ t.mode = .idle ∧ t.groups = s.groups := by
  unfold take
  rw [hm]
  cases newline with
  | false => exact ⟨{ s with mode := .idle }, rfl, rfl, rfl⟩
  | true => exact ⟨_, rfl, semicolon_mode _, semicolon_groups _⟩

theorem feed_lexemeEnding (h : lexemeEnding? s.mode = some cs) :
    ∃ t, cs.foldlM feed s = .ok t ∧ t.mode = .idle ∧ t.groups = s.groups := by
  cases hm : s.mode with
  | idle =>
    rw [hm] at h
    cases h
    exact ⟨s, rfl, hm, rfl⟩
  | raw rs =>
    rw [hm] at h
    cases h
    exact ⟨_, feedAll_single (feed_ok (take_rawEnding hm)), rfl, rfl⟩
  | blockComment newline star =>
    rw [hm] at h
    cases h
    have hstar := feedAll_single (feed_ok (take_star hm))
    obtain ⟨u, hu, hum, hug⟩ :=
      take_commentEnding (s := { s with mode := .blockComment newline true, pos := s.pos.next '*' }) rfl
    exact ⟨_, feedAll_append hstar (feedAll_single (feed_ok hu)), hum, hug⟩
  | _ =>
    rw [hm] at h
    cases h

/-- What is written behind a text to close all that is open. -/
def ending (s : Scanner) : List Char :=
  (lexemeEnding? s.mode).getD [] ++ s.groups.map fun g => g.delim.closing

theorem finish_closed (hm : s.mode = .idle) (hg : s.groups = []) : ∃ ts, s.finish = .ok ts := by
  have hs : s.settle = .ok { s with mode := .idle } := by
    unfold settle
    rw [hm]
  refine ⟨(({ s with mode := .idle } : Scanner).semicolon s.pos).tokens.reverse, ?_⟩
  unfold finish
  rw [hm]
  simp only [hs, hg, bind, Except.bind, pure, Except.pure]

/-- **All that is open at a line end can be closed.** -/
theorem feed_ending (h : lexemeEnding? s.mode = some cs) : ∃ ts, (s.ending.foldlM feed s >>= finish) = .ok ts := by
  obtain ⟨u, hu, hum, hug⟩ := feed_lexemeEnding h
  obtain ⟨t, ht, htm, htg⟩ := feed_closings hum hug
  obtain ⟨ts, hts⟩ := finish_closed htm htg
  refine ⟨ts, ?_⟩
  unfold ending
  rw [h, Option.getD_some, feedAll_append hu ht]
  exact hts

/-- Where a text ends at a line end, its error says that it ended too early. -/
theorem finish_incomplete (h : lexemeEnding? s.mode = some cs) (hf : s.finish = .error e) : e.incomplete = true := by
  cases hm : s.mode with
  | idle =>
    have hs : s.settle = .ok { s with mode := .idle } := by
      unfold settle
      rw [hm]
    unfold finish at hf
    rw [hm] at hf
    simp only [hs, bind, Except.bind, pure, Except.pure] at hf
    split at hf <;> cases hf
    rfl
  | raw rs | blockComment newline star =>
    unfold finish at hf
    rw [hm] at hf
    cases hf
    rfl
  | _ =>
    rw [hm] at h
    cases h

end Scanner

/-! ## Texts -/

/-- The scanner behind the first part of a text goes on with the second. -/
theorem Token.scan_append (a b : String) :
    scan (a ++ b) = (a.toList.foldlM feed initial >>= fun s =>
      b.toList.foldlM feed s >>= finish) := by
  unfold scan
  rw [String.toList_append, foldlM_append, bind_assoc]

/-- **The flag of an error is exact.** Let a text that ends with a line end be no sequence of tokens. Its error is
flagged incomplete exactly if some rest completes the text, and an error that is not flagged stays, at its place,
whatever follows. -/
theorem Token.scan_completable (line : String) (e : LexError) (h : scan (line ++ "\n") = .error e) :
    (e.incomplete = true ↔ ∃ rest ts, scan (line ++ "\n" ++ rest) = .ok ts) ∧
      (e.incomplete = false → ∀ rest, scan (line ++ "\n" ++ rest) = .error e) := by
  cases hs : (line ++ "\n").toList.foldlM feed initial with
  | error e' =>
    -- found in the middle of the text: more text does not reach the scanner
    have stays (rest : String) : scan (line ++ "\n" ++ rest) = .error e' := by
      rw [scan_append, hs]
      rfl
    unfold scan at h
    rw [hs] at h
    cases h
    have hi := feedAll_incomplete hs
    refine ⟨⟨fun hf => ?_, fun ⟨rest, ts, hts⟩ => ?_⟩, fun _ => stays⟩
    · rw [hi] at hf
      cases hf
    · rw [stays] at hts
      cases hts
  | ok s =>
    -- found at the end: what is open there can be closed
    obtain ⟨cs, hcs⟩ : ∃ cs, lexemeEnding? s.mode = some cs := by
      rw [String.toList_append, foldlM_append] at hs
      obtain ⟨u, -, hu⟩ := bind_ok.mp hs
      obtain ⟨v, hv, hvs⟩ := bind_ok.mp ((foldlM_cons ..).symm.trans hu)
      cases hvs
      exact feed_lineEnd hv
    unfold scan at h
    rw [hs] at h
    have hi := finish_incomplete hcs h
    obtain ⟨ts, hts⟩ := feed_ending hcs
    refine ⟨⟨fun _ => ⟨String.ofList s.ending, ts, ?_⟩, fun _ => hi⟩, fun hf => ?_⟩
    · rw [scan_append, hs, String.toList_ofList]
      exact hts
    · rw [hi] at hf
      cases hf

/-- A raw string that is open inside two groups can be completed. -/
theorem Token.scan_completable_raw :
    scan ("f([\x60a" ++ "\n") = .error ⟨.rawStringOpen, ⟨1, 4⟩⟩ ∧
      ∃ rest ts, scan ("f([\x60a" ++ "\n" ++ rest) = .ok ts :=
  have h : scan ("f([\x60a" ++ "\n") = .error ⟨.rawStringOpen, ⟨1, 4⟩⟩ := by rfl
  ⟨h, (scan_completable "f([\x60a" _ h).1.mp rfl⟩

end Goblet
