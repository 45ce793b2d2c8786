import Goblet.Proofs.Scalar.Evaluation

/-!
# Integers as text

The text of an integer evaluates to the integer (`Session.eval_text_int`), but for the least one: a sign is an operator,
and the digits behind it are read alone, so those of `- 2 ^ 63` are out of range (`Session.eval_text_minValue`).
-/

namespace Goblet

open List Int64

namespace Scanner

theorem scan_negative {m : Nat} (hm : m < 2 ^ 63) :
    ∃ toks p, Token.scan ("-" ++ m.repr) = .ok (toks ++ [.atom .semicolon p]) ∧
    Expr.Forms Alphabet.tokens 1 (.unary .sub (.int m)) toks := by
  have hsign : ∀ d ∈ (m.repr.toList ++ []).head?, double? '-' d = none := by
    intro d hd
    have hd : d.isDigit := isDigit_of_mem_repr (mem_of_mem_head? (by simpa using hd))
    unfold double?
    split <;> first | rfl | exact absurd hd (by decide)
  obtain ⟨_, s, ⟨p, rfl⟩, hs⟩ := scans_sign (fun _ => rfl) rfl (by decide) .initial _ rfl hsign
  obtain ⟨_, t, ⟨q, rfl⟩, ht⟩ := scans_int hm s [] hs.idle (.inl rfl)
  have hadds : Adds .initial ("-" ++ m.repr).toList [.atom (.op .sub) p, .atom (.int (ofNat m)) q] t [] := by
    simpa [String.toList_append] using hs.trans ht
  obtain ⟨r, hr⟩ := scan_of_adds hadds .nil
  have hdigits : Expr.Forms Alphabet.tokens 7 (.int m) [.atom (.int (ofNat m)) q] := .leaf (.int m hm q)
  have hneg : Expr.Forms Alphabet.tokens 6 (.unary .sub (.int m)) [.atom (.op .sub) p, .atom (.int (ofNat m)) q] :=
    .unary (by decide) ⟨_, rfl⟩ (.looser hdigits)
  exact ⟨_, r, hr, hneg.loosened (by decide)⟩

end Scanner

namespace Machine

theorem run_push {s : Setting} {i : Nat} {v : Value} (hpush : OpAt s.program.code i (.push v))
    (hexit : OpAt s.program.code (i + 1) .exit) (hl : ¬Short s.limits 2 1) (fuel : Nat) (g : Array Value)
    (store : Store) :
    (run s (2 + fuel) g store i).ending = .value (some v) := by
  have hm := start_holds g store i
  have hno : ∀ {k h : Nat} {α : Type} {r : EStateM.Result Fault Machine α}, k ≤ 2 → h ≤ 1 → ¬Limited s.limits k h r :=
    fun hk hh hlim => hl (hlim.mono hk hh).1
  have hstep : step s (start g store i) = .ok true (moved (start g store i) ⟨i + 1, g, [v]⟩ 1) :=
    ((step_of_opAt hpush (by simp) hm).resolve_right (hno (by simp [start]) (by simp))).trans rfl
  have hrest := execute_exit (m := moved (start g store i) ⟨i + 1, g, [v]⟩ 1) hexit ⟨rfl, rfl, rfl⟩ fuel
  obtain ⟨m', hx, hmem⟩ := hrest.resolve_right (hno (by simp [start, moved]) (by simp))
  have hex : execute s (2 + fuel) (start g store i) = .ok true m' := by
    rw [show 2 + fuel = 1 + (1 + fuel) by omega, execute_succ, seq_eq hstep]
    exact hx
  unfold run
  rw [hex]
  show Ending.value (if g.size < m'.mem.size then m'.mem.back? else none) = _
  have hmem : m'.mem = g.push v := hmem
  rw [hmem, if_pos (by simp), Array.back?_push]

end Machine

namespace Session

open Machine (Short)

theorem eval_constant {registry : Registry} {limits : Limits} {e : Expr} {v : Scalar} {t : Ty} {text : String}
    {toks : List Token} {p : Pos} (hscan : Token.scan text = .ok (toks ++ [.atom .semicolon p]))
    (hforms : Expr.Forms Alphabet.tokens 1 e toks) (hvars : e.vars = []) (hflags : e.flags = [])
    (hty : e.compiledType? (fun _ => none) = some t)
    (hcode : e.code Place.mainScope (fun _ => 0) 0 false = .ok (.load v)) (hl : ¬Short limits 2 1) (fuel : Nat) :
    ((new registry limits).eval (2 + fuel) text).answer = .value (some v.value) := by
  obtain ⟨stream, s', hstream, hacts, -⟩ := Stream.chunkSteps_expr hforms p 0
  have hshape : shape (new registry limits).labels text = (.ok stream, s'.labels) := by
    simp only [shape, hscan, Stream.ofTokens, show (new registry limits).labels = 0 from rfl, hstream]
  have hscoped : e.Scoped (new registry limits).symbols Place.mainScope (fun _ => 0) fun _ => none :=
    ⟨by simp [hvars], by simp [hflags]⟩
  have hchunk := Compile.chunk_expr registry (withoutExit (new registry limits).program)
    (new registry limits).store hacts
    hty hscoped
  rw [hcode] at hchunk
  obtain ⟨c, hchunk, hprogram, -, hsize, at?, hstand⟩ := hchunk
  have hpush : OpAt (c.program.emit .exit (endPos stream)).code 0 (.push v.value) :=
    (Item.stand_singleton.mp (stand_exit hstand hsize)).1
  have hexit : OpAt (c.program.emit .exit (endPos stream)).code 1 .exit :=
    ⟨endPos stream, by rw [← show c.program.code.size = 1 from hsize]; exact Array.getElem?_push_size⟩
  have hentry : c.program.entry ≤ (new registry limits).nextStart := by
    rw [hprogram]
    exact Nat.le_refl _
  rw [eval_eq_runFrom _ hshape hchunk hentry]
  have hrun := Machine.run_push
    (s := ⟨c.program.emit .exit (endPos stream), (new registry limits).registry, (new registry limits).limits⟩) hpush
    hexit
    hl fuel
  simp only [runFrom, show nextStart (new registry limits) = 0 from rfl, hrun]

/-- The text of an integer has a sign before the digits of a negative one. -/
theorem text_int (h : Store) (n : Int64) : h.text (.int n) = .ok n.toInt.repr := rfl

/-- **Integers read back.** The text of an integer other than the least evaluates to the integer, in a session before
its first chunk. It takes two steps and one cell. -/
theorem eval_text_int (registry : Registry) {limits : Limits} (hl : ¬Short limits 2 1) (h : Store) {n : Int64}
    (hn : n ≠ minValue) (fuel : Nat) :
    ∃ text, h.text (.int n) = .ok text ∧
      ((new registry limits).eval (2 + fuel) text).answer = .value (some (.int n)) := by
  refine ⟨_, text_int h n, ?_⟩
  have hlt := n.toInt_lt
  have hle := n.le_toInt
  have hofInt := n.ofInt_toInt
  cases hi : n.toInt with
  | ofNat m =>
    rw [hi] at hlt hofInt
    have hm : m < 2 ^ 63 := Int.ofNat_lt.mp hlt
    have hword : Expr.Forms Alphabet.words 7 (.int m) [m.repr] := .leaf (.int m hm)
    have hspaced : Spaced [m.repr] m.repr.toList := by simpa using spaced_cons m.repr []
    obtain ⟨toks, p, hscan, hforms⟩ := Token.scan_forms (hword.loosened (show 1 ≤ 7 by decide)) hspaced
    have hv : Scalar.wrap m = .int n := congrArg Scalar.int hofInt
    exact eval_constant hscan hforms rfl rfl (if_pos hm) (by rw [Expr.code, hv]) hl fuel
  | negSucc m =>
    have hne : n.toInt ≠ -2 ^ 63 := fun h => hn (toInt_inj.mp h)
    rw [hi] at hle hofInt hne
    have hm : m + 1 < 2 ^ 63 := by omega
    obtain ⟨toks, p, hscan, hforms⟩ := Scanner.scan_negative hm
    have hv : Scalar.wrap (-(ofInt (m + 1 : Nat)).toInt) = .int n := by
      rw [Scalar.wrap, ofInt_neg, ofInt_toInt, ← ofInt_neg]
      exact congrArg Scalar.int hofInt
    refine eval_constant (v := .int n) hscan hforms rfl rfl (t := .int) ?_ ?_ hl fuel
    · rw [Expr.compiledType?, Expr.compiledType?, if_pos hm]
      rfl
    · rw [← hv]
      rfl

theorem eval_text_int_least : ¬Short .standard 2 1 ∧ ((-9223372036854775807 : Int64) ≠ minValue) ∧
    ∃ text, Store.empty.text (.int (-9223372036854775807)) = .ok text ∧
      ((new .empty .standard).eval 2 text).answer = .value (some (.int (-9223372036854775807))) := by
  have hl : ¬Short .standard 2 1 := by
    rintro (⟨n, hn, -⟩ | h)
    · cases hn
    · exact absurd h (by decide)
  exact ⟨hl, by decide, eval_text_int .empty hl .empty (by decide) 0⟩

theorem eval_text_minValue : Store.empty.text (.int minValue) = .ok "-9223372036854775808" ∧
    ((new .empty .standard).eval 2 "-9223372036854775808").answer =
      .error (.lex ⟨.intRange "9223372036854775808", ⟨1, 2⟩⟩) := by
  have hscan : Token.scan "-9223372036854775808" = .error ⟨.intRange "9223372036854775808", ⟨1, 2⟩⟩ := by rfl
  refine ⟨congrArg Except.ok (by decide +kernel), ?_⟩
  rw [eval, shape, hscan]

end Session

end Goblet
