import Goblet.Proofs.Scalar.Grammar

/-!
# Scanning an expression

The tokens of a text that writes an expression in words write the same expression (`scan_forms`).
-/

namespace Goblet

open List

namespace Scanner

theorem scans_leaf {e : Expr} {w : String} (h : Alphabet.WordLeaf e w) :
    Scans Apart w.toList fun ts => ∃ t, ts = [t] ∧ Alphabet.TokenLeaf e t := by
  have word {x : String} (hx : IsWord x) (hk : Keyword.ofText? x = none)
    (hl : ∀ p, Alphabet.TokenLeaf e (.atom (.ident x) p)) :
      Scans Apart x.toList fun ts => ∃ t, ts = [t] ∧ Alphabet.TokenLeaf e t :=
    (scans_word hx (wordAtom_of_none hk)).imp (fun _ => Apart.breaks) fun _ ⟨p, h⟩ => ⟨_, h, hl p⟩
  cases h with
  | int n h => exact (scans_int h).imp (fun _ => id) fun _ ⟨p, hp⟩ => ⟨_, hp, .int n h p⟩
  | bool b =>
    cases b
    · exact word ⟨'f', _, rfl, by decide, all_eq_true.mp (by decide)⟩ rfl (.bool _)
    · exact word ⟨'t', _, rfl, by decide, all_eq_true.mp (by decide)⟩ rfl (.bool _)
  | var _ h hk => exact word h hk (.var _)

end Scanner

namespace Expr

variable {k : Nat} {e : Expr} {toks : List Token}

theorem Forms.withoutSemicolons (h : Forms Alphabet.tokens k e toks) : Token.withoutSemicolons toks = toks := by
  induction h with
  | leaf h => cases h <;> rfl
  | paren _ hp => obtain ⟨inner, p, -, rfl⟩ := hp; rfl
  | unary _ hw _ ih =>
    obtain ⟨p, rfl⟩ := hw
    exact congrArg _ ih
  | binary _ hw _ _ iha ihb =>
    obtain ⟨p, rfl⟩ := hw
    rw [Token.withoutSemicolons] at iha ihb ⊢
    rw [filter_append, iha, filter_cons_of_pos (by rfl), ihb]
  | looser _ ih => exact ih

theorem Forms.endsStatement (h : Forms Alphabet.tokens k e toks) : ∃ init t, toks = init ++ [t] ∧ t.endsStatement := by
  induction h with
  | @leaf e w h => exact ⟨[], w, rfl, by cases h <;> rfl⟩
  | paren _ hp =>
    obtain ⟨inner, p, -, rfl⟩ := hp
    exact ⟨[], _, rfl, rfl⟩
  | @unary op e w ws _ _ _ ih =>
    obtain ⟨init, t, rfl, ht⟩ := ih
    exact ⟨w :: init, t, rfl, ht⟩
  | @binary op k a b w ws us _ _ _ _ _ ihb =>
    obtain ⟨init, t, rfl, ht⟩ := ihb
    exact ⟨ws ++ w :: init, t, by simp, ht⟩
  | looser _ ih => exact ih

open Scanner in
/-- A text that writes an expression in words is read as tokens that write it. -/
theorem Forms.reads {ws : List String} (h : Forms Alphabet.words k e ws) : Reads ws (Forms Alphabet.tokens k e) := by
  induction h with
  | leaf h =>
    refine (Reads.word (scans_leaf h)).imp ?_
    rintro _ ⟨t, rfl, hl⟩
    exact .leaf hl
  | paren _ hp ih =>
    obtain rfl : _ = _ := hp
    refine (ih.group .paren).imp ?_
    rintro _ ⟨toks, p, q, hf, rfl⟩
    exact .paren hf ⟨toks, p, hf.withoutSemicolons, rfl⟩
  | unary ho hw _ ih =>
    obtain rfl : _ = _ := hw
    refine ((Reads.word (scans_op _)).append ih).imp ?_
    rintro _ ⟨_, toks, ⟨p, rfl⟩, hf, rfl⟩
    exact .unary ho ⟨p, rfl⟩ hf
  | binary ho hw _ _ iha ihb =>
    obtain rfl : _ = _ := hw
    refine (iha.append ((Reads.word (scans_op _)).append ihb)).imp ?_
    rintro _ ⟨as, _, ha, ⟨_, bs, ⟨p, rfl⟩, hb, rfl⟩, rfl⟩
    exact .binary ho ⟨p, rfl⟩ ha hb
  | looser _ ih => exact ih.imp fun _ => .looser

end Expr

open Scanner in
/-- The tokens of a text that writes an expression write it, with a semicolon after them. -/
theorem Token.scan_forms {k : Nat} {e : Expr} {ws : List String} {text : String}
    (h : Expr.Forms Alphabet.words k e ws) (hs : Spaced ws text.toList) :
    ∃ toks p, Token.scan text = .ok (toks ++ [.atom .semicolon p]) ∧ Expr.Forms Alphabet.tokens k e toks := by
  obtain ⟨toks, p, hf, hp⟩ := scan_of_reads h.reads hs
  obtain ⟨init, last, rfl, hl⟩ := hf.endsStatement
  refine ⟨_, p, hp.trans ?_, hf⟩
  simp [Token.terminated, hl]

end Goblet
