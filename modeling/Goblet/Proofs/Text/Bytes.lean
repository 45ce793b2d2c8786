import Mathlib.Algebra.Group.Nat.Defs
import Goblet.Text.Bytes

/-!
# Texts and their bytes

Reading the bytes of a text gives the text (`ofBytesLossy_bytes`), also in front of other bytes (`decodeFrom_encode`).
A text may be cut between two characters (`Between`) or inside one. The bytes of a part are those of the text exactly if
both cuts are between characters (`bytes_ofBytesLossy_iff`), and so the two parts of a text make up the text
(`ofBytesLossy_append_iff`): what is read off a character that was cut has more characters than one.
-/

namespace Goblet.Text

open List

/-- The bytes of characters. -/
def encode (cs : List Char) : List UInt8 := cs.flatMap String.utf8EncodeChar

theorem encode_cons (c : Char) (cs : List Char) : encode (c :: cs) = String.utf8EncodeChar c ++ encode cs :=
  flatMap_cons

theorem encode_append (cs ds : List Char) : encode (cs ++ ds) = encode cs ++ encode ds := flatMap_append

theorem bytes_eq (s : String) : bytes s = encode s.toList := by
  rw [bytes, String.toUTF8, ← String.utf8Encode_toList, List.utf8Encode, data_toByteArray, encode]

theorem length_bytes (s : String) : (bytes s).length = byteLength s := rfl

theorem byteAt?_eq (s : String) (i : Nat) : byteAt? s i = (bytes s)[i]? := by rw [byteAt?, bytes, Array.getElem?_toList]

theorem bytes_append (s t : String) : bytes (s ++ t) = bytes s ++ bytes t := by
  rw [bytes_eq, bytes_eq, bytes_eq, String.toList_append, encode_append]

/-! ## Reading characters -/

variable {c : Char} {b : UInt8} {bs : List UInt8} {n due bits : Nat} {lo hi : UInt8}

theorem toNat_ofNat (h : n < 256) : (UInt8.ofNat n).toNat = n := UInt8.toNat_ofNat_of_lt' h

theorem decodeFrom_ascii (h : n < 0x80) :
    decodeFrom .start (UInt8.ofNat n :: bs) = Char.ofNat n :: decodeFrom .start bs := by
  have hn : (UInt8.ofNat n).toNat = n := toNat_ofNat (by omega)
  rw [decodeFrom, decodeFirst, if_pos (UInt8.lt_iff_toNat_lt.mpr (by rw [hn]; exact h)), hn]
  rfl

theorem decodeFrom_lead (h : 0x80 ≤ n) (hn : n < 256) (hl : leadRange? (UInt8.ofNat n) = some (due, lo, hi)) :
    decodeFrom .start (UInt8.ofNat n :: bs) = decodeFrom (.inside due lo hi (n % 2 ^ (6 - due))) bs := by
  have hn := toNat_ofNat hn
  rw [decodeFrom, decodeFirst, if_neg (by rw [UInt8.lt_iff_toNat_lt, hn]; exact Nat.not_lt.mpr h), hl, hn]
  rfl

theorem decodeFrom_inner (hn : n < 64) (hlo : lo.toNat ≤ n + 0x80) (hhi : n + 0x80 ≤ hi.toNat) :
    decodeFrom (.inside due lo hi bits) (UInt8.ofNat (n + 0x80) :: bs) =
      if due ≤ 1 then Char.ofNat (bits * 64 + n) :: decodeFrom .start bs
      else decodeFrom (.inside (due - 1) 0x80 0xBF (bits * 64 + n)) bs := by
  have hm := toNat_ofNat (show n + 0x80 < 256 by omega)
  rw [decodeFrom, if_pos (by rw [UInt8.le_iff_toNat_le, UInt8.le_iff_toNat_le, hm]; exact ⟨hlo, hhi⟩), hm,
    show (n + 0x80) % 64 = n by omega]

theorem leadRange?_ofNat (hn : n < 256) : leadRange? (UInt8.ofNat n) =
    if 0xC2 ≤ n ∧ n ≤ 0xDF then some (1, 0x80, 0xBF)
    else if n = 0xE0 then some (2, 0xA0, 0xBF)
    else if n = 0xED then some (2, 0x80, 0x9F)
    else if 0xE1 ≤ n ∧ n ≤ 0xEF then some (2, 0x80, 0xBF)
    else if n = 0xF0 then some (3, 0x90, 0xBF)
    else if 0xF1 ≤ n ∧ n ≤ 0xF3 then some (3, 0x80, 0xBF)
    else if n = 0xF4 then some (3, 0x80, 0x8F)
    else none := by
  simp only [leadRange?, UInt8.le_iff_toNat_le, ← UInt8.toNat_inj, toNat_ofNat hn]
  rfl

theorem decodeFrom_encodeChar (c : Char) (bs : List UInt8) :
    decodeFrom .start (String.utf8EncodeChar c ++ bs) = c :: decodeFrom .start bs := by
  have hv : c.val.toNat < 0xD800 ∨ 0xDFFF < c.val.toNat ∧ c.val.toNat < 0x110000 := c.valid
  have hc : Char.ofNat c.val.toNat = c := Char.ofNat_toNat c
  unfold String.utf8EncodeChar
  generalize c.val.toNat = v at hv hc
  dsimp only
  split
  · rw [singleton_append, decodeFrom_ascii (by omega), hc]
  split
  · have hl := leadRange?_ofNat (show v / 64 % 32 + 0xC0 < 256 by omega)
    rw [if_pos (by omega)] at hl
    rw [cons_append, singleton_append, decodeFrom_lead (by omega) (by omega) hl,
      decodeFrom_inner (by omega) (by show 128 ≤ _; omega) (by show _ ≤ 191; omega), if_pos (by decide), ← hc]
    congr 2
    omega
  -- The range of the second byte leaves out what shorter encodings hold, the surrogates, and what is no character.
  split
  · obtain ⟨lo, hi, hl, hlo, hhi⟩ : ∃ lo hi, leadRange? (UInt8.ofNat (v / 4096 % 16 + 0xE0)) = some (2, lo, hi) ∧
        lo.toNat ≤ v / 64 % 64 + 0x80 ∧ v / 64 % 64 + 0x80 ≤ hi.toNat := by
      rw [leadRange?_ofNat (by omega), if_neg (by omega)]
      split
      · exact ⟨_, _, rfl, by show 0xA0 ≤ _; omega, by show _ ≤ 0xBF; omega⟩
      split
      · exact ⟨_, _, rfl, by show 0x80 ≤ _; omega, by show _ ≤ 0x9F; omega⟩
      · rw [if_pos (by omega)]
        exact ⟨_, _, rfl, by show 0x80 ≤ _; omega, by show _ ≤ 0xBF; omega⟩
    rw [cons_append, cons_append, singleton_append, decodeFrom_lead (by omega) (by omega) hl,
      decodeFrom_inner (by omega) hlo hhi, if_neg (by decide),
      decodeFrom_inner (by omega) (by show 0x80 ≤ _; omega) (by show _ ≤ 0xBF; omega), if_pos (by decide), ← hc]
    congr 2
    omega
  · obtain ⟨lo, hi, hl, hlo, hhi⟩ : ∃ lo hi, leadRange? (UInt8.ofNat (v / 262144 % 8 + 0xF0)) = some (3, lo, hi) ∧
        lo.toNat ≤ v / 4096 % 64 + 0x80 ∧ v / 4096 % 64 + 0x80 ≤ hi.toNat := by
      rw [leadRange?_ofNat (by omega), if_neg (by omega), if_neg (by omega), if_neg (by omega), if_neg (by omega)]
      split
      · exact ⟨_, _, rfl, by show 0x90 ≤ _; omega, by show _ ≤ 0xBF; omega⟩
      split
      · exact ⟨_, _, rfl, by show 0x80 ≤ _; omega, by show _ ≤ 0xBF; omega⟩
      · rw [if_pos (by omega)]
        exact ⟨_, _, rfl, by show 0x80 ≤ _; omega, by show _ ≤ 0x8F; omega⟩
    rw [cons_append, cons_append, cons_append, singleton_append,
      decodeFrom_lead (by omega) (by omega) hl, decodeFrom_inner (by omega) hlo hhi, if_neg (by decide),
      decodeFrom_inner (by omega) (by show 0x80 ≤ _; omega) (by show _ ≤ 0xBF; omega), if_neg (by decide),
      decodeFrom_inner (by omega) (by show 0x80 ≤ _; omega) (by show _ ≤ 0xBF; omega), if_pos (by decide), ← hc]
    congr 2
    omega

theorem decodeFrom_encode (cs : List Char) (bs : List UInt8) :
    decodeFrom .start (encode cs ++ bs) = cs ++ decodeFrom .start bs := by
  induction cs with
  | nil => rfl
  | cons c cs ih => rw [encode_cons, append_assoc, decodeFrom_encodeChar, ih, cons_append]

theorem ofBytesLossy_bytes (s : String) : ofBytesLossy (bytes s) = s := by
  rw [ofBytesLossy, bytes_eq, ← append_nil (encode _), decodeFrom_encode, decodeFrom, append_nil,
    String.ofList_toList]

/-! ## Cuts -/

/-- A byte inside a character, not its first one. -/
def isInner (b : UInt8) : Bool := 0x80 ≤ b && b ≤ 0xBF

/-- The index is between two characters, or at an end. -/
def Between (s : String) (i : Nat) : Prop := ∃ t u, s = t ++ u ∧ byteLength t = i

/-- The first byte of a character, and no other, is not inside it. -/
theorem encodeChar_cons (c : Char) : ∃ b bs, String.utf8EncodeChar c = b :: bs ∧ isInner b = false ∧
    bs.all isInner = true := by
  have hlead : ∀ n < 256, (n < 0x80 ∨ 0xC0 ≤ n) → isInner (UInt8.ofNat n) = false := fun n hn h => by
    simp only [isInner, UInt8.le_iff_toNat_le, toNat_ofNat hn, Bool.and_eq_false_imp, decide_eq_true_eq,
      decide_eq_false_iff_not]
    show 0x80 ≤ n → ¬n ≤ 0xBF
    omega
  have hinner : ∀ n, isInner (UInt8.ofNat (n % 64 + 0x80)) = true := fun n => by
    simp only [isInner, UInt8.le_iff_toNat_le, toNat_ofNat (show n % 64 + 0x80 < 256 by omega), Bool.and_eq_true,
      decide_eq_true_eq]
    show 0x80 ≤ n % 64 + 0x80 ∧ n % 64 + 0x80 ≤ 0xBF
    omega
  unfold String.utf8EncodeChar
  dsimp only
  iterate 3
    split
    · exact ⟨_, _, rfl, hlead _ (by omega) (by omega), by simp only [all_cons, all_nil, hinner, Bool.and_self]⟩
  exact ⟨_, _, rfl, hlead _ (by omega) (by omega), by simp only [all_cons, all_nil, hinner, Bool.and_self]⟩

/-- A cut in front of a byte that is not inside a character is between characters. -/
theorem between_of_byte : ∀ {cs : List Char} {i : Nat} {b : UInt8}, (encode cs)[i]? = some b → isInner b = false →
    ∃ ds es, cs = ds ++ es ∧ (encode ds).length = i
  | [], i, b, h, _ => by cases h
  | c :: cs, i, b, h, hb => by
    obtain ⟨x, xs, hc, -, hxs⟩ := encodeChar_cons c
    rw [encode_cons, getElem?_append] at h
    split at h
    · rw [hc] at h
      cases i with
      | zero => exact ⟨[], c :: cs, rfl, rfl⟩
      | succ i =>
        rw [all_eq_true.mp hxs b (mem_of_getElem? h)] at hb
        cases hb
    · obtain ⟨ds, es, rfl, hds⟩ := between_of_byte h hb
      exact ⟨c :: ds, es, rfl, by rw [encode_cons, length_append]; omega⟩

variable {s : String} {i j : Nat}

theorem between_of_isInner {b : UInt8} (h : (bytes s)[i]? = some b) (hb : isInner b = false) : Between s i := by
  rw [bytes_eq] at h
  obtain ⟨ds, es, hs, hi⟩ := between_of_byte h hb
  refine ⟨String.ofList ds, String.ofList es, ?_, ?_⟩
  · rw [← String.ofList_append, ← hs, String.ofList_toList]
  · rw [← length_bytes, bytes_eq, String.toList_ofList, hi]

/-- The bytes of a part are those of the text exactly if it is empty or cut out between characters. -/
theorem bytes_ofBytesLossy_iff (hij : i ≤ j) (hj : j ≤ byteLength s) :
    bytes (ofBytesLossy (((bytes s).drop i).take (j - i))) = ((bytes s).drop i).take (j - i) ↔
      i = j ∨ Between s i ∧ Between s j := by
  constructor
  · generalize hr : ofBytesLossy _ = r
    intro h
    rcases Nat.eq_or_lt_of_le hij with he | hlt
    · exact .inl he
    have hi : Between s i := by
      cases hl : r.toList with
      | nil =>
        have hlen := congrArg List.length h
        rw [bytes_eq, hl, length_take, length_drop, length_bytes] at hlen
        simp only [encode, flatMap_nil, length_nil] at hlen
        omega
      | cons c cs =>
        obtain ⟨b, bs, hb, hin, -⟩ := encodeChar_cons c
        refine between_of_isInner ?_ hin
        have h0 := congrArg (·[0]?) h
        rw [bytes_eq, hl, encode_cons, hb] at h0
        rw [getElem?_take, if_pos (by omega), getElem?_drop] at h0
        exact h0.symm
    obtain ⟨t, u, rfl, ht⟩ := hi
    have hu : bytes u = bytes r ++ (bytes u).drop (j - i) := by
      rw [bytes_append, ← ht, ← length_bytes, drop_left] at h
      rw [h, ← ht, ← length_bytes, take_append_drop]
    have hul : u.toList = r.toList ++ decodeFrom .start ((bytes u).drop (j - i)) := by
      rw [← decodeFrom_encode, ← bytes_eq, ← hu]
      exact (congrArg String.toList (ofBytesLossy_bytes u)).symm.trans String.toList_ofList
    refine .inr ⟨⟨t, u, rfl, ht⟩, t ++ r, String.ofList (decodeFrom .start ((bytes u).drop (j - i))), ?_, ?_⟩
    · rw [String.append_assoc, ← String.ofList_toList (s := r), ← String.ofList_append, ← hul, String.ofList_toList]
    · rw [← length_bytes, bytes_append, length_append, length_bytes t, ht, h, length_take, length_drop,
        length_bytes]
      omega
  · intro h
    rcases Nat.eq_or_lt_of_le hij with rfl | hlt
    · rw [Nat.sub_self]
      rfl
    · obtain ⟨⟨t, u, hs, ht⟩, t', u', hs', ht'⟩ := h.resolve_left (Nat.ne_of_lt hlt)
      -- Of two texts at the head of a third the shorter is at the head of the longer.
      have hpre : t.toList <+: t'.toList := by
        have hp : t.toList <+: s.toList := ⟨u.toList, by rw [hs, String.toList_append]⟩
        have hp' : t'.toList <+: s.toList := ⟨u'.toList, by rw [hs', String.toList_append]⟩
        rcases prefix_or_prefix_of_prefix hp hp' with h | ⟨l, hl⟩
        · exact h
        · rw [← ht, ← ht', ← length_bytes, ← length_bytes, bytes_eq t, ← hl, encode_append, bytes_eq, length_append]
            at hlt
          omega
      obtain ⟨l, hl⟩ := hpre
      obtain rfl : t' = t ++ String.ofList l := by
        rw [← String.ofList_toList (s := t'), ← hl, String.ofList_append, String.ofList_toList]
      have hm : ((bytes s).drop i).take (j - i) = bytes (String.ofList l) := by
        have hlen : j - i = (bytes (String.ofList l)).length := by
          rw [← ht', ← ht, ← length_bytes, bytes_append, length_append, length_bytes]
          omega
        rw [hs', bytes_append, bytes_append, append_assoc, ← ht, ← length_bytes, drop_left, length_bytes, ht, hlen,
          take_left]
      rw [hm, ofBytesLossy_bytes]

/-! ## Two parts -/

/-- How many characters begin among the bytes. -/
def heads (bs : List UInt8) : Nat := bs.countP (!isInner ·)

theorem heads_encode (cs : List Char) : heads (encode cs) = cs.length := by
  induction cs with
  | nil => rfl
  | cons c cs ih =>
    obtain ⟨b, bs, hc, hb, hbs⟩ := encodeChar_cons c
    have hz : bs.countP (!isInner ·) = 0 := countP_eq_zero.mpr fun x hx => by simp [all_eq_true.mp hbs x hx]
    rw [heads] at ih
    rw [encode_cons, hc, heads, countP_append, countP_cons, hz, ih, hb]
    exact Nat.add_comm ..

theorem leadRange?_range (h : leadRange? b = some (n, lo, hi)) : 0x80 ≤ lo ∧ hi ≤ 0xBF := by
  unfold leadRange? at h
  iterate 7
    split at h
    · cases h
      decide
  cases h

theorem decodeFirst_of_isInner (h : isInner b = true) : decodeFirst b = ([replacement], .start) := by
  simp only [isInner, Bool.and_eq_true, decide_eq_true_eq, UInt8.le_iff_toNat_le] at h
  have h : 0x80 ≤ b.toNat ∧ b.toNat ≤ 0xBF := h
  have hl := leadRange?_ofNat b.toNat_lt
  rw [UInt8.ofNat_toNat, if_neg (by omega), if_neg (by omega), if_neg (by omega), if_neg (by omega), if_neg (by omega),
    if_neg (by omega), if_neg (by omega)] at hl
  rw [decodeFirst, if_neg (by rw [UInt8.lt_iff_toNat_lt]; exact Nat.not_lt.mpr h.1), hl]

theorem heads_cons (b : UInt8) (bs : List UInt8) : heads (b :: bs) = heads bs + if isInner b then 0 else 1 := by
  rw [heads, countP_cons]
  cases isInner b <;> rfl

/-- Reading gives at least as many characters as begin among the bytes, and one more inside a character. -/
theorem heads_le_decodeFrom (bs : List UInt8) : heads bs ≤ (decodeFrom .start bs).length ∧
    ∀ due lo hi bits, 0x80 ≤ lo → hi ≤ 0xBF → heads bs < (decodeFrom (.inside due lo hi bits) bs).length := by
  induction bs with
  | nil => exact ⟨Nat.le_refl _, fun _ _ _ _ _ _ => Nat.one_pos⟩
  | cons b bs ih =>
    have hone : heads (b :: bs) ≤ heads bs + 1 := by
      rw [heads_cons]
      split <;> omega
    have hfirst : heads (b :: bs) ≤ ((decodeFirst b).1 ++ decodeFrom (decodeFirst b).2 bs).length := by
      refine Nat.le_trans hone ?_
      unfold decodeFirst
      split
      · exact Nat.succ_le_succ ih.1
      · split
        · next hl => exact ih.2 _ _ _ _ (leadRange?_range hl).1 (leadRange?_range hl).2
        · exact Nat.succ_le_succ ih.1
    refine ⟨hfirst, fun due lo hi bits hlo hhi => ?_⟩
    rw [decodeFrom]
    split
    · next hr =>
      have hb : isInner b = true := by
        simp only [isInner, Bool.and_eq_true, decide_eq_true_eq]
        exact ⟨UInt8.le_trans hlo hr.1, UInt8.le_trans hr.2 hhi⟩
      simp only [heads_cons, hb, if_true, Nat.add_zero]
      split
      · exact Nat.lt_succ_of_le ih.1
      · exact ih.2 _ _ _ _ (UInt8.le_refl _) (UInt8.le_refl _)
    · exact Nat.lt_succ_of_le hfirst

/-- The two parts of a text make up the text exactly if it is cut between characters. -/
theorem ofBytesLossy_append_iff (hi : i ≤ byteLength s) :
    ofBytesLossy ((bytes s).take i) ++ ofBytesLossy ((bytes s).drop i) = s ↔ Between s i := by
  constructor
  · intro h
    rcases Nat.eq_or_lt_of_le hi with he | hlt
    · exact ⟨s, "", String.append_empty.symm, he.symm⟩
    rw [← length_bytes] at hlt
    have hb := getElem?_eq_getElem hlt
    have hdrop := drop_eq_getElem_cons hlt
    generalize (bytes s)[i] = b at hb hdrop
    cases hin : isInner b with
    | false => exact between_of_isInner hb hin
    | true =>
      -- The second part begins with a replacement, though no character begins there.
      have hsecond : heads ((bytes s).drop i) < (decodeFrom .start ((bytes s).drop i)).length := by
        rw [hdrop, decodeFrom, decodeFirst_of_isInner hin, heads_cons, hin]
        exact Nat.lt_succ_of_le (heads_le_decodeFrom _).1
      have hfirst := (heads_le_decodeFrom ((bytes s).take i)).1
      have hcount : heads ((bytes s).take i) + heads ((bytes s).drop i) = s.toList.length := by
        rw [heads, heads, ← countP_append, take_append_drop, bytes_eq]
        exact heads_encode _
      have hlen := congrArg (·.toList.length) h
      simp only [String.toList_append, length_append, ofBytesLossy, String.toList_ofList] at hlen
      omega
  · rintro ⟨t, u, rfl, rfl⟩
    rw [← length_bytes, bytes_append, take_left, drop_left, ofBytesLossy_bytes, ofBytesLossy_bytes]

end Goblet.Text
