import Goblet.Machine.Step
import Goblet.Proofs.Store.Windows
import Goblet.Proofs.Text.Bytes

/-!
# Parts of slices and texts

A part that lies within a slice or text can always be taken. It shows the elements of the whole from its first index on,
and the two parts of a text make up the text (`Machine.slice_shows`). A text is cut by its bytes but holds characters,
so for a text both are so exactly if it is cut between characters.
-/

namespace Goblet.Machine

open List Int64 Text

variable {h : Store} {c d v : Value} {s t : String} {i j k n : Nat}

/-- A slice, which may be `nil`, or a text. -/
inductive Sequence (h : Store) : Value → Prop
  | nil : Sequence h .nil
  | slice {w : Window} (hw : h.holds (.slice w) = true) : Sequence h (.slice w)
  | text (s : String) : Sequence h (.str s)

/-- As a sequence, `d` is the part of `c` from `i` up to `j`. -/
def Shows (h : Store) (c d : Value) (i j : Nat) : Prop :=
  length h d = .ok (j - i) ∧ ∀ k < j - i, ∃ v,
    element h d (.int (ofNat k)) = .ok v ∧ element h c (.int (ofNat (i + k))) = .ok v

/-- No character is cut at the index. -/
def Cuttable (c : Value) (i : Nat) : Prop := ∀ s, c = .str s → Text.Between s i

theorem ofNat_nonneg (hk : k < 2 ^ 63) : ¬ofNat k < 0 := by
  rw [lt_iff_toInt_lt, toInt_ofNat_of_lt hk, toInt_zero]
  omega

theorem toNat_toInt_ofNat (hk : k < 2 ^ 63) : (ofNat k).toInt.toNat = k := by
  rw [toInt_ofNat_of_lt hk, Int.toNat_natCast]

theorem bounds_ok {high : Option Int64} {len cap : Nat} (hh : high.getD (ofNat len) = ofNat j) (hij : i ≤ j)
    (hj : j ≤ cap) (hlt : j < 2 ^ 63) : bounds (ofNat i) high len cap = .ok (i, j) := by
  have hi := toInt_ofNat_of_lt (Nat.lt_of_le_of_lt hij hlt)
  simp only [bounds, hh, lt_iff_toInt_lt, toInt_zero, toInt_ofNat_of_lt hlt, hi]
  rw [if_neg (by omega), if_neg (by omega), Int.toNat_natCast, Int.toNat_natCast]

theorem element_slice {w : Window} (hk : k < 2 ^ 63) (hv : h.get? w k = some v) :
    element h (.slice w) (.int (ofNat k)) = .ok v := by
  simp only [element, if_neg (ofNat_nonneg hk), toNat_toInt_ofNat hk, hv]

theorem element_text_iff (hk : k < 2 ^ 63) : element h (.str s) (.int (ofNat k)) = .ok v ↔
    ∃ b, (bytes s)[k]? = some b ∧ v = .int (ofNat b.toNat) := by
  simp only [element, if_neg (ofNat_nonneg hk), toNat_toInt_ofNat hk, byteAt?_eq]
  cases (bytes s)[k]? with
  | none => simp
  | some b => simp [eq_comm]

theorem shows_text_iff (hij : i ≤ j) (hj : j ≤ byteLength s) (hlt : byteLength s < 2 ^ 63) :
    Shows h (.str s) (.str t) i j ↔ bytes t = ((bytes s).drop i).take (j - i) := by
  have hget : ∀ k < j - i, (((bytes s).drop i).take (j - i))[k]? = (bytes s)[i + k]? := fun k hk => by
    rw [getElem?_take, if_pos hk, getElem?_drop]
  have hlen : (((bytes s).drop i).take (j - i)).length = j - i := by
    rw [length_take, length_drop, length_bytes]
    omega
  constructor
  · rintro ⟨hl, he⟩
    have hl : byteLength t = j - i := Except.ok.inj hl
    refine ext_getElem? fun k => ?_
    by_cases hk : k < j - i
    · obtain ⟨v, ht, hs⟩ := he k hk
      obtain ⟨b, hb, rfl⟩ := (element_text_iff (by omega)).mp ht
      obtain ⟨b', hb', hv⟩ := (element_text_iff (by omega)).mp hs
      have hbb : b = b' := by
        have hn := congrArg toInt (Value.int.inj hv)
        simp only [toInt_ofNat_of_lt (Nat.lt_trans (UInt8.toNat_lt _) (by decide : 256 < 2 ^ 63))] at hn
        exact UInt8.toNat_inj.mp (by omega)
      rw [hget k hk, hb, hb', hbb]
    · rw [getElem?_eq_none (by rw [length_bytes]; omega), getElem?_eq_none (by omega)]
  · intro hb
    refine ⟨?_, fun k hk => ?_⟩
    · rw [length, ← length_bytes, hb, hlen]
    · obtain ⟨b, hs⟩ : ∃ b, (bytes s)[i + k]? = some b :=
        ⟨_, getElem?_eq_getElem (by rw [length_bytes]; omega)⟩
      exact ⟨_, (element_text_iff (by omega)).mpr ⟨b, by rw [hb, hget k hk, hs], rfl⟩,
        (element_text_iff (by omega)).mpr ⟨b, hs, rfl⟩⟩

theorem slice_text {high : Option Int64} (hh : high.getD (ofNat (byteLength s)) = ofNat j) (hij : i ≤ j)
    (hj : j ≤ byteLength s) (hlt : byteLength s < 2 ^ 63) : slice h (.str s) (ofNat i) high =
      .ok (.str (ofBytesLossy (((bytes s).drop i).take (j - i)))) := by
  simp only [slice, bounds_ok hh hij hj (Nat.lt_of_le_of_lt hj hlt)]
  rfl

/-- **Slicing.** A part within a slice or text can be taken. It has the elements of the whole exactly if it is empty or
no character is cut, and the parts before and after an index make up a text exactly if no character is cut there. -/
theorem slice_shows (hc : Sequence h c) (hn : length h c = .ok n) (hlt : n < 2 ^ 63) (hij : i ≤ j) (hj : j ≤ n) :
    (∃ d, slice h c (ofNat i) (some (ofNat j)) = .ok d ∧
        (Shows h c d i j ↔ i = j ∨ Cuttable c i ∧ Cuttable c j)) ∧
      ∀ s, c = .str s → ∃ a b r, slice h c 0 (some (ofNat i)) = .ok a ∧ slice h c (ofNat i) none = .ok b ∧
        Value.binary .add a b = .ok r ∧ (r.equals c = .ok true ↔ Cuttable c i) := by
  cases hc with
  | nil =>
    cases hn
    obtain rfl := Nat.le_zero.mp hj
    obtain rfl := Nat.le_zero.mp hij
    exact ⟨⟨.nil, rfl, fun _ => .inl rfl, fun _ => ⟨rfl, fun k hk => absurd hk (Nat.not_lt_zero k)⟩⟩,
      fun s hs => by cases hs⟩
  | @slice w hw =>
    obtain rfl : w.len = n := Except.ok.inj hn
    have hcap : w.off + w.len ≤ (h.backing w).size := (Store.holds_slice.mp hw).2
    have hle : j ≤ h.cap w := by
      rw [Store.cap]
      omega
    have hsub : h.subslice? w i j = some { w with off := w.off + i, len := j - i } := if_pos ⟨hij, hle⟩
    have hnot : ∀ s, Value.slice w ≠ .str s := fun s hs => by cases hs
    refine ⟨⟨.slice { w with off := w.off + i, len := j - i }, ?_, iff_of_true ⟨rfl, fun k hk => ?_⟩ ?_⟩,
      fun s hs => absurd hs (hnot s)⟩
    · simp only [slice, bounds_ok (Option.getD_some ..) hij hle (Nat.lt_of_le_of_lt hj hlt), bind, Except.bind, hsub]
      rfl
    · obtain ⟨v, hv⟩ := Option.isSome_iff_exists.mp (Store.get?_isSome hw (show i + k < w.len by omega))
      refine ⟨v, element_slice (by omega) ?_, element_slice (by omega) hv⟩
      rw [Store.get?_of_lt hk]
      rw [Store.get?_of_lt (show i + k < w.len by omega)] at hv
      rw [← hv, Nat.add_assoc]
    · exact .inr ⟨fun s hs => absurd hs (hnot s), fun s hs => absurd hs (hnot s)⟩
  | text s =>
    obtain rfl : byteLength s = n := Except.ok.inj hn
    have hcut : ∀ k, Cuttable (.str s) k ↔ Text.Between s k := fun k =>
      ⟨fun hk => hk s rfl, fun hk s hs => by cases hs; exact hk⟩
    refine ⟨⟨_, slice_text (Option.getD_some ..) hij hj hlt, ?_⟩, fun s' hs => ?_⟩
    · rw [hcut, hcut, shows_text_iff hij hj hlt, bytes_ofBytesLossy_iff hij hj]
    · cases hs
      refine ⟨_, _, _, slice_text (Option.getD_some ..) (Nat.zero_le i) (Nat.le_trans hij hj) hlt,
        slice_text rfl (Nat.le_trans hij hj) (Nat.le_refl _) hlt, rfl, ?_⟩
      rw [hcut, ← ofBytesLossy_append_iff (Nat.le_trans hij hj), Value.equals]
      simp only [drop_zero, Nat.sub_zero, Except.ok.injEq, beq_iff_eq]
      rw [take_of_length_le (i := byteLength s - i) (Nat.le_of_eq (by rw [length_drop, length_bytes]))]

/-- The three bytes of a character and the letter before it, cut behind the letter and at both ends. -/
theorem slice_shows_euro :
    let s := "a\u20ac"
    Sequence .empty (.str s) ∧ length .empty (.str s) = .ok 4 ∧
      (∃ d, slice .empty (.str s) (ofNat 1) (some (ofNat 4)) = .ok d ∧ Shows .empty (.str s) d 1 4) := by
  intro s
  have hone : Text.Between s 1 := ⟨"a", "\u20ac", by decide +kernel, by decide +kernel⟩
  have hfour : Text.Between s 4 := ⟨s, "", by decide +kernel, by decide +kernel⟩
  have hlen : length .empty (.str s) = .ok 4 := congrArg Except.ok (show byteLength s = 4 by decide +kernel)
  obtain ⟨⟨d, hd, hshows⟩, -⟩ := slice_shows (.text s) hlen (by decide) (show 1 ≤ 4 by decide) (Nat.le_refl 4)
  exact ⟨.text s, hlen, d, hd, hshows.mpr (.inr ⟨fun _ hs => by cases hs; exact hone,
    fun _ hs => by cases hs; exact hfour⟩)⟩

/-- A character of two bytes is cut after the first: the part has three bytes, and the two parts are not the text. -/
theorem slice_inside :
    let s := Value.str "\u00e9"
    length .empty s = .ok 2 ∧ (∃ d, slice .empty s 0 (some 1) = .ok d ∧ length .empty d = .ok 3 ∧
      ¬Shows .empty s d 0 1) ∧
      ∃ a b r, slice .empty s 0 (some 1) = .ok a ∧ slice .empty s 1 none = .ok b ∧ Value.binary .add a b = .ok r ∧
        r.equals s = .ok false := by
  have hthree : byteLength (ofBytesLossy (((bytes "\u00e9").drop 0).take (1 - 0))) = 3 := by decide +kernel
  refine ⟨congrArg Except.ok (show byteLength "\u00e9" = 2 by decide +kernel), ⟨_, rfl, congrArg Except.ok hthree, ?_⟩,
    _, _, _, rfl, rfl, rfl, congrArg Except.ok ?_⟩
  · rintro ⟨hl, -⟩
    exact absurd (hthree.symm.trans (Except.ok.inj hl)) (by decide)
  · decide +kernel

end Goblet.Machine
