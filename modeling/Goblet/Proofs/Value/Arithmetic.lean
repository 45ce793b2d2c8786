import Goblet.Proofs.Scalar.Arithmetic

/-!
# The arithmetic of integers

Operations on integers give what the exact operation gives modulo `2 ^ 64`, and fail exactly for a division by zero and
a shift by a negative number (`Value.binary_int_exact`).
-/

namespace Goblet

open Int64 Scalar

variable {x y : Int64}

namespace Scalar

theorem toInt_shr (x : Int64) (k : Nat) : (ofInt (x.toInt / 2 ^ k)).toInt = x.toInt / 2 ^ k := by
  rw [← toInt_toBitVec, toBitVec_ofInt_div_pow, BitVec.toInt_sshiftRight, Int.shiftRight_eq_div_pow,
    toInt_toBitVec]
  rfl

theorem div_mul_add_mod (x y : Int64) : x / y * y + x % y = x := by
  have h := congrArg ofInt (Int.tdiv_mul_add_tmod x.toInt y.toInt)
  rwa [ofInt_add, ofInt_mul, ofInt_tdiv, ofInt_tmod, ofInt_toInt, ofInt_toInt] at h

theorem toInt_quo (x y : Int64) :
    (x / y).toInt = if x = minValue ∧ y = -1 then -2 ^ 63 else x.toInt.tdiv y.toInt := by
  split
  · next h =>
    rw [h.1, h.2]
    rfl
  · next h =>
    by_cases hx : x = minValue
    · exact toInt_div_of_ne_right _ _ fun hy => h ⟨hx, hy⟩
    · exact toInt_div_of_ne_left _ _ hx

end Scalar

namespace Value

/-- The integer that is equal to an exact result modulo `2 ^ 64`. -/
def Wraps (n : Int) (r : Except ValueError Value) : Prop :=
  ∃ z : Int64, r = .ok (.int z) ∧ z.toInt = n.bmod (2 ^ 64)

theorem wraps_ofInt (n : Int) : Wraps n (.ok (.int (ofInt n))) := ⟨_, rfl, toInt_ofInt⟩

theorem binary_int {op : BinOp} (hc : op.isComparison = false) (x y : Int64) :
    binary op (.int x) (.int y) = (intOp op x y).map .int := by
  simp only [binary, hc, Bool.false_eq_true, if_false]

theorem wraps_of_onInts {o : Operator} {op : BinOp} {n : Int} (ho : BinOp.ofOperator? o = some op)
    (hc : op.isComparison = false) (hn : onInts o x y = .ok (wrap n)) :
    Wraps n (binary op (.int x) (.int y)) := by
  have h := intOp_agrees ho hc x y
  rw [hn] at h
  rw [binary_int hc, show _ = _ from h]
  exact wraps_ofInt n

/-- **Operations on integers are exact modulo `2 ^ 64`.** A quotient is cut toward zero, a remainder has the sign of the
dividend, and a shift may be by any number that is not negative. -/
theorem binary_int_exact (x y : Int64) :
    Wraps (x.toInt + y.toInt) (binary .add (.int x) (.int y)) ∧
      Wraps (x.toInt - y.toInt) (binary .sub (.int x) (.int y)) ∧
      Wraps (x.toInt * y.toInt) (binary .mul (.int x) (.int y)) ∧ Wraps (-x.toInt) (unary .neg (.int x)) ∧
      (y ≠ 0 → ∃ q r : Int64, binary .quo (.int x) (.int y) = .ok (.int q) ∧
      binary .rem (.int x) (.int y) = .ok (.int r) ∧
        q * y + r = x ∧ q.toInt = (if x = minValue ∧ y = -1 then -2 ^ 63 else x.toInt.tdiv y.toInt) ∧
        (0 ≤ x.toInt → 0 ≤ r.toInt) ∧ (x.toInt ≤ 0 → r.toInt ≤ 0) ∧ r.toInt.natAbs < y.toInt.natAbs) ∧
      (0 ≤ y.toInt → Wraps (x.toInt * 2 ^ y.toInt.toNat) (binary .shl (.int x) (.int y)) ∧
        ∃ z : Int64, binary .shr (.int x) (.int y) = .ok (.int z) ∧ z.toInt = x.toInt.fdiv (2 ^ y.toInt.toNat)) ∧
      (∀ op ∈ [BinOp.quo, .rem], (∃ e, binary op (.int x) (.int y) = .error e) ↔ y = 0) ∧
      ∀ op ∈ [BinOp.shl, .shr], (∃ e, binary op (.int x) (.int y) = .error e) ↔ y.toInt < 0 := by
  have hneg : y.toInt < 0 ↔ y < 0 := toInt_lt_zero_iff
  refine ⟨wraps_of_onInts (o := .add) rfl rfl rfl, wraps_of_onInts (o := .sub) rfl rfl rfl,
    wraps_of_onInts (o := .mul) rfl rfl rfl, ?_, ?_, ?_, ?_, ?_⟩
  · have h := wraps_ofInt (-x.toInt)
    rwa [ofInt_neg, ofInt_toInt] at h
  · intro hy
    have hb : y.toInt ≠ 0 := fun h => hy (toInt_eq_zero_iff.mp h)
    refine ⟨x / y, x % y, by rw [binary_int rfl, intOp, if_neg hy]; rfl, by rw [binary_int rfl, intOp, if_neg hy]; rfl,
      div_mul_add_mod x y, toInt_quo x y, ?_⟩
    rw [toInt_mod]
    refine ⟨Int.tmod_nonneg y.toInt, fun ha => ?_, ?_⟩
    · have h := Int.tmod_nonneg y.toInt (Int.neg_nonneg_of_nonpos ha)
      rw [Int.neg_tmod] at h
      exact Int.nonpos_of_neg_nonneg h
    · rw [Int.natAbs_tmod]
      exact Nat.mod_lt _ (Int.natAbs_pos.mpr hb)
  · intro hb
    have hy : ¬y < 0 := fun h => Int.not_le.mpr (hneg.mpr h) hb
    have hpow : (0 : Int) ≤ 2 ^ y.toInt.toNat := Int.pow_nonneg (by decide)
    refine ⟨?_, _, ?_, (toInt_shr x y.toInt.toNat).trans (Int.fdiv_eq_ediv_of_nonneg _ hpow).symm⟩
    · rw [binary_int rfl, intOp, if_neg hy, ← shl_eq hb]
      exact wraps_ofInt _
    · rw [binary_int rfl, intOp, if_neg hy, ← shr_eq hb]
      rfl
  · intro op hop
    simp only [List.mem_cons, List.not_mem_nil, or_false] at hop
    rcases hop with rfl | rfl <;> rw [binary_int rfl] <;> by_cases hy : y = 0 <;> simp [intOp, hy, Except.map]
  · intro op hop
    simp only [List.mem_cons, List.not_mem_nil, or_false] at hop
    rw [hneg]
    rcases hop with rfl | rfl <;> rw [binary_int rfl] <;> by_cases hy : y < 0 <;> simp [intOp, hy, Except.map]

end Value

end Goblet
